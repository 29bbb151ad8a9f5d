/-
Byte strings and the fixed-width integer encodings.

`leBytes w x` and `beBytes w x` are the `w`-byte little- and big-endian
encodings of `x` (Rust's `to_le_bytes` and `to_be_bytes`), `leNat` and `beNat`
read them back.  Encoding and reading are inverse to each other in both
directions, so each encoding is injective on the numbers that fit.
-/
import Mathlib.Algebra.Order.Ring.Nat
import Mathlib.Tactic.Ring

/-- A byte string (`&[u8]`, `Vec<u8>`). -/
abbrev Bytes := List UInt8

/-- A byte array of fixed length (`[u8; n]`). -/
abbrev BytesN (n : ℕ) := { bs : Bytes // bs.length = n }

namespace Bytes

/-- The `w`-byte little-endian encoding of `x`. -/
def leBytes : ℕ → ℕ → Bytes
  | 0, _ => []
  | w + 1, x => UInt8.ofNat (x % 256) :: leBytes w (x / 256)

/-- The number a byte string encodes, least significant byte first. -/
def leNat : Bytes → ℕ
  | [] => 0
  | b :: bs => b.toNat + 256 * leNat bs

/-- The `w`-byte big-endian encoding of `x`. -/
def beBytes (w x : ℕ) : Bytes := (leBytes w x).reverse

/-- The number a byte string encodes, most significant byte first. -/
def beNat (bs : Bytes) : ℕ := leNat bs.reverse

@[simp] theorem length_leBytes (w x : ℕ) : (leBytes w x).length = w := by
  induction w generalizing x with
  | zero => rfl
  | succ w ih => simp [leBytes, ih]

@[simp] theorem length_beBytes (w x : ℕ) : (beBytes w x).length = w := by
  simp [beBytes]

theorem leNat_lt (bs : Bytes) : leNat bs < 256 ^ bs.length := by
  induction bs with
  | nil => simp [leNat]
  | cons b bs ih =>
    have hb := b.toNat_lt
    simp only [leNat, List.length_cons, Nat.pow_succ]
    omega

theorem leNat_append (bs cs : Bytes) :
    leNat (bs ++ cs) = leNat bs + 256 ^ bs.length * leNat cs := by
  induction bs with
  | nil => simp [leNat]
  | cons b bs ih =>
    rw [List.cons_append, leNat, ih, leNat, List.length_cons, Nat.pow_succ]
    ring

theorem leNat_eq_zero {bs : Bytes} : leNat bs = 0 ↔ bs.all (· == 0) := by
  induction bs with
  | nil => simp [leNat]
  | cons b bs ih =>
    have hb : b.toNat = 0 ↔ b = 0 := by rw [← UInt8.toNat_inj]; rfl
    rw [leNat, Nat.add_eq_zero_iff, hb, List.all_cons, Bool.and_eq_true, ← ih]
    simp

theorem leNat_leBytes {w x : ℕ} (h : x < 256 ^ w) : leNat (leBytes w x) = x := by
  induction w generalizing x with
  | zero => simp [leBytes, leNat] at h ⊢; exact h.symm
  | succ w ih =>
    have hx : x / 256 < 256 ^ w := by
      rw [Nat.pow_succ] at h
      omega
    simp only [leBytes, leNat, ih hx]
    have hb : (UInt8.ofNat (x % 256)).toNat = x % 256 := by
      rw [UInt8.toNat_ofNat']
      omega
    rw [hb]
    omega

theorem leBytes_leNat (bs : Bytes) : leBytes bs.length (leNat bs) = bs := by
  induction bs with
  | nil => rfl
  | cons b bs ih =>
    have hb := b.toNat_lt
    have hmod : (b.toNat + 256 * leNat bs) % 256 = b.toNat := by omega
    have hdiv : (b.toNat + 256 * leNat bs) / 256 = leNat bs := by omega
    simp only [List.length_cons, leBytes, leNat, hmod, hdiv, ih]
    simp

theorem beNat_beBytes {w x : ℕ} (h : x < 256 ^ w) : beNat (beBytes w x) = x := by
  simp [beNat, beBytes, leNat_leBytes h]

theorem beBytes_beNat (bs : Bytes) : beBytes bs.length (beNat bs) = bs := by
  have := leBytes_leNat bs.reverse
  rw [List.length_reverse] at this
  simp [beBytes, beNat, this]

/-- Numbers that fit are determined by their big-endian encoding. -/
theorem beBytes_inj {w x y : ℕ} (hx : x < 256 ^ w) (hy : y < 256 ^ w)
    (h : beBytes w x = beBytes w y) : x = y := by
  rw [← beNat_beBytes hx, h, beNat_beBytes hy]

/-- Byte strings of one length are determined by the number they encode. -/
theorem leNat_inj {bs cs : Bytes} (hl : bs.length = cs.length)
    (h : leNat bs = leNat cs) : bs = cs := by
  rw [← leBytes_leNat bs, h, hl, leBytes_leNat]

theorem beNat_inj {bs cs : Bytes} (hl : bs.length = cs.length)
    (h : beNat bs = beNat cs) : bs = cs := by
  rw [← beBytes_beNat bs, h, hl, beBytes_beNat]

/-- `bs[i..i + m]` -/
def sub {n : ℕ} (bs : BytesN n) (i m : ℕ) (h : i + m ≤ n) : BytesN m :=
  ⟨(bs.1.drop i).take m, by simp [bs.2]; omega⟩

/-- A `w`-byte number as a fixed-length array. -/
def leArray (w x : ℕ) : BytesN w := ⟨leBytes w x, length_leBytes w x⟩

@[simp] theorem leArray_val (w x : ℕ) : (leArray w x).1 = leBytes w x := rfl

/-- Strings that begin with arrays of one length are equal part by part. -/
theorem append_inj {n : ℕ} {bs cs : BytesN n} {xs ys : Bytes} (h : bs.1 ++ xs = cs.1 ++ ys) :
    bs = cs ∧ xs = ys := by
  obtain ⟨hbs, hxs⟩ := List.append_inj h (bs.2.trans cs.2.symm)
  exact ⟨Subtype.ext hbs, hxs⟩

end Bytes
