/-
The data of the Double Ratchet (`src/ratchet.rs`): errors, limits, headers,
session states, and the primitives the code takes from other crates.

The symmetric keys of the source (`[u8; 32]`) are an arbitrary type `K`, so
that the same definitions run on 32-byte strings and on symbolic keys; public
keys, private keys, headers and messages are byte strings as in the source.
What a call reads from its surroundings (the operating system's randomness,
the clock, the iteration order of a hash map) is the argument `CallEnv`.
-/
import Mathlib.Data.List.AList
import Mathlib.Data.Finset.Basic
import LibsignalDezire.Lib.Bytes
import LibsignalDezire.Lib.Exec

namespace Ratchet

/-- Error types for Double Ratchet operations. -/
inductive RatchetError where
  | invalidKey
  | decryptionFailed
  | oldMessageKeysLimitReached
  | duplicateMessage
  | invalidHeader
  | headerDecryptionFailed
  | counterOverflow
  | adTooLarge
  | invalidState
  | tooManyMessages
  deriving DecidableEq, Repr

def maxSkip : UInt32 := 1000
def maxSkippedKeys : ℕ := 2000
def maxAdSize : ℕ := 64 * 1024
def maxReceivedTracking : ℕ := 10000

/-- An ASCII byte string literal of the source. -/
def ascii (s : String) : Bytes := s.toList.map fun c => UInt8.ofNat c.toNat

def hkdfInfoRoot : Bytes := ascii "Signal-DoubleRatchet-Root"
def headerInitiatorLabel : Bytes := ascii "Signal-Header-Initiator-v1"
def headerResponderLabel : Bytes := ascii "Signal-Header-Responder-v1"
def messageKeyLabel : Bytes := ascii "Signal-DoubleRatchet-Encrypt"

/-- X25519 public and private keys, `x25519_dalek::{PublicKey, StaticSecret}`. -/
abbrev DhPublicKey := BytesN 32
abbrev DhPrivateKey := BytesN 32

/-- A clock reading, in nanoseconds relative to the Unix epoch. -/
abbrev SystemTime := ℤ

/-- What the ratchet calls in other crates. -/
structure Primitives (K : Type) where
  /-- `PublicKey::from(&secret)` -/
  x25519PublicKey : DhPrivateKey → DhPublicKey
  /-- `secret.diffie_hellman(&public)` -/
  x25519DiffieHellman : DhPrivateKey → DhPublicKey → K
  /-- HMAC-SHA256 keyed with a chain key. -/
  hmacSha256 : K → Bytes → K
  /-- HKDF-SHA512 of a salt, key material and info: the 32-byte block of the
  output at the given index. -/
  hkdfSha512 : K → K → Bytes → ℕ → K
  /-- HKDF-SHA256 without a salt: 32 bytes of output. -/
  hkdfSha256 : K → Bytes → K
  /-- HKDF-SHA256 with the all-zero salt: 80 bytes of output. -/
  hkdfSha256Okm : K → Bytes → BytesN 80
  /-- HMAC-SHA256 keyed with an authentication key. -/
  hmacSha256Tag : BytesN 32 → Bytes → BytesN 32
  /-- AES-256-CBC with PKCS#7 padding: key, IV, plaintext. -/
  aes256CbcEncrypt : BytesN 32 → BytesN 16 → Bytes → Bytes
  aes256CbcDecrypt : BytesN 32 → BytesN 16 → Bytes → Option Bytes
  /-- AES-256-GCM: key, nonce, plaintext. -/
  aes256GcmSeal : K → Bytes → Bytes → Bytes
  aes256GcmOpen : K → Bytes → Bytes → Option Bytes

/-- The longest plaintext the `aes-gcm` crate encrypts, in bytes. -/
def gcmMaxPlaintext : ℕ := 2 ^ 36

/-- `cipher.encrypt(nonce, plaintext)` of the `aes-gcm` crate: it refuses only
plaintexts over its length limit. -/
def Primitives.aes256GcmEncrypt {K : Type} (P : Primitives K) (key : K)
    (nonce plaintext : Bytes) : Option Bytes :=
  if gcmMaxPlaintext < plaintext.length then none
  else some (P.aes256GcmSeal key nonce plaintext)

/-! ### Integers and slices -/

/-- How the crate was built: `dev` traps on integer overflow, `release` wraps
around. -/
inductive Build where
  | dev
  | release
  deriving DecidableEq, Repr

/-- `x + y` on `u32`. -/
def Build.add {ε : Type} (b : Build) (x y : UInt32) : Outcome ε UInt32 :=
  if x.toNat + y.toNat < 2 ^ 32 then .ok (x + y)
  else match b with
    | .dev => .panic
    | .release => .ok (x + y)

/-- `x.checked_add(y)` on `u32`. -/
def checkedAdd32 (x y : UInt32) : Option UInt32 :=
  if x.toNat + y.toNat < 2 ^ 32 then some (x + y) else none

/-- `x.checked_add(y)` on `u64`. -/
def checkedAdd64 (x y : UInt64) : Option UInt64 :=
  if x.toNat + y.toNat < 2 ^ 64 then some (x + y) else none

/-- `&bytes[i..j]`: aborts when the range is not inside the slice. -/
def slice {ε : Type} (bytes : Bytes) (i j : ℕ) : Outcome ε Bytes :=
  if i ≤ j ∧ j ≤ bytes.length then .ok ((bytes.take j).drop i) else .panic

/-- `dst.copy_from_slice(src)` into a fresh array of length `n`: aborts when
the lengths differ. -/
def copyFromSlice {ε : Type} (n : ℕ) (src : Bytes) : Outcome ε (BytesN n) :=
  if h : src.length = n then .ok ⟨src, h⟩ else .panic

theorem Build.add_of_lt {ε : Type} {b : Build} {x y : UInt32}
    (h : x.toNat + y.toNat < 2 ^ 32) : (b.add x y : Outcome ε UInt32) = .ok (x + y) :=
  if_pos h

/-- An addition that returns gives the sum modulo `2 ^ 32`, in either build. -/
theorem Build.add_eq_ok {ε : Type} {b : Build} {x y z : UInt32}
    (h : (b.add x y : Outcome ε UInt32) = .ok z) : z = x + y := by
  unfold Build.add at h
  split at h
  · cases h
    rfl
  · cases b
    · cases h
    · cases h
      rfl

theorem toNat_add_of_lt {x y : UInt32} (h : x.toNat + y.toNat < 2 ^ 32) :
    (x + y).toNat = x.toNat + y.toNat := by
  rw [UInt32.toNat_add, Nat.mod_eq_of_lt h]

theorem checkedAdd32_one_eq_some {x y : UInt32} :
    checkedAdd32 x 1 = some y ↔ y.toNat = x.toNat + 1 := by
  have hy := y.toNat_lt
  rw [checkedAdd32]
  split
  case isTrue h =>
    have hx : (x + 1).toNat = x.toNat + 1 := toNat_add_of_lt h
    rw [Option.some_inj]
    constructor
    · rintro rfl
      exact hx
    · intro h'
      exact UInt32.toNat_inj.mp (hx.trans h'.symm)
  case isFalse h =>
    have h1 : (1 : UInt32).toNat = 1 := rfl
    constructor
    · intro h'
      cases h'
    · intro h'
      omega

theorem checkedAdd32_one_eq_none {x : UInt32} :
    checkedAdd32 x 1 = none ↔ x.toNat = 2 ^ 32 - 1 := by
  have hx := x.toNat_lt
  have h1 : (1 : UInt32).toNat = 1 := rfl
  rw [checkedAdd32]
  split <;> simp <;> omega

theorem checkedAdd32_one_of_lt {x : UInt32} (h : x.toNat < 2 ^ 32 - 1) :
    ∃ y, checkedAdd32 x 1 = some y ∧ y.toNat = x.toNat + 1 := by
  cases hy : checkedAdd32 x 1 with
  | some y => exact ⟨y, rfl, checkedAdd32_one_eq_some.mp hy⟩
  | none =>
    have := checkedAdd32_one_eq_none.mp hy
    omega

theorem checkedAdd64_one_eq_some {x y : UInt64} (h : checkedAdd64 x 1 = some y) :
    y.toNat = x.toNat + 1 := by
  have h1 : (1 : UInt64).toNat = 1 := rfl
  rw [checkedAdd64] at h
  split at h
  case isTrue hlt =>
    cases h
    rw [UInt64.toNat_add, Nat.mod_eq_of_lt hlt, h1]
  case isFalse => cases h

theorem checkedAdd64_one_eq_none {x : UInt64} :
    checkedAdd64 x 1 = none ↔ x.toNat = 2 ^ 64 - 1 := by
  have hx := x.toNat_lt
  have h1 : (1 : UInt64).toNat = 1 := rfl
  rw [checkedAdd64]
  split <;> simp <;> omega

@[simp] theorem slice_eq {ε : Type} {bytes : Bytes} {i j : ℕ} (hij : i ≤ j)
    (hj : j ≤ bytes.length) :
    (slice bytes i j : Outcome ε Bytes) = .ok ((bytes.take j).drop i) := by
  rw [slice, if_pos ⟨hij, hj⟩]

theorem copyFromSlice_eq {ε : Type} {n : ℕ} {src : Bytes} (h : src.length = n) :
    (copyFromSlice n src : Outcome ε (BytesN n)) = .ok ⟨src, h⟩ := by
  rw [copyFromSlice, dif_pos h]

/-! ### Headers -/

/-- The header sent with every message, before encryption. -/
structure RatchetHeader where
  dhPub : DhPublicKey
  pn : UInt32
  n : UInt32
  deriving DecidableEq

namespace RatchetHeader

/-- `dh_pub (32) || pn (4, be) || n (4, be)` -/
def toBytes (h : RatchetHeader) : Bytes :=
  h.dhPub.1 ++ Bytes.beBytes 4 h.pn.toNat ++ Bytes.beBytes 4 h.n.toNat

def fromBytes (bytes : Bytes) : Outcome RatchetError RatchetHeader :=
  if bytes.length ≠ 32 + 4 + 4 then .err .invalidHeader
  else do
    let dhPub ← slice bytes 0 32 >>= copyFromSlice 32
    let pnBytes ← slice bytes 32 36 >>= copyFromSlice 4
    let nBytes ← slice bytes 36 40 >>= copyFromSlice 4
    pure { dhPub, pn := UInt32.ofNat (Bytes.beNat pnBytes.1),
           n := UInt32.ofNat (Bytes.beNat nBytes.1) }

@[simp] theorem length_toBytes (h : RatchetHeader) : h.toBytes.length = 40 := by
  simp [toBytes, h.dhPub.2]

theorem ofNat_beNat_beBytes (x : UInt32) :
    UInt32.ofNat (Bytes.beNat (Bytes.beBytes 4 x.toNat)) = x := by
  rw [Bytes.beNat_beBytes (by have := x.toNat_lt; omega)]
  simp

/-- Reading back a serialised header gives the header. -/
theorem fromBytes_toBytes (h : RatchetHeader) : fromBytes h.toBytes = .ok h := by
  have hlen := length_toBytes h
  have hdh : h.dhPub.1.length = 32 := h.dhPub.2
  have h1 : (h.toBytes.take 32).drop 0 = h.dhPub.1 := by
    simp [toBytes, List.append_assoc, hdh]
  have h2 : (h.toBytes.take 36).drop 32 = Bytes.beBytes 4 h.pn.toNat := by
    simp [toBytes, List.append_assoc, List.take_append, hdh]
  have h3 : (h.toBytes.take 40).drop 36 = Bytes.beBytes 4 h.n.toNat := by
    rw [List.take_of_length_le (by omega), toBytes,
      List.drop_append_of_le_length (by simp [hdh])]
    simp [hdh]
  rw [fromBytes, if_neg (by omega), slice_eq (by omega) (by omega),
    slice_eq (by omega) (by omega), slice_eq (by omega) (by omega), h1, h2, h3]
  simp only [Outcome.ok_bind, copyFromSlice_eq hdh,
    copyFromSlice_eq (Bytes.length_beBytes 4 _), ofNat_beNat_beBytes]
  rfl

theorem beBytes_ofNat_beNat {bs : Bytes} (h : bs.length = 4) :
    Bytes.beBytes 4 (UInt32.ofNat (Bytes.beNat bs)).toNat = bs := by
  have hlt := Bytes.leNat_lt bs.reverse
  rw [List.length_reverse, h] at hlt
  have hnat : (UInt32.ofNat (Bytes.beNat bs)).toNat = Bytes.beNat bs :=
    UInt32.toNat_ofNat_of_lt' hlt
  rw [hnat, ← h, Bytes.beBytes_beNat]

/-- Every byte string of the length of a header is one. -/
theorem exists_of_length {bytes : Bytes} (hlen : bytes.length = 40) :
    ∃ h, fromBytes bytes = .ok h ∧ h.toBytes = bytes := by
  have h1 : ((bytes.take 32).drop 0).length = 32 := by simp [hlen]
  have h2 : ((bytes.take 36).drop 32).length = 4 := by simp [hlen]
  have h3 : ((bytes.take 40).drop 36).length = 4 := by simp [hlen]
  refine ⟨{ dhPub := ⟨_, h1⟩
            pn := UInt32.ofNat (Bytes.beNat ((bytes.take 36).drop 32))
            n := UInt32.ofNat (Bytes.beNat ((bytes.take 40).drop 36)) }, ?_, ?_⟩
  · rw [fromBytes, if_neg (by omega), slice_eq (by omega) (by omega),
      slice_eq (by omega) (by omega), slice_eq (by omega) (by omega)]
    simp only [Outcome.ok_bind, copyFromSlice_eq h1, copyFromSlice_eq h2, copyFromSlice_eq h3]
    rfl
  · -- the three ranges of the layout make up the string
    rw [toBytes, beBytes_ofNat_beNat h2, beBytes_ofNat_beNat h3]
    dsimp only
    have hfirst : (bytes.take 32).drop 0 ++ (bytes.take 36).drop 32 = bytes.take 36 := by
      have htake : (bytes.take 36).take 32 = bytes.take 32 := List.take_take
      rw [List.drop_zero, ← htake, List.take_append_drop]
    rw [hfirst, List.take_of_length_le (i := 40) hlen.le, List.take_append_drop]

theorem fromBytes_of_length_ne {bytes : Bytes} (hlen : bytes.length ≠ 40) :
    fromBytes bytes = .err .invalidHeader :=
  if_pos hlen

/-- A byte string parses exactly to the header it is the serialisation of. -/
theorem fromBytes_eq_ok_iff {bytes : Bytes} {h : RatchetHeader} :
    fromBytes bytes = .ok h ↔ bytes = h.toBytes := by
  constructor
  · intro hok
    have hlen : bytes.length = 40 := by
      by_contra hne
      rw [fromBytes_of_length_ne hne] at hok
      cases hok
    obtain ⟨h', hok', hbytes⟩ := exists_of_length hlen
    rw [hok] at hok'
    cases hok'
    exact hbytes.symm
  · rintro rfl
    exact fromBytes_toBytes h

/-- Parsing never aborts: the slices it takes are inside the checked length. -/
theorem fromBytes_returns (bytes : Bytes) : (fromBytes bytes).Returns := by
  by_cases hlen : bytes.length = 40
  · obtain ⟨h, hok, -⟩ := exists_of_length hlen
    rw [hok]
    simp
  · rw [fromBytes_of_length_ne hlen]
    simp

end RatchetHeader

/-! ### Session states -/

/-- A skipped message key with its timestamp. -/
structure SkippedKey (K : Type) where
  ofKey ::
  mk : K
  timestamp : SystemTime

/-- `HashMap<([u8; 32], u32), SkippedKey>`; the order of its entries is not
part of its meaning (`HashOrder`). -/
abbrev SkippedKeyMap (K : Type) := AList fun _ : K × UInt32 => SkippedKey K

/-- An iteration order of a hash map or hash set with keys in `κ`. -/
structure HashOrder (κ : Type) where
  order : List κ → List κ
  perm : ∀ l, (order l).Perm l

/-- What one call reads from its surroundings: the private key `OsRng` draws,
the readings of `SystemTime::now()` (of the first and of the second call of
`skip_message_keys`, in order) and the iteration order of `mkskipped`. -/
structure CallEnv (K : Type) where
  freshSecret : DhPrivateKey
  clock : ℕ → ℕ → SystemTime
  hashOrder : HashOrder (K × UInt32)

/-- The Double Ratchet session state. -/
structure RatchetState (K : Type) where
  dhPair : DhPrivateKey × DhPublicKey
  dhRemote : Option DhPublicKey
  rk : K
  ckS : Option K
  ckR : Option K
  /-- Sending and receiving header keys, and those after the next DH ratchet. -/
  hkS : Option K
  hkR : Option K
  nhkS : K
  nhkR : K
  /-- Sending and receiving message numbers, length of the previous sending chain. -/
  ns : UInt32
  nr : UInt32
  pn : UInt32
  mkskipped : SkippedKeyMap K
  headerNonceCounter : UInt64
  isSender : Bool
  receivedMessages : Finset (DhPublicKey × UInt32)

end Ratchet
