import LibsignalDezire.Lib.Machine
import LibsignalDezire.Lib.Family
import LibsignalDezire.Lib.Simulation
import LibsignalDezire.Lib.Relational
import LibsignalDezire.Lib.Iterate
import LibsignalDezire.Lib.Derivation
import LibsignalDezire.Lib.Newest
import LibsignalDezire.Lib.Heap
import LibsignalDezire.Ratchet.Crypto
import LibsignalDezire.Ratchet.Symbolic
import LibsignalDezire.Ratchet.Skipped
import LibsignalDezire.Ratchet.Session
import LibsignalDezire.Ratchet.Effects
import LibsignalDezire.Ratchet.Atomic
import LibsignalDezire.Ratchet.Search
import LibsignalDezire.Ratchet.Sealing
import LibsignalDezire.Ratchet.Saved
import LibsignalDezire.Ratchet.Counters
import LibsignalDezire.Ratchet.StoredKeys
import LibsignalDezire.Ratchet.Calls
import LibsignalDezire.Ratchet.Presence
import LibsignalDezire.Ratchet.Eviction
import LibsignalDezire.Ratchet.MapOps
import LibsignalDezire.Ratchet.Survival
import LibsignalDezire.Ratchet.Restored
import LibsignalDezire.Session.Schedule
import LibsignalDezire.Session.Run
import LibsignalDezire.Session.Nonces
import LibsignalDezire.Session.Sync
import LibsignalDezire.Session.Receive
import LibsignalDezire.Session.Record
import LibsignalDezire.Session.Agreement
import LibsignalDezire.Session.Forgeries
import LibsignalDezire.Session.KeySchedule
import LibsignalDezire.Session.InOrder
import LibsignalDezire.Session.Replay
import LibsignalDezire.Session.PreviousChain
import LibsignalDezire.Session.Delivery
import LibsignalDezire.Session.NothingLost
import LibsignalDezire.Session.Duplicates
import LibsignalDezire.Session.Gaps
import LibsignalDezire.Session.Confluence
import LibsignalDezire.Session.LongRun
import LibsignalDezire.Session.ForwardSecrecy
import LibsignalDezire.Session.BreakIn
import LibsignalDezire.Session.Provenance
import LibsignalDezire.Session.World
import LibsignalDezire.Session.Exchange
import LibsignalDezire.Session.Refinement
import LibsignalDezire.Session.Conversation
import LibsignalDezire.Session.Strangers
import LibsignalDezire.Curve.Order
import LibsignalDezire.Curve.Basic
import LibsignalDezire.Curve.Utils
import LibsignalDezire.Curve.Cyclic
import LibsignalDezire.Curve.VXEdDSA
import LibsignalDezire.Curve.X3DH
import LibsignalDezire.Curve.Untrusted
import LibsignalDezire.Curve.Outcomes
import LibsignalDezire.Curve.Binding
import LibsignalDezire.Curve.SharedSecret
import LibsignalDezire.Ffi.Ratchet
import LibsignalDezire.Ffi.Contract
import LibsignalDezire.Ffi.Frame
import LibsignalDezire.Ffi.Session
import LibsignalDezire.Ffi.X3DH
import LibsignalDezire.Jni.Ratchet
import LibsignalDezire.Jni.Contract
import LibsignalDezire.Jni.X3DH
import LibsignalDezire.Protocol.Handshake
import LibsignalDezire.Jni.Session
import LibsignalDezire.Protocol.Platforms
import LibsignalDezire.Protocol.Devices
