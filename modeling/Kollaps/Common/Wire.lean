import Kollaps.Common.Serialize
import Kollaps.Data

/-!
# The messages between an emulation and its reporters

An opcode, and the payload as a text after it.
-/

namespace Kollaps

open Run

variable [Serde FlowConf] [Serde TCConf] [Serde EmulationEvent]

namespace EmulMessage

def opcode2Event (opcode : UInt16) (data : Option String) : Run EmulMessage :=
  match opcode.toNat, data with
  | 0x0001, some data => flowUpdate <$> deserialize data
  | 0x0003, some data => tcInit <$> deserialize data
  | 0x0004, some data => tcUpdate <$> deserialize data
  | 0x0005, _ => pure tcDisconnect
  | 0x0006, _ => pure tcReconnect
  | 0x0007, _ => pure tcTeardown
  | 0x0008, _ => pure socketReady
  | 0x0009, some data => event <$> deserialize data
  | _, _ => .error (notRecognized opcode)

theorem opcode2Event_noPanic (opcode : UInt16) (data : Option String) :
    NoPanic (opcode2Event opcode data) := by
  unfold opcode2Event
  split
  case h_9 => exact noPanic_error.mpr ⟨_, rfl⟩
  all_goals first
    | exact noPanic_pure _
    | exact noPanic_map.mpr (deserialize_noPanic _)

def event2Opcode : EmulMessage → UInt16
  | flowUpdate _ => 0x0001
  | tcInit _ => 0x0003
  | tcUpdate _ => 0x0004
  | tcDisconnect => 0x0005
  | tcReconnect => 0x0006
  | tcTeardown => 0x0007
  | socketReady => 0x0008
  | event _ => 0x0009

/-- Only the first three kinds write a payload. -/
def serializeToBytes (m : EmulMessage) : Bytes :=
  putU16 (event2Opcode m) ++
    match m with
    | flowUpdate a => serialize a
    | tcInit a => serialize a
    | tcUpdate a => serialize a
    | _ => []

def fromBytes (buf : Bytes) : Run EmulMessage := decode opcode2Event buf

instance : ToBytesSerialize EmulMessage := ⟨serializeToBytes, fromBytes⟩

def PayloadRestored : EmulMessage → Prop
  | flowUpdate a => Restored a
  | tcInit a => Restored a
  | tcUpdate a => Restored a
  | event a => Restored a
  | _ => True

/-- The event is not written, and its decoder misses it. -/
theorem fromBytes_event (a : EmulationEvent) :
    fromBytes (serializeToBytes (event a)) = .error (notRecognized 0x0009) :=
  decode_nil opcode2Event 0x0009

theorem fromBytes_serializeToBytes {m : EmulMessage} (h : m.PayloadRestored) (hm : ∀ a, m ≠ event a) :
    fromBytes (serializeToBytes m) = .ok m := by
  cases m with
  | flowUpdate a => exact decode_payload (fun _ => rfl) h
  | tcInit a => exact decode_payload (fun _ => rfl) h
  | tcUpdate a => exact decode_payload (fun _ => rfl) h
  | tcDisconnect => exact decode_nil opcode2Event 0x0005
  | tcReconnect => exact decode_nil opcode2Event 0x0006
  | tcTeardown => exact decode_nil opcode2Event 0x0007
  | socketReady => exact decode_nil opcode2Event 0x0008
  | event a => exact absurd rfl (hm a)

end EmulMessage

end Kollaps
