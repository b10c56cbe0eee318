import Kollaps.Cmanager.Basic
import Kollaps.Common.Wire

/-!
# The messages between the controllers

All variants of `Event`, with the texts and durations that they carry on the wire.
-/

namespace Kollaps

open Run Cgraph

namespace Cmanager

inductive WireCJQResponseKind where
  | accepted (leader : ClusterNodeInfo × String)
  | wait (duration : Duration)
deriving DecidableEq

/-- `Event`, as it is sent. -/
inductive WireEvent where
  | cGraphUpdate (graph : WCGraph)
  | cGraphGet
  | cGraphSend (graph : WCGraph)
  | cjqResponse (kind : WireCJQResponseKind)
  | cjqRequest (info : ClusterNodeInfo)
  | cjqRetry
  | cjqAbort
  | cHeartbeat (beat : ClusterNodeInfo × String)
  | cHeartbeatCheck
  | cHeartbeatReset
  | nodeFailure (info : ClusterNodeInfo)
  | pClient
  | pServer (info : ClusterNodeInfo)
deriving DecidableEq

section

variable [Serde WCGraph] [Serde WireCJQResponseKind] [Serde ClusterNodeInfo]
  [Serde (ClusterNodeInfo × String)]

namespace WireEvent

def opcode2Event (opcode : UInt16) (data : Option String) : Run WireEvent :=
  match opcode.toNat, data with
  | 0x0000, some data => cGraphUpdate <$> deserialize data
  | 0x0001, _ => pure cGraphGet
  | 0x0002, some data => cjqResponse <$> deserialize data
  | 0x0003, some data => cjqRequest <$> deserialize data
  | 0x0004, _ => pure cjqRetry
  | 0x0005, some data => cHeartbeat <$> deserialize data
  | 0x0006, _ => pure pClient
  | 0x0007, some data => pServer <$> deserialize data
  | 0x0009, some data => cGraphSend <$> deserialize data
  | 0x000A, some data => nodeFailure <$> deserialize data
  | 0x000B, _ => pure cHeartbeatCheck
  | 0x000C, _ => pure cHeartbeatReset
  | 0x000D, _ => pure cjqAbort
  | _, _ => .error (notRecognized opcode)

theorem opcode2Event_noPanic (opcode : UInt16) (data : Option String) :
    NoPanic (opcode2Event opcode data) := by
  unfold opcode2Event
  split
  case h_14 => exact noPanic_error.mpr ⟨_, rfl⟩
  all_goals first
    | exact noPanic_pure _
    | exact noPanic_map.mpr (deserialize_noPanic _)

def event2Opcode : WireEvent → UInt16
  | cGraphUpdate _ => 0x0000
  | cGraphGet => 0x0001
  | cjqResponse _ => 0x0002
  | cjqRequest _ => 0x0003
  | cjqRetry => 0x0004
  | cHeartbeat _ => 0x0005
  | pClient => 0x0006
  | pServer _ => 0x0007
  | cGraphSend _ => 0x0009
  | nodeFailure _ => 0x000A
  | cHeartbeatCheck => 0x000B
  | cHeartbeatReset => 0x000C
  | cjqAbort => 0x000D

def serializeToBytes (e : WireEvent) : Bytes :=
  putU16 (event2Opcode e) ++
    match e with
    | cGraphUpdate a => serialize a
    | cjqResponse a => serialize a
    | cjqRequest a => serialize a
    | pServer a => serialize a
    | cGraphSend a => serialize a
    | nodeFailure a => serialize a
    | cHeartbeat a => serialize a
    | _ => []

def fromBytes (buf : Bytes) : Run WireEvent := decode opcode2Event buf

instance : ToBytesSerialize WireEvent := ⟨serializeToBytes, fromBytes⟩

/-- `serde_json` restores what the event carries. -/
def PayloadRestored : WireEvent → Prop
  | cGraphUpdate a => Restored a
  | cjqResponse a => Restored a
  | cjqRequest a => Restored a
  | pServer a => Restored a
  | cGraphSend a => Restored a
  | nodeFailure a => Restored a
  | cHeartbeat a => Restored a
  | _ => True

theorem fromBytes_serializeToBytes {e : WireEvent} (h : e.PayloadRestored) :
    fromBytes (serializeToBytes e) = .ok e := by
  cases e with
  | cGraphUpdate a => exact decode_payload (fun _ => rfl) h
  | cGraphGet => exact decode_nil opcode2Event 0x0001
  | cGraphSend a => exact decode_payload (fun _ => rfl) h
  | cjqResponse a => exact decode_payload (fun _ => rfl) h
  | cjqRequest a => exact decode_payload (fun _ => rfl) h
  | cjqRetry => exact decode_nil opcode2Event 0x0004
  | cjqAbort => exact decode_nil opcode2Event 0x000D
  | cHeartbeat a => exact decode_payload (fun _ => rfl) h
  | cHeartbeatCheck => exact decode_nil opcode2Event 0x000B
  | cHeartbeatReset => exact decode_nil opcode2Event 0x000C
  | nodeFailure a => exact decode_payload (fun _ => rfl) h
  | pClient => exact decode_nil opcode2Event 0x0006
  | pServer a => exact decode_payload (fun _ => rfl) h

end WireEvent

variable [Serde FlowConf] [Serde TCConf] [Serde EmulationEvent]

/-- Every event of a controller survives the wire, and a message of an emulation does so exactly
when it is not a scheduled event. -/
theorem survives_wire {e : WireEvent} {m : EmulMessage} (he : e.PayloadRestored) (hm : m.PayloadRestored) :
    WireEvent.fromBytes e.serializeToBytes = .ok e ∧
      (EmulMessage.fromBytes m.serializeToBytes = .ok m ↔ ∀ a, m ≠ .event a) := by
  refine ⟨WireEvent.fromBytes_serializeToBytes he, fun h a hma => ?_,
    EmulMessage.fromBytes_serializeToBytes hm⟩
  rw [hma, EmulMessage.fromBytes_event] at h
  cases h

/-- The decoders of the events and messages panic exactly where there is no opcode, or where no text
follows it, and the default decoder where the bytes are no text. -/
theorem decoders_never_panic_iff {α : Type} [Serde α] (buf : Bytes) :
    (NoPanic (WireEvent.fromBytes buf) ↔ 2 ≤ buf.length ∧ Utf8 (buf.drop 2)) ∧
      (NoPanic (EmulMessage.fromBytes buf) ↔ 2 ≤ buf.length ∧ Utf8 (buf.drop 2)) ∧
      (NoPanic ((ToBytesSerialize.default (α := α)).fromBytes buf) ↔ Utf8 buf) :=
  ⟨decode_noPanic WireEvent.opcode2Event_noPanic, decode_noPanic EmulMessage.opcode2Event_noPanic,
    default_fromBytes_noPanic⟩

end

@[reducible] def noSerde (α : Type) : Serde α := ⟨fun _ => "", fun _ => none⟩

section

local instance unreadable (α : Type) : Serde α := noSerde α

/-- Datagrams of no byte, of one byte, and of an opcode and a byte that no text has. -/
theorem decoders_panic :
    WireEvent.fromBytes [] = .error .index ∧ EmulMessage.fromBytes [0x00] = .error .index ∧
      WireEvent.fromBytes [0x00, 0x01, 0xFF] = .error .unwrap ∧
      EmulMessage.fromBytes [0x00, 0x05, 0xFF] = .error .unwrap ∧
      (ToBytesSerialize.default (α := ClusterNodeInfo)).fromBytes [0xFF] = .error .unwrap ∧
      ¬ (∀ buf, NoPanic (WireEvent.fromBytes buf)) ∧ ¬ (∀ buf, NoPanic (EmulMessage.fromBytes buf)) ∧
      ¬ ∀ buf, NoPanic ((ToBytesSerialize.default (α := ClusterNodeInfo)).fromBytes buf) := by
  have hevent : WireEvent.fromBytes [] = .error .index := rfl
  have hmessage : EmulMessage.fromBytes [0x00] = .error .index := rfl
  have hdefault :
    (ToBytesSerialize.default (α := ClusterNodeInfo)).fromBytes [0xFF] = .error .unwrap := by decide
  refine ⟨hevent, hmessage, by decide, by decide, hdefault, fun h => ?_, fun h => ?_, fun h => ?_⟩
  · obtain ⟨message, he⟩ := h [] _ hevent
    cases he
  · obtain ⟨message, he⟩ := h [0x00] _ hmessage
    cases he
  · obtain ⟨message, he⟩ := h [0xFF] _ hdefault
    cases he

end

/-! ## A request and two messages -/

@[reducible] def demoSerde {α : Type} [DecidableEq α] (a : α) (text : String) : Serde α :=
  ⟨fun b => if b = a then text else "", fun t => if t = text then some a else none⟩

theorem demoSerde_restored {α : Type} [DecidableEq α] (a : α) {text : String} (h : text ≠ "") :
    @Restored α (demoSerde a text) a := by
  refine @Restored.mk α (demoSerde a text) a ?_ ?_
  · simp [Serde.toJson, Serde.fromJson]
  · simpa [Serde.toJson] using h

def wireHost : ClusterNodeInfo := ⟨.v4 0x0A000001#32, 7070⟩

def wireFlow : FlowConf := ⟨.v4 0x0A000001#32, .v4 0x0A000002#32, some 80⟩

def wireQuit : EmulationEvent := ⟨3, ⟨5, 0⟩, .quit⟩

section

local instance : Serde ClusterNodeInfo :=
  demoSerde wireHost "\x7b\"ip_addr\":\"10.0.0.1\",\"port\":7070\x7d"

local instance : Serde FlowConf :=
  demoSerde wireFlow "\x7b\"src\":\"10.0.0.1\",\"dest\":\"10.0.0.2\",\"throughput\":80\x7d"

local instance : Serde EmulationEvent :=
  demoSerde wireQuit
    "\x7b\"app_id\":3,\"time\":\x7b\"secs\":5,\"nanos\":0\x7d,\"action\":\"Quit\"\x7d"

local instance : Serde WCGraph := noSerde WCGraph

local instance : Serde WireCJQResponseKind := noSerde WireCJQResponseKind

local instance : Serde (ClusterNodeInfo × String) := noSerde (ClusterNodeInfo × String)

local instance : Serde TCConf := noSerde TCConf

theorem demo_survives_wire :
    WireEvent.fromBytes (WireEvent.cjqRequest wireHost).serializeToBytes = .ok (.cjqRequest wireHost) ∧
      EmulMessage.fromBytes (EmulMessage.flowUpdate wireFlow).serializeToBytes =
        .ok (.flowUpdate wireFlow) := by
  have h := survives_wire (e := .cjqRequest wireHost) (m := .flowUpdate wireFlow)
    (demoSerde_restored wireHost (by decide)) (demoSerde_restored wireFlow (by decide))
  exact ⟨h.1, h.2.mpr nofun⟩

/-- A scheduled event that is sent to an application. -/
theorem not_survives_wire :
    (EmulMessage.event wireQuit).PayloadRestored ∧
      EmulMessage.fromBytes (EmulMessage.event wireQuit).serializeToBytes ≠ .ok (.event wireQuit) := by
  refine ⟨demoSerde_restored wireQuit (by decide), ?_⟩
  rw [EmulMessage.fromBytes_event]
  nofun

end

end Cmanager

end Kollaps
