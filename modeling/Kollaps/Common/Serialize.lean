import Kollaps.Lib.Run

/-!
# Values as bytes

Every message is sent as bytes. The texts in between are those of `serde_json`, which is not
part of the source.
-/

namespace Kollaps

open Run

abbrev Bytes := List UInt8

/-- `serde_json::to_string` and `serde_json::from_str`. -/
class Serde (α : Type) where
  toJson : α → String
  fromJson : String → Option α

/-- `serde_json` reads what it printed, and no value is printed as an empty text. -/
structure Restored {α : Type} [Serde α] (a : α) : Prop where
  fromJson : Serde.fromJson (Serde.toJson a) = some a
  nonempty : Serde.toJson a ≠ ""

class ToBytesSerialize (α : Type) where
  serializeToBytes : α → Bytes
  fromBytes : Bytes → Run α

variable {α : Type}

def asBytes (text : String) : Bytes := text.toByteArray.data.toList

def serialize [Serde α] (data : α) : Bytes := asBytes (Serde.toJson data)

def deserialize [Serde α] (data : String) : Run α :=
  match Serde.fromJson data with
  | some a => pure a
  | none => .error (.err "cannot deserialize")

/-- `String::from_utf8(buf).unwrap()` -/
def fromUtf8 (buf : Bytes) : Run String := unwrap (String.fromUTF8? ⟨buf.toArray⟩)

@[reducible] def ToBytesSerialize.default [Serde α] : ToBytesSerialize α where
  serializeToBytes := serialize
  fromBytes buf := fromUtf8 buf >>= deserialize

theorem fromUtf8_asBytes (text : String) : fromUtf8 (asBytes text) = .ok text := by
  unfold fromUtf8 asBytes String.fromUTF8?
  rw [Array.toArray_toList, dif_pos text.isValidUTF8]
  rfl

theorem asBytes_of_fromUtf8 {buf : Bytes} {text : String} (h : fromUtf8 buf = .ok text) :
    asBytes text = buf := by
  unfold fromUtf8 String.fromUTF8? at h
  rw [unwrap_eq_ok, Option.dite_none_right_eq_some] at h
  obtain ⟨hvalid, htext⟩ := h
  cases htext
  rfl

/-- Bytes that are the UTF-8 encoding of a text. -/
def Utf8 (buf : Bytes) : Prop := ∃ text, asBytes text = buf

theorem fromUtf8_noPanic {buf : Bytes} : NoPanic (fromUtf8 buf) ↔ Utf8 buf := by
  constructor
  · intro h
    cases hbuf : fromUtf8 buf with
    | ok text => exact ⟨text, asBytes_of_fromUtf8 hbuf⟩
    | error e =>
      obtain ⟨message, rfl⟩ := h e hbuf
      cases hread : String.fromUTF8? ⟨buf.toArray⟩ <;> simp [fromUtf8, hread] at hbuf
  · rintro ⟨text, rfl⟩
    rw [fromUtf8_asBytes]
    exact noPanic_ok text

theorem asBytes_length (text : String) : (asBytes text).length = text.utf8ByteSize := Array.length_toList

theorem asBytes_eq_nil {text : String} : asBytes text = [] ↔ text = "" := by
  unfold asBytes
  rw [← String.toByteArray_inj, Array.toList_eq_nil_iff, ByteArray.ext_iff]
  rfl

theorem deserialize_noPanic [Serde α] (data : String) : NoPanic (deserialize data : Run α) := by
  unfold deserialize
  split
  · exact noPanic_pure _
  · exact noPanic_error.mpr ⟨_, rfl⟩

theorem default_fromBytes_noPanic [Serde α] {buf : Bytes} :
    NoPanic ((ToBytesSerialize.default (α := α)).fromBytes buf) ↔ Utf8 buf := by
  show NoPanic (fromUtf8 buf >>= deserialize) ↔ _
  rw [noPanic_bind, fromUtf8_noPanic]
  exact and_iff_left fun text _ => deserialize_noPanic text

theorem deserialize_toJson [Serde α] {a : α} (h : Restored a) : deserialize (Serde.toJson a) = .ok a := by
  unfold deserialize
  rw [h.fromJson]
  rfl

theorem serialize_ne_nil [Serde α] {a : α} (h : Restored a) : serialize a ≠ [] :=
  mt asBytes_eq_nil.mp h.nonempty

/-! ## Two bytes, the high one first -/

def putU16 (n : UInt16) : Bytes := [(n >>> 8).toUInt8, n.toUInt8]

/-- `buf.get_u16()`, which panics where fewer than two bytes are left. -/
def getU16 : Bytes → Run (UInt16 × Bytes)
  | a :: b :: buf => pure ((a.toUInt16 <<< 8) ||| b.toUInt16, buf)
  | _ => .error .index

theorem joined (a b : UInt8) : ((a.toUInt16 <<< 8) ||| b.toUInt16).toNat = a.toNat * 256 + b.toNat := by
  have ha := a.toNat_lt
  have hb := b.toNat_lt
  rw [UInt16.toNat_or, UInt16.toNat_shiftLeft, UInt8.toNat_toUInt16, UInt8.toNat_toUInt16,
    Nat.shiftLeft_eq, Nat.mod_eq_of_lt (by simp; omega),
    ← Nat.shiftLeft_eq, ← Nat.shiftLeft_add_eq_or_of_lt (by simpa using hb), Nat.shiftLeft_eq]
  rfl

theorem putU16_toNat (n : UInt16) :
    ((n >>> 8).toUInt8).toNat * 256 + n.toUInt8.toNat = n.toNat := by
  have hn := n.toNat_lt
  simp only [UInt16.toNat_toUInt8, UInt16.toNat_shiftRight, Nat.shiftRight_eq_div_pow,
    UInt16.reduceToNat, Nat.reduceMod, Nat.reducePow]
  omega

theorem getU16_putU16 (n : UInt16) (buf : Bytes) : getU16 (putU16 n ++ buf) = .ok (n, buf) := by
  have hn : ((n >>> 8).toUInt8.toUInt16 <<< 8) ||| n.toUInt8.toUInt16 = n := by
    rw [← UInt16.toNat_inj, joined, putU16_toNat]
  unfold getU16 putU16
  simp only [List.cons_append, List.nil_append, hn]
  rfl

/-! ## An opcode and what follows it -/

def payload (buf : Bytes) : Run (Option String) :=
  if buf = [] then pure none else some <$> fromUtf8 buf

def notRecognized (opcode : UInt16) : Fault := .err s!"cannot decrypt {opcode.toNat}."

/-- `opcode_2_event` on what `from_bytes` has split. -/
def decode (table : UInt16 → Option String → Run α) (buf : Bytes) : Run α := do
  let (opcode, buf) ← getU16 buf
  table opcode (← payload buf)

theorem payload_noPanic {buf : Bytes} : NoPanic (payload buf) ↔ Utf8 buf := by
  unfold payload
  split <;> rename_i h
  · exact iff_of_true (noPanic_pure _) ⟨"", asBytes_eq_nil.mpr rfl ▸ h.symm⟩
  · rw [noPanic_map, fromUtf8_noPanic]

theorem decode_noPanic {table : UInt16 → Option String → Run α} {buf : Bytes}
    (htable : ∀ opcode data, NoPanic (table opcode data)) :
    NoPanic (decode table buf) ↔ 2 ≤ buf.length ∧ Utf8 (buf.drop 2) := by
  unfold decode
  rcases buf with _ | ⟨a, _ | ⟨b, rest⟩⟩
  · simp [getU16]
  · simp [getU16]
  · simp only [getU16, pure_bind, List.length_cons, List.drop_succ_cons, List.drop_zero,
      noPanic_bind, payload_noPanic]
    constructor
    · rintro ⟨htext, -⟩
      exact ⟨by omega, htext⟩
    · rintro ⟨-, htext⟩
      exact ⟨htext, fun data _ => htable _ data⟩

theorem decode_nil (table : UInt16 → Option String → Run α) (opcode : UInt16) :
    decode table (putU16 opcode ++ []) = table opcode none := by
  unfold decode
  rw [getU16_putU16]
  rfl

theorem decode_payload {β : Type} [Serde β] {table : UInt16 → Option String → Run α} {opcode : UInt16}
    {con : β → α} {b : β} (htable : ∀ text, table opcode (some text) = con <$> deserialize text)
    (h : Restored b) : decode table (putU16 opcode ++ serialize b) = .ok (con b) := by
  unfold decode
  rw [getU16_putU16, bind_ok]
  simp only [payload, if_neg (serialize_ne_nil h)]
  rw [serialize, fromUtf8_asBytes]
  show table opcode (some (Serde.toJson b)) = _
  rw [htable, deserialize_toJson h]
  rfl

end Kollaps
