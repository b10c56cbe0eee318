import Kollaps.Nethelper.Basic
import Kollaps.Pubapi.Basic

/-!
# What arrives of the messages that are sent

The length of a message is sent in two bytes, and over TCP these are taken with a single read.
A message is lost, with all that follow it, when its length does not fit or when that read
comes short.
-/

namespace Kollaps

open Run

namespace Nethelper

/-! ## Over TCP -/

/-- No piece ends between the two bytes of a length. -/
def HeadersWhole (s : Pieces UInt8) (ds : List Bytes) : Prop :=
  ∀ before d after, ds = before ++ d :: after → ¬ s.CutAt ((before.flatMap frame).length + 1)

theorem headersWhole_cons {s t : Pieces UInt8} {d : Bytes} {ds : List Bytes}
    (h : ∀ k, 0 < k → (t.CutAt k ↔ s.CutAt ((frame d).length + k))) :
    HeadersWhole s (d :: ds) ↔ ¬ s.CutAt 1 ∧ HeadersWhole t ds := by
  have hshift : ∀ before : List Bytes, t.CutAt ((before.flatMap frame).length + 1) ↔
      s.CutAt (((d :: before).flatMap frame).length + 1) := fun before => by
    rw [h _ (by omega), List.flatMap_cons, List.length_append, Nat.add_assoc]
  constructor
  · intro hs
    exact ⟨hs [] d ds rfl, fun before e after hds =>
      mt (hshift before).mp (hs (d :: before) e after (by rw [hds]; rfl))⟩
  · rintro ⟨hone, ht⟩ before e after hds
    rcases List.cons_eq_append_iff.mp hds with ⟨rfl, -⟩ | ⟨before, rfl, hds⟩
    · exact hone
    · exact mt (hshift before).mpr (ht before e after (List.cons.inj hds).2)

theorem headersWhole_whole (ds : List Bytes) : HeadersWhole (Pieces.whole (ds.flatMap frame)) ds := by
  rintro before d after rfl
  refine Pieces.not_cutAt_whole (by omega) ?_
  rw [List.flatMap_append, List.flatMap_cons, List.length_append, List.length_append, length_frame]
  omega

theorem eq_cons_of_append {α : Type} {d x y : List α} {a : α} (h : d ++ x = a :: (d ++ y)) : x = a :: y := by
  induction d generalizing a with
  | nil => exact h
  | cons b d ih =>
    rw [List.cons_append, List.cons_append] at h
    obtain ⟨rfl, htail⟩ := List.cons.inj h
    exact ih htail

theorem replicate_append_cons {α : Type} (n : Nat) (a : α) (l : List α) :
    List.replicate n a ++ a :: l = a :: (List.replicate n a ++ l) := by
  induction n with
  | zero => rfl
  | succ n ih => rw [List.replicate_succ, List.cons_append, List.cons_append, ih]

namespace Tcp

/-- Zeros before the messages, left by a length that came in two parts: they are read as lengths
of messages that were never sent, and some are left in the end. -/
theorem not_receive_of_zeros {k : Nat} {s : Pieces UInt8} {ds : List Bytes}
    (h : s.data = List.replicate (k + 1) 0 ++ ds.flatMap frame) :
    receive readFromStream ds.length s ≠ .ok (ds, []) := by
  induction ds generalizing k s with
  | nil =>
    intro hr
    cases hr
    simp [List.replicate_succ] at h
  | cons d ds ih =>
    intro hall
    obtain ⟨t, hread, hr⟩ := receive_cons.mp hall
    obtain ⟨a, b, hframe, hab⟩ := frame_eq d
    rw [List.flatMap_cons, hframe] at h
    -- The call returned an empty message, so an empty one was sent.
    have hlen : d.length = 0 := by
      cases k with
      | zero =>
        have hb := b.toNat_lt
        have hdata : s.data = 0 :: a :: b :: (d ++ ds.flatMap frame) := h
        rcases readFromStream_ok hdata hread with ⟨-, hd, -⟩ | ⟨-, hd, -⟩
        · rw [UInt8.toNat_zero, Nat.zero_mul, Nat.zero_add] at hd
          have ha := a.toNat_lt
          rw [Nat.mod_eq_of_lt (by omega)] at hab
          omega
        · exact hd
      | succ k =>
        have hdata : s.data = 0 :: 0 :: (List.replicate k 0 ++ a :: b :: (d ++ ds.flatMap frame)) := h
        rcases readFromStream_ok hdata hread with ⟨-, hd, -⟩ | ⟨-, hd, -⟩ <;> exact hd
    obtain rfl : d = [] := List.length_eq_zero_iff.mp hlen
    obtain rfl : a = 0 := UInt8.toNat_inj.mp (by simp at hab ⊢; omega)
    obtain rfl : b = 0 := UInt8.toNat_inj.mp (by simp at hab ⊢; omega)
    have hzeros : s.data = 0 :: 0 :: (List.replicate (k + 1) 0 ++ ds.flatMap frame) := by
      rw [h, List.cons_append, List.cons_append, List.nil_append, replicate_append_cons,
        replicate_append_cons]
    rcases readFromStream_ok hzeros hread with ⟨-, -, ht⟩ | ⟨-, -, ht⟩
    · exact ih (k := k) ht hr
    · exact ih (k := k + 1) ht hr

theorem receive_iff {s : Pieces UInt8} {ds : List Bytes} (h : s.data = ds.flatMap frame) :
    receive readFromStream ds.length s = .ok (ds, []) ↔
      (∀ d ∈ ds, d.length < 65536) ∧ HeadersWhole s ds := by
  induction ds generalizing s with
  | nil =>
    obtain rfl : s = [] := Pieces.data_eq_nil.mp h
    exact iff_of_true rfl ⟨nofun, fun before d after hds => by simp at hds⟩
  | cons d ds ih =>
    rw [List.flatMap_cons] at h
    obtain ⟨a, b, hframe, hab⟩ := frame_eq d
    by_cases hcut : s.CutAt 1
    · refine iff_of_false (fun hr => ?_) fun hok => hok.2 [] d ds rfl hcut
      obtain ⟨t, hread, hr⟩ := receive_cons.mp hr
      have hdata : s.data = a :: b :: (d ++ ds.flatMap frame) := by
        rw [h, hframe]
        rfl
      rcases readFromStream_ok hdata hread with ⟨hcut', -⟩ | ⟨-, hd, ht⟩
      · exact hcut' hcut
      · -- The second byte of the length counts as the first of the message.
        have ha := a.toNat_lt
        obtain rfl : b = 0 := UInt8.toNat_inj.mp (by rw [UInt8.toNat_zero]; omega)
        exact not_receive_of_zeros (k := 0) (eq_cons_of_append ht) hr
    · by_cases hfit : d.length < 65536
      · obtain ⟨⟨p, t⟩, hread, hp, ht, hcuts⟩ := readFromStream_returns h hfit hcut
        obtain rfl : p = d := hp
        rw [headersWhole_cons hcuts, List.forall_mem_cons, List.length_cons, receive_cons]
        have hih := ih ht
        constructor
        · rintro ⟨t', hread', hr⟩
          cases hread.symm.trans hread'
          exact ⟨⟨hfit, (hih.mp hr).1⟩, hcut, (hih.mp hr).2⟩
        · rintro ⟨⟨-, hfits⟩, -, hwhole⟩
          exact ⟨t, hread, hih.mpr ⟨hfits, hwhole⟩⟩
      · refine iff_of_false (fun hr => ?_) fun hok => hfit (hok.1 d List.mem_cons_self)
        obtain ⟨t, hread, -⟩ := receive_cons.mp hr
        have hdata : s.data = a :: b :: (d ++ ds.flatMap frame) := by
          rw [h, hframe]
          rfl
        rcases readFromStream_ok hdata hread with ⟨-, hd, -⟩ | ⟨hcut', -⟩
        · omega
        · exact hcut hcut'

end Tcp

namespace Unix

theorem receive_iff {s : Pieces UInt8} {ds : List Bytes} (h : s.data = ds.flatMap frame) :
    receive readFromStream ds.length s = .ok (ds, []) ↔ ∀ d ∈ ds, d.length < 65536 := by
  induction ds generalizing s with
  | nil =>
    obtain rfl : s = [] := Pieces.data_eq_nil.mp h
    exact iff_of_true rfl nofun
  | cons d ds ih =>
    rw [List.flatMap_cons] at h
    obtain ⟨t, ht, hread⟩ := readFromStream_spec h
    rw [List.forall_mem_cons, List.length_cons, receive_cons, hread]
    by_cases hfit : d.length < 65536
    · rw [Nat.mod_eq_of_lt hfit]
      obtain ⟨⟨p, t'⟩, hexact, hp, ht'⟩ := readExact_returns (n := d.length) (s := t) (by simp [ht])
      obtain rfl : p = d := by simpa [ht] using hp
      have hih := ih (s := t') (by simpa [ht] using ht')
      constructor
      · rintro ⟨t'', hexact', hr⟩
        cases hexact.symm.trans hexact'
        exact ⟨hfit, hih.mp hr⟩
      · exact fun hok => ⟨t', hexact, hih.mpr hok.2⟩
    · refine iff_of_false ?_ fun hok => hfit hok.1
      rintro ⟨t', hexact, -⟩
      have hlen := (readExact_ok hexact).1
      omega

end Unix

/-! ## Messages -/

variable {T : Type} [ToBytesSerialize T]

theorem flatMap_frame (messages : List T) :
    messages.flatMap prepareDataToSend = (messages.map ToBytesSerialize.serializeToBytes).flatMap frame :=
  (List.flatMap_map ToBytesSerialize.serializeToBytes frame messages).symm

/-- Where reads are never short, all messages arrive exactly when every length fits. -/
theorem all_received (messages : List T) :
    (receive Tcp.readFromStream messages.length (Pieces.whole (messages.flatMap Tcp.writeToStream)) =
        .ok (messages.map ToBytesSerialize.serializeToBytes, []) ↔
      ∀ m ∈ messages, (ToBytesSerialize.serializeToBytes m).length < 65536) ∧
    (receive Unix.readFromStream messages.length (Pieces.whole (messages.flatMap Unix.writeToStream)) =
        .ok (messages.map ToBytesSerialize.serializeToBytes, []) ↔
      ∀ m ∈ messages, (ToBytesSerialize.serializeToBytes m).length < 65536) := by
  have hdata := (Pieces.data_whole (messages.flatMap prepareDataToSend)).trans (flatMap_frame messages)
  constructor
  · have htcp := Tcp.receive_iff hdata
    rw [List.length_map, List.forall_mem_map] at htcp
    refine htcp.trans (and_iff_left ?_)
    rw [flatMap_frame]
    exact headersWhole_whole _
  · have hunix := Unix.receive_iff hdata
    rw [List.length_map, List.forall_mem_map] at hunix
    exact hunix

/-- The text that the client sends for a topology without characters to escape. -/
def topologyJson : OManagerMessage → String
  | .newTopology top => "\x7b\"NewTopology\":\"" ++ top ++ "\"\x7d"
  | _ => ""

@[reducible] def demoTransport : ToBytesSerialize OManagerMessage :=
  @ToBytesSerialize.default _ ⟨topologyJson, fun _ => none⟩

def longTopology (n : Nat) : OManagerMessage := .newTopology (String.ofList (List.replicate n 'a'))

theorem utf8ByteSize_replicate (n : Nat) : (String.ofList (List.replicate n 'a')).utf8ByteSize = n := by
  induction n with
  | zero => rfl
  | succ n ih =>
    have hone : (String.ofList ['a']).utf8ByteSize = 1 := by decide
    rw [List.replicate_succ, ← List.singleton_append, String.ofList_append, String.utf8ByteSize_append, ih]
    omega

theorem utf8ByteSize_le_append (a b c : String) : b.utf8ByteSize ≤ (a ++ b ++ c).utf8ByteSize := by
  rw [String.utf8ByteSize_append, String.utf8ByteSize_append]
  omega

theorem topologyJson_length (top : String) :
    top.utf8ByteSize ≤ (asBytes (topologyJson (.newTopology top))).length := by
  rw [asBytes_length]
  exact utf8ByteSize_le_append _ top _

theorem longTopology_length (n : Nat) : n ≤ (demoTransport.serializeToBytes (longTopology n)).length := by
  have h := topologyJson_length (String.ofList (List.replicate n 'a'))
  rw [utf8ByteSize_replicate] at h
  exact h

/-- A topology of 65536 letters. -/
theorem not_all_received :
    ¬ (receive Tcp.readFromStream 1
        (Pieces.whole ([longTopology 65536].flatMap (@Tcp.writeToStream _ demoTransport))) =
      .ok ([demoTransport.serializeToBytes (longTopology 65536)], [])) ∧
    ¬ (receive Unix.readFromStream 1
        (Pieces.whole ([longTopology 65536].flatMap (@Unix.writeToStream _ demoTransport))) =
      .ok ([demoTransport.serializeToBytes (longTopology 65536)], [])) := by
  have hlong := longTopology_length 65536
  have hdata : ∀ d : Bytes, (Pieces.whole (frame d ++ [])).data = [d].flatMap frame := fun d => by simp
  constructor
  · intro h
    have := ((Tcp.receive_iff (hdata _)).mp h).1 _ List.mem_cons_self
    omega
  · intro h
    have := (Unix.receive_iff (hdata _)).mp h _ List.mem_cons_self
    omega

/-- Over TCP the messages arrive exactly when no length comes in two parts. -/
theorem received_iff_headersWhole {s : Pieces UInt8} {ds : List Bytes} (hfit : ∀ d ∈ ds, d.length < 65536)
    (h : s.data = ds.flatMap frame) :
    receive Tcp.readFromStream ds.length s = .ok (ds, []) ↔ HeadersWhole s ds :=
  (Tcp.receive_iff h).trans (and_iff_right hfit)

theorem demo_received :
    receive Tcp.readFromStream 2 [⟨[0, 2, 7], nofun⟩, ⟨[8, 0, 1, 9], nofun⟩] = .ok ([[7, 8], [9]], []) ∧
      HeadersWhole [⟨[0, 2, 7], nofun⟩, ⟨[8, 0, 1, 9], nofun⟩] [[7, 8], [9]] := by
  have hall : receive Tcp.readFromStream 2 [⟨[0, 2, 7], nofun⟩, ⟨[8, 0, 1, 9], nofun⟩] =
      .ok ([[7, 8], [9]], []) := by decide +kernel
  exact ⟨hall, (received_iff_headersWhole (by decide) rfl).mp hall⟩

/-- The first byte of a length arrives alone: the message is taken for an empty one. -/
theorem demo_not_received :
    (Pieces.data [⟨[0], nofun⟩, ⟨[1, 7], nofun⟩] : Bytes) = [[7]].flatMap frame ∧
      receive Tcp.readFromStream 1 [⟨[0], nofun⟩, ⟨[1, 7], nofun⟩] ≠ .ok ([[7]], []) := by
  decide +kernel

end Nethelper

end Kollaps
