import Kollaps.Nethelper.Framing

/-!
# Streams that end

`read_from_stream` looks for the end of the stream before a length only. Where a body is cut off its
loop reads nothing over and over, and where a length is cut off it takes the first byte for all of it.
-/

namespace Kollaps

open Run

namespace Nethelper

/-- A stream that starts with a whole message: a length, and as many bytes after it. -/
def Complete (data d : Bytes) : Prop :=
  ∃ a b rest, data = a :: b :: (d ++ rest) ∧ d.length = a.toNat * 256 + b.toNat

theorem Complete.unique {data d d' : Bytes} (h : Complete data d) (h' : Complete data d') : d = d' := by
  obtain ⟨a, b, rest, rfl, hlen⟩ := h
  obtain ⟨a', b', rest', hdata, hlen'⟩ := h'
  simp only [List.cons.injEq] at hdata
  obtain ⟨rfl, rfl, hdata⟩ := hdata
  exact (List.append_inj hdata (hlen.trans hlen'.symm)).1

theorem zeros_of_append {d x y : Bytes} (h : d ++ x = 0 :: (d ++ y)) : ∀ v ∈ d, v = 0 := by
  induction d with
  | nil => simp
  | cons v d ih =>
    rw [List.cons_append, List.cons_append] at h
    obtain ⟨rfl, h⟩ := List.cons.inj h
    exact List.forall_mem_cons.mpr ⟨rfl, ih h⟩

namespace Tcp

/-- `read_from_stream`, watched for `fuel` rounds of its loop. -/
def readFromStreamIn (fuel : Nat) (s : Pieces UInt8) : Run (Bytes × Pieces UInt8) :=
  let header := s.read contentLengthLength
  if header.1.length = 0 then .error (.err "End Of File, stop stream")
  else do
    let size ← getSize (header.1 ++ List.replicate (contentLengthLength - header.1.length) 0)
    loop fuel readRound ([], size, header.2)

/-- The call comes back after some number of rounds: with the message if it is there, and with an
error otherwise. -/
def Ends (s : Pieces UInt8) : Prop :=
  ∃ fuel, (∀ d, Complete s.data d → ∃ t, readFromStreamIn fuel s = .ok (d, t)) ∧
    ((¬ ∃ d, Complete s.data d) → ∃ message, readFromStreamIn fuel s = .error (.err message))

/-! ## The loop -/

theorem readRound_noErr (r : Bytes × Nat × Pieces UInt8) : NoErr (readRound r) := by
  obtain ⟨buf, left, s⟩ := r
  rcases Nat.eq_zero_or_pos left with rfl | hleft
  · exact NoErr.ok _
  · rw [readRound_pos hleft]
    exact NoErr.ok _

/-- A loop that is to read more than there is goes on for ever. -/
theorem loop_diverges {fuel left : Nat} {buf : Bytes} {s : Pieces UInt8} (h : s.data.length < left) :
    loop fuel readRound (buf, left, s) = .error .diverge := by
  induction fuel generalizing left buf s with
  | zero => rfl
  | succ fuel ih =>
    have hdata := congrArg List.length (Pieces.data_read left s)
    rw [List.length_append] at hdata
    rw [loop, readRound_pos (by omega), bind_ok]
    exact ih (by omega)

/-! ## The fuel -/

theorem readFromStreamIn_full (fuel : Nat) {s : Pieces UInt8} {a b : UInt8} (h : (s.read 2).1 = [a, b]) :
    readFromStreamIn fuel s = loop fuel readRound ([], a.toNat * 256 + b.toNat, (s.read 2).2) := by
  unfold readFromStreamIn contentLengthLength
  simp only [getSize_full h, bind_ok]
  rw [if_neg (by simp [h])]

theorem readFromStreamIn_short (fuel : Nat) {s : Pieces UInt8} {a : UInt8} (h : (s.read 2).1 = [a]) :
    readFromStreamIn fuel s = loop fuel readRound ([], a.toNat * 256, (s.read 2).2) := by
  unfold readFromStreamIn contentLengthLength
  simp only [getSize_short h, bind_ok]
  rw [if_neg (by simp [h])]

theorem readFromStream_loop {s : Pieces UInt8} (hs : s ≠ []) :
    ∃ size, readFromStream s = loop (size + 1) readRound ([], size, (s.read 2).2) ∧
      ∀ fuel, readFromStreamIn fuel s = loop fuel readRound ([], size, (s.read 2).2) := by
  have hle := s.length_read_le 2
  have hpos := Pieces.length_read_pos (n := 2) (by omega) hs
  rcases hread : (s.read 2).1 with _ | ⟨a, _ | ⟨b, _ | ⟨c, l⟩⟩⟩
  · simp [hread] at hpos
  · exact ⟨_, readFromStream_short hread, fun fuel => readFromStreamIn_short fuel hread⟩
  · exact ⟨_, readFromStream_full hread, fun fuel => readFromStreamIn_full fuel hread⟩
  · simp [hread] at hle

/-- The rounds that the model of the call allows are enough. -/
theorem readFromStreamIn_ok {fuel : Nat} {s t : Pieces UInt8} {p : Bytes}
    (h : readFromStreamIn fuel s = .ok (p, t)) : readFromStream s = .ok (p, t) := by
  by_cases hs : s = []
  · subst hs
    cases h
  · obtain ⟨size, hread, hin⟩ := readFromStream_loop hs
    rw [hin] at h
    obtain ⟨hlen, hdata⟩ := loop_ok h
    have hsize := congrArg List.length hdata
    rw [List.length_append] at hsize
    have hfit : size ≤ (s.read 2).2.data.length := by omega
    obtain ⟨r, hr, -⟩ := loop_returns hfit
    have hsame := (loop_mono hr (Nat.le_max_right fuel _)).symm.trans (loop_mono h (Nat.le_max_left _ _))
    rw [hread, hr, hsame]

theorem exists_readFromStreamIn (s : Pieces UInt8) : ∃ fuel, readFromStreamIn fuel s = readFromStream s := by
  by_cases hs : s = []
  · subst hs
    exact ⟨0, rfl⟩
  · obtain ⟨size, hread, hin⟩ := readFromStream_loop hs
    exact ⟨size + 1, (hin _).trans hread.symm⟩

theorem readFromStreamIn_noErr (fuel : Nat) {s : Pieces UInt8} (hs : s ≠ []) :
    NoErr (readFromStreamIn fuel s) := by
  obtain ⟨size, -, hin⟩ := readFromStream_loop hs
  rw [hin]
  exact NoErr.loop readRound_noErr _

/-! ## What a call gives for a whole message -/

/-- A whole message comes first. If only one byte of its length is read at once, then the other one and
the body are zero, and the mistake makes no difference. -/
def Noticed (s : Pieces UInt8) : Prop :=
  ∃ a b d rest, s.data = a :: b :: (d ++ rest) ∧ d.length = a.toNat * 256 + b.toNat ∧
    (s.CutAt 1 → b = 0 ∧ ∀ v ∈ d, v = 0)

theorem readFromStream_noticed {s : Pieces UInt8} {a b : UInt8} {d rest : Bytes}
    (h : s.data = a :: b :: (d ++ rest)) (hlen : d.length = a.toNat * 256 + b.toNat)
    (hcut : s.CutAt 1 → b = 0 ∧ ∀ v ∈ d, v = 0) : ∃ t, readFromStream s = .ok (d, t) := by
  rcases header_cases h with ⟨hread, hdata, -⟩ | ⟨hread, hdata, hcut'⟩
  · have hfit : d.length ≤ (s.read 2).2.data.length := by
      rw [hdata, List.length_append]
      omega
    obtain ⟨⟨p, t⟩, hr, hp, -⟩ := loop_returns hfit
    rw [readFromStream_full hread, ← hlen, hr]
    obtain rfl : p = d := by simpa [hdata] using hp
    exact ⟨t, rfl⟩
  · obtain ⟨rfl, hzero⟩ := hcut hcut'
    rw [UInt8.toNat_zero, Nat.add_zero] at hlen
    have hfit : d.length ≤ (s.read 2).2.data.length := by
      rw [hdata, List.length_cons, List.length_append]
      omega
    obtain ⟨⟨p, t⟩, hr, hp, -⟩ := loop_returns hfit
    rw [readFromStream_short hread, ← hlen, hr]
    have hd := List.eq_replicate_iff.mpr ⟨rfl, hzero⟩
    obtain rfl : p = d := by
      rw [show p = (s.read 2).2.data.take d.length from hp, hdata]
      conv_lhs => rw [hd, ← replicate_append_cons, ← hd]
      exact List.take_left
    exact ⟨t, rfl⟩

theorem noticed_of_readFromStream {s t : Pieces UInt8} {d : Bytes} (h : Complete s.data d)
    (hread : readFromStream s = .ok (d, t)) : Noticed s := by
  obtain ⟨a, b, rest, hdata, hlen⟩ := h
  refine ⟨a, b, d, rest, hdata, hlen, fun hcut => ?_⟩
  rcases readFromStream_ok hdata hread with ⟨hnot, -⟩ | ⟨-, hlen', ht⟩
  · exact absurd hcut hnot
  · obtain rfl : b = 0 := UInt8.toNat_inj.mp (by rw [UInt8.toNat_zero]; omega)
    exact ⟨rfl, zeros_of_append ht⟩

/-- The call ends as it should exactly on the streams that are empty and on those that start with a
whole message whose length is noticed. What is cut off never gives an error, and a body that is cut
off after a whole length is waited for without end. -/
theorem readFromStream_ends_iff (s : Pieces UInt8) :
    (Ends s ↔ s = [] ∨ Noticed s) ∧
      (s ≠ [] → ∀ fuel message, readFromStreamIn fuel s ≠ .error (.err message)) ∧
      ∀ a b body, s.data = a :: b :: body → ¬ s.CutAt 1 → body.length < a.toNat * 256 + b.toNat →
        ∀ fuel, readFromStreamIn fuel s = .error .diverge := by
  refine ⟨⟨?_, ?_⟩, fun hs fuel => readFromStreamIn_noErr fuel hs, fun a b body h hcut hshort fuel => ?_⟩
  · rintro ⟨fuel, hmessage, herror⟩
    by_cases hs : s = []
    · exact Or.inl hs
    · by_cases hd : ∃ d, Complete s.data d
      · obtain ⟨d, hd⟩ := hd
        obtain ⟨t, ht⟩ := hmessage d hd
        exact Or.inr (noticed_of_readFromStream hd (readFromStreamIn_ok ht))
      · obtain ⟨message, h⟩ := herror hd
        exact absurd h (readFromStreamIn_noErr fuel hs message)
  · rintro (rfl | ⟨a, b, d, rest, hdata, hlen, hcut⟩)
    · refine ⟨0, fun d hd => ?_, fun _ => ⟨_, rfl⟩⟩
      obtain ⟨a, b, rest, hdata, -⟩ := hd
      cases hdata
    · obtain ⟨t, hread⟩ := readFromStream_noticed hdata hlen hcut
      obtain ⟨fuel, hfuel⟩ := exists_readFromStreamIn s
      have hd : Complete s.data d := ⟨a, b, rest, hdata, hlen⟩
      refine ⟨fuel, fun d' hd' => ⟨t, ?_⟩, fun hnot => absurd ⟨d, hd⟩ hnot⟩
      rw [hfuel, hread, hd'.unique hd]
  · rcases header_cases h with ⟨hread, hdata, -⟩ | ⟨-, -, hcut'⟩
    · rw [readFromStreamIn_full fuel hread]
      exact loop_diverges (hdata ▸ hshort)
    · exact absurd hcut' hcut

/-- A peer that closes after a length, and one whose length comes in two parts. -/
theorem not_readFromStream_ends :
    (∀ fuel, readFromStreamIn fuel (Pieces.whole [0, 1]) = .error .diverge) ∧ ¬ Ends (Pieces.whole [0, 1]) ∧
      Complete [0, 1, 7] [7] ∧
      ¬ Ends [⟨[0], List.cons_ne_nil 0 []⟩, ⟨[1, 7], List.cons_ne_nil 1 [7]⟩] := by
  have hread : (Pieces.read 2 (Pieces.whole ([0, 1] : Bytes))).1 = [0, 1] := rfl
  have hforever : ∀ fuel, readFromStreamIn fuel (Pieces.whole [0, 1]) = .error .diverge := fun fuel => by
    rw [readFromStreamIn_full fuel hread]
    exact loop_diverges (by decide)
  refine ⟨hforever, ?_, ⟨0, 1, [], rfl, rfl⟩, ?_⟩
  · rintro ⟨fuel, -, herror⟩
    obtain ⟨message, h⟩ := herror (by
      rintro ⟨d, a, b, rest, hdata, hlen⟩
      simp [Pieces.whole] at hdata
      obtain ⟨rfl, rfl, rfl, -⟩ := hdata
      cases hlen)
    rw [hforever] at h
    cases h
  · rintro ⟨fuel, hmessage, -⟩
    obtain ⟨t, ht⟩ := hmessage [7] ⟨0, 1, [], rfl, rfl⟩
    exact absurd (loop_ok ((readFromStreamIn_short fuel rfl).symm.trans ht)).1 (by decide)

end Tcp

end Nethelper

end Kollaps
