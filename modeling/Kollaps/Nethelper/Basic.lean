import Kollaps.Common.Serialize
import Kollaps.Lib.Pieces

/-!
# The bindings

What `write_to_stream` puts on the wire for a message, and what one `read_from_stream` takes
from it. Every payload comes after its length, in two bytes.
-/

namespace Kollaps

open Run

namespace Nethelper

def contentLengthLength : Nat := 2

def getSize (buf : Bytes) : Run Nat :=
  if buf.length = contentLengthLength then
    forRange contentLengthLength 0 fun i size => do
      let b ← get buf i
      pure (size ||| (b.toNat <<< (8 * (contentLengthLength - 1 - i))))
  else .error .assertion

variable {T : Type} [ToBytesSerialize T]

/-- The length goes out as a `u16`. -/
def frame (data : Bytes) : Bytes := putU16 (UInt16.ofNat data.length) ++ data

def prepareDataToSend (data : T) : Bytes := frame (ToBytesSerialize.serializeToBytes data)

namespace Tcp

def writeToStream (x : T) : Bytes := prepareDataToSend x

/-- One round of the loop of `read_from_stream`: the buffer, `bytes_to_read` and the stream. -/
def readRound : Bytes × Nat × Pieces UInt8 →
    Run ((Bytes × Nat × Pieces UInt8) ⊕ (Bytes × Pieces UInt8))
  | (buf, bytesToRead, s) =>
    if bytesToRead > 0 then do
      let (bytes, s) := s.read bytesToRead
      let bytesToRead ← usizeSub bytesToRead bytes.length
      pure (.inl (buf ++ bytes, bytesToRead, s))
    else pure (.inr (buf, s))

/-- A round that reads nothing has met the end of the stream, where every further round reads
nothing either: a loop that takes more than `size` rounds never ends. -/
def readFromStream (s : Pieces UInt8) : Run (Bytes × Pieces UInt8) := do
  let (written, s) := s.read contentLengthLength
  if written.length = 0 then .error (.err "End Of File, stop stream")
  else do
    -- What the read did not fill is zero still.
    let size ← getSize (written ++ List.replicate (contentLengthLength - written.length) 0)
    loop (size + 1) readRound ([], size, s)

end Tcp

namespace Unix

def writeToStream (x : T) : Bytes :=
  let data := ToBytesSerialize.serializeToBytes x
  putU16 (UInt16.ofNat data.length) ++ data

def readExact (n : Nat) (s : Pieces UInt8) : Run (Bytes × Pieces UInt8) :=
  match s.readExact n with
  | some r => pure r
  | none => .error (.err "early eof")

def readFromStream (s : Pieces UInt8) : Run (Bytes × Pieces UInt8) := do
  let (buf, s) ← readExact 2 s
  let (contentLength, _) ← getU16 buf
  readExact contentLength.toNat s

end Unix

def receive (read : Pieces UInt8 → Run (Bytes × Pieces UInt8)) :
    Nat → Pieces UInt8 → Run (List Bytes × Pieces UInt8)
  | 0, s => pure ([], s)
  | n + 1, s => do
    let (payload, s) ← read s
    let (payloads, s) ← receive read n s
    pure (payload :: payloads, s)

/-! ## The length -/

theorem getSize_eq (a b : UInt8) : getSize [a, b] = .ok (a.toNat * 256 + b.toNat) := by
  have hb := b.toNat_lt
  have hor : (0 ||| a.toNat <<< 8) ||| b.toNat <<< 0 = a.toNat * 256 + b.toNat := by
    rw [Nat.zero_or, Nat.shiftLeft_zero, ← Nat.shiftLeft_add_eq_or_of_lt (by simpa using hb),
      Nat.shiftLeft_eq]
  rw [← hor]
  rfl

theorem frame_eq (d : Bytes) : ∃ a b : UInt8, frame d = a :: b :: d ∧
    a.toNat * 256 + b.toNat = d.length % 65536 := by
  refine ⟨_, _, rfl, ?_⟩
  rw [putU16_toNat]
  exact UInt16.toNat_ofNat'

theorem length_frame (d : Bytes) : (frame d).length = 2 + d.length := by
  obtain ⟨a, b, hframe, -⟩ := frame_eq d
  rw [hframe]
  simp only [List.length_cons]
  omega

/-! ## What one call returns -/

theorem receive_cons {read : Pieces UInt8 → Run (Bytes × Pieces UInt8)} {n : Nat} {s s' : Pieces UInt8}
    {d : Bytes} {ds : List Bytes} : receive read (n + 1) s = .ok (d :: ds, s') ↔
      ∃ t, read s = .ok (d, t) ∧ receive read n t = .ok (ds, s') := by
  constructor
  · intro h
    obtain ⟨⟨p, t⟩, hread, h⟩ := of_bind_eq_ok h
    obtain ⟨⟨ps, t'⟩, hrec, h⟩ := of_bind_eq_ok h
    cases h
    exact ⟨t, hread, hrec⟩
  · rintro ⟨t, hread, hrec⟩
    rw [receive, hread, bind_ok]
    simp only [hrec, bind_ok]
    rfl

namespace Tcp

theorem readRound_pos {buf : Bytes} {left : Nat} {s : Pieces UInt8} (h : 0 < left) :
    readRound (buf, left, s) =
      .ok (.inl (buf ++ (s.read left).1, left - (s.read left).1.length, (s.read left).2)) := by
  unfold readRound
  simp only [if_pos h, usizeSub_of_le (s.length_read_le left), bind_ok]
  rfl

theorem readRound_zero (buf : Bytes) (s : Pieces UInt8) : readRound (buf, 0, s) = .ok (.inr (buf, s)) := rfl

theorem loop_returns {size : Nat} {s : Pieces UInt8} (h : size ≤ s.data.length) :
    Returns (loop (size + 1) readRound ([], size, s)) fun r => r.1 = s.data.take size ∧
      r.2.data = s.data.drop size ∧ ∀ k, 0 < k → (r.2.CutAt k ↔ s.CutAt (size + k)) := by
  refine Returns.loop (fun r : Bytes × Nat × Pieces UInt8 => r.1 ++ r.2.2.data = s.data ∧
    r.1.length + r.2.1 = size ∧ ∀ k, 0 < k → (r.2.2.CutAt k ↔ s.CutAt (r.1.length + k)))
    (fun r => r.2.1) ⟨rfl, by simp, by simp⟩ (Nat.lt_succ_self _) ?_
  rintro ⟨buf, left, t⟩ ⟨hdata, hlen, hcut⟩
  simp only at hdata hlen hcut
  rcases Nat.eq_zero_or_pos left with rfl | hleft
  · rw [readRound_zero, returns_ok]
    subst hlen
    exact ⟨by simp [← hdata], by simp [← hdata], hcut⟩
  · rw [readRound_pos hleft, returns_ok]
    have hle := t.length_read_le left
    have hpos : 0 < (t.read left).1.length := Pieces.length_read_pos hleft fun ht => by
      rw [ht, Pieces.data_nil, List.append_nil] at hdata
      have := congrArg List.length hdata
      omega
    refine ⟨⟨?_, ?_, fun k hk => ?_⟩, by simp only; omega⟩
    · rw [List.append_assoc, Pieces.data_read, hdata]
    · simp only [List.length_append]
      omega
    · rw [Pieces.cutAt_read hk, hcut _ (by omega), List.length_append, Nat.add_assoc]

theorem loop_ok {fuel size : Nat} {s s' : Pieces UInt8} {p : Bytes}
    (h : loop fuel readRound ([], size, s) = .ok (p, s')) :
    p.length = size ∧ p ++ s'.data = s.data := by
  refine loop_ok_inv (fun r : Bytes × Nat × Pieces UInt8 => r.1.length + r.2.1 = size ∧
    r.1 ++ r.2.2.data = s.data) (fun r => r.1.length = size ∧ r.1 ++ r.2.data = s.data) ⟨by simp, rfl⟩
    ?_ ?_ h
  · rintro ⟨buf, left, t⟩ r ⟨hlen, hdata⟩ hr
    simp only at hlen hdata
    rcases Nat.eq_zero_or_pos left with rfl | hleft
    · cases hr
    · rw [readRound_pos hleft] at hr
      cases hr
      have hle := t.length_read_le left
      refine ⟨?_, by rw [List.append_assoc, Pieces.data_read, hdata]⟩
      simp only [List.length_append]
      omega
  · rintro ⟨buf, left, t⟩ r ⟨hlen, hdata⟩ hr
    rcases Nat.eq_zero_or_pos left with rfl | hleft
    · cases hr
      exact ⟨hlen, hdata⟩
    · rw [readRound_pos hleft] at hr
      cases hr

theorem getSize_full {s : Pieces UInt8} {a b : UInt8} (h : (s.read 2).1 = [a, b]) :
    getSize ((s.read 2).1 ++ List.replicate (2 - (s.read 2).1.length) 0) = .ok (a.toNat * 256 + b.toNat) := by
  rw [h]
  exact getSize_eq a b

theorem getSize_short {s : Pieces UInt8} {a : UInt8} (h : (s.read 2).1 = [a]) :
    getSize ((s.read 2).1 ++ List.replicate (2 - (s.read 2).1.length) 0) = .ok (a.toNat * 256) := by
  rw [h, show [a] ++ List.replicate (2 - [a].length) 0 = [a, 0] from rfl, getSize_eq,
    UInt8.toNat_zero, Nat.add_zero]

theorem readFromStream_full {s : Pieces UInt8} {a b : UInt8} (h : (s.read 2).1 = [a, b]) :
    readFromStream s =
      loop (a.toNat * 256 + b.toNat + 1) readRound ([], a.toNat * 256 + b.toNat, (s.read 2).2) := by
  unfold readFromStream contentLengthLength
  simp only [getSize_full h, bind_ok]
  rw [if_neg (by simp [h])]

/-- A header of which only the first byte has arrived. -/
theorem readFromStream_short {s : Pieces UInt8} {a : UInt8} (h : (s.read 2).1 = [a]) :
    readFromStream s = loop (a.toNat * 256 + 1) readRound ([], a.toNat * 256, (s.read 2).2) := by
  unfold readFromStream contentLengthLength
  simp only [getSize_short h, bind_ok]
  rw [if_neg (by simp [h])]

theorem header_cases {s : Pieces UInt8} {a b : UInt8} {ds : Bytes} (h : s.data = a :: b :: ds) :
    ((s.read 2).1 = [a, b] ∧ (s.read 2).2.data = ds ∧ ¬ s.CutAt 1) ∨
      ((s.read 2).1 = [a] ∧ (s.read 2).2.data = b :: ds ∧ s.CutAt 1) := by
  have hle := s.length_read_le 2
  have hpos : 0 < (s.read 2).1.length := Pieces.length_read_pos (by omega) fun hs => by
    rw [hs] at h
    cases h
  have htake := s.read_eq_take 2
  have hdrop := s.data_read_eq_drop 2
  rw [h] at htake hdrop
  by_cases hlen : (s.read 2).1.length = 2
  · rw [hlen] at htake hdrop
    refine .inl ⟨htake, hdrop, fun hcut => ?_⟩
    have := Pieces.length_read_of_cutAt (n := 2) Nat.one_pos (by omega) hcut
    omega
  · have hone : (s.read 2).1.length = 1 := by omega
    have hcut := Pieces.cutAt_of_short (s := s) (n := 2) (by omega)
    rw [hone] at htake hdrop hcut
    exact .inr ⟨htake, hdrop, hcut⟩

theorem readFromStream_ok {s t : Pieces UInt8} {a b : UInt8} {ds p : Bytes} (h : s.data = a :: b :: ds)
    (hp : readFromStream s = .ok (p, t)) :
    (¬ s.CutAt 1 ∧ p.length = a.toNat * 256 + b.toNat ∧ p ++ t.data = ds) ∨
      (s.CutAt 1 ∧ p.length = a.toNat * 256 ∧ p ++ t.data = b :: ds) := by
  rcases header_cases h with ⟨hread, hdata, hcut⟩ | ⟨hread, hdata, hcut⟩
  · rw [readFromStream_full hread] at hp
    exact .inl ⟨hcut, hdata ▸ loop_ok hp⟩
  · rw [readFromStream_short hread] at hp
    exact .inr ⟨hcut, hdata ▸ loop_ok hp⟩

theorem readFromStream_returns {s : Pieces UInt8} {d ds : Bytes} (h : s.data = frame d ++ ds)
    (hd : d.length < 65536) (hcut : ¬ s.CutAt 1) :
    Returns (readFromStream s) fun r => r.1 = d ∧ r.2.data = ds ∧
      ∀ k, 0 < k → (r.2.CutAt k ↔ s.CutAt ((frame d).length + k)) := by
  obtain ⟨a, b, hframe, hab⟩ := frame_eq d
  rw [hframe] at h
  rcases header_cases h with ⟨hread, hdata, -⟩ | ⟨-, -, hcut'⟩
  · rw [Nat.mod_eq_of_lt hd] at hab
    rw [readFromStream_full hread, hab]
    refine (loop_returns (by rw [hdata]; simp)).mono fun r ⟨hp, ht, hcuts⟩ => ⟨?_, ?_, fun k hk => ?_⟩
    · simpa [hdata] using hp
    · simpa [hdata] using ht
    · rw [hcuts k hk, Pieces.cutAt_read (by omega), hread, length_frame, ← Nat.add_assoc]
      rfl
  · exact absurd hcut' hcut

end Tcp

namespace Unix

theorem readExact_returns {n : Nat} {s : Pieces UInt8} (h : n ≤ s.data.length) :
    Returns (readExact n s) fun r => r.1 = s.data.take n ∧ r.2.data = s.data.drop n := by
  obtain ⟨⟨p, s'⟩, hr⟩ := Option.isSome_iff_exists.mp (Pieces.readExact_isSome h)
  obtain ⟨hlen, hdata⟩ := Pieces.readExact_ok hr
  unfold readExact
  rw [hr]
  refine ⟨(p, s'), rfl, ?_, ?_⟩
  · simp [← hdata, ← hlen]
  · simp [← hdata, ← hlen]

theorem readExact_ok {n : Nat} {s t : Pieces UInt8} {p : Bytes} (h : readExact n s = .ok (p, t)) :
    p.length = n ∧ p ++ t.data = s.data := by
  unfold readExact at h
  split at h <;> rename_i hr
  · cases h
    exact Pieces.readExact_ok hr
  · cases h

theorem readFromStream_spec {s : Pieces UInt8} {d ds : Bytes} (h : s.data = frame d ++ ds) :
    ∃ t : Pieces UInt8, t.data = d ++ ds ∧ readFromStream s = readExact (d.length % 65536) t := by
  have hlen : 2 ≤ s.data.length := by
    rw [h, List.length_append, length_frame]
    omega
  obtain ⟨⟨buf, t⟩, hread, hbuf, ht⟩ := readExact_returns hlen
  have hframe : s.data = putU16 (UInt16.ofNat d.length) ++ (d ++ ds) := by
    rw [h, frame, List.append_assoc]
  have hbuf' : buf = putU16 (UInt16.ofNat d.length) ++ [] := by
    rw [show buf = s.data.take 2 from hbuf, hframe]
    rfl
  refine ⟨t, ?_, ?_⟩
  · rw [show t.data = s.data.drop 2 from ht, hframe]
    rfl
  · unfold readFromStream
    rw [hread, bind_ok]
    simp only [hbuf', getU16_putU16, bind_ok]
    rw [UInt16.toNat_ofNat']

end Unix

end Nethelper

end Kollaps
