import Mathlib.Data.List.Basic
import Mathlib.Tactic.Cases

/-!
# A stream that arrives in pieces

The transport hands a stream over in pieces, none of them empty. A read takes what the first
piece has, up to the number asked for, so where the pieces end decides what each read returns.
-/

namespace Kollaps

variable {α : Type*}

abbrev Pieces (α : Type*) := List { c : List α // c ≠ [] }

namespace Pieces

def data (s : Pieces α) : List α := s.flatMap Subtype.val

@[simp] theorem data_nil : data ([] : Pieces α) = [] := rfl

@[simp] theorem data_cons (c : { c : List α // c ≠ [] }) (s : Pieces α) : data (c :: s) = c.1 ++ data s :=
  List.flatMap_cons

@[simp] theorem data_append (s t : Pieces α) : data (s ++ t) = data s ++ data t := List.flatMap_append

theorem data_eq_nil {s : Pieces α} : data s = [] ↔ s = [] := by
  cases s with
  | nil => simp
  | cons c s => simp [c.2]

def whole : List α → Pieces α
  | [] => []
  | x :: xs => [⟨x :: xs, List.cons_ne_nil x xs⟩]

@[simp] theorem data_whole (xs : List α) : data (whole xs) = xs := by
  cases xs <;> simp [whole]

/-- The part of a piece that a read leaves. -/
def rest (n : Nat) (c : { c : List α // c ≠ [] }) (h : n < c.1.length) : { c : List α // c ≠ [] } :=
  ⟨c.1.drop n, by simpa using h⟩

/-- One read of at most `n`. At the end of the stream it returns nothing. -/
def read (n : Nat) : Pieces α → List α × Pieces α
  | [] => ([], [])
  | c :: s =>
    if h : n < c.1.length then (c.1.take n, rest n c h :: s) else (c.1, s)

theorem read_of_lt {n : Nat} {c : { c : List α // c ≠ [] }} (h : n < c.1.length) (s : Pieces α) :
    read n (c :: s) = (c.1.take n, rest n c h :: s) := dif_pos h

theorem read_of_le {n : Nat} {c : { c : List α // c ≠ [] }} (h : c.1.length ≤ n) (s : Pieces α) :
    read n (c :: s) = (c.1, s) := dif_neg (by omega)

theorem data_read (n : Nat) (s : Pieces α) : (read n s).1 ++ data (read n s).2 = data s := by
  cases s with
  | nil => rfl
  | cons c s =>
    rcases Nat.lt_or_ge n c.1.length with h | h
    · rw [read_of_lt h, data_cons, data_cons, rest, ← List.append_assoc, List.take_append_drop]
    · rw [read_of_le h, data_cons]

theorem length_read_le (n : Nat) (s : Pieces α) : (read n s).1.length ≤ n := by
  cases s with
  | nil => simp [read]
  | cons c s =>
    rcases Nat.lt_or_ge n c.1.length with h | h
    · rw [read_of_lt h, List.length_take]
      omega
    · rwa [read_of_le h]

theorem length_read_pos {n : Nat} {s : Pieces α} (hn : 0 < n) (hs : s ≠ []) :
    0 < (read n s).1.length := by
  cases s with
  | nil => exact absurd rfl hs
  | cons c s =>
    rcases Nat.lt_or_ge n c.1.length with h | h
    · rw [read_of_lt h, List.length_take]
      omega
    · rw [read_of_le h]
      exact List.length_pos_iff.mpr c.2

theorem read_eq_take (n : Nat) (s : Pieces α) : (read n s).1 = (data s).take (read n s).1.length := by
  rw [← data_read n s]
  simp

theorem data_read_eq_drop (n : Nat) (s : Pieces α) :
    data (read n s).2 = (data s).drop (read n s).1.length := by
  rw [← data_read n s]
  simp

/-- Reads until there are `n`, if the stream has as many. -/
def readExact (n : Nat) : Pieces α → Option (List α × Pieces α)
  | [] => if n = 0 then some ([], []) else none
  | c :: s =>
    if n = 0 then some ([], c :: s)
    else if h : n < c.1.length then some (c.1.take n, rest n c h :: s)
    else (readExact (n - c.1.length) s).map fun r => (c.1 ++ r.1, r.2)

theorem readExact_ok {n : Nat} {s s' : Pieces α} {p : List α} (h : readExact n s = some (p, s')) :
    p.length = n ∧ p ++ data s' = data s := by
  induction s generalizing n p with
  | nil =>
    unfold readExact at h
    split at h
    · cases h
      simp_all
    · cases h
  | cons c s ih =>
    unfold readExact at h
    split at h
    · cases h
      simp_all
    · split at h <;> rename_i hc
      · cases h
        refine ⟨by rw [List.length_take]; omega, ?_⟩
        rw [data_cons, data_cons, rest, ← List.append_assoc, List.take_append_drop]
      · obtain ⟨r, hr, h⟩ := Option.map_eq_some_iff.mp h
        cases h
        obtain ⟨hlen, hdata⟩ := ih hr
        refine ⟨?_, by rw [List.append_assoc, hdata, data_cons]⟩
        rw [List.length_append, hlen]
        omega

theorem readExact_isSome {n : Nat} {s : Pieces α} (h : n ≤ (data s).length) : (readExact n s).isSome := by
  induction s generalizing n with
  | nil =>
    have hn : n = 0 := by simpa using h
    simp [readExact, hn]
  | cons c s ih =>
    unfold readExact
    split
    · rfl
    · split
      · rfl
      · rw [Option.isSome_map]
        rw [data_cons, List.length_append] at h
        exact ih (by omega)

/-! ## Where the pieces end -/

/-- A piece ends after `k`. -/
def CutAt (s : Pieces α) (k : Nat) : Prop := ∃ s₁ s₂, s = s₁ ++ s₂ ∧ (data s₁).length = k

theorem cutAt_cons {c : { c : List α // c ≠ [] }} {s : Pieces α} {k : Nat} (hk : 0 < k) :
    CutAt (c :: s) k ↔ ∃ j, CutAt s j ∧ k = c.1.length + j := by
  constructor
  · rintro ⟨s₁, s₂, hs, rfl⟩
    rcases List.append_eq_cons_iff.mp hs.symm with ⟨rfl, -⟩ | ⟨t, rfl, rfl⟩
    · simp at hk
    · exact ⟨(data t).length, ⟨t, s₂, rfl, rfl⟩, by simp⟩
  · rintro ⟨j, ⟨s₁, s₂, rfl, rfl⟩, rfl⟩
    exact ⟨c :: s₁, s₂, rfl, by simp⟩

theorem not_cutAt_whole {xs : List α} {k : Nat} (h0 : 0 < k) (hk : k < xs.length) : ¬ CutAt (whole xs) k := by
  cases xs with
  | nil => simp at hk
  | cons x xs =>
    rw [whole, cutAt_cons h0]
    rintro ⟨j, -, rfl⟩
    simp only [List.length_cons] at hk
    omega

theorem cutAt_read {n k : Nat} {s : Pieces α} (hk : 0 < k) :
    CutAt (read n s).2 k ↔ CutAt s ((read n s).1.length + k) := by
  cases s with
  | nil => simp [read]
  | cons c s =>
    rw [cutAt_cons (by omega)]
    rcases Nat.lt_or_ge n c.1.length with h | h
    · rw [read_of_lt h, cutAt_cons hk]
      refine exists_congr fun j => and_congr_right fun _ => ?_
      simp only [rest, List.length_take, List.length_drop]
      omega
    · rw [read_of_le h]
      simp

/-- A read comes short only where a piece ends. -/
theorem cutAt_of_short {n : Nat} {s : Pieces α} (h : (read n s).1.length < n) :
    CutAt s (read n s).1.length := by
  cases s with
  | nil => exact ⟨[], [], rfl, rfl⟩
  | cons c s =>
    rcases Nat.lt_or_ge n c.1.length with hc | hc
    · rw [read_of_lt hc, List.length_take] at h
      omega
    · rw [read_of_le hc]
      exact ⟨[c], s, rfl, by simp⟩

theorem length_read_of_cutAt {n k : Nat} {s : Pieces α} (h0 : 0 < k) (hk : k ≤ n) (h : CutAt s k) :
    (read n s).1.length ≤ k := by
  cases s with
  | nil => simp [read]
  | cons c s =>
    obtain ⟨j, -, rfl⟩ := (cutAt_cons h0).mp h
    rw [read_of_le (by omega)]
    exact Nat.le_add_right _ _

end Pieces

end Kollaps
