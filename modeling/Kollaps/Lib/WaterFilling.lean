import Mathlib.Algebra.BigOperators.Group.List.Basic
import Mathlib.Algebra.Order.BigOperators.Group.List
import Mathlib.Algebra.Order.Field.Basic
import Mathlib.Data.List.Induction
import Mathlib.Data.List.Perm.Basic
import Mathlib.Tactic.Linarith
import Mathlib.Tactic.Ring
import Mathlib.Tactic.FieldSimp

/-!
# Water filling

A quantity is shared among claimants round by round. Everybody gets an equal part; who wants
no more than the part leaves with what it wants, and the rest shares the spare. A greedy
claimant never leaves. The last part is the level.
-/

namespace Kollaps

namespace WaterFilling

section sums

variable {ι K : Type} [Field K] {want : ι → K}

theorem sum_map_sub_const (l : List ι) (part : K) :
    (l.map fun i => part - want i).sum = part * l.length - (l.map want).sum := by
  induction l with
  | nil => simp
  | cons i l ih =>
    simp only [List.map_cons, List.sum_cons, List.length_cons, ih]
    push_cast
    ring

theorem sum_filter_split (p : ι → Bool) (f : ι → K) (l : List ι) :
    (l.map f).sum = ((l.filter p).map f).sum + ((l.filter fun i => !p i).map f).sum := by
  induction l with
  | nil => simp
  | cons i l ih =>
    rw [List.map_cons, List.sum_cons, ih]
    cases hp : p i
    · simp [hp]; ring
    · simp [hp]; ring

end sums

variable {ι K : Type} [LinearOrder K] (want : ι → K) (greedy : ι → Bool)

/-- A claimant that leaves when this is the part. -/
def sated (part : K) (i : ι) : Bool := !greedy i && decide (want i ≤ part)

section lemmas

variable {want greedy}

theorem sated_iff {part : K} {i : ι} :
    sated want greedy part i = true ↔ greedy i = false ∧ want i ≤ part := by
  simp [sated]

theorem sated_mono {part part' : K} (h : part ≤ part') {i : ι}
    (hi : sated want greedy part i = true) : sated want greedy part' i = true := by
  rw [sated_iff] at hi ⊢
  exact ⟨hi.1, hi.2.trans h⟩

theorem length_filter_unsated_lt {claims : List ι} {part : K}
    (h : claims.filter (sated want greedy part) ≠ []) :
    (claims.filter fun i => !sated want greedy part i).length < claims.length := by
  obtain ⟨i, hi⟩ := List.exists_mem_of_ne_nil _ h
  rw [List.mem_filter] at hi
  exact List.length_filter_lt_length_iff_exists.mpr ⟨i, hi.1, by simp [hi.2]⟩

end lemmas

variable [Field K]

/-- The part of the next round. -/
def nextPart (claims : List ι) (part : K) : K :=
  part + ((claims.filter (sated want greedy part)).map fun i => part - want i).sum /
    ((claims.filter fun i => !sated want greedy part i).length : K)

def levelAux : Nat → List ι → K → K
  | 0, _, part => part
  | fuel + 1, claims, part =>
    if claims.filter (sated want greedy part) = [] then part
    else levelAux fuel (claims.filter fun i => !sated want greedy part i)
      (nextPart want greedy claims part)

def level (claims : List ι) (part : K) : K := levelAux want greedy claims.length claims part

def take (part : K) (i : ι) : K := if sated want greedy part i then want i else part

variable {want greedy}

/-- More rounds than claimants change nothing. -/
theorem levelAux_eq {fuel : Nat} {claims : List ι} {part : K} (h : claims.length ≤ fuel) :
    levelAux want greedy fuel claims part = level want greedy claims part := by
  suffices hs : ∀ fuel fuel' claims part, List.length claims ≤ fuel → List.length claims ≤ fuel' →
      levelAux want greedy fuel claims part = levelAux want greedy fuel' claims part from
    hs _ _ _ _ h (le_refl _)
  intro fuel
  induction fuel with
  | zero =>
    intro fuel' claims part h _
    rw [List.length_eq_zero_iff.mp (Nat.le_zero.mp h)]
    cases fuel' <;> simp [levelAux]
  | succ fuel ih =>
    intro fuel' claims part h h'
    cases fuel' with
    | zero =>
      rw [List.length_eq_zero_iff.mp (Nat.le_zero.mp h')]
      simp [levelAux]
    | succ fuel' =>
      rw [levelAux, levelAux]
      split <;> rename_i hs
      · rfl
      · have := length_filter_unsated_lt hs
        exact ih fuel' _ _ (by omega) (by omega)

theorem level_done {claims : List ι} {part : K}
    (h : claims.filter (sated want greedy part) = []) : level want greedy claims part = part := by
  rw [level]
  cases hl : claims.length with
  | zero => rfl
  | succ n => rw [levelAux, if_pos h]

theorem level_next {claims : List ι} {part : K}
    (h : claims.filter (sated want greedy part) ≠ []) :
    level want greedy claims part =
      level want greedy (claims.filter fun i => !sated want greedy part i)
        (nextPart want greedy claims part) := by
  have hlt := length_filter_unsated_lt h
  rw [level]
  cases hl : claims.length with
  | zero => omega
  | succ n =>
    rw [levelAux, if_neg h]
    exact levelAux_eq (by omega)

theorem level_perm {claims claims' : List ι} (h : claims.Perm claims') (part : K) :
    level want greedy claims part = level want greedy claims' part := by
  induction hn : claims.length using Nat.strong_induction_on generalizing claims claims' part with
  | _ n ih =>
    have hs := h.filter (sated want greedy part)
    have hu := h.filter fun i => !sated want greedy part i
    by_cases hnil : claims.filter (sated want greedy part) = []
    · rw [level_done hnil, level_done (by rw [hnil] at hs; exact hs.symm.eq_nil)]
    · have hnil' : claims'.filter (sated want greedy part) ≠ [] := by
        intro h'
        rw [h'] at hs
        exact hnil hs.eq_nil
      have hnext : nextPart want greedy claims part = nextPart want greedy claims' part := by
        rw [nextPart, nextPart, hu.length_eq, (hs.map fun i => part - want i).sum_eq]
      rw [level_next hnil, level_next hnil', hnext]
      exact ih _ (by rw [← hn]; exact length_filter_unsated_lt hnil) hu _ rfl

section order

variable [IsStrictOrderedRing K]

theorem le_nextPart (claims : List ι) (part : K) : part ≤ nextPart want greedy claims part := by
  rw [nextPart, le_add_iff_nonneg_right]
  refine div_nonneg (List.sum_nonneg fun x hx => ?_) (Nat.cast_nonneg _)
  obtain ⟨i, hi, rfl⟩ := List.mem_map.mp hx
  exact sub_nonneg.mpr (sated_iff.mp (List.mem_filter.mp hi).2).2

theorem le_level (claims : List ι) (part : K) : part ≤ level want greedy claims part := by
  induction hn : claims.length using Nat.strong_induction_on generalizing claims part with
  | _ n ih =>
    by_cases hnil : claims.filter (sated want greedy part) = []
    · rw [level_done hnil]
    · rw [level_next hnil]
      exact (le_nextPart claims part).trans
        (ih _ (by rw [← hn]; exact length_filter_unsated_lt hnil) _ _ rfl)

variable (want greedy) in
/-- Nobody takes more than there is, and all of it is taken when somebody is left. -/
theorem sum_take_level (claims : List ι) (part : K) :
    (claims.map (take want greedy (level want greedy claims part))).sum ≤ part * claims.length ∧
      ((∃ i ∈ claims, sated want greedy (level want greedy claims part) i = false) →
        (claims.map (take want greedy (level want greedy claims part))).sum = part * claims.length) := by
  induction hn : claims.length using Nat.strong_induction_on generalizing claims part with
  | _ n ih =>
    subst hn
    by_cases hnil : claims.filter (sated want greedy part) = []
    · -- Everybody takes the part.
      have htake : claims.map (take want greedy part) = claims.map fun _ => part := by
        refine List.map_congr_left fun i hi => ?_
        have := List.filter_eq_nil_iff.mp hnil i hi
        rw [take, if_neg this]
      rw [level_done hnil, htake, List.map_const', List.sum_replicate, nsmul_eq_mul, mul_comm]
      exact ⟨le_refl _, fun _ => rfl⟩
    · set rest := claims.filter fun i => !sated want greedy part i with hrest
      set gone := claims.filter (sated want greedy part) with hgone
      set next := nextPart want greedy claims part with hnext
      rw [level_next hnil]
      set L := level want greedy rest next with hL
      have hpart : part ≤ L := (le_nextPart claims part).trans (le_level rest next)
      obtain ⟨hle, heq⟩ := ih rest.length (length_filter_unsated_lt hnil) rest next rfl
      have hsplit := sum_filter_split (sated want greedy part) (take want greedy L) claims
      -- Who left before takes what it wants at the level too.
      have hgoneTake : gone.map (take want greedy L) = gone.map want := by
        refine List.map_congr_left fun i hi => ?_
        rw [take, if_pos (sated_mono hpart (List.mem_filter.mp hi).2)]
      have hlen : (claims.length : K) = gone.length + rest.length := by
        have := List.length_eq_length_filter_add (l := claims) (sated want greedy part)
        rw [hgone, hrest]
        exact_mod_cast this
      rw [← hgone, ← hrest, hgoneTake] at hsplit
      have hspare : (gone.map fun i => part - want i).sum = part * gone.length - (gone.map want).sum :=
        sum_map_sub_const gone part
      rcases Nat.eq_zero_or_pos rest.length with hzero | hpos
      · have hrestNil : rest = [] := List.length_eq_zero_iff.mp hzero
        have hnonneg : 0 ≤ (gone.map fun i => part - want i).sum := by
          refine List.sum_nonneg fun x hx => ?_
          obtain ⟨i, hi, rfl⟩ := List.mem_map.mp hx
          exact sub_nonneg.mpr (sated_iff.mp (List.mem_filter.mp hi).2).2
        rw [hsplit, hlen, hrestNil]
        simp only [List.map_nil, List.sum_nil, List.length_nil, Nat.cast_zero, add_zero]
        refine ⟨by linarith, ?_⟩
        rintro ⟨i, hi, hs⟩
        have hmem : i ∈ gone := by
          by_contra hg
          have : i ∈ rest := by
            rw [hrest, List.mem_filter]
            refine ⟨hi, ?_⟩
            cases hsi : sated want greedy part i
            · rfl
            · exact absurd (List.mem_filter.mpr ⟨hi, hsi⟩) hg
          rw [hrestNil] at this
          simp at this
        rw [sated_mono hpart (List.mem_filter.mp hmem).2] at hs
        cases hs
      · have hpos' : (0 : K) < (rest.length : K) := by exact_mod_cast hpos
        have hmul : next * rest.length = part * rest.length + (gone.map fun i => part - want i).sum := by
          rw [hnext, nextPart, ← hgone, ← hrest, add_mul, div_mul_cancel₀ _ (ne_of_gt hpos')]
        rw [hsplit, hlen]
        refine ⟨by linarith, ?_⟩
        rintro ⟨i, hi, hs⟩
        have hmem : i ∈ rest := by
          rw [hrest, List.mem_filter]
          refine ⟨hi, ?_⟩
          cases hsi : sated want greedy part i
          · rfl
          · rw [sated_mono hpart hsi] at hs; cases hs
        have := heq ⟨i, hmem, hs⟩
        linarith

theorem sated_of_fits {claims : List ι} {part : K} (hg : ∀ i ∈ claims, greedy i = false)
    (hfit : (claims.map want).sum ≤ part * claims.length) :
    ∀ i ∈ claims, sated want greedy (level want greedy claims part) i = true := by
  intro i hi
  by_contra hs
  rw [Bool.not_eq_true] at hs
  have heq := (sum_take_level want greedy claims part).2 ⟨i, hi, hs⟩
  -- Who is left wants more than it takes.
  have hlt : (claims.map (take want greedy (level want greedy claims part))).sum < (claims.map want).sum := by
    refine List.sum_lt_sum _ _ (fun j hj => ?_) ⟨i, hi, ?_⟩
    · rw [take]
      split <;> rename_i hsj
      · exact le_refl _
      · rw [sated_iff, not_and] at hsj
        exact le_of_lt (not_le.mp (hsj (hg j hj)))
    · rw [take, hs]
      rw [← Bool.not_eq_true, sated_iff, not_and] at hs
      simpa using hs (hg i hi)
  linarith

/-- What is poured out at a level: the level for the greedy, and no more than they want for the
others. -/
def poured (want : ι → K) (greedy : ι → Bool) (claims : List ι) (part : K) : K :=
  (claims.map fun i => if greedy i then part else min (want i) part).sum

omit [Field K] [IsStrictOrderedRing K] in
theorem take_eq (part : K) (i : ι) :
    take want greedy part i = if greedy i then part else min (want i) part := by
  unfold take
  cases hg : greedy i
  · by_cases hw : want i ≤ part
    · rw [if_pos (sated_iff.mpr ⟨hg, hw⟩), min_eq_left hw]
      simp
    · rw [if_neg (fun h => hw (sated_iff.mp h).2), min_eq_right (not_le.mp hw).le]
      simp
  · rw [if_neg (by simp [sated, hg]), if_pos rfl]

omit [IsStrictOrderedRing K] in
theorem sum_take (claims : List ι) (part : K) :
    (claims.map (take want greedy part)).sum = poured want greedy claims part := by
  rw [poured, List.map_congr_left fun i _ => take_eq part i]

theorem poured_lt {claims : List ι} {part part' : K} (h : part < part')
    (hleft : ∃ i ∈ claims, sated want greedy part i = false) :
    poured want greedy claims part < poured want greedy claims part' := by
  refine List.sum_lt_sum _ _ (fun i _ => ?_) ?_
  · split
    · exact h.le
    · exact min_le_min_left _ h.le
  · obtain ⟨i, hi, hs⟩ := hleft
    refine ⟨i, hi, ?_⟩
    cases hg : greedy i
    · have hlt : part < want i := by
        by_contra hle
        rw [sated_iff.mpr ⟨hg, not_lt.mp hle⟩] at hs
        cases hs
      simp only [Bool.false_eq_true, if_false]
      rw [min_eq_right hlt.le, lt_min_iff]
      exact ⟨hlt, h⟩
    · simpa using h

/-- At most one level pours out what there is while somebody wants more. -/
theorem eq_of_poured {claims : List ι} {part part' : K}
    (h : poured want greedy claims part = poured want greedy claims part')
    (hleft : ∃ i ∈ claims, sated want greedy part i = false) : part' = part := by
  rcases lt_trichotomy part part' with hlt | rfl | hlt
  · exact absurd h (ne_of_lt (poured_lt hlt hleft))
  · rfl
  · obtain ⟨i, hi, hs⟩ := hleft
    have hs' : sated want greedy part' i = false := by
      rw [Bool.eq_false_iff] at hs ⊢
      exact mt (sated_mono hlt.le) hs
    exact absurd h.symm (ne_of_lt (poured_lt hlt ⟨i, hi, hs'⟩))

end order

end WaterFilling

/-! ## The least of a list -/

section least

variable {K : Type} [LinearOrder K]

def least (l : List K) : Option K :=
  l.foldl (fun o x => some (match o with
    | none => x
    | some y => min y x)) none

@[simp] theorem least_nil : least ([] : List K) = none := rfl

theorem least_append (l : List K) (x : K) :
    least (l ++ [x]) = some (match least l with
      | none => x
      | some y => min y x) := by
  rw [least, List.foldl_append]
  rfl

theorem least_eq_none {l : List K} : least l = none ↔ l = [] := by
  induction l using List.reverseRecOn with
  | nil => simp
  | append_singleton l x _ => simp [least_append]

theorem least_eq_some {l : List K} {y : K} : least l = some y ↔ y ∈ l ∧ ∀ x ∈ l, y ≤ x := by
  induction l using List.reverseRecOn generalizing y with
  | nil => simp
  | append_singleton l x ih =>
    rw [least_append]
    cases hl : least l with
    | none =>
      rw [least_eq_none.mp hl]
      simp only [Option.some.injEq, List.nil_append, List.mem_singleton, forall_eq]
      exact ⟨fun h => ⟨h.symm, le_of_eq h.symm⟩, fun h => h.1.symm⟩
    | some z =>
      obtain ⟨hz, hmin⟩ := ih.mp hl
      simp only [Option.some.injEq, List.mem_append, List.mem_singleton]
      constructor
      · rintro rfl
        refine ⟨?_, ?_⟩
        · rcases le_total z x with h | h
          · rw [min_eq_left h]; exact Or.inl hz
          · rw [min_eq_right h]; exact Or.inr rfl
        · rintro w (hw | rfl)
          · exact (min_le_left _ _).trans (hmin w hw)
          · exact min_le_right _ _
      · rintro ⟨hy, hall⟩
        apply le_antisymm
        · rcases hy with hy | rfl
          · exact (min_le_left _ _).trans (hmin y hy)
          · exact min_le_right _ _
        · exact le_min (hall z (Or.inl hz)) (hall x (Or.inr rfl))

theorem least_congr {l l' : List K} (h : ∀ x, x ∈ l ↔ x ∈ l') : least l = least l' := by
  apply Option.ext
  intro y
  rw [least_eq_some, least_eq_some, h]
  simp only [h]

end least

end Kollaps
