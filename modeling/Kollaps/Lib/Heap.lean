import Mathlib.Data.Nat.Factorial.Basic
import Mathlib.GroupTheory.Perm.List

/-!
# Heap's algorithm

All arrangements of the first `n` places, each from the one before by an exchange of two places.
An exchange puts something new at the last place, and then the places before it are arranged anew.
-/

namespace Kollaps

namespace Heap

/-- The exchange with place `i` after the places below it were arranged for the `c`-th time. -/
def exchange (i c : Nat) : Nat × Nat := (if i % 2 = 0 then 0 else c, i)

/-- The exchanges for the first `n` places. -/
def turns : Nat → List (Nat × Nat)
  | 0 => []
  | i + 1 => turns i ++ (List.range i).flatMap fun c => exchange i c :: turns i

/-- Which place the content of each place comes from, after some exchanges. -/
def arrange (l : List (Nat × Nat)) : Equiv.Perm Nat := (l.map fun p => Equiv.swap p.1 p.2).prod

@[simp] theorem arrange_nil : arrange [] = 1 := rfl

@[simp] theorem arrange_cons (p : Nat × Nat) (l : List (Nat × Nat)) :
    arrange (p :: l) = Equiv.swap p.1 p.2 * arrange l := rfl

@[simp] theorem arrange_append (l l' : List (Nat × Nat)) : arrange (l ++ l') = arrange l * arrange l' := by
  simp [arrange]

theorem length_turns (n : Nat) : (turns n).length + 1 = n.factorial := by
  induction n with
  | zero => rfl
  | succ i ih =>
    rw [turns, List.length_append, List.length_flatMap]
    simp only [List.length_cons, List.map_const', List.length_range, List.sum_replicate_nat, ih]
    rw [Nat.factorial_succ, Nat.succ_mul, ← ih]
    omega

theorem lt_of_mem_turns {n : Nat} {p : Nat × Nat} (h : p ∈ turns n) : p.1 < n ∧ p.2 < n := by
  induction n with
  | zero => cases h
  | succ i ih =>
    have hlt := fun h => (ih h).imp Nat.lt_succ_of_lt Nat.lt_succ_of_lt
    rw [turns, List.mem_append, List.mem_flatMap] at h
    rcases h with h | ⟨c, hc, h⟩
    · exact hlt h
    · rw [List.mem_range] at hc
      rcases List.mem_cons.mp h with rfl | h
      · refine ⟨?_, Nat.lt_succ_self i⟩
        unfold exchange
        split <;> omega
      · exact hlt h

/-! ## Arrangements of the first places -/

def Within (n : Nat) (σ : Equiv.Perm Nat) : Prop := ∀ i, n ≤ i → σ i = i

variable {n i j : Nat} {σ τ : Equiv.Perm Nat}

theorem Within.mul (h : Within n σ) (h' : Within n τ) : Within n (σ * τ) := fun i hi => by
  rw [Equiv.Perm.mul_apply, h' i hi, h i hi]

theorem Within.inv (h : Within n σ) : Within n σ⁻¹ := fun i hi => by
  rw [Equiv.Perm.inv_eq_iff_eq, h i hi]

theorem within_swap {a b : Nat} (ha : a < n) (hb : b < n) : Within n (Equiv.swap a b) := fun i hi =>
  Equiv.swap_apply_of_ne_of_ne (by omega) (by omega)

theorem within_arrange {l : List (Nat × Nat)} (h : ∀ p ∈ l, p.1 < n ∧ p.2 < n) : Within n (arrange l) := by
  induction l with
  | nil => exact fun _ _ => rfl
  | cons p l ih =>
    rw [List.forall_mem_cons] at h
    rw [arrange_cons]
    exact (within_swap h.1.1 h.1.2).mul (ih h.2)

theorem Within.lt (h : Within n σ) (hi : i < n) : σ i < n := by
  by_contra hle
  have := σ.injective (h (σ i) (Nat.le_of_not_lt hle))
  omega

theorem Within.perm (h : Within n σ) : ((List.range n).map σ).Perm (List.range n) := by
  refine (List.subperm_of_subset (List.nodup_range.map σ.injective) fun x hx => ?_).perm_of_length_le
    (by simp)
  obtain ⟨i, hi, rfl⟩ := List.mem_map.mp hx
  exact List.mem_range.mpr (h.lt (List.mem_range.mp hi))

def rounds (i j : Nat) : Equiv.Perm Nat :=
  arrange (turns i ++ (List.range j).flatMap fun c => exchange i c :: turns i)

theorem rounds_zero : rounds i 0 = arrange (turns i) := by simp [rounds]

theorem rounds_succ : rounds i (j + 1) =
    rounds i j * Equiv.swap (exchange i j).1 i * arrange (turns i) := by
  simp [rounds, List.range_succ, mul_assoc, exchange]

theorem arrange_turns_succ : arrange (turns (i + 1)) = rounds i i := rfl

/-! ## What comes to the last place -/

/-- The arrangements that the exchanges go through. -/
def Visited (n : Nat) (σ : Equiv.Perm Nat) : Prop := ∃ pre, pre <+: turns n ∧ arrange pre = σ

/-- Where everything comes to the last place once, all arrangements are gone through. -/
theorem visited_succ (hvisited : ∀ σ, Within i σ → Visited i σ)
    (hlast : ∀ x, x < i → ∃ j, j < i ∧ rounds i j (exchange i j).1 = x) (h : Within (i + 1) σ) :
    Visited (i + 1) σ := by
  by_cases hfix : σ i = i
  · obtain ⟨pre, hpre, hσ⟩ := hvisited σ fun m hm => by
      rcases Nat.lt_or_eq_of_le hm with hm | rfl
      · exact h m hm
      · exact hfix
    exact ⟨pre, hpre.trans (List.prefix_append _ _), hσ⟩
  · have hx : σ i < i := by
      have := h.lt (Nat.lt_succ_self i)
      omega
    obtain ⟨j, hj, hjx⟩ := hlast (σ i) hx
    -- The exchange after `j` rounds brings what is at the last place in `σ`.
    have hexchange : (exchange i j).1 < i + 1 := by
      unfold exchange
      split <;> omega
    have hrounds : Within (i + 1) (rounds i j) := by
      refine within_arrange fun p hp => ?_
      rw [List.mem_append, List.mem_flatMap] at hp
      rcases hp with hp | ⟨c, hc, hp⟩
      · exact lt_of_mem_turns (List.mem_append_left _ hp)
      · refine lt_of_mem_turns (List.mem_append_right _ (List.mem_flatMap.mpr ⟨c, ?_, hp⟩))
        rw [List.mem_range] at hc ⊢
        omega
    have hbefore := hrounds.mul (within_swap hexchange (Nat.lt_succ_self i))
    obtain ⟨pre, hpre, hσ⟩ := hvisited ((rounds i j * Equiv.swap (exchange i j).1 i)⁻¹ * σ) fun m hm => by
      rcases Nat.lt_or_eq_of_le hm with hm | rfl
      · exact hbefore.inv.mul h m hm
      · rw [Equiv.Perm.mul_apply, Equiv.Perm.inv_eq_iff_eq, Equiv.Perm.mul_apply, Equiv.swap_apply_right, hjx]
    refine ⟨turns i ++ ((List.range j).flatMap fun c => exchange i c :: turns i) ++ exchange i j ::
      pre, ?_, ?_⟩
    · obtain ⟨rest, hrest⟩ := hpre
      have hrange : List.range i = List.range j ++ j :: List.range' (j + 1) (i - (j + 1)) := by
        rw [List.range_eq_range', List.range_eq_range', ← List.range'_succ,
          show i - (j + 1) + 1 = i - j by omega,
          show List.range' j (i - j) = List.range' (0 + 1 * j) (i - j) by simp, List.range'_append]
        congr 1
        omega
      refine ⟨rest ++ (List.range' (j + 1) (i - (j + 1))).flatMap fun c => exchange i c :: turns i, ?_⟩
      conv_rhs => rw [turns, hrange]
      rw [List.flatMap_append, List.flatMap_cons]
      conv_rhs => rw [show exchange i j :: turns i = exchange i j :: (pre ++ rest) by rw [hrest]]
      simp only [List.append_assoc, List.cons_append]
    · rw [arrange_append, arrange_cons, hσ]
      show rounds i j * (Equiv.swap (exchange i j).1 i * _) = σ
      rw [← mul_assoc, mul_inv_cancel_left]

/-- An odd number of places: the rounds exchange the first place and the last. -/
def Exchanges (i : Nat) : Prop := arrange (turns i) = Equiv.swap 0 (i - 1)

/-- An even number of places: the rounds shift all of them along one cycle. -/
def Shifts (i : Nat) : Prop :=
  ∃ rest, (0 :: rest).Perm (List.range i) ∧ arrange (turns i) = (0 :: rest).formPerm

theorem rounds_of_cycle {rest : List Nat} (hi : i % 2 = 0) (hcycle : arrange (turns i) = (0 :: rest).formPerm)
    (j : Nat) : rounds i j = Equiv.swap 0 i * (i :: 0 :: rest).formPerm ^ (j + 1) := by
  have hround : Equiv.swap 0 i * arrange (turns i) = (i :: 0 :: rest).formPerm := by
    rw [List.formPerm_cons_cons, hcycle, Equiv.swap_comm]
  induction j with
  | zero => rw [rounds_zero, Nat.zero_add, pow_one, ← hround, Equiv.swap_mul_self_mul]
  | succ j ih =>
    have hexchange : (exchange i j).1 = 0 := if_pos hi
    rw [rounds_succ, ih, hexchange, mul_assoc, hround, mul_assoc, ← pow_succ]

theorem Shifts.cycle {rest : List Nat} (hperm : (0 :: rest).Perm (List.range i)) :
    (i :: 0 :: rest).Nodup ∧ (i :: 0 :: rest).length = i + 1 ∧ ∀ x, x ≤ i → x ∈ i :: 0 :: rest := by
  refine ⟨List.nodup_cons.mpr ⟨?_, hperm.nodup_iff.mpr List.nodup_range⟩, ?_, fun x hx => ?_⟩
  · rw [hperm.mem_iff, List.mem_range]
    exact Nat.lt_irrefl i
  · rw [List.length_cons, hperm.length_eq, List.length_range]
  · rw [List.mem_cons, hperm.mem_iff, List.mem_range]
    omega

theorem Shifts.exchanges (hi : i % 2 = 0) (h : Shifts i) : Exchanges (i + 1) := by
  obtain ⟨rest, hperm, hcycle⟩ := h
  obtain ⟨hnodup, hlen, -⟩ := Shifts.cycle hperm
  have hone := List.formPerm_pow_length_eq_one_of_nodup _ hnodup
  rw [hlen] at hone
  rw [Exchanges, arrange_turns_succ, rounds_of_cycle hi hcycle, hone, mul_one, Nat.add_sub_cancel]

theorem Shifts.last (hi : i % 2 = 0) (h : Shifts i) {x : Nat} (hx : x < i) :
    ∃ j, j < i ∧ rounds i j (exchange i j).1 = x := by
  obtain ⟨rest, hperm, hcycle⟩ := h
  obtain ⟨hnodup, hlen, hmem⟩ := Shifts.cycle hperm
  obtain ⟨m, hm, hget⟩ := List.getElem_of_mem (hmem (Equiv.swap 0 i x)
    (Nat.lt_succ_iff.mp ((within_swap (Nat.succ_pos i) (Nat.lt_succ_self i)).lt (Nat.lt_succ_of_lt hx))))
  have hm1 : m ≠ 1 := by
    rintro rfl
    have hzero : Equiv.swap 0 i x = 0 := hget.symm
    rw [Equiv.swap_apply_eq_iff, Equiv.swap_apply_left] at hzero
    omega
  have hat : ∀ j, (1 + (j + 1)) % (i + 1) = m → rounds i j (exchange i j).1 = x := by
    intro j hj
    have hexchange : (exchange i j).1 = 0 := if_pos hi
    have hpow := List.formPerm_pow_apply_getElem _ hnodup (j + 1) 1 (by rw [hlen]; omega)
    simp only [hlen, hj, hget] at hpow
    rw [hexchange, rounds_of_cycle hi hcycle, Equiv.Perm.mul_apply]
    exact (congrArg _ hpow).trans (Equiv.swap_apply_self 0 i x)
  rw [hlen] at hm
  by_cases hm0 : m = 0
  · refine ⟨i - 1, by omega, hat _ ?_⟩
    rw [show 1 + (i - 1 + 1) = i + 1 by omega, Nat.mod_self, hm0]
  · refine ⟨m - 2, by omega, hat _ ?_⟩
    rw [show 1 + (m - 2 + 1) = m by omega, Nat.mod_eq_of_lt hm]

/-- The places below `j`, one after the other, exchanged with place `i`. -/
def star (i j : Nat) : Equiv.Perm Nat := arrange ((List.range j).map fun c => (c, i))

theorem star_succ : star i (j + 1) = star i j * Equiv.swap j i := by
  simp [star, List.range_succ]

theorem star_apply (hj : j < i) {c : Nat} (hc : c ≤ j) : star i c j = j := by
  induction c with
  | zero => rfl
  | succ c ih =>
    rw [star_succ, Equiv.Perm.mul_apply, Equiv.swap_apply_of_ne_of_ne (by omega) (by omega), ih (by omega)]

theorem mul_formPerm (σ : Equiv.Perm Nat) (l : List Nat) : σ * l.formPerm = (l.map σ).formPerm * σ := by
  induction l with
  | nil => rw [List.map_nil, List.formPerm_nil, mul_one, one_mul]
  | cons x l ih =>
    cases l with
    | nil => rw [List.map_singleton, List.formPerm_singleton, List.formPerm_singleton, mul_one, one_mul]
    | cons y l =>
      rw [List.formPerm_cons_cons, ← mul_assoc, Equiv.mul_swap_eq_swap_mul, mul_assoc, ih, ← mul_assoc]
      rfl

theorem star_eq (hj : j ≤ i) : star i j = (i :: (List.range j).reverse).formPerm := by
  induction j with
  | zero => rfl
  | succ j ih =>
    have hmap : (i :: (List.range j).reverse).map (Equiv.swap j i) = j :: (List.range j).reverse := by
      rw [List.map_cons, Equiv.swap_apply_right]
      refine congrArg _ ((List.map_congr_left fun x hx => ?_).trans (List.map_id _))
      rw [List.mem_reverse, List.mem_range] at hx
      exact Equiv.swap_apply_of_ne_of_ne (by omega) (by omega)
    have hconj := mul_formPerm (Equiv.swap j i) (i :: (List.range j).reverse)
    rw [hmap] at hconj
    rw [star_succ, ih (by omega), List.range_succ, List.reverse_append, List.reverse_singleton,
      List.singleton_append, List.formPerm_cons_cons, Equiv.swap_comm i j]
    calc (i :: (List.range j).reverse).formPerm * Equiv.swap j i
        = Equiv.swap j i * (Equiv.swap j i * (i :: (List.range j).reverse).formPerm) * Equiv.swap j i := by
          rw [Equiv.swap_mul_self_mul]
      _ = Equiv.swap j i * (j :: (List.range j).reverse).formPerm := by
          rw [hconj, mul_assoc, mul_assoc, Equiv.swap_mul_self, mul_one]

theorem swap_pow_apply (hi : i % 2 = 1) (j : Nat) : (Equiv.swap 0 (i - 1) ^ j) j = j := by
  by_cases hlast : j = i - 1
  · obtain ⟨m, hm⟩ : ∃ m, j = 2 * m := ⟨j / 2, by omega⟩
    have hone : Equiv.swap 0 (i - 1) ^ j = 1 := by
      rw [hm, pow_mul, pow_two, Equiv.swap_mul_self, one_pow]
    rw [hone]
    rfl
  · by_cases hzero : j = 0
    · rw [hzero, pow_zero]
      rfl
    · exact Equiv.Perm.pow_apply_eq_self_of_apply_eq_self
        (Equiv.swap_apply_of_ne_of_ne hzero hlast) j

theorem rounds_of_exchanges (hi : i % 2 = 1) (h : Exchanges i) (hj : j ≤ i) :
    rounds i j = Equiv.swap 0 (i - 1) * star i j * Equiv.swap 0 (i - 1) ^ j := by
  induction j with
  | zero => rw [rounds_zero, h, pow_zero, mul_one, star, List.range_zero, List.map_nil, arrange_nil, mul_one]
  | succ j ih =>
    have hexchange : (exchange i j).1 = j := if_neg (by omega)
    have hfix : (Equiv.swap 0 (i - 1) ^ j) i = i :=
      Equiv.Perm.pow_apply_eq_self_of_apply_eq_self
        (Equiv.swap_apply_of_ne_of_ne (by omega) (by omega)) j
    have hcomm : Equiv.swap 0 (i - 1) ^ j * Equiv.swap j i =
        Equiv.swap j i * Equiv.swap 0 (i - 1) ^ j := by
      rw [Equiv.mul_swap_eq_swap_mul, swap_pow_apply hi, hfix]
    rw [rounds_succ, ih (by omega), hexchange, h, star_succ, pow_succ, mul_assoc _ (_ ^ j), hcomm]
    simp only [mul_assoc]

/-- Each place below is exchanged with the last one once, and has its own content then, up to the
exchange of the first and the last of them. -/
theorem Exchanges.last (hi : i % 2 = 1) (h : Exchanges i) {x : Nat} (hx : x < i) :
    ∃ j, j < i ∧ rounds i j (exchange i j).1 = x := by
  have hj := (within_swap (show 0 < i by omega) (show i - 1 < i by omega)).lt hx
  refine ⟨Equiv.swap 0 (i - 1) x, hj, ?_⟩
  have hexchange : (exchange i (Equiv.swap 0 (i - 1) x)).1 = Equiv.swap 0 (i - 1) x := if_neg (by omega)
  rw [hexchange, rounds_of_exchanges hi h (Nat.le_of_lt hj), Equiv.Perm.mul_apply, Equiv.Perm.mul_apply,
    swap_pow_apply hi, star_apply hj (Nat.le_refl _), Equiv.swap_apply_self]

theorem Exchanges.shifts (hi : i % 2 = 1) (h : Exchanges i) : Shifts (i + 1) := by
  obtain ⟨m, rfl⟩ : ∃ m, i = m + 1 := ⟨i - 1, by omega⟩
  have hpow : Equiv.swap 0 m ^ (m + 1) = Equiv.swap 0 m := by
    obtain ⟨k, hk⟩ : ∃ k, m = 2 * k := ⟨m / 2, by omega⟩
    conv_lhs => rw [pow_succ, hk, pow_mul, pow_two, Equiv.swap_mul_self, one_pow, one_mul, ← hk]
  have hturns : arrange (turns (m + 1 + 1)) =
      (((m + 1) :: (List.range (m + 1)).reverse).map (Equiv.swap 0 m)).formPerm := by
    rw [arrange_turns_succ, rounds_of_exchanges hi h (Nat.le_refl _), Nat.add_sub_cancel, hpow,
      star_eq (Nat.le_refl _), mul_formPerm, mul_assoc, Equiv.swap_mul_self, mul_one]
  have hmap : ((m + 1) :: (List.range (m + 1)).reverse).map (Equiv.swap 0 m) =
      (m + 1) :: 0 :: (List.range m).reverse.map (Equiv.swap 0 m) := by
    rw [List.range_succ, List.reverse_append, List.reverse_singleton, List.singleton_append, List.map_cons,
      List.map_cons, Equiv.swap_apply_right, Equiv.swap_apply_of_ne_of_ne (by omega) (by omega)]
  have hperm : (((m + 1) :: (List.range (m + 1)).reverse).map (Equiv.swap 0 m)).Perm
    (List.range (m + 2)) := by
    rw [← List.singleton_append, ← List.reverse_singleton, ← List.reverse_append, ← List.range_succ]
    exact ((List.reverse_perm _).map _).trans (within_swap (by omega) (by omega)).perm
  rw [hmap] at hturns hperm
  -- The cycle that is read from its second place on.
  refine ⟨(List.range m).reverse.map (Equiv.swap 0 m) ++ [m + 1], ?_, ?_⟩
  · exact (List.perm_append_singleton (m + 1) (0 :: _)).trans hperm
  · rw [hturns, ← List.formPerm_rotate_one _ (hperm.nodup_iff.mpr List.nodup_range)]
    rfl

theorem exchanges_or_shifts (n : Nat) : (n % 2 = 1 → Exchanges n) ∧ (n % 2 = 0 → 0 < n → Shifts n) := by
  induction n with
  | zero => simp
  | succ i ih =>
    constructor
    · intro hi
      by_cases hzero : i = 0
      · subst hzero
        exact (Equiv.swap_self 0).symm
      · exact (ih.2 (by omega) (by omega)).exchanges (by omega)
    · intro hi _
      exact (ih.1 (by omega)).shifts (by omega)

theorem visited_of_within (h : Within n σ) : Visited n σ := by
  induction n generalizing σ with
  | zero => exact ⟨[], List.prefix_rfl, Equiv.ext fun i => (h i (Nat.zero_le i)).symm⟩
  | succ i ih =>
    refine visited_succ (fun σ => ih) (fun x hx => ?_) h
    have hturns := exchanges_or_shifts i
    by_cases hi : i % 2 = 0
    · exact (hturns.2 hi (by omega)).last hi hx
    · exact (hturns.1 (by omega)).last (by omega) hx

/-! ## The counters -/

/-- What is left of the turns of `k` places when the places below `i` are arranged, and each place
`j` from `i` on has been exchanged `counter[j]` times. -/
def upcoming (counter : List Nat) (k i : Nat) : List (Nat × Nat) :=
  (List.range' i (k - i)).flatMap fun j =>
    (List.range' (counter.getD j 0) (j - counter.getD j 0)).flatMap fun c => exchange j c :: turns j

variable {counter : List Nat} {k : Nat}

theorem upcoming_of_le (h : k ≤ i) : upcoming counter k i = [] := by
  rw [upcoming, Nat.sub_eq_zero_of_le h]
  rfl

theorem upcoming_of_lt (h : i < k) : upcoming counter k i =
    ((List.range' (counter.getD i 0) (i - counter.getD i 0)).flatMap fun c => exchange i c :: turns i) ++
      upcoming counter k (i + 1) := by
  rw [upcoming, show k - i = k - (i + 1) + 1 by omega, List.range'_succ, List.flatMap_cons]
  rfl

theorem upcoming_set (h : j < i) (x : Nat) : upcoming (counter.set j x) k i = upcoming counter k i := by
  unfold upcoming
  refine List.flatMap_congr fun m hm => ?_
  rw [List.mem_range'_1] at hm
  rw [List.getD_eq_getElem?_getD, List.getElem?_set_ne (by omega), ← List.getD_eq_getElem?_getD]

theorem upcoming_one (hi : 0 < i) (hk : i ≤ k) (hzero : ∀ j, j < i → counter.getD j 0 = 0) :
    upcoming counter k 1 = turns i ++ upcoming counter k i := by
  induction i with
  | zero => omega
  | succ i ih =>
    by_cases hi0 : i = 0
    · rw [hi0]
      rfl
    · rw [ih (by omega) (by omega) fun j hj => hzero j (by omega), upcoming_of_lt (by omega),
        hzero i (by omega), Nat.sub_zero, ← List.range_eq_range', turns, List.append_assoc]

theorem upcoming_exchange (hi : 0 < i) (hk : i < k) (hcounter : counter.getD i 0 < i)
    (hlen : i < counter.length) (hzero : ∀ j, j < i → counter.getD j 0 = 0) :
    upcoming counter k i = exchange i (counter.getD i 0) ::
      upcoming (counter.set i (counter.getD i 0 + 1)) k 1 := by
  have hzero' : ∀ j, j < i → (counter.set i (counter.getD i 0 + 1)).getD j 0 = 0 := by
    intro j hj
    rw [List.getD_eq_getElem?_getD, List.getElem?_set_ne (by omega), ← List.getD_eq_getElem?_getD, hzero j hj]
  have hself : (counter.set i (counter.getD i 0 + 1)).getD i 0 = counter.getD i 0 + 1 := by
    rw [List.getD_eq_getElem?_getD, List.getElem?_set_self hlen, Option.getD_some]
  rw [upcoming_one hi (by omega) hzero', upcoming_of_lt hk, upcoming_of_lt hk, hself,
    upcoming_set (Nat.lt_succ_self i), show i - counter.getD i 0 = i - (counter.getD i 0 + 1) + 1 by omega,
    List.range'_succ, List.flatMap_cons]
  simp only [List.cons_append, List.append_assoc]

end Heap

end Kollaps
