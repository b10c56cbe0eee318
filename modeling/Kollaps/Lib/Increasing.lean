import Mathlib.Data.List.Lex
import Mathlib.Data.Nat.Digits.Defs

/-!
# Combinations in lexicographic order

A combination of the numbers up to `n` is an increasing list of them. The next one of its length
is found at the last number that can still grow.
-/

namespace Kollaps

/-- A combination of the numbers up to `n`. -/
structure Increasing (n : Nat) (l : List Nat) : Prop where
  lt : l.Pairwise (· < ·)
  le : ∀ v ∈ l, v ≤ n

namespace Increasing

variable {n : Nat} {l : List Nat}

theorem tail {x : Nat} (h : Increasing n (x :: l)) : Increasing n l :=
  ⟨h.lt.of_cons, fun v hv => h.le v (List.mem_cons_of_mem _ hv)⟩

theorem of_append {pre : List Nat} (h : Increasing n (pre ++ l)) : Increasing n l :=
  ⟨(List.pairwise_append.mp h.lt).2.1, fun v hv => h.le v (List.mem_append_right _ hv)⟩

theorem add_length_le {x : Nat} (h : Increasing n (x :: l)) : x + l.length ≤ n := by
  induction l generalizing x with
  | nil => exact h.le x List.mem_cons_self
  | cons y l ih =>
    have hxy := (List.pairwise_cons.mp h.lt).1 y List.mem_cons_self
    have := ih h.tail
    rw [List.length_cons]
    omega

theorem not_lt_range' (h : Increasing n l) {lo : Nat} (hlo : ∀ v ∈ l, lo ≤ v) :
    ¬ l < List.range' lo l.length := by
  induction l generalizing lo with
  | nil => exact List.not_lt_nil _
  | cons x l ih =>
    rw [List.length_cons, List.range'_succ, List.cons_lt_cons_iff]
    rintro (hlt | ⟨rfl, hlt⟩)
    · exact absurd (hlo x List.mem_cons_self) (Nat.not_le_of_lt hlt)
    · exact ih h.tail (fun v hv => (List.pairwise_cons.mp h.lt).1 v hv) hlt

theorem not_range'_lt (h : Increasing n l) : ¬ List.range' (n + 1 - l.length) l.length < l := by
  induction l with
  | nil => exact List.not_lt_nil _
  | cons x l ih =>
    have hle := h.add_length_le
    rw [List.length_cons, List.range'_succ, List.cons_lt_cons_iff]
    rintro (hlt | ⟨-, hlt⟩)
    · omega
    · refine ih h.tail ?_
      rwa [show n + 1 - (l.length + 1) + 1 = n + 1 - l.length by omega] at hlt

theorem lt_next (pre tail : List Nat) (a r : Nat) :
    pre ++ a :: tail < pre ++ List.range' (a + 1) (r + 1) := by
  induction pre with
  | nil =>
    rw [List.nil_append, List.nil_append, List.range'_succ, List.cons_lt_cons_iff]
    exact Or.inl (Nat.lt_succ_self a)
  | cons x pre ih =>
    rw [List.cons_append, List.cons_append, List.cons_lt_cons_iff]
    exact Or.inr ⟨rfl, ih⟩

/-- There is nothing between a combination and the next one. -/
theorem not_lt_next (h : Increasing n l) {pre : List Nat} {a r : Nat} (hlen : l.length = pre.length + 1 + r)
    (hlt : pre ++ a :: List.range' (n + 1 - r) r < l) : ¬ l < pre ++ List.range' (a + 1) (r + 1) := by
  induction pre generalizing l with
  | nil =>
    cases l with
    | nil => exact absurd hlt (List.not_lt_nil _)
    | cons b l =>
      have hl : l.length = r := by simpa [Nat.add_comm] using hlen
      subst hl
      rw [List.nil_append, List.cons_lt_cons_iff] at hlt
      rw [List.nil_append, List.range'_succ, List.cons_lt_cons_iff]
      have hb : a < b := hlt.resolve_right fun hmax => h.tail.not_range'_lt hmax.2
      rintro (hlt' | ⟨rfl, hlt'⟩)
      · omega
      · exact h.tail.not_lt_range' (fun v hv => (List.pairwise_cons.mp h.lt).1 v hv) hlt'
  | cons x pre ih =>
    cases l with
    | nil => exact absurd hlt (List.not_lt_nil _)
    | cons y l =>
      rw [List.cons_append, List.cons_lt_cons_iff] at hlt ⊢
      rintro (hlt' | ⟨rfl, hlt'⟩)
      · omega
      · refine ih h.tail ?_ (hlt.resolve_left (Nat.lt_irrefl _)).2 hlt'
        simp only [List.length_cons] at hlen
        omega

theorem next {pre : List Nat} {a r : Nat} (h : Increasing n (pre ++ a :: List.range' (n + 1 - r) r))
    (har : a + r < n) : Increasing n (pre ++ List.range' (a + 1) (r + 1)) := by
  have hlt := List.pairwise_append.mp h.lt
  refine ⟨List.pairwise_append.mpr ⟨hlt.1, List.pairwise_lt_range', fun x hx y hy => ?_⟩, fun v hv => ?_⟩
  · have := hlt.2.2 x hx a List.mem_cons_self
    rw [List.mem_range'_1] at hy
    omega
  · rcases List.mem_append.mp hv with hv | hv
    · exact h.le v (List.mem_append_left _ hv)
    · rw [List.mem_range'_1] at hv
      omega

/-! ## Counting the steps -/

/-- A combination read as a number. -/
def value (n : Nat) (l : List Nat) : Nat := Nat.ofDigits (n + 2) l.reverse

theorem value_lt (h : Increasing n l) : value n l < (n + 2) ^ l.length := by
  unfold value
  rw [← List.length_reverse]
  refine Nat.ofDigits_lt_base_pow_length (by omega) fun x hx => ?_
  have := h.le x (List.mem_reverse.mp hx)
  omega

theorem value_lt_next {pre : List Nat} {a r : Nat}
    (h : Increasing n (pre ++ a :: List.range' (n + 1 - r) r)) :
    value n (pre ++ a :: List.range' (n + 1 - r) r) < value n (pre ++ List.range' (a + 1) (r + 1)) := by
  have hlt : Nat.ofDigits (n + 2) (List.range' (n + 1 - r) r).reverse < (n + 2) ^ r := by
    have hdigits := Nat.ofDigits_lt_base_pow_length (l := (List.range' (n + 1 - r) r).reverse)
      (show 1 < n + 2 by omega) fun x hx => by
        have := h.le x (List.mem_append_right _ (List.mem_cons_of_mem _ (List.mem_reverse.mp hx)))
        omega
    rwa [List.length_reverse, List.length_range'] at hdigits
  unfold value
  rw [List.range'_succ]
  simp only [List.reverse_append, List.reverse_cons, List.append_assoc, List.singleton_append,
    Nat.ofDigits_append, Nat.ofDigits_cons, List.length_reverse, List.length_range']
  generalize (n + 2) * Nat.ofDigits (n + 2) pre.reverse = high
  have hgrow : (n + 2) ^ r * (a + 1 + high) = (n + 2) ^ r * (a + high) + (n + 2) ^ r := by
    rw [Nat.add_right_comm, Nat.mul_add, Nat.mul_one]
  omega

end Increasing

end Kollaps
