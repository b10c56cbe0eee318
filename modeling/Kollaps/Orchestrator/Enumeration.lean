import Kollaps.Orchestrator.Exhaustive

/-!
# The enumeration of the combinations

The search calls `next_comb` from the first combination on until it returns `None`. With as many
slots as elements the first call panics, and with more slots the last combination is left out.
-/

namespace Kollaps

open Run

namespace Orchestrator

variable {m n k : Nat}

/-- The combinations from `comb` on that the search comes to. -/
def visited (k n : Nat) : (fuel : Nat) → (comb : List Nat) → Run (List (List Nat))
  | 0, _ => .error .diverge
  | fuel + 1, comb => do
    match ← nextComb comb k n with
    | none => pure [comb]
    | some next => return comb :: (← visited k n fuel next)

/-- A strictly increasing `k`-tuple of the slots `0 .. m`. -/
structure Choice (m k : Nat) (comb : List Nat) : Prop where
  length : comb.length = k
  lt : comb.Pairwise (· < ·)
  slots : ∀ v ∈ comb, v < m

theorem Choice.increasing {comb : List Nat} (h : Choice m k comb) : Increasing (m - 1) comb :=
  ⟨h.lt, fun v hv => Nat.le_sub_one_of_lt (h.slots v hv)⟩

/-- The calls of the search for `m` slots end, and come to every choice once, in lexicographic order. -/
def Enumerates (m k : Nat) : Prop :=
  ∃ fuel, Returns (visited k (m - 1) fuel (List.range k)) fun combs =>
    combs.Pairwise (· < ·) ∧ ∀ comb, comb ∈ combs ↔ Choice m k comb

/-! ## What is visited -/

theorem visited_returns (hk : 0 < k) (hkn : k ≤ n) (fuel : Nat) {comb : List Nat} (h : Within n k comb)
    (hfuel : (n + 2) ^ k - Increasing.value n comb < fuel) :
    Returns (visited k n fuel comb) fun combs =>
      combs.Pairwise (· < ·) ∧ ∀ other, other ∈ combs ↔ Within n k other ∧ ¬ other < comb := by
  induction fuel generalizing comb with
  | zero => omega
  | succ fuel ih =>
    unfold visited
    refine (h.next hk hkn).bind fun next hnext => ?_
    rcases hnext with ⟨rfl, hlast⟩ | ⟨after, rfl, hafter, hlt, hbetween, hvalue⟩
    · refine (returns_pure _ _).mpr ⟨List.pairwise_singleton _ _, fun other => ?_⟩
      rw [List.mem_singleton]
      constructor
      · rintro rfl
        exact ⟨h, lt_irrefl _⟩
      · rintro ⟨hother, hge⟩
        exact le_antisymm (not_lt.mp (hlast other hother)) (not_lt.mp hge)
    · refine (ih hafter (by omega)).bind fun combs hcombs => ?_
      obtain ⟨hsorted, hmem⟩ := hcombs
      refine (returns_pure _ _).mpr ⟨List.pairwise_cons.mpr ⟨fun other hother => ?_, hsorted⟩,
        fun other => ?_⟩
      · exact hlt.trans_le (not_lt.mp ((hmem other).mp hother).2)
      · rw [List.mem_cons, hmem]
        constructor
        · rintro (rfl | ⟨hother, hge⟩)
          · exact ⟨h, lt_irrefl _⟩
          · exact ⟨hother, fun hother' => hge (hother'.trans hlt)⟩
        · rintro ⟨hother, hge⟩
          rcases lt_trichotomy other comb with hbelow | rfl | habove
          · exact absurd hbelow hge
          · exact Or.inl rfl
          · exact Or.inr ⟨hother, hbetween other hother habove⟩

theorem within_of_visited (hk : 0 < k) (hkn : k ≤ n) {fuel : Nat} {comb : List Nat} {combs : List (List Nat)}
    (h : Within n k comb) (hvisited : visited k n fuel comb = .ok combs) :
    ∀ other ∈ combs, Within n k other := by
  induction fuel generalizing comb combs with
  | zero => cases hvisited
  | succ fuel ih =>
    unfold visited at hvisited
    obtain ⟨next, hnext, hvisited⟩ := of_bind_eq_ok hvisited
    rcases (h.next hk hkn).of_eq hnext with ⟨rfl, -⟩ | ⟨after, rfl, hafter, -⟩
    · cases hvisited
      rw [List.forall_mem_singleton]
      exact h
    · obtain ⟨rest, hrest, hvisited⟩ := of_bind_eq_ok hvisited
      cases hvisited
      exact List.forall_mem_cons.mpr ⟨h, ih hafter hrest⟩

/-! ## The last choice -/

theorem choice_last (hkm : k ≤ m) : Choice m k (List.range' (m - k) k) := by
  refine ⟨List.length_range', List.pairwise_lt_range', fun v hv => ?_⟩
  have := (List.mem_range'_1.mp hv).2
  omega

theorem headI_range' (lo : Nat) (hk : 0 < k) : (List.range' lo k).headI = lo := by
  obtain ⟨i, rfl⟩ : ∃ i, k = i + 1 := ⟨k - 1, by omega⟩
  rw [List.range'_succ, List.headI_cons]

theorem Choice.eq_last {comb : List Nat} (h : Choice m k comb) (hk : 0 < k) (hkm : k ≤ m)
    (hfirst : m - k ≤ comb.headI) : comb = List.range' (m - k) k := by
  have hmax := h.increasing.not_range'_lt
  rw [h.length, show m - 1 + 1 - k = m - k by omega] at hmax
  have hmin : ¬ comb < List.range' (m - k) comb.length := by
    refine h.increasing.not_lt_range' fun v hv => ?_
    obtain ⟨x, rest, rfl⟩ := List.exists_cons_of_length_pos (h.length.symm ▸ hk)
    rcases List.mem_cons.mp hv with rfl | hv
    · exact hfirst
    · exact hfirst.trans ((List.pairwise_cons.mp h.lt).1 v hv).le
  rw [h.length] at hmin
  exact le_antisymm (not_lt.mp hmax) (not_lt.mp hmin)

/-- The search comes to every choice but the last one. -/
theorem within_iff (hk : 0 < k) (hkm : k < m) {comb : List Nat} :
    Within (m - 1) k comb ↔ Choice m k comb ∧ comb ≠ List.range' (m - k) k := by
  constructor
  · rintro ⟨hlen, ⟨hlt, hle⟩, hfirst⟩
    refine ⟨⟨hlen, hlt, fun v hv => ?_⟩, ?_⟩
    · have := hle v hv
      omega
    · rintro rfl
      rw [headI_range' _ hk] at hfirst
      omega
  · rintro ⟨h, hne⟩
    refine ⟨h.length, h.increasing, ?_⟩
    by_contra hfirst
    exact hne (h.eq_last hk hkm.le (by omega))

/-! ## No number of slots -/

theorem visited_all (hk : 0 < k) (fuel : Nat) :
    visited k (k - 1) (fuel + 1) (List.range k) = .error .arith := by
  rw [visited, nextComb_all hk, bind_error]

/-- The search never enumerates all choices. With more slots than elements it comes to all but the
last one, and with as many the first call underflows. -/
theorem next_comb_never_enumerates (hk : 1 ≤ k) (hkm : k ≤ m) :
    ¬ Enumerates m k ∧
      (k < m → ∃ fuel, Returns (visited k (m - 1) fuel (List.range k)) fun combs =>
        combs.Pairwise (· < ·) ∧
          ∀ comb, comb ∈ combs ↔ Choice m k comb ∧ comb ≠ List.range' (m - k) k) ∧
      (k = m → ∀ fuel, visited k (m - 1) (fuel + 1) (List.range k) = .error .arith) := by
  refine ⟨?_, fun hlt => ?_, ?_⟩
  · rintro ⟨fuel, combs, hvisited, -, hall⟩
    rcases hkm.lt_or_eq with hlt | rfl
    · have hlast := (hall _).mpr (choice_last hkm)
      have hwithin := within_of_visited hk (by omega) (within_range hk (by omega)) hvisited _ hlast
      exact ((within_iff hk hlt).mp hwithin).2 rfl
    · cases fuel with
      | zero => cases hvisited
      | succ fuel => rw [visited_all hk] at hvisited; cases hvisited
  · refine ⟨_, (visited_returns hk (by omega) _ (within_range hk (by omega)) (Nat.lt_succ_self _)).mono
      fun combs hcombs => ⟨hcombs.1, fun comb => ?_⟩⟩
    rw [hcombs.2, ← within_iff hk hlt]
    exact and_iff_left_of_imp fun hwithin => hwithin.not_lt_range
  · rintro rfl fuel
    exact visited_all hk fuel

theorem next_comb_never_enumerates_pairs :
    ¬ Enumerates 3 2 ∧ ∃ fuel, Returns (visited 2 2 fuel [0, 1]) fun combs =>
      combs.Pairwise (· < ·) ∧ ∀ comb, comb ∈ combs ↔ Choice 3 2 comb ∧ comb ≠ [1, 2] := by
  have h := next_comb_never_enumerates (m := 3) (k := 2) (by decide) (by decide)
  exact ⟨h.1, h.2.1 (by decide)⟩

/-- Of the pairs of three slots the last one is left out. Of one slot there is no choice at all. -/
theorem next_comb_leaves_out_last :
    visited 2 2 2 (List.range 2) = .ok [[0, 1], [0, 2]] ∧ ¬ Enumerates 3 2 ∧
      visited 1 0 1 (List.range 1) = .error .arith ∧ ¬ Enumerates 1 1 := by
  refine ⟨by decide, ?_, by decide, ?_⟩
  · rintro ⟨fuel, combs, hvisited, -, hall⟩
    have hlast : [1, 2] ∈ combs := (hall _).mpr ⟨rfl, by decide, by decide⟩
    have hfirst := (within_of_visited (by decide) (by decide) (within_range (by decide) (by decide))
      hvisited _ hlast).first
    exact absurd hfirst (by decide)
  · rintro ⟨fuel, combs, hvisited, -⟩
    cases fuel with
    | zero => cases hvisited
    | succ fuel => rw [visited_all (by decide)] at hvisited; cases hvisited

end Orchestrator

end Kollaps
