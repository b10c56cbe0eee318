import Kollaps.Lib.Increasing
import Kollaps.Orchestrator.Basic

/-!
# The combinations of the search

`next_comb` goes through the combinations in lexicographic order and stops before the last one. A
combination names clones of hosts, and only says how often it names each host.
-/

namespace Kollaps

open Run

variable {k n : Nat} {comb : List Nat}

/-! ## The next combination -/

theorem get_middle (pre g : List Nat) (a : Nat) : get (pre ++ a :: g) pre.length = .ok a := by
  rw [get_eq_ok, List.getElem?_append_right (Nat.le_refl _), Nat.sub_self]
  rfl

theorem set_middle (pre g : List Nat) (a b : Nat) :
    set (pre ++ a :: g) pre.length b = .ok (pre ++ b :: g) := by
  rw [set_eq (by simp), List.set_append_right _ _ (Nat.le_refl _), Nat.sub_self]
  rfl

theorem fill_eq (g pre : List Nat) (b : Nat) :
    (List.range' (pre.length + 1) g.length).foldlM (fun previous v => do
      let p ← get previous (v - 1)
      set previous v (p + 1)) (pre ++ b :: g) = .ok (pre ++ List.range' b (g.length + 1)) := by
  induction g generalizing pre b with
  | nil => rfl
  | cons x g ih =>
    have hset := set_middle (pre ++ [b]) g x (b + 1)
    have hrest := ih (pre ++ [b]) (b + 1)
    simp only [List.length_append, List.length_singleton, List.append_assoc,
      List.singleton_append] at hset hrest
    rw [List.length_cons, List.range'_succ, List.foldlM_cons]
    simp only [Nat.add_sub_cancel, get_middle, bind_ok, hset]
    rw [hrest, List.range'_succ (s := b)]

/-- The search for the last place that can still grow has come to place `i`. -/
def Growing (comb : List Nat) (n : Nat) (s : Nat × List Nat) : Prop :=
  ∃ pre a r g, s.1 = pre.length ∧ comb = pre ++ a :: List.range' (n + 1 - r) r ∧
    s.2 = pre ++ (a + 1) :: g ∧ g.length = r

theorem Growing.last (hk : 0 < k) (hlen : comb.length = k) : ∃ init last, k - 1 = init.length ∧
    get comb init.length = .ok last ∧ set comb init.length (last + 1) = .ok (init ++ [last + 1]) ∧
      Growing comb n (init.length, init ++ [last + 1]) := by
  obtain ⟨init, last, hinit⟩ : ∃ init last, comb = init ++ [last] := by
    refine ⟨comb.dropLast, comb.getLast ?_, (List.dropLast_append_getLast _).symm⟩
    rw [← List.length_pos_iff]
    omega
  have hget := get_middle init [] last
  have hset := set_middle init [] last (last + 1)
  rw [← hinit] at hget hset
  refine ⟨init, last, ?_, hget, hset, init, last, 0, [], rfl, hinit, rfl, rfl⟩
  rw [hinit, List.length_append, List.length_singleton] at hlen
  omega

/-- The place that can grow is found. -/
def Grown (comb : List Nat) (n : Nat) (s : Nat × List Nat) : Prop :=
  ∃ pre a r g, s.1 = pre.length ∧ comb = pre ++ a :: List.range' (n + 1 - r) r ∧
    s.2 = pre ++ (a + 1) :: g ∧ g.length = r ∧ a + r < n

theorem Growing.round {s : Nat × List Nat} (hs : Growing comb n s) (hkn : k ≤ n) (hlen : comb.length = k)
    (h : Increasing n comb) (hfirst : comb.headI ≤ n - k) :
    Returns (do
      let p ← get s.2 s.1
      let d ← usizeSub n k
      if p > d + 1 + s.1 then do
        let i ← usizeSub s.1 1
        let p ← get s.2 i
        pure (.inl (i, ← set s.2 i (p + 1)))
      else pure (.inr (s.1, s.2))) (Round (Growing comb n) (fun s => s.1) (Grown comb n) s) := by
  obtain ⟨i, previous⟩ := s
  obtain ⟨pre, a, r, g, hi, hcomb, hprevious, hg⟩ := hs
  simp only at hi hprevious
  subst hi hprevious
  have hk' : pre.length + 1 + r = k := by
    rw [hcomb] at hlen
    simp at hlen
    omega
  have har := (hcomb ▸ h).of_append.add_length_le
  rw [List.length_range'] at har
  simp only [get_middle, bind_ok, usizeSub_of_le hkn]
  split <;> rename_i hgrow
  · -- This number is as great as it can be, so it is not the first one.
    obtain ⟨pre', b, rfl⟩ : ∃ pre' b, pre = pre' ++ [b] := by
      refine ⟨pre.dropLast, pre.getLast ?_, (List.dropLast_append_getLast _).symm⟩
      rintro rfl
      rw [hcomb] at hfirst
      simp only [List.nil_append, List.headI_cons, List.length_nil] at hfirst hgrow
      omega
    have ha : a = n + 1 - (r + 1) := by
      simp only [List.length_append, List.length_singleton] at hgrow hk'
      omega
    have hget := get_middle pre' ((a + 1) :: g) b
    have hset := set_middle pre' ((a + 1) :: g) b (b + 1)
    rw [List.length_append, List.length_singleton, usizeSub_of_le (Nat.le_add_left 1 _), bind_ok,
      Nat.add_sub_cancel]
    simp only [List.append_assoc, List.singleton_append, hget, hset, bind_ok]
    refine (returns_pure _ _).mpr ⟨⟨pre', b, r + 1, (a + 1) :: g, rfl, ?_, rfl, ?_⟩, ?_⟩
    · rw [hcomb, List.append_assoc, List.singleton_append, List.range'_succ, ← ha,
        show n + 1 - r = a + 1 by omega]
    · rw [List.length_cons, hg]
    · exact Nat.lt_succ_self pre'.length
  · exact (returns_pure _ _).mpr ⟨pre, a, r, g, rfl, hcomb, rfl, hg, by omega⟩

theorem nextComb_returns (hk : 0 < k) (hkn : k ≤ n) (hlen : comb.length = k) (h : Increasing n comb)
    (hfirst : comb.headI ≤ n - k) : Returns (nextComb comb k n) fun next =>
      ∃ pre a r, comb = pre ++ a :: List.range' (n + 1 - r) r ∧ a + r < n ∧
        ((next = none ∧ pre = [] ∧ a = n - k) ∨
          (next = some (pre ++ List.range' (a + 1) (r + 1)) ∧ (pre = [] → a < n - k))) := by
  obtain ⟨init, last, hlast, hget, hset, hgrowing⟩ := Growing.last (n := n) hk hlen
  unfold nextComb
  rw [usizeSub_of_le (show 1 ≤ k from hk), bind_ok, hlast, hget, bind_ok, hset, bind_ok]
  refine Returns.bind (P := Grown comb n) ?_ ?_
  · refine Returns.loop (Growing comb n) (fun s => s.1) hgrowing ?_ fun s hs => hs.round hkn hlen h hfirst
    show init.length < k + 1
    omega
  · rintro ⟨i, previous⟩ ⟨pre, a, r, g, hi, hcomb, hprevious, hg, har⟩
    simp only at hi hprevious
    subst hi hprevious
    have hk' : pre.length + 1 + r = k := by
      rw [hcomb] at hlen
      simp at hlen
      omega
    have hfill := fill_eq g pre (a + 1)
    rw [hg] at hfill
    simp only [usizeSub_of_le hkn, bind_ok, show k - (pre.length + 1) = r by omega, hfill]
    cases pre with
    | nil =>
      have ha : a ≤ n - k := by rwa [hcomb] at hfirst
      have hget := get_middle [] g (a + 1)
      rw [List.length_nil] at hget
      rw [hget, bind_ok]
      split <;> rename_i hgrow
      · exact (returns_pure _ _).mpr ⟨[], a, r, hcomb, har, Or.inl ⟨rfl, rfl, by omega⟩⟩
      · exact (returns_pure _ _).mpr ⟨[], a, r, hcomb, har, Or.inr ⟨rfl, fun _ => by omega⟩⟩
    | cons x pre =>
      have hx : ¬ x > n - k := by
        rw [hcomb] at hfirst
        exact Nat.not_lt_of_le hfirst
      have hget := get_middle [] (pre ++ (a + 1) :: g) x
      rw [List.length_nil, List.nil_append] at hget
      rw [List.cons_append, hget, bind_ok, if_neg hx]
      exact (returns_pure _ _).mpr ⟨x :: pre, a, r, hcomb, har, Or.inr ⟨rfl, by simp⟩⟩

/-! ## The clones of the hosts -/

/-- Host `r` has the clones `r`, `r + N`, `r + 2 * N` and so on. -/
theorem countP_clones {N : Nat} (hN : 0 < N) (b q r : Nat) :
    ((List.range (N * b)).countP fun v => v % N = r ∧ v / N < q) = if r < N then min b q else 0 := by
  induction b with
  | zero => simp
  | succ b ih =>
    have hnew : ((List.range N).countP fun x => (N * b + x) % N = r ∧ (N * b + x) / N < q) =
        if r < N ∧ b < q then 1 else 0 := by
      have hclone : ∀ x ∈ List.range N, decide ((N * b + x) % N = r ∧ (N * b + x) / N < q) = true ↔
          (x == r && decide (b < q)) = true := by
        intro x hx
        rw [List.mem_range] at hx
        rw [decide_eq_true_eq, Bool.and_eq_true, beq_iff_eq, decide_eq_true_eq, Nat.mul_add_mod,
          Nat.mod_eq_of_lt hx, Nat.mul_add_div hN, Nat.div_eq_of_lt hx, Nat.add_zero]
      rw [List.countP_congr hclone]
      by_cases hb : b < q
      · simp only [hb, decide_true, Bool.and_true, and_true]
        exact List.count_range
      · simp [hb]
    rw [Nat.mul_succ, List.range_add, List.countP_append, ih, List.countP_map]
    simp only [Function.comp_def, hnew]
    split <;> split <;> omega

/-- The clones that a placement `p` needs. -/
def clonesFor (N b : Nat) (p : List Nat) : List Nat :=
  (List.range (N * b)).filter fun v => v / N < p.count (v % N)

theorem clonesFor_perm {N b : Nat} {p : List Nat} (hN : 0 < N) (hlt : ∀ host ∈ p, host < N)
    (hcount : ∀ host, p.count host ≤ b) : ((clonesFor N b p).map fun v => v % N).Perm p := by
  rw [List.perm_iff_count]
  intro r
  have hsame : ∀ v ∈ List.range (N * b), (((fun x => x == r) ∘ fun v => v % N) v &&
      decide (v / N < p.count (v % N))) = true ↔ decide (v % N = r ∧ v / N < p.count r) = true := by
    intro v _
    simp only [Function.comp_apply, Bool.and_eq_true, beq_iff_eq, decide_eq_true_eq]
    constructor <;> rintro ⟨rfl, h⟩ <;> exact ⟨rfl, h⟩
  rw [List.count, List.countP_map, clonesFor, List.countP_filter, List.countP_congr hsame, countP_clones hN]
  split
  · exact Nat.min_eq_right (hcount r)
  · rename_i hr
    exact (List.count_eq_zero_of_not_mem fun hmem => hr (hlt r hmem)).symm

theorem length_clonesFor {N b : Nat} {p : List Nat} (hN : 0 < N) (hlt : ∀ host ∈ p, host < N)
    (hcount : ∀ host, p.count host ≤ b) : (clonesFor N b p).length = p.length := by
  rw [← (clonesFor_perm hN hlt hcount).length_eq, List.length_map]

theorem mem_clonesFor {N b v : Nat} {p : List Nat} :
    v ∈ clonesFor N b p ↔ v < N * b ∧ v / N < p.count (v % N) := by
  simp [clonesFor]

theorem clonesFor_increasing {N b : Nat} (p : List Nat) : Increasing (N * b - 1) (clonesFor N b p) :=
  ⟨List.pairwise_lt_range.filter _, fun _ hv => Nat.le_sub_one_of_lt (mem_clonesFor.mp hv).1⟩

/-- The combination that is left out is never needed, where every host may have two clones. -/
theorem headI_clonesFor {N b : Nat} {p : List Nat} (hN : 0 < N) (hb : 2 ≤ b) (hlt : ∀ host ∈ p, host < N)
    (hcount : ∀ host, p.count host ≤ b) (hp : 0 < p.length) (hroom : p.length < N * b) :
    (clonesFor N b p).headI ≤ N * b - 1 - p.length := by
  by_contra hhead
  have hlen := length_clonesFor hN hlt hcount
  have hinc := clonesFor_increasing (N := N) (b := b) p
  have htwo : N * 2 ≤ N * b := Nat.mul_le_mul_left N hb
  have hback : ∀ v ∈ clonesFor N b p, N * b - p.length ≤ v := by
    intro v hv
    have hle : (clonesFor N b p).headI ≤ v := by
      cases hc : clonesFor N b p with
      | nil => simp [hc] at hv
      | cons x l =>
        rw [hc] at hv hinc
        rcases List.mem_cons.mp hv with rfl | hv
        · exact Nat.le_refl _
        · exact Nat.le_of_lt ((List.pairwise_cons.mp hinc.lt).1 v hv)
    omega
  -- There is no more place behind, so all numbers there are in the combination.
  have hall : ∀ v, N * b - p.length ≤ v → v < N * b → v ∈ clonesFor N b p := by
    have hsub : clonesFor N b p ⊆ List.range' (N * b - p.length) p.length := by
      intro v hv
      have hvlt := (mem_clonesFor.mp hv).1
      have hle := hback v hv
      rw [List.mem_range'_1]
      omega
    have hperm := (List.subperm_of_subset (hinc.lt.imp Nat.ne_of_lt) hsub).perm_of_length_le
      (by rw [hlen, List.length_range'])
    intro v hv hv'
    rw [hperm.mem_iff, List.mem_range'_1]
    omega
  have hfirst : ∀ v ∈ clonesFor N b p, v % N ∈ clonesFor N b p := by
    intro v hmem
    have hmod := Nat.mod_lt v hN
    rw [mem_clonesFor] at hmem ⊢
    rw [Nat.mod_mod, Nat.div_eq_of_lt hmod]
    exact ⟨by omega, Nat.lt_of_le_of_lt (Nat.zero_le _) hmem.2⟩
  have hmod : (N * b - 1) % N = N - 1 := by
    obtain ⟨c, rfl⟩ : ∃ c, b = c + 1 := ⟨b - 1, by omega⟩
    rw [Nat.mul_succ, Nat.add_sub_assoc hN, Nat.mul_add_mod, Nat.mod_eq_of_lt (by omega)]
  -- From the last clone of the last host to its first, and from the next number to the first of all.
  have hlast := hback _ (hmod ▸ hfirst _ (hall (N * b - 1) (by omega) (by omega)))
  have hzero := hback _ (Nat.mod_self N ▸ hfirst _ (hall N (by omega) (by omega)))
  omega

/-! ## Combinations that are the same -/

theorem IndexSet.perm_of_same {s t : IndexSet} (h : s.same t = true) : s.elems.Perm t.elems := by
  simp only [IndexSet.same, Bool.decide_and, Bool.and_eq_true, decide_eq_true_eq, List.all_eq_true] at h
  refine (List.subperm_of_subset s.elems_nodup fun v hv => ?_).perm_of_length_le (Nat.le_of_eq h.1.symm)
  have := h.2 v hv
  rwa [KeySet.contains_iff, KeySet.keys, List.map_id'] at this

theorem IndexSet.same_of_perm {s t : IndexSet} (h : s.elems.Perm t.elems) : s.same t = true := by
  simp only [IndexSet.same, Bool.decide_and, Bool.and_eq_true, decide_eq_true_eq, List.all_eq_true]
  exact ⟨h.length_eq, fun v hv => KeySet.contains_key (h.mem_iff.mp hv)⟩

namespace Orchestrator

variable {o : Orchestrator}

/-- A combination and the set that is made of it name each host equally often, and the set has no
clone of a host without the clones before it. -/
structure Reduced (o : Orchestrator) (comb : List Nat) (set : IndexSet) : Prop where
  named : (set.elems.map fun v => v % o.residualGraph.n).Perm (comb.map fun v => v % o.residualGraph.n)
  down : ∀ v ∈ set.elems, o.residualGraph.n ≤ v → v - o.residualGraph.n ∈ set.elems

theorem combinationSet_returns (hN : 0 < o.residualGraph.n) (comb : List Nat) :
    Returns (o.combinationSet comb) (o.Reduced comb) := by
  unfold combinationSet
  refine Returns.foldlM (fun pre acc => o.Reduced pre acc) ⟨List.Perm.refl _, by simp⟩
    fun pre x post acc _ hacc => ?_
  refine Returns.bind (P := fun v => v % o.residualGraph.n = x % o.residualGraph.n ∧
    (o.residualGraph.n ≤ v → v - o.residualGraph.n ∈ acc.elems) ∧ acc.contains v = false) ?_ fun v hv => ?_
  · refine Returns.loop (fun v => v % o.residualGraph.n = x % o.residualGraph.n ∧
        (o.residualGraph.n ≤ v → v - o.residualGraph.n ∈ acc.elems))
      (fun v => (acc.elems.filter fun u => v ≤ u).length) ⟨Nat.mod_mod _ _, fun hle => ?_⟩
      (Nat.lt_succ_of_le (List.length_filter_le _ _)) fun v hv => ?_
    · exact absurd (Nat.mod_lt x hN) (Nat.not_lt.mpr hle)
    · obtain ⟨hv, hbelow⟩ := hv
      rw [returns_pure]
      split <;> rename_i hin
      · rw [KeySet.contains_iff, KeySet.keys, List.map_id'] at hin
        have hsub : (acc.elems.filter fun u => v + o.residualGraph.n ≤ u) =
            (acc.elems.filter fun u => v ≤ u).filter fun u => v + o.residualGraph.n ≤ u := by
          rw [List.filter_filter]
          refine List.filter_congr fun u _ => ?_
          rw [← Bool.decide_and, decide_eq_decide]
          omega
        refine ⟨⟨(Nat.add_mod_right v _).trans hv, fun _ => ?_⟩, ?_⟩
        · rwa [SymMatrix.size, Nat.add_sub_cancel]
        · show (acc.elems.filter fun u => v + o.residualGraph.n ≤ u).length < _
          rw [hsub, List.length_filter_lt_length_iff_exists]
          exact ⟨v, List.mem_filter.mpr ⟨hin, by simp⟩, by simp; omega⟩
      · exact ⟨hv, hbelow, Bool.eq_false_iff.mpr hin⟩
  · obtain ⟨hmod, hbelow, hnew⟩ := hv
    rw [returns_pure]
    refine ⟨?_, fun u hu hle => ?_⟩
    · rw [KeySet.elems_insert hnew, List.map_cons, List.map_append, List.map_singleton, hmod]
      exact (hacc.named.cons _).trans (List.perm_append_singleton _ _).symm
    · rw [KeySet.elems_insert hnew, List.mem_cons] at hu ⊢
      rcases hu with rfl | hu
      · exact Or.inr (hbelow hle)
      · exact Or.inr (hacc.down u hu hle)

end Orchestrator

end Kollaps
