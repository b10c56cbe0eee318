import Kollaps.Orchestrator.Basic
import Mathlib.Algebra.BigOperators.Group.Finset.Basic
import Mathlib.Algebra.BigOperators.Intervals
import Mathlib.Algebra.Order.BigOperators.Group.Finset

/-!
# What the search accepts

A placement that the search gives is one that `verify_permutation` accepted, read through the
combination of the hosts and their clones.
-/

namespace Kollaps

open Run

theorem swap_perm {xs ys : List Nat} {a b : Nat} (h : swap xs a b = .ok ys) : ys.Perm xs := by
  unfold swap at h
  obtain ⟨x, hx, h⟩ := of_bind_eq_ok h
  obtain ⟨y, hy, h⟩ := of_bind_eq_ok h
  rw [get_eq_ok] at hx hy
  obtain ⟨ha, rfl⟩ := List.getElem?_eq_some_iff.mp hx
  obtain ⟨hb, rfl⟩ := List.getElem?_eq_some_iff.mp hy
  rw [set_eq ha, bind_ok, set_eq (by rw [List.length_set]; exact hb)] at h
  cases h
  exact List.set_set_perm ha hb

theorem length_of_set {α : Type} {xs ys : List α} {i : Nat} {a : α} (h : set xs i a = .ok ys) :
    ys.length = xs.length := by
  unfold Run.set at h
  split at h
  · cases h
    exact List.length_set
  · cases h

theorem nextComb_length {previous next : List Nat} {k n : Nat} (h : nextComb previous k n = .ok (some next)) :
    next.length = previous.length := by
  unfold nextComb at h
  obtain ⟨i, -, h⟩ := of_bind_eq_ok h
  obtain ⟨p, -, h⟩ := of_bind_eq_ok h
  obtain ⟨first, hfirst, h⟩ := of_bind_eq_ok h
  obtain ⟨⟨i', second⟩, hloop, h⟩ := of_bind_eq_ok h
  obtain ⟨p', -, h⟩ := of_bind_eq_ok h
  obtain ⟨d, -, h⟩ := of_bind_eq_ok h
  have hsecond : second.length = previous.length := by
    refine loop_ok_inv (fun s => s.2.length = previous.length) (fun s => s.2.length = previous.length)
      (length_of_set hfirst) (fun s s' hs h => ?_) (fun s b hs h => ?_) hloop
    · obtain ⟨q, -, h⟩ := of_bind_eq_ok h
      obtain ⟨d', -, h⟩ := of_bind_eq_ok h
      split at h
      · obtain ⟨j, -, h⟩ := of_bind_eq_ok h
        obtain ⟨q', -, h⟩ := of_bind_eq_ok h
        obtain ⟨l, hl, h⟩ := of_bind_eq_ok h
        cases h
        exact (length_of_set hl).trans hs
      · cases h
    · obtain ⟨q, -, h⟩ := of_bind_eq_ok h
      obtain ⟨d', -, h⟩ := of_bind_eq_ok h
      split at h
      · obtain ⟨j, -, h⟩ := of_bind_eq_ok h
        obtain ⟨q', -, h⟩ := of_bind_eq_ok h
        obtain ⟨l, hl, h⟩ := of_bind_eq_ok h
        cases h
      · cases h
        exact hs
  split at h
  · cases h
  · obtain ⟨third, hthird, h⟩ := of_bind_eq_ok h
    cases h
    refine (foldlM_ok_inv (fun l => l.length =
      second.length) rfl (fun v _ l l' hl h => ?_) hthird).trans hsecond
    obtain ⟨q, -, h⟩ := of_bind_eq_ok h
    exact (length_of_set h).trans hl

namespace Orchestrator

variable {ar : Arith} {it : Iter} {o : Orchestrator} {g1 : SymMatrix Nat}

def hosts (o : Orchestrator) (equivalence mapper : List Nat) : List Nat :=
  equivalence.map fun e => mapper.getD e 0 % o.residualGraph.n

theorem graphIsomorphism_some {residual : SymMatrix Nat} {mapper equivalence : List Nat}
    (h : o.graphIsomorphism ar it g1 residual mapper = .ok (some equivalence)) :
    g1.n = residual.n ∧ equivalence.Perm (List.range g1.n) ∧
      o.verifyPermutation ar it g1 residual equivalence mapper = .ok true := by
  unfold graphIsomorphism at h
  split at h
  · cases h
  · rename_i hsize
    refine ⟨not_not.mp hsize, ?_⟩
    obtain ⟨first, hfirst, h⟩ := of_bind_eq_ok h
    split at h
    · cases h
      rename_i htrue
      rw [htrue] at hfirst
      exact ⟨List.Perm.refl _, hfirst⟩
    · have hfound := loop_ok_inv (b := some equivalence) (fun s => s.equivalence.Perm (List.range g1.n))
        (fun r => ∀ e, r = some e → e.Perm (List.range g1.n) ∧
          o.verifyPermutation ar it g1 residual e mapper = .ok true) (List.Perm.refl _)
        (fun s s' hs h => ?_) (fun s r hs h => ?_) h
      · exact hfound equivalence rfl
      · unfold exchangeRound at h
        split at h
        · obtain ⟨counter, -, h⟩ := of_bind_eq_ok h
          split at h
          · obtain ⟨e, he, h⟩ := of_bind_eq_ok h
            obtain ⟨v, -, h⟩ := of_bind_eq_ok h
            split at h
            · cases h
            · obtain ⟨c, -, h⟩ := of_bind_eq_ok h
              cases h
              exact (swap_perm he).trans hs
          · obtain ⟨c, -, h⟩ := of_bind_eq_ok h
            cases h
            exact hs
        · cases h
      · unfold exchangeRound at h
        split at h
        · obtain ⟨counter, -, h⟩ := of_bind_eq_ok h
          split at h
          · obtain ⟨e, he, h⟩ := of_bind_eq_ok h
            obtain ⟨v, hv, h⟩ := of_bind_eq_ok h
            cases v with
            | true =>
              cases h
              rintro _ ⟨⟩
              exact ⟨(swap_perm he).trans hs, hv⟩
            | false =>
              obtain ⟨c, -, h⟩ := of_bind_eq_ok h
              cases h
          · obtain ⟨c, -, h⟩ := of_bind_eq_ok h
            cases h
        · cases h
          nofun

structure Found (ar : Arith) (it : Iter) (o : Orchestrator) (g1 : SymMatrix Nat) (p : List Nat) : Prop where
  host : 0 < o.residualGraph.n
  verified : ∃ combination equivalence residual, combination.length = g1.n ∧ g1.n = residual.n ∧
    equivalence.Perm (List.range g1.n) ∧ p = o.hosts equivalence combination ∧
    o.verifyPermutation ar it g1 residual equivalence combination = .ok true

theorem testCombination_found {combination : List Nat} {testedComb : List IndexSet} {p : List Nat}
    (hlen : combination.length = g1.n) (hhost : 0 < o.residualGraph.n)
    (h : o.testCombination ar it g1 combination testedComb = .ok (.inl p)) : Found ar it o g1 p := by
  unfold testCombination at h
  obtain ⟨set, -, h⟩ := of_bind_eq_ok h
  obtain ⟨room, -, h⟩ := of_bind_eq_ok h
  split at h
  · obtain ⟨subGraph, -, h⟩ := of_bind_eq_ok h
    obtain ⟨found, hfound, h⟩ := of_bind_eq_ok h
    cases found with
    | none => cases h
    | some equivalence =>
      obtain ⟨hsize, hperm, hverify⟩ := graphIsomorphism_some hfound
      have hlt : ∀ e ∈ equivalence, e < combination.length := by
        intro e he
        rw [hlen]
        exact List.mem_range.mp (hperm.mem_iff.mp he)
      have hmap : equivalence.mapM (fun e => do
            let c ← get combination e
            pure (c % o.residualGraph.size)) =
          .ok (equivalence.map fun e => combination.getD e 0 % o.residualGraph.n) := by
        refine mapM_ok fun e he => ?_
        rw [get_eq (hlt e he), bind_ok, List.getD_eq_getElem?_getD, List.getElem?_eq_getElem (hlt e he)]
        rfl
      simp only [hmap] at h
      cases h
      exact ⟨hhost, combination, equivalence, subGraph, hlen, hsize, hperm, rfl, hverify⟩
  · cases h

theorem findIsoInternal_found {maxDepth clones : Nat} {testedComb : List IndexSet} {p : List Nat}
    (h : o.findIsoInternal ar it g1 maxDepth clones testedComb = .ok (some p)) : Found ar it o g1 p := by
  induction maxDepth generalizing clones testedComb with
  | zero => cases h
  | succ maxDepth ih =>
    unfold findIsoInternal at h
    obtain ⟨size, hsize, h⟩ := of_bind_eq_ok h
    have hhost : 0 < o.residualGraph.n := (usizeSub_eq_ok.mp hsize).1
    obtain ⟨found, hloop, h⟩ := of_bind_eq_ok h
    have hfound := loop_ok_inv (fun s => s.1.length = g1.n) (fun r => ∀ p, r = .inl p → Found ar it o g1 p)
      (List.length_range) (fun s s' hs h => ?_) (fun s r hs h => ?_) hloop
    · cases found with
      | inl q =>
        cases h
        exact hfound p rfl
      | inr testedComb => exact ih h
    · unfold combinationRound at h
      obtain ⟨tested, -, h⟩ := of_bind_eq_ok h
      cases tested with
      | inl q => cases h
      | inr testedComb =>
        obtain ⟨next, hnext, h⟩ := of_bind_eq_ok h
        cases next with
        | none => cases h
        | some comb =>
          cases h
          exact (nextComb_length hnext).trans hs
    · unfold combinationRound at h
      obtain ⟨tested, htested, h⟩ := of_bind_eq_ok h
      cases tested with
      | inl q =>
        cases h
        rintro _ ⟨⟩
        exact testCombination_found hs hhost htested
      | inr testedComb =>
        obtain ⟨next, -, h⟩ := of_bind_eq_ok h
        cases next with
        | none =>
          cases h
          nofun
        | some comb => cases h

theorem findIsomorphism_found {p : List Nat} (h : o.findIsomorphism ar it g1 = .ok (some p)) :
    Found ar it o g1 p := findIsoInternal_found h

theorem Found.length {p : List Nat} (h : Found ar it o g1 p) : p.length = g1.n := by
  obtain ⟨combination, equivalence, residual, -, -, hperm, rfl, -⟩ := h.verified
  rw [hosts, List.length_map, hperm.length_eq, List.length_range]

theorem Found.lt {p : List Nat} (h : Found ar it o g1 p) : ∀ host ∈ p, host < o.residualGraph.n := by
  obtain ⟨combination, equivalence, residual, -, -, -, rfl, -⟩ := h.verified
  intro host hmem
  obtain ⟨e, -, rfl⟩ := List.mem_map.mp hmem
  exact Nat.mod_lt _ h.host

end Orchestrator

end Kollaps
