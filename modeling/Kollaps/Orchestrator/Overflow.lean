import Kollaps.Orchestrator.Permutations

/-!
# Sums that wrap

A release build adds up the demands that go out of a host without looking at the carry.
-/

namespace Kollaps

open Run

def Arith.reduce (ar : Arith) (n : Nat) : Nat :=
  match ar with
  | .wrapping => n % (u32Max + 1)
  | _ => n

theorem Arith.add_reduce {ar : Arith} (har : ar ≠ .checked) (a b : Nat) :
    ar.add (ar.reduce a) b = .ok (ar.reduce (a + b)) := by
  cases ar with
  | checked => exact absurd rfl har
  | wrapping => simp [Arith.add, Arith.reduce, Nat.add_mod]
  | exact => rfl

theorem Arith.reduce_zero (ar : Arith) : ar.reduce 0 = 0 := by
  cases ar <;> rfl

namespace Orchestrator

variable {ar : Arith} {it : Iter} {o : Orchestrator} {g1 residual : SymMatrix Nat} {p mapper e : List Nat}

theorem sum_reduce (har : ar ≠ .checked) {f : Nat → Run Nat} {g : Nat → Nat} {l : List Nat}
    (hf : ∀ x ∈ l, f x = .ok (g x)) (a : Nat) :
    l.foldlM (fun total x => do ar.add total (← f x)) (ar.reduce a) =
      .ok (ar.reduce (a + (l.map g).sum)) := by
  induction l generalizing a with
  | nil => rfl
  | cons x l ih =>
    rw [List.foldlM_cons, hf x List.mem_cons_self, bind_ok, Arith.add_reduce har, bind_ok,
      ih (fun y hy => hf y (List.mem_cons_of_mem _ hy)), List.map_cons, List.sum_cons, Nat.add_assoc]

/-- The sum of the code is the sum of the demands, as far as the machine keeps it. -/
theorem outflow_reduce (har : ar ≠ .checked) (hlen : p.length = g1.n) (host : Nat) :
    outflow ar g1 p host = .ok (ar.reduce (flow g1 (appsOn p host) (appsOff p host))) := by
  have hoff : ∀ other ∈ appsOff p host, other < g1.n := fun other hother =>
    hlen ▸ List.mem_range.mp (List.mem_filter.mp hother).1
  have hon : ∀ apps : List Nat, (∀ app ∈ apps, app < g1.n) → ∀ a,
      apps.foldlM (fun total app => (appsOff p host).foldlM (fun total other => do
        ar.add total (← g1.index app other)) total) (ar.reduce a) =
          .ok (ar.reduce (a + flow g1 apps (appsOff p host))) := by
    intro apps
    induction apps with
    | nil => exact fun _ a => rfl
    | cons app apps ih =>
      intro hlt a
      have happ := hlt app List.mem_cons_self
      rw [List.foldlM_cons,
        sum_reduce har (fun other hother => SymMatrix.index_eq g1 happ (hoff other hother)),
        bind_ok, ih (fun x hx => hlt x (List.mem_cons_of_mem _ hx)), flow, flow, List.map_cons, List.sum_cons,
        Nat.add_assoc]
  have hall := hon (appsOn p host) (fun app happ => hlen ▸ (mem_appsOn.mp happ).1) 0
  rwa [Arith.reduce_zero, Nat.zero_add] at hall

theorem summable_of_not_checked (har : ar ≠ .checked) : Summable ar g1 := fun h => absurd h har

theorem passes_iff (har : ar ≠ .checked) (hlen : p.length = g1.n)
    (hlt : ∀ host ∈ p, host < o.residualGraph.n) : Passes ar o g1 p ↔
    (∀ host ∈ p, ∃ node, o.hostMapping[host]? = some node ∧ o.totalLoad node + p.count host ≤ o.maxLoad) ∧
      ∀ host ∈ p, ∀ other ∈ p, other ≠ host →
        ar.reduce (flow g1 (appsOn p host) (appsOff p host)) ≤ o.residualGraph.entry host other := by
  constructor
  · intro h
    refine ⟨fun host hhost => ?_, fun host hhost other hother hne => ?_⟩
    · obtain ⟨node, total, hchecked⟩ := h.checked host hhost
      exact ⟨node, hchecked.mapped, hchecked.room⟩
    · obtain ⟨node, total, hchecked⟩ := h.checked host hhost
      obtain ⟨left, hleft, hle⟩ := hchecked.fits other hother hne
      rw [SymMatrix.index_eq _ (hlt host hhost) (hlt other hother)] at hleft
      have hasked := hchecked.asked
      rw [outflow_reduce har hlen] at hasked
      cases hleft
      cases hasked
      exact hle
  · rintro ⟨hroom, hfits⟩
    refine ⟨hlen, fun host hhost => ?_⟩
    obtain ⟨node, hnode, hload⟩ := hroom host hhost
    refine ⟨node, _, hnode, hload, outflow_reduce har hlen host, fun other hother hne => ?_⟩
    exact ⟨_, SymMatrix.index_eq _ (hlt host hhost) (hlt other hother), hfits host hhost other hother hne⟩

theorem exists_other {host : Nat} (h : 0 < flow g1 (appsOn p host) (appsOff p host)) :
    ∃ other ∈ p, other ≠ host := by
  have hne : appsOff p host ≠ [] := by
    intro hnil
    have hzero : ∀ apps : List Nat, flow g1 apps [] = 0 := by
      intro apps
      simp [flow]
    rw [hnil, hzero] at h
    exact Nat.lt_irrefl 0 h
  obtain ⟨app, happ⟩ := List.exists_mem_of_ne_nil _ hne
  obtain ⟨hlt, hother⟩ := List.mem_filter.mp happ
  rw [List.mem_range] at hlt
  rw [List.getD_eq_getElem?_getD, List.getElem?_eq_getElem hlt, Option.getD_some] at hother
  exact ⟨p[app], List.getElem_mem hlt, of_decide_eq_true hother⟩

/-- A release build gives the exact answer where no sum is more than a `u32` holds, and where the
placement is refused anyway: a host has no room, or what is left of a sum is still too much. -/
theorem exact_answer_iff (h : Testable o g1 residual mapper) (he : e.Perm (List.range g1.n))
    (hbound : ∀ i j, i < o.residualGraph.n → j < o.residualGraph.n → o.residualGraph.entry i j ≤ u32Max)
    (hp : p = o.hosts e mapper) :
    o.verifyPermutation .wrapping it g1 residual e mapper =
      o.verifyPermutation .exact it g1 residual e mapper ↔
      (∀ host ∈ p, flow g1 (appsOn p host) (appsOff p host) ≤ u32Max) ∨
      (∃ host ∈ p, ∃ node, o.hostMapping[host]? = some node ∧ o.maxLoad < o.totalLoad node + p.count host) ∨
      ∃ host ∈ p, ∃ other ∈ p, other ≠ host ∧
        o.residualGraph.entry host other < flow g1 (appsOn p host) (appsOff p host) % (u32Max + 1) := by
  have hshaped : Shaped o g1 e mapper p := ⟨he, h.length, hp⟩
  have hlen := hshaped.length_eq
  have hlt := hshaped.lt_hosts h.hosts
  obtain ⟨b, hb, hiff⟩ : Returns (o.verifyPermutation .wrapping it g1 residual e mapper) _ :=
    verifyPermutation_iff h (summable_of_not_checked (by simp)) he
  obtain ⟨b', hb', hiff'⟩ : Returns (o.verifyPermutation .exact it g1 residual e mapper) _ :=
    verifyPermutation_iff h (summable_of_not_checked (by simp)) he
  rw [← hp, passes_iff (by simp) hlen hlt] at hiff hiff'
  rw [hb, hb', Except.ok.injEq, Bool.eq_iff_iff, hiff, hiff']
  simp only [Arith.reduce]
  constructor
  · intro hsame
    by_contra hcond
    simp only [not_or, not_forall, not_exists, not_and, Nat.not_le, Nat.not_lt] at hcond
    obtain ⟨⟨host, hhost, hover⟩, hroom, hwrapped⟩ := hcond
    have hrooms : ∀ host ∈ p, ∃ node, o.hostMapping[host]? = some node ∧
        o.totalLoad node + p.count host ≤ o.maxLoad := by
      intro host hhost
      obtain ⟨node, hnode⟩ := h.mapped.node (hlt host hhost)
      exact ⟨node, hnode, hroom host hhost node hnode⟩
    -- The wrapped sums pass, so the exact ones do, and these are within the residual graph.
    obtain ⟨-, hexact⟩ := hsame.mp ⟨hrooms, hwrapped⟩
    obtain ⟨other, hother, hne⟩ := exists_other (Nat.zero_lt_of_lt hover)
    have hfits := hexact host hhost other hother hne
    have hle := hbound host other (hlt host hhost) (hlt other hother)
    omega
  · rintro (hsmall | ⟨host, hhost, node, hnode, hfull⟩ | ⟨host, hhost, other, hother, hne, hover⟩)
    · refine and_congr_right fun _ => forall₂_congr fun host hhost => ?_
      rw [Nat.mod_eq_of_lt (Nat.lt_succ_of_le (hsmall host hhost))]
    · have hrefused : ¬ ∀ host ∈ p, ∃ node, o.hostMapping[host]? = some node ∧
          o.totalLoad node + p.count host ≤ o.maxLoad := by
        intro hroom
        obtain ⟨node', hnode', hle⟩ := hroom host hhost
        rw [← Option.some.inj (hnode.symm.trans hnode')] at hle
        omega
      exact iff_of_false (fun hb => hrefused hb.1) (fun hb => hrefused hb.1)
    · have hmod := Nat.mod_le (flow g1 (appsOn p host) (appsOff p host)) (u32Max + 1)
      refine iff_of_false (fun hb => ?_) fun hb => ?_
      · exact absurd (hb.2 host hhost other hother hne) (Nat.not_le.mpr hover)
      · exact absurd (hmod.trans (hb.2 host hhost other hother hne)) (Nat.not_le.mpr hover)

theorem exact_answer_demo : ∃ (o : Orchestrator) (g1 : SymMatrix Nat), g1.n = 3 ∧
    o.verifyPermutation .wrapping .inOrder g1 g1 [0, 1, 2] [0, 1, 3] =
      o.verifyPermutation .exact .inOrder g1 g1 [0, 1, 2] [0, 1, 3] := by
  obtain ⟨graph, -, o, ho, ⟨hN, hlen, hbound⟩, g1, -, hn, hle⟩ :
      Returns (demoCluster [0, 1] 1000) fun graph =>
        Returns (Orchestrator.new .inOrder graph 9092 4) fun o =>
          (o.residualGraph.n = 2 ∧ o.hostMapping.length = 2 ∧
            ∀ i < 2, ∀ j < 2, o.residualGraph.entry i j ≤ u32Max) ∧
          Returns (demoDemand 2000 100) fun g1 => g1.n = 3 ∧ AtMost g1 2000 := by
    decide +kernel
  have htest : Testable o g1 g1 [0, 1, 3] :=
    new_testable ho (hlen.trans hN.symm) (by omega) rfl (by rw [hn]; rfl)
  have hperm : [0, 1, 2].Perm (List.range g1.n) := by
    rw [hn]
    decide
  have hsmall : Summable .checked g1 := summable_of_atMost hle (by rw [hn]; decide)
  refine ⟨o, g1, hn, (exact_answer_iff htest hperm (fun i j hi hj => ?_) rfl).mpr (Or.inl fun host _ => ?_)⟩
  · rw [hN] at hi hj
    exact hbound i hi j hj
  · exact hsmall rfl _ host (by rw [hn]; rfl)

/-- One app asks two others for half of the range each: the sum wraps to nothing. -/
theorem accepted_by_wrapping : ∃ (o : Orchestrator) (g1 : SymMatrix Nat), Testable o g1 g1 [0, 1, 3] ∧
    [0, 1, 2].Perm (List.range g1.n) ∧
    o.verifyPermutation .wrapping .inOrder g1 g1 [0, 1, 2] [0, 1, 3] = .ok true ∧
    o.verifyPermutation .exact .inOrder g1 g1 [0, 1, 2] [0, 1, 3] = .ok false := by
  obtain ⟨graph, -, o, ho, ⟨hN, hlen⟩, g1, -, hn, hwrapping, hexact⟩ :
      Returns (demoCluster [0, 1] 1000) fun graph =>
        Returns (Orchestrator.new .inOrder graph 9092 4) fun o =>
          (o.residualGraph.n = 2 ∧ o.hostMapping.length = 2) ∧
          Returns (demoDemand 2147483648 2147483648) fun g1 => g1.n = 3 ∧
            o.verifyPermutation .wrapping .inOrder g1 g1 [0, 1, 2] [0, 1, 3] = .ok true ∧
            o.verifyPermutation .exact .inOrder g1 g1 [0, 1, 2] [0, 1, 3] = .ok false := by
    decide +kernel
  refine ⟨o, g1, new_testable ho (hlen.trans hN.symm) (by omega) rfl (by rw [hn]; rfl), ?_, hwrapping, hexact⟩
  rw [hn]
  decide

end Orchestrator

end Kollaps
