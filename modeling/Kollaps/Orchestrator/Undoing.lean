import Kollaps.Orchestrator.Runs

/-!
# A stop undoes a placement

Two loops, one that takes and one that gives back. The first one leaves out two apps on one host.
-/

namespace Kollaps

open Run

namespace SymMatrix

def Bounded (m : SymMatrix Nat) : Prop := ∀ x ∈ m.data, x ≤ u32Max

variable {ar : Arith} {m m' : SymMatrix Nat}

theorem Bounded.entry (h : m.Bounded) (i j : Nat) : m.entry i j ≤ u32Max := by
  rw [SymMatrix.entry, List.getD_eq_getElem?_getD]
  cases hx : m.data[outToInIndex i j m.n]? with
  | none => exact Nat.zero_le _
  | some x => exact h x (List.mem_of_getElem? hx)

theorem Bounded.index (h : m.Bounded) {i j x : Nat} (hx : m.index i j = .ok x) : x ≤ u32Max :=
  h x (List.mem_of_getElem? (get_eq_ok.mp hx))

theorem Bounded.setIndex (h : m.Bounded) {i j x : Nat} (hx : x ≤ u32Max) (hm : m.setIndex i j x = .ok m') :
    m'.Bounded := by
  unfold SymMatrix.setIndex at hm
  split at hm
  · cases hm
    intro y hy
    rcases List.mem_or_eq_of_mem_set hy with hy | rfl
    · exact h y hy
    · exact hx
  · cases hm

theorem newFn_bounded {n : Nat} {f : Nat → Nat → Run Nat} (h : newFn n f = .ok m)
    (hf : ∀ i j x, f i j = .ok x → x ≤ u32Max) : m.Bounded := by
  obtain ⟨data, hdata, h⟩ := of_bind_eq_ok h
  cases h
  intro x hx
  obtain ⟨i, hi⟩ := List.getElem?_of_mem hx
  have hlt : i < sizeVec n := data.2 ▸ (List.getElem?_eq_some_iff.mp hi).1
  have hcell := pushAll_ok (α := Nat) hdata i hlt
  obtain ⟨⟨row, col⟩, -, hcell⟩ := of_bind_eq_ok hcell
  rw [List.getD_eq_getElem?_getD, hi] at hcell
  exact hf row col x hcell

theorem Bounded.growFn (h : m.Bounded) {k : Nat} {f : Nat → Nat → Run Nat} (hm : m.growFn k f = .ok m')
    (hf : ∀ i j x, f i j = .ok x → x ≤ u32Max) : m'.Bounded := by
  refine newFn_bounded hm fun i j x hx => ?_
  split at hx
  · exact hf i j x hx
  · exact h.index hx

theorem Bounded.removeId (h : m.Bounded) {id : Nat} (hm : m.removeId id = .ok m') : m'.Bounded := by
  obtain ⟨n, -, hm⟩ := of_bind_eq_ok hm
  exact newFn_bounded hm fun i j x hx => h.index hx

theorem Bounded.addAt (har : ar ≠ .exact) (h : m.Bounded) {i j d : Nat} (hm : m.addAt ar i j d = .ok m') :
    m'.Bounded := by
  obtain ⟨a, -, hm⟩ := of_bind_eq_ok hm
  obtain ⟨s, hs, hm⟩ := of_bind_eq_ok hm
  refine h.setIndex ?_ hm
  cases ar with
  | exact => exact absurd rfl har
  | wrapping =>
    cases hs
    exact Nat.le_of_lt_succ (Nat.mod_lt _ (Nat.succ_pos _))
  | checked =>
    simp only [Arith.add] at hs
    split at hs
    · cases hs
      assumption
    · cases hs

theorem Bounded.subAt (h : m.Bounded) {i j d : Nat} (hm : m.subAt ar i j d = .ok m') : m'.Bounded := by
  obtain ⟨a, ha, hm⟩ := of_bind_eq_ok hm
  obtain ⟨s, hs, hm⟩ := of_bind_eq_ok hm
  refine h.setIndex ?_ hm
  have hle := h.index ha
  cases ar with
  | wrapping =>
    cases hs
    exact Nat.le_of_lt_succ (Nat.mod_lt _ (Nat.succ_pos _))
  | checked | exact =>
    obtain ⟨-, rfl⟩ := Arith.sub_eq_ok (by simp) hs
    omega

end SymMatrix

namespace Orchestrator

variable {ar : Arith} {it : Iter} {o o' : Orchestrator} {id : Uuid} {matrix r r' : SymMatrix Nat}
  {p : List Nat}

/-! ## Entries stay `u32` -/

theorem release_bounded (har : ar ≠ .exact) (h : r.Bounded) {i j : Nat}
    (hr : release ar matrix p i j r = .ok r') : r'.Bounded := by
  unfold release at hr
  split at hr
  · cases hr
    exact h
  · obtain ⟨hi, -, hr⟩ := of_bind_eq_ok hr
    obtain ⟨hj, -, hr⟩ := of_bind_eq_ok hr
    obtain ⟨d, -, hr⟩ := of_bind_eq_ok hr
    exact h.addAt har hr

theorem reserve_bounded (h : r.Bounded) {i j : Nat} (hr : reserve ar matrix p i j r = .ok r') :
    r'.Bounded := by
  unfold reserve at hr
  obtain ⟨hi, -, hr⟩ := of_bind_eq_ok hr
  obtain ⟨hj, -, hr⟩ := of_bind_eq_ok hr
  split at hr
  · cases hr
    exact h
  · obtain ⟨d, -, hr⟩ := of_bind_eq_ok hr
    exact h.subAt hr

theorem Stopped.bounded (har : ar ≠ .exact) (h : Stopped ar o id matrix p o') (ho : o.residualGraph.Bounded) :
    o'.residualGraph.Bounded :=
  forRange_ok_inv SymMatrix.Bounded ho (fun _ _ _ hr hrow =>
    forRange_ok_inv SymMatrix.Bounded hr (fun _ _ _ hr hcell => release_bounded har hr hcell) hrow) h.released

theorem Placed.bounded {places : List ClusterNodeInfo} (h : Placed ar it o id matrix p places o')
    (ho : o.residualGraph.Bounded) : o'.residualGraph.Bounded :=
  forRange_ok_inv SymMatrix.Bounded ho (fun _ _ _ hr hrow =>
    forRange_ok_inv SymMatrix.Bounded hr (fun _ _ _ hr hcell => reserve_bounded hr hcell) hrow) h.reserved

theorem AppStopped.bounded (har : ar ≠ .exact) {node : ClusterNodeInfo} {app : Nat}
    (h : AppStopped ar o id node app matrix p o') (ho : o.residualGraph.Bounded) :
    o'.residualGraph.Bounded := by
  refine forRange_ok_inv SymMatrix.Bounded ho (fun i r r' hr hcell => ?_) h.released
  split at hcell
  · cases hcell
    exact hr
  · exact release_bounded har hr hcell

theorem NodeRemoved.bounded (har : ar ≠ .exact) {node : ClusterNodeInfo} {uuids : List Uuid} {i : Nat}
    {o₁ : Orchestrator} (h : NodeRemoved ar o node uuids i o₁ o') (ho : o.residualGraph.Bounded) :
    o'.residualGraph.Bounded := by
  have hstopped : o₁.residualGraph.Bounded := by
    refine stopEach_inv (fun _ s => s.residualGraph.Bounded) ho (fun done u s s' hs hstep => ?_) h.stopped
    rcases hstep with hstop | ⟨-, rfl⟩
    · obtain ⟨matrix, p, hstopped⟩ := stopEmulation_ok hstop
      exact hstopped.bounded har hs
    · exact hs
  exact hstopped.removeId h.residualGraph

theorem addClusterNode_bounded {nodesToIndex : HostMap Nat} {node : ClusterNodeInfo}
    (hmatrix : matrix.Bounded)
    (h : addClusterNode matrix nodesToIndex o node = .ok o') (ho : o.residualGraph.Bounded) :
    o'.residualGraph.Bounded := by
  obtain ⟨⟨n, index⟩, -, h⟩ := of_bind_eq_ok h
  obtain ⟨residualGraph, hgrow, h⟩ := of_bind_eq_ok h
  cases h
  refine SymMatrix.Bounded.growFn (m := o.residualGraph) ho hgrow fun i j x hx => ?_
  split at hx
  · cases hx
    exact le_refl _
  · obtain ⟨other, -, hx⟩ := of_bind_eq_ok hx
    obtain ⟨⟨n', index'⟩, -, hx⟩ := of_bind_eq_ok hx
    exact hmatrix.index hx

theorem speeds_bounded {I : Type} {g : Cgraph.CGraph I} {infos : List I}
    (h : g.speeds it = .ok (matrix, infos)) :
    matrix.Bounded := by
  obtain ⟨m, hm, h⟩ := of_bind_eq_ok h
  obtain ⟨l, -, h⟩ := of_bind_eq_ok h
  cases h
  refine SymMatrix.newFn_bounded hm fun i j x hx => ?_
  obtain ⟨d, -, hx⟩ := of_bind_eq_ok hx
  cases hx
  exact Nat.le_of_lt_succ (Nat.mod_lt _ (Nat.succ_pos _))

theorem updateWithCgraph_bounded (har : ar ≠ .exact) {cgraph : Cgraph.CGraph ClusterNodeInfo}
    {uuids : List Uuid}
    (h : o.updateWithCgraph ar it cgraph = .ok (o', uuids)) (ho : o.residualGraph.Bounded) :
    o'.residualGraph.Bounded := by
  unfold updateWithCgraph at h
  obtain ⟨⟨matrix, nodes⟩, hspeeds, h⟩ := of_bind_eq_ok h
  obtain ⟨⟨o₁, affected⟩, hremoved, h⟩ := of_bind_eq_ok h
  obtain ⟨o₂, hadded, h⟩ := of_bind_eq_ok h
  cases h
  have hone : o₁.residualGraph.Bounded := by
    refine foldlM_ok_inv (f := removeNext ar it)
      (fun (r : Orchestrator × UuidSet) => r.1.residualGraph.Bounded) ho
      (fun node _ r r' hr hstep => ?_) hremoved
    unfold removeNext at hstep
    cases hnode : r.1.removeClusterNode ar it node with
    | error e =>
      rw [hnode] at hstep
      cases e <;> cases hstep
    | ok res =>
      rw [hnode] at hstep
      cases hstep
      obtain ⟨i, s₁, hremoved⟩ := removeClusterNode_ok hnode
      exact hremoved.bounded har hr
  exact foldlM_ok_inv (fun s => s.residualGraph.Bounded) hone
    (fun _ _ _ _ hs hstep => addClusterNode_bounded (speeds_bounded hspeeds) hstep hs) hadded

theorem Reached.bounded {w : World} (har : ar ≠ .exact) (h : Reached ar w) :
    w.orchestrator.residualGraph.Bounded := by
  induction h with
  | new hips h =>
    unfold Orchestrator.new at h
    obtain ⟨⟨residualGraph, hostMapping⟩, hspeeds, h⟩ := of_bind_eq_ok h
    cases h
    exact speeds_bounded hspeeds
  | step _ hs ih =>
    cases hs with
    | placed _ _ h _ _ =>
      obtain ⟨matrix, p, places, hplaced, -⟩ := newEmulation_some h
      exact hplaced.bounded ih
    | refused h =>
      rw [newEmulation_none h]
      exact ih
    | stopped h =>
      obtain ⟨matrix, p, hstopped⟩ := stopEmulation_ok h
      exact hstopped.bounded har ih
    | appStopped _ _ _ h =>
      obtain ⟨matrix, p, hstopped⟩ := stopAppEmulationOn_ok h
      exact hstopped.bounded har ih
    | removed h =>
      obtain ⟨i, o₁, hremoved⟩ := removeClusterNode_ok h
      exact hremoved.bounded har ih
    | updated _ h => exact updateWithCgraph_bounded har h ih

/-! ## Taking and giving back -/

/-- No two apps on one host ask for bandwidth between them. -/
def NoneTogether (matrix : SymMatrix Nat) (p : List Nat) : Prop :=
  ∀ pair ∈ pairsBelow matrix.n, p.getD pair.1 0 = p.getD pair.2 0 → matrix.entry pair.1 pair.2 = 0

instance (matrix : SymMatrix Nat) (p : List Nat) : Decidable (NoneTogether matrix p) :=
  inferInstanceAs (Decidable (∀ pair ∈ pairsBelow matrix.n,
    p.getD pair.1 0 = p.getD pair.2 0 → matrix.entry pair.1 pair.2 = 0))

structure Undone (o o' : Orchestrator) : Prop where
  size : o'.residualGraph.n = o.residualGraph.n
  residual : ∀ i j, i < o.residualGraph.n → j < o.residualGraph.n →
    o'.residualGraph.entry i j = o.residualGraph.entry i j
  emulations : ∀ u, o'.emulations.lookup u = o.emulations.lookup u
  loadOf : ∀ h u, o'.loadOf h u = o.loadOf h u
  attributed : ∀ h u, o'.Attributed h u ↔ o.Attributed h u

theorem NoneTogether.total_eq (h : NoneTogether matrix p) (i j : Nat) :
    Cell.total i j ((apart matrix.n p).map (cellOf matrix p)) = Cell.total i j (cellsOf (matrix, p)) := by
  have hpairs : ∀ pairs : List (Nat × Nat), (∀ pair ∈ pairs, pair ∈ pairsBelow matrix.n) →
      Cell.total i j ((pairs.filter fun pair => p.getD pair.1 0 ≠ p.getD pair.2 0).map (cellOf matrix p)) =
        Cell.total i j (pairs.map (cellOf matrix p)) := by
    intro pairs
    induction pairs with
    | nil => intro _; rfl
    | cons pair pairs ih =>
      intro hin
      rw [List.map_cons, Cell.total_cons, ← ih fun x hx => hin x (List.mem_cons_of_mem _ hx)]
      by_cases hpair : p.getD pair.1 0 = p.getD pair.2 0
      · have hzero : (cellOf matrix p pair).amount = 0 :=
          h pair (hin pair List.mem_cons_self) hpair
        rw [List.filter_cons_of_neg (by simpa using hpair), hzero, ite_self, Nat.zero_add]
      · rw [List.filter_cons_of_pos (by simpa using hpair), List.map_cons, Cell.total_cons]
  exact hpairs _ fun _ hx => hx

theorem total_apart_diagonal (hlen : p.length = matrix.n) (i : Nat) :
    Cell.total i i ((apart matrix.n p).map (cellOf matrix p)) = 0 := by
  rw [total_eq_sum, List.sum_eq_zero_iff]
  intro x hx
  obtain ⟨c, hc, rfl⟩ := List.mem_map.mp hx
  refine if_neg ?_
  rintro (⟨h1, h2⟩ | ⟨h1, h2⟩)
  · exact (apart_ends hlen hc).2.2 (h1.symm.trans h2)
  · exact (apart_ends hlen hc).2.2 (h2.symm.trans h1)

/-- What a pair of apps on one host asks for lies on the diagonal. -/
theorem entry_le_total {pair : Nat × Nat} (hpair : pair ∈ pairsBelow matrix.n)
    (hsame : p.getD pair.1 0 = p.getD pair.2 0) : matrix.entry pair.1 pair.2 ≤
      Cell.total (p.getD pair.1 0) (p.getD pair.1 0) (cellsOf (matrix, p)) := by
  have hmem : cellOf matrix p pair ∈ cellsOf (matrix, p) := List.mem_map_of_mem hpair
  rw [total_eq_sum]
  refine List.single_le_sum (fun _ _ => Nat.zero_le _) _ (List.mem_map.mpr ⟨_, hmem, ?_⟩)
  exact if_pos (Or.inl ⟨rfl, hsame⟩)

theorem Placed.stop_ok {places : List ClusterNodeInfo} (h : Placed .checked it o id matrix p places o')
    (ho : o.residualGraph.Bounded) (hnone : NoneTogether matrix p) :
    Returns (o'.stopEmulation .checked id) fun _ => True := by
  have hlookup : o'.emulations.get? id = some (id, matrix, p) := by
    rw [KeySet.get?_eq_lookup, h.emulations, KeySet.lookup_put, if_pos rfl]
    rfl
  have hwithin : Cell.Within o'.residualGraph.n (cellsOf (matrix, p)) :=
    cellsOf_within h.found.length (h.size ▸ h.found.lt)
  have hreleased : Returns (o'.residualGraph.addAll .checked (cellsOf (matrix, p))) fun _ => True := by
    refine (SymMatrix.addAll_returns hwithin).mpr fun _ c hc => ?_
    obtain ⟨hrow, hcol⟩ := hwithin c hc
    rw [← hnone.total_eq, h.residual (by simp) (h.size ▸ hrow) (h.size ▸ hcol)]
    exact ho.entry _ _
  obtain ⟨residualGraph, hresidual, -⟩ := hreleased
  rw [stopEmulation, hlookup]
  simp only [releaseAll_eq h.found.length]
  exact ⟨_, by rw [show (pairsBelow matrix.n).map (cellOf matrix p) =
    cellsOf (matrix, p) from rfl, hresidual]; rfl,
    trivial⟩

/-- A stop right after the placement gives back what was taken and no more, when no two apps on one
host ask for bandwidth between them. For two such apps nothing was taken. -/
theorem stop_undoes_iff {w : World} {network : Network Node} {r : Network Node × List ClusterNodeInfo}
    (hw : Reached .checked w)
    (hfresh : w.orchestrator.emulations.lookup id = none)
    (h : w.orchestrator.newEmulation .checked it network id = .ok (o', some r)) :
    Returns (o'.stopEmulation .checked id) (Undone w.orchestrator) ↔
      ∀ matrix p, o'.emulations.lookup id = some (matrix, p) → NoneTogether matrix p := by
  obtain ⟨matrix, p, places, hplaced, -⟩ := newEmulation_some h
  have hwf := hw.represented.wf
  have hlookup : o'.emulations.lookup id = some (matrix, p) := by
    rw [hplaced.emulations, KeySet.lookup_put, if_pos rfl]
  have hidle := hwf.accounted.idle hfresh
  have hwithin : Cell.Within o'.residualGraph.n (cellsOf (matrix, p)) :=
    cellsOf_within hplaced.found.length (hplaced.size ▸ hplaced.found.lt)
  -- What a stop that returned has done to the residual graph.
  have hentry : ∀ o'', o'.stopEmulation .checked id = .ok o'' → ∀ i j, i < w.orchestrator.residualGraph.n →
      j < w.orchestrator.residualGraph.n → o''.residualGraph.entry i j =
        o'.residualGraph.entry i j + Cell.total i j (cellsOf (matrix, p)) := by
    intro o'' hstop i j hi hj
    obtain ⟨matrix', p', hstopped⟩ := stopEmulation_ok hstop
    obtain ⟨rfl, rfl⟩ := Prod.mk.inj (Option.some.inj (hlookup.symm.trans hstopped.emulation))
    have hreleased := hstopped.released
    rw [releaseAll_eq hplaced.found.length] at hreleased
    exact SymMatrix.addAll_entry (by simp) hwithin hreleased (hplaced.size ▸ hi) (hplaced.size ▸ hj)
  constructor
  · rintro ⟨o'', hstop, hundone⟩ m q hmq
    obtain ⟨rfl, rfl⟩ := Prod.mk.inj (Option.some.inj (hlookup.symm.trans hmq))
    intro pair hpair hsame
    have hhost : p.getD pair.1 0 < w.orchestrator.residualGraph.n := by
      have hlt : pair.1 < p.length := by
        rw [hplaced.found.length]
        exact (mem_pairsBelow.mp hpair).1
      rw [List.getD_eq_getElem?_getD, List.getElem?_eq_getElem hlt]
      exact hplaced.found.lt _ (List.getElem_mem hlt)
    have hback := hentry o'' hstop _ _ hhost hhost
    have htaken := hplaced.residual (by simp) hhost hhost
    rw [total_apart_diagonal hplaced.found.length] at htaken
    rw [hundone.residual _ _ hhost hhost] at hback
    have hle := entry_le_total hpair hsame
    omega
  · intro hnone
    have hnone := hnone matrix p hlookup
    obtain ⟨o'', hstop, -⟩ := hplaced.stop_ok (hw.bounded (by simp)) hnone
    obtain ⟨matrix', p', hstopped⟩ := stopEmulation_ok hstop
    refine ⟨o'', hstop, hstopped.size.trans hplaced.size, fun i j hi hj => ?_, fun u => ?_, fun x u => ?_,
      fun x u => ?_⟩
    · rw [hentry o'' hstop i j hi hj, ← hnone.total_eq]
      exact hplaced.residual (by simp) hi hj
    · rw [hstopped.emulations, KeySet.lookup_remove, hplaced.emulations, KeySet.lookup_put]
      split <;> rename_i hu
      · rw [hu, hfresh]
      · rfl
    · rw [hstopped.loadOf, hplaced.loadOf]
      by_cases hu : u = id
      · rw [if_pos hu, hu, (hidle x).1]
      · rw [if_neg hu, if_neg fun h => hu h.1]
    · rw [hstopped.attributed, hplaced.attributed]
      by_cases hu : u = id
      · simp [hu, (hidle x).2]
      · simp [hu]

theorem stop_undoes_demo : ∃ (w : World) (o' : Orchestrator), Reached .checked w ∧
    Returns (o'.stopEmulation .checked ⟨1⟩) (Undone w.orchestrator) := by
  obtain ⟨graph, -, hips, o, ho, hfresh, network, -, ⟨o', r⟩, hnew, hsome, hnone⟩ :
      Returns (demoCluster [0, 1] 1000) fun graph => DistinctIps graph ∧
        Returns (Orchestrator.new .inOrder graph 9092 1) fun o => o.emulations.lookup ⟨1⟩ = none ∧
          Returns (demoTopology 2 100) fun network =>
            Returns (o.newEmulation .checked .inOrder network ⟨1⟩) fun r => r.2.isSome = true ∧
              (r.1.emulations.lookup ⟨1⟩).all (fun e => decide (NoneTogether e.1 e.2)) = true := by
    decide +kernel
  obtain ⟨r, rfl⟩ := Option.isSome_iff_exists.mp hsome
  refine ⟨⟨o, KeySet.empty⟩, o', .new hips ho,
    (stop_undoes_iff (w := ⟨o, KeySet.empty⟩) (.new hips ho) hfresh hnew).mpr fun matrix p hmp => ?_⟩
  rw [hmp] at hnone
  exact of_decide_eq_true hnone

/-- One host, with two apps: the stop overflows on the diagonal. -/
theorem stop_overflows : ∃ (w : World) (network : Network Node) (o' : Orchestrator)
    (r : Network Node × List ClusterNodeInfo), Reached .checked w ∧
    w.orchestrator.residualGraph.entry 0 0 = u32Max ∧ w.orchestrator.residualGraph.n = 1 ∧
    w.orchestrator.emulations.lookup ⟨1⟩ = none ∧
    w.orchestrator.newEmulation .checked .inOrder network ⟨1⟩ = .ok (o', some r) ∧
    o'.stopEmulation .checked ⟨1⟩ = .error .arith ∧
    ¬ Returns (o'.stopEmulation .checked ⟨1⟩) (Undone w.orchestrator) := by
  obtain ⟨graph, -, hips, o, ho, hfresh, hself, hone, network, -, ⟨o', r⟩, hnew, hsome, hstop⟩ :
      Returns (demoCluster [0] 1000) fun graph => DistinctIps graph ∧
        Returns (Orchestrator.new .inOrder graph 9092 4) fun o => o.emulations.lookup ⟨1⟩ = none ∧
          o.residualGraph.entry 0 0 = u32Max ∧ o.residualGraph.n = 1 ∧
          Returns (demoTopology 2 100) fun network =>
            Returns (o.newEmulation .checked .inOrder network ⟨1⟩) fun r => r.2.isSome = true ∧
              r.1.stopEmulation .checked ⟨1⟩ = .error .arith := by
    decide +kernel
  obtain ⟨r, rfl⟩ := Option.isSome_iff_exists.mp hsome
  refine ⟨⟨o, KeySet.empty⟩, network, o', r, .new hips ho, hself, hone, hfresh, hnew, hstop, ?_⟩
  simp only at hstop
  rw [hstop]
  exact returns_error _ _

end Orchestrator

end Kollaps
