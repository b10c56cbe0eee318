import Kollaps.Bwsync.Capacity
import Kollaps.Netgraph.Optimal

/-!
# The remaining bandwidth

`calculate_bandwidth_graph` looks a path up in the network that the flows before it left. A
shortest path is still the same there. A widest path may be another one, and then the flow is
taken off links that it does not use.
-/

namespace Kollaps

open Run

variable {T : Type} [Vertex T]

namespace Network

theorem Rebanded.wf {g g' : Network T} (h : g.Rebanded g') (hg : g.Wf)
    (hband : ∀ i j, i < g.links.n → j < g.links.n → g'.band i j ≤ u32Max) : g'.Wf := by
  have hmap : ∀ v, g'.map v = g.map v := fun v => by rw [Network.map, h.mapper, Network.map]
  have hentry : ∀ i j l', i < g'.links.n → j < g'.links.n → g'.links.entry i j = some l' →
      i < g.links.n ∧ j < g.links.n ∧
        ∃ l, g.links.entry i j = some l ∧ l' = { l with linkBandwidth := g'.band i j } := by
    intro i j l' hi hj hl'
    rw [h.size] at hi hj
    rw [h.entry_eq hg hi hj, Option.map_eq_some_iff] at hl'
    obtain ⟨l, hl, rfl⟩ := hl'
    exact ⟨hi, hj, l, hl, rfl⟩
  refine ⟨fun v i hv => ?_, fun v w i hv hw => ?_, fun i j l' hi hj hl' => ?_, fun i j l' hi hj hl' => ?_⟩
  · rw [h.size]
    exact hg.map_lt v i (hmap v ▸ hv)
  · exact hg.map_inj v w i (hmap v ▸ hv) (hmap w ▸ hw)
  · obtain ⟨hi, hj, l, hl, rfl⟩ := hentry i j l' hi hj hl'
    rw [hmap, hmap]
    exact hg.ends i j l hi hj hl
  · obtain ⟨hi, hj, l, hl, rfl⟩ := hentry i j l' hi hj hl'
    exact ⟨(hg.full i j l hi hj hl).1, hband i j hi hj⟩

theorem Rebanded.cells_nil {g g' : Network T} (h : g.Rebanded g') (hg : g.Wf) (hg' : g'.Wf) {a b : T}
    (hnil : g.cells a b = []) : g'.cells a b = [] := by
  rw [cells_eq_nil] at hnil ⊢
  by_contra hroute
  cases hm : g'.mapTwo a b with
  | none => exact hroute (by rw [Network.route, hm])
  | some p =>
    obtain ⟨hi, hj⟩ := hg'.mapTwo_lt hm
    have hab : Vertex.id a ≠ Vertex.id b := fun hab => hroute (hg'.route_self hab)
    have hne : p.1 ≠ p.2 := mapTwo_ne hg'.shaped hm hab
    have hconn : g'.Connected a b := by
      refine ⟨⟨p.1, hi⟩, ⟨p.2, hj⟩, hm, ?_⟩
      rw [route_eq hm] at hroute
      by_contra hreach
      exact hroute (((routeOf_routeFrom ⟨p.1, hi⟩ ⟨p.2, hj⟩).eq_nil_iff
        fun heq => hne (congrArg Fin.val heq)).mpr fun h => hreach h.symm)
    exact (h.symm.connected hconn).route_ne_nil hg.shaped hab hnil

end Network

namespace Bwsync

/-! ## The original network minus the flows -/

/-- Each link without what the flows use whose path in this network crosses it. -/
def lessen (g : Network T) (flows : List (Flow T)) : Network T :=
  { g with links := g.links.map (Option.map fun l =>
      { l with linkBandwidth := l.linkBandwidth - load g flows l.cell }) }

theorem lessen_leftOver {g : Network T} (hg : g.Wf) {flows : List (Flow T)} (hfit : Fits g flows) :
    LeftOver g flows (lessen g flows) := by
  have hentry : ∀ i j, i < g.links.n → j < g.links.n → (lessen g flows).links.entry i j =
      (g.links.entry i j).map fun l => { l with linkBandwidth := l.linkBandwidth - load g flows l.cell } :=
    fun i j hi hj => SymMatrix.entry_map _ g.links hi hj
  have hreb : g.Rebanded (lessen g flows) := by
    refine ⟨rfl, rfl, rfl, fun i j hi hj => ?_⟩
    rw [hentry i j hi hj]
    cases g.links.entry i j with
    | none => exact ⟨0, rfl⟩
    | some l => exact ⟨l.linkBandwidth - load g flows l.cell, rfl⟩
  have hband : ∀ i j, i < g.links.n → j < g.links.n →
      (lessen g flows).band i j + load g flows s(i, j) = g.band i j := by
    intro i j hi hj
    have hle := hfit i j hi hj
    rw [Network.band, Network.band, hentry i j hi hj]
    rw [Network.band] at hle
    cases hl : g.links.entry i j with
    | none =>
      rw [hl] at hle
      simpa using hle
    | some l =>
      rw [hl] at hle
      simp only [Option.map_some, Link.bandwidth, (hg.full i j l hi hj hl).1, hg.cell_eq hi hj hl] at hle ⊢
      omega
  refine ⟨hreb, hreb.wf hg fun i j hi hj => ?_, hband⟩
  have hle := hg.band_le hi hj
  have := hband i j hi hj
  omega

theorem LeftOver.eq_lessen {g bw : Network T} (hg : g.Wf) {flows : List (Flow T)} (h : LeftOver g flows bw) :
    bw = lessen g flows := by
  have hfit : Fits g flows := by
    intro i j hi hj
    have := h.band i j hi hj
    omega
  have hlessen := lessen_leftOver hg hfit
  refine h.rebanded.eq_of_band hlessen.rebanded hg fun i j hi hj => ?_
  have h₁ := h.band i j hi hj
  have h₂ := hlessen.band i j hi hj
  omega

/-- No path changes when what any of the other flows use is taken off the links. -/
def Steady (g : Network T) (flows : FlowSet T) : Prop :=
  ∀ part : FlowSet T, (∀ h ∈ part.elems, h ∈ flows.elems) →
    ∀ f ∈ flows.elems, f ∉ part.elems → f.usedBandwidth ≠ 0 →
      ∀ c, c ∈ (lessen g part.elems).cells f.source f.destination ↔ c ∈ g.cells f.source f.destination

theorem fits_of_subset {g : Network T} {flows part : FlowSet T} (hfit : Fits g flows.elems)
    (hpart : ∀ h ∈ part.elems, h ∈ flows.elems) : Fits g part.elems := by
  obtain ⟨sub, hperm, hsub⟩ : part.elems.Subperm flows.elems :=
    List.subperm_of_subset part.elems_nodup hpart
  have hfit' := hfit.sublist hsub
  intro i j hi hj
  rw [← load_perm g hperm]
  exact hfit' i j hi hj

theorem exists_part {part : FlowSet T} {it : Iter} {pre post : List (Flow T)} {f : Flow T}
    (hx : it.order part.elems = pre ++ f :: post) :
    ∃ before : FlowSet T, before.elems = pre ∧ f ∉ before.elems ∧ ∀ h ∈ before.elems, h ∈ part.elems := by
  have hnd : ((it.order part.elems).map Flow.key).Nodup := ((it.perm _).map _).nodup_iff.mpr part.nodup
  rw [hx, List.map_append, List.nodup_append] at hnd
  refine ⟨⟨pre, hnd.1⟩, rfl, fun hf => ?_, fun h hh => ?_⟩
  · exact hnd.2.2 _ (List.mem_map_of_mem hf) _ (by simp) rfl
  · exact it.mem_order.mp (by rw [hx]; exact List.mem_append_left _ hh)

theorem lessens_of_steady (it : Iter) (ar : Arith) {g : Network T} (hg : g.Wf) {flows part : FlowSet T}
    (hfit : Fits g flows.elems) (hsteady : Steady g flows) (hpart : ∀ h ∈ part.elems, h ∈ flows.elems) :
    calculateBandwidthGraph it ar g part = .ok (lessen g part.elems) := by
  obtain ⟨bw, hbw, hleft⟩ := calculateBandwidthGraph_leftOver it ar hg (fits_of_subset hfit hpart)
    fun pre f post bw hx hleft hused => by
      obtain ⟨before, rfl, hnew, hsub⟩ := exists_part hx
      have hf : f ∈ part.elems := it.mem_order.mp (by rw [hx]; simp)
      rw [hleft.eq_lessen hg]
      exact hsteady before (fun h hh => hpart h (hsub h hh)) f (hpart f hf) hnew hused
  rw [hbw, hleft.eq_lessen hg]

theorem steady_of_shortestPath {g : Network T} (hg : g.Wf) (hs : g.pathStrategy = .shortestPath)
    {flows : FlowSet T} (hfit : Fits g flows.elems) : Steady g flows := by
  intro part hpart f _ _ _ c
  rw [(lessen_leftOver hg (fits_of_subset hfit hpart)).rebanded.cells hg hs]

theorem cells_of_step (ar : Arith) {g : Network T} (hg : g.Wf) {pre : List (Flow T)} {f : Flow T}
    (hfit : Fits g (pre ++ [f])) (hused : f.usedBandwidth ≠ 0)
    (he : (lessen g pre).updateEdgesAlongPathBy f.source f.destination
      (fun oldSpeed => ar.sub oldSpeed f.usedBandwidth) = .ok (lessen g (pre ++ [f]))) (c : Sym2 Nat) :
    c ∈ (lessen g pre).cells f.source f.destination ↔ c ∈ g.cells f.source f.destination := by
  have hpre := lessen_leftOver hg (hfit.sublist (List.sublist_append_left _ _))
  have hpost := lessen_leftOver hg hfit
  have halong := Network.updateEdgesAlongPathBy_ok hpre.wf (fun x y hx hy => Arith.sub_le hy hx) he
  -- A flow with links uses no more than one of them has.
  have hle : g.cells f.source f.destination ≠ [] → f.usedBandwidth ≤ u32Max := by
    intro hne
    obtain ⟨c', hc'⟩ := List.exists_mem_of_ne_nil _ hne
    obtain ⟨cp, hcp, rfl⟩ := List.mem_map.mp hc'
    obtain ⟨hi, hj, -⟩ := hg.route_lt cp hcp
    have h₁ := hfit cp.1 cp.2 hi hj
    have h₂ := hg.band_le hi hj
    rw [load_append, load_singleton, if_pos hc'] at h₁
    omega
  have hboth : ∀ i j, i < g.links.n → j < g.links.n →
      (lessen g pre).band i j = (lessen g (pre ++ [f])).band i j +
        if s(i, j) ∈ g.cells f.source f.destination then f.usedBandwidth else 0 := by
    intro i j hi hj
    have h₁ := hpre.band i j hi hj
    have h₂ := hpost.band i j hi hj
    rw [load_append, load_singleton] at h₂
    omega
  constructor
  · intro hc
    by_contra hnot
    have hne : g.cells f.source f.destination ≠ [] := by
      intro hnil
      rw [hpre.rebanded.cells_nil hg hpre.wf hnil] at hc
      cases hc
    obtain ⟨cp, hcp, rfl⟩ := List.mem_map.mp hc
    obtain ⟨hi, hj, -⟩ := hpre.wf.route_lt cp hcp
    have hon := halong.on cp.1 cp.2 hi hj hc
    have hsame := hboth cp.1 cp.2 hi hj
    rw [if_neg hnot, Nat.add_zero] at hsame
    rw [← hsame] at hon
    exact Arith.sub_ne_self hused (hpre.wf.band_le hi hj) (hle hne) hon
  · intro hc
    by_contra hnot
    obtain ⟨cp, hcp, rfl⟩ := List.mem_map.mp hc
    obtain ⟨hi, hj, -⟩ := hg.route_lt cp hcp
    have hoff := halong.off cp.1 cp.2 hi hj hnot
    have hdiff := hboth cp.1 cp.2 hi hj
    rw [if_pos hc] at hdiff
    omega

theorem exists_grown {flows part : FlowSet T} (hpart : ∀ h ∈ part.elems, h ∈ flows.elems) {f : Flow T}
    (hf : f ∈ flows.elems) (hnew : f ∉ part.elems) :
    ∃ grown : FlowSet T, grown.elems = part.elems ++ [f] ∧ ∀ h ∈ grown.elems, h ∈ flows.elems := by
  have hfresh : f.key ∉ part.elems.map Flow.key := by
    intro hk
    obtain ⟨h, hh, hk⟩ := List.mem_map.mp hk
    rw [flows.eq_of_key_eq (hpart h hh) hf hk] at hh
    exact hnew hh
  have hnd : ((part.elems ++ [f]).map Flow.key).Nodup := by
    rw [List.map_append, List.nodup_append]
    refine ⟨part.nodup, by simp, fun k hk k' hk' => ?_⟩
    rintro rfl
    rw [List.map_singleton, List.mem_singleton] at hk'
    exact hfresh (hk' ▸ hk)
  refine ⟨⟨part.elems ++ [f], hnd⟩, rfl, fun h hh => ?_⟩
  rcases List.mem_append.mp hh with hh | hh
  · exact hpart h hh
  · exact List.mem_singleton.mp hh ▸ hf

/-- Flows fit on every link. The remaining bandwidth is the original one minus these flows, and
minus any part of them, in every order, exactly when no path changes on the way. With shortest
paths none does. -/
theorem lessens_iff_steady (ar : Arith) {g : Network T} (hg : g.Wf) {flows : FlowSet T}
    (hsafe : Safe g flows) :
    ((∀ part : FlowSet T, (∀ h ∈ part.elems, h ∈ flows.elems) →
      ∀ it, calculateBandwidthGraph it ar g part = .ok (lessen g part.elems)) ↔ Steady g flows) ∧
    (g.pathStrategy = .shortestPath → Steady g flows) := by
  have hfit := hsafe.fits hg
  refine ⟨⟨fun h part hpart f hf hnew hused => ?_, fun h part hpart it => ?_⟩,
    fun hs => steady_of_shortestPath hg hs hfit⟩
  · obtain ⟨grown, helems, hsub⟩ := exists_grown hpart hf hnew
    have hpre : calculateBandwidthGraph .inOrder ar g part = .ok (lessen g part.elems) :=
      h part hpart .inOrder
    have hpost : calculateBandwidthGraph .inOrder ar g grown = .ok (lessen g grown.elems) :=
      h grown hsub .inOrder
    have hfits := fits_of_subset hfit hsub
    rw [helems] at hfits hpost
    refine cells_of_step ar hg hfits hused ?_
    unfold calculateBandwidthGraph at hpre hpost
    rw [show Iter.inOrder.order part.elems = part.elems from rfl] at hpre
    rw [show Iter.inOrder.order grown.elems = grown.elems from rfl, helems, List.foldlM_append, hpre,
      bind_ok] at hpost
    obtain ⟨bw, hbw, hlast⟩ := of_bind_eq_ok hpost
    cases hlast
    exact hbw
  · exact lessens_of_steady it ar hg hfit h hpart

def bothFlows : FlowSet Nat := ⟨[wideFlow 0 1 30, wideFlow 0 2 60], by decide⟩

theorem lessens_demo : calculateBandwidthGraph .backward .checked twoLinks bothFlows =
    .ok (lessen twoLinks bothFlows.elems) := by
  have hsafe : Safe twoLinks bothFlows := by decide +kernel
  have hiff := lessens_iff_steady .checked twoLinks_built.wf hsafe
  exact hiff.1.mpr (hiff.2 rfl) bothFlows (fun _ h => h) .backward

/-- Two ways from 0 to 3. The wider one goes over 1. -/
def twoWays : Run (Network Nat) :=
  Network.withLinks .widestPath [0, 1, 2, 3] [(0, 1, 100), (1, 3, 100), (0, 2, 90), (2, 3, 90)]

/-- The flow from 0 to 3 fits next to the other one, over 1. -/
def twoWaysFlows : FlowSet Nat := ⟨[wideFlow 1 3 40, wideFlow 0 3 50], by decide⟩

/-- When the flow from 1 is taken off first, the other one is taken off the links over 2. -/
theorem lessens_drifts : ∃ g : Network Nat, twoWays = .ok g ∧ g.Built ∧ Safe g twoWaysFlows ∧
    ∀ ar, ∃ bw, calculateBandwidthGraph .inOrder ar g twoWaysFlows = .ok bw ∧
      bw ≠ lessen g twoWaysFlows.elems := by
  obtain ⟨g, hg, hsafe, hchecked, hwrapping, hexact⟩ : Returns twoWays fun g => Safe g twoWaysFlows ∧
      (Returns (calculateBandwidthGraph .inOrder .checked g twoWaysFlows) fun bw =>
        bw ≠ lessen g twoWaysFlows.elems) ∧
      (Returns (calculateBandwidthGraph .inOrder .wrapping g twoWaysFlows) fun bw =>
        bw ≠ lessen g twoWaysFlows.elems) ∧
      Returns (calculateBandwidthGraph .inOrder .exact g twoWaysFlows) fun bw =>
        bw ≠ lessen g twoWaysFlows.elems := by decide +kernel
  refine ⟨g, hg, Network.withLinks_built hg (by decide), hsafe, fun ar => ?_⟩
  cases ar with
  | checked => exact hchecked
  | wrapping => exact hwrapping
  | exact => exact hexact

end Bwsync

end Kollaps
