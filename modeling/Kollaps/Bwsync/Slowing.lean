import Kollaps.Bwsync.Capacity
import Kollaps.Bwsync.Departure

/-!
# A flow that slows down

A call copies the hunger of the flow that it updates, and a hungry flow never leaves the sharing
with what it uses. So an active flow gives back what it does not use exactly when it was not
hungry before.
-/

namespace Kollaps

open Run WaterFilling

namespace Bwsync

variable {T : Type} [Vertex T] {it : Iter} {ar : Arith} {g : Network T}

/-! ## Any run -/

/-- What holds between two calls, whatever flows they were made with. -/
structure Linked (g : Network T) (s : FlowSet T × Network T) : Prop where
  cells : ∀ h ∈ s.1.elems, g.cells h.source h.destination ≠ []
  rebanded : g.Rebanded s.2
  wf : s.2.Wf

theorem calculateBandwidthGraph_ok (hg : g.Wf) {flows : FlowSet T} {bw : Network T}
    (h : calculateBandwidthGraph it ar g flows = .ok bw) : g.Rebanded bw ∧ bw.Wf := by
  unfold calculateBandwidthGraph at h
  refine foldlM_ok_inv (fun bw => g.Rebanded bw ∧ bw.Wf) ⟨Network.Rebanded.refl g, hg⟩ ?_ h
  intro f _ bw bw' hbw he
  have halong := Network.updateEdgesAlongPathBy_ok hbw.2 (fun x y hx hy => Arith.sub_le hy hx) he
  exact ⟨hbw.1.trans halong.rebanded, halong.wf⟩

theorem Linked.write (hg : g.Wf) {flows : FlowSet T} {f : Flow T}
    (hflows : ∀ h ∈ flows.elems, g.cells h.source h.destination ≠ []) {s : FlowSet T × Network T}
    (he : (do
      let newFlows ← updateActiveFlows it f flows g
      let activeFlows := replaceAll it flows newFlows
      let bwGraph ← calculateBandwidthGraph it ar g activeFlows
      pure (activeFlows, bwGraph)) = .ok s) : Linked g s := by
  have hf : Known g f := by
    obtain ⟨new, hnew, -⟩ := of_bind_eq_ok he
    obtain ⟨m, hm, -⟩ := of_bind_eq_ok hnew
    exact (known_of_ok hm).congr (key_remember flows f).symm
  have hkeys := write_keys hg (fun h hh => known_of_cells (hflows h hh)) hf he
  obtain ⟨new, -, hrest⟩ := of_bind_eq_ok he
  obtain ⟨bw, hbw, hrest⟩ := of_bind_eq_ok hrest
  cases hrest
  obtain ⟨hrebanded, hwf⟩ := calculateBandwidthGraph_ok hg hbw
  refine ⟨fun h hh => ?_, hrebanded, hwf⟩
  -- An active flow was there before, or is the one of the call.
  rcases (hkeys h.key).mp (KeySet.contains_key hh) with hin | ⟨hk, -, hcells⟩
  · obtain ⟨h₀, hh₀, hk⟩ := List.mem_map.mp (KeySet.contains_iff.mp hin)
    rw [cells_congr g hk.symm]
    exact hflows h₀ hh₀
  · rw [cells_congr g hk]
    exact hcells

theorem Linked.call (hg : g.Wf) {s s' : FlowSet T × Network T} (hI : Linked g s) {c : Call T}
    (he : call it ar g s c = .ok s') : Linked g s' := by
  cases c with
  | update f =>
    obtain ⟨o, -, he⟩ := of_bind_eq_ok he
    cases o with
    | none =>
      cases he
      exact hI
    | some w => exact Linked.write hg hI.cells he
  | remove f =>
    refine Linked.write hg (fun h hh => ?_) he
    exact hI.cells h (List.mem_filter.mp hh).1

theorem Reach.linked (hg : g.Wf) {s : FlowSet T × Network T} (h : Reach ar g (fun _ _ => True) s) :
    Linked g s := by
  induction h with
  | start => exact ⟨by simp, Network.Rebanded.refl g, hg⟩
  | call it _ _ he ih => exact ih.call hg he

/-! ## The update of an active flow -/

def Released (flows : FlowSet T) (f : Flow T) : Prop :=
  ∃ new, flows.get? f.key = some new ∧ new.usedBandwidth = f.usedBandwidth ∧ new.isHungry = false

/-- The flow wants no more than an equal part of every link of its path. -/
def Modest (g : Network T) (flows : FlowSet T) (f : Flow T) : Prop :=
  ∀ c ∈ g.cells f.source f.destination,
    (f.usedBandwidth : ℚ) ≤ g.bandOf c / (flows.elems.filter (crosses g c)).length

theorem length_withFlow {flows : FlowSet T} {f old : Flow T} (hold : flows.get? f.key = some old)
    (hused : f.usedBandwidth ≠ 0) (c : Sym2 Nat) :
    ((withFlow flows f).elems.filter (crosses g c)).length =
      (flows.elems.filter (crosses g c)).length := by
  have hsame : crosses g c f = crosses g c old := by
    rw [crosses, crosses, cells_congr g (KeySet.key_of_get? hold)]
  rw [((KeySet.perm_cons_remove hold).filter (crosses g c)).length_eq, withFlow, if_neg hused]
  simp only [KeySet.replace, List.filter_cons, hsame]
  split <;> rfl

theorem hunger_remember {flows : FlowSet T} {f old : Flow T} (hold : flows.get? f.key = some old) :
    (remember flows f).isHungry = old.isHungry := by
  rw [remember, hold]

theorem Modest.le_linkLevel {flows : FlowSet T} {f old : Flow T} (h : Modest g flows f)
    (hold : flows.get? f.key = some old) (hused : f.usedBandwidth ≠ 0) {c : Sym2 Nat}
    (hc : c ∈ g.cells f.source f.destination) :
    (f.usedBandwidth : ℚ) ≤ linkLevel g (withFlow flows (remember flows f)) c := by
  have hlen := length_withFlow (g := g) (f := remember flows f) (by rwa [key_remember])
    (by rwa [usedBandwidth_remember]) c
  refine (h c hc).trans ?_
  rw [linkLevel, partitionOf, hlen]
  exact le_level _ _

/-- A modest flow leaves the sharing of every link with what it uses, unless it is hungry. -/
theorem Modest.share {flows : FlowSet T} {f old : Flow T} (h : Modest g flows f)
    (hold : flows.get? f.key = some old) (hused : f.usedBandwidth ≠ 0) {c : Sym2 Nat}
    (hc : c ∈ g.cells f.source f.destination) :
    (remember flows f).share (linkLevel g (withFlow flows (remember flows f)) c) =
      if old.isHungry then
        (remember flows f).limit (linkLevel g (withFlow flows (remember flows f)) c)
      else (remember flows f).maxOut := by
  have hle := h.le_linkLevel hold hused hc
  have hmaxed := Flow.maxedOut_iff (p := linkLevel g (withFlow flows (remember flows f)) c)
    (f := remember flows f)
  rw [hunger_remember hold, usedBandwidth_remember, and_iff_left hle] at hmaxed
  unfold Flow.share
  cases hh : old.isHungry <;> simp [hmaxed, hh]

theorem updateActiveFlows_modest (it : Iter) (hg : g.Wf) {flows : FlowSet T}
    (hflows : ∀ h ∈ flows.elems, Known g h) {f old : Flow T} (h : Modest g flows f)
    (hold : flows.get? f.key = some old) (hused : f.usedBandwidth ≠ 0)
    (hcells : g.cells f.source f.destination ≠ []) :
    Returns (updateActiveFlows it f flows g) fun new =>
      ∃ record, new.get? f.key = some record ∧
        (record.usedBandwidth = f.usedBandwidth ∧ record.isHungry = false ↔ old.isHungry = false) := by
  refine (updateActiveFlows_spec it hg hflows (known_of_cells hcells)).mono ?_
  rintro new ⟨order, horder, hget⟩
  have hnow : (withFlow flows (remember flows f)).get? f.key = some (remember flows f) := by
    rw [get?_withFlow, key_remember, usedBandwidth_remember, if_pos rfl, if_neg hused]
  rw [hget, hnow, Option.bind_some]
  -- The flow crosses the links of its own path.
  obtain ⟨first, hfirst⟩ := List.exists_mem_of_ne_nil _ hcells
  have hcross : crosses g first (remember flows f) = true := by
    rw [crosses_remember, crosses, decide_eq_true_eq]
    exact hfirst
  obtain ⟨record, hrecord⟩ := Option.isSome_iff_exists.mp
    (isSome_strictest.mpr ⟨first, horder.mem_iff.mpr hfirst, hcross⟩)
  refine ⟨record, hrecord, ?_⟩
  obtain ⟨c, hc, -, rfl⟩ := strictest_eq_share hrecord
  rw [h.share hold hused (horder.mem_iff.mp hc)]
  cases old.isHungry <;> simp [Flow.maxOut, Flow.limit]

/-- At every point of a run on shortest paths, the update of an active flow that wants no more than
an equal part of every link of its path returns when subtractions wrap. And when it returns, the
flow has what it uses and is content exactly when it was not hungry before. -/
theorem released_iff (hg : g.Wf) (hs : g.pathStrategy = .shortestPath) {s : FlowSet T × Network T}
    (h : Reach ar g (fun _ _ => True) s) {f old : Flow T} (hold : s.1.get? f.key = some old)
    (hused : 0 < f.usedBandwidth) (hmodest : Modest g s.1 f) (it : Iter) :
    (∃ s', updateFlows it .wrapping s.1 f g s.2 = .ok s') ∧
    ∀ ar' s', updateFlows it ar' s.1 f g s.2 = .ok s' → (Released s'.1 f ↔ old.isHungry = false) := by
  have hI := h.linked hg
  have hne : f.usedBandwidth ≠ 0 := by omega
  have hcells : g.cells f.source f.destination ≠ [] := by
    rw [cells_congr g (KeySet.key_of_get? hold).symm]
    exact hI.cells old (KeySet.mem_of_get? hold)
  obtain ⟨w, hw⟩ := bandwidthBetween_rebanded hg hs hI.rebanded hI.wf hcells
  obtain ⟨new, hnew, record, hrecord, hiff⟩ := updateActiveFlows_modest it hg
    (fun h hh => known_of_cells (hI.cells h hh)) hmodest hold hne hcells
  unfold updateFlows
  rw [hw, bind_ok]
  simp only [hnew, bind_ok]
  constructor
  · obtain ⟨bw, hbw, -⟩ := calculateBandwidthGraph_wrapping it hg (replaceAll it s.1 new)
    exact ⟨_, by rw [hbw, bind_ok]; rfl⟩
  · intro ar' s' he
    obtain ⟨bw, -, he⟩ := of_bind_eq_ok he
    cases he
    rw [← hiff, Released, get?_replaceAll, hrecord]
    simp

/-! ## A link of a hundred -/

theorem released_alone : ∃ s : FlowSet Nat × Network Nat,
    Reach .wrapping twoLinks (fun _ _ => True) s ∧
    ∀ s', updateFlows .inOrder .wrapping s.1 (wideFlow 0 1 10) twoLinks s.2 = .ok s' →
      Released s'.1 (wideFlow 0 1 10) := by
  obtain ⟨s, hs, hold, hmodest⟩ : Returns (call .inOrder .wrapping twoLinks (KeySet.empty, twoLinks)
      (.update (wideFlow 0 1 80))) fun s =>
        (s.1.get? (wideFlow 0 1 10).key).map Flow.isHungry = some false ∧
        ∀ c ∈ twoLinks.cells 0 1,
          (10 : ℚ) ≤ twoLinks.bandOf c / (s.1.elems.filter (crosses twoLinks c)).length := by
    decide +kernel
  have hreach : Reach .wrapping twoLinks (fun _ _ => True) s := .call .inOrder .start trivial hs
  obtain ⟨old, hold, hcalm⟩ := Option.map_eq_some_iff.mp hold
  exact ⟨s, hreach, fun s' he => ((released_iff twoLinks_built.wf rfl hreach hold (by decide) hmodest
    .inOrder).2 .wrapping s' he).mpr hcalm⟩

/-- Two flows that want all of the link have half of it each, and are hungry. One that goes down to
ten keeps its half. -/
theorem hungry_kept : (twoLinks.Built ∧ twoLinks.pathStrategy = .shortestPath) ∧
    ∃ s : FlowSet Nat × Network Nat, Reach .wrapping twoLinks (fun _ c => c.Valid twoLinks) s ∧
      (s.1.contains (wideFlow 0 1 10).key = true ∧ 0 < (wideFlow 0 1 10).usedBandwidth ∧
        Modest twoLinks s.1 (wideFlow 0 1 10)) ∧
      ∃ s', updateFlows .inOrder .wrapping s.1 (wideFlow 0 1 10) twoLinks s.2 = .ok s' ∧
        ¬ Released s'.1 (wideFlow 0 1 10) := by
  obtain ⟨s, hs, hin, hmodest, s', hs', hkept⟩ :
      Returns (([.update (wideFlow 0 1 100), .update (wideFlow 0 2 100)] : List (Call Nat)).foldlM
        (call .inOrder .wrapping twoLinks) (KeySet.empty, twoLinks)) fun s =>
          s.1.contains (wideFlow 0 1 10).key = true ∧
          (∀ c ∈ twoLinks.cells 0 1,
            (10 : ℚ) ≤ twoLinks.bandOf c / (s.1.elems.filter (crosses twoLinks c)).length) ∧
          Returns (updateFlows .inOrder .wrapping s.1 (wideFlow 0 1 10) twoLinks s.2) fun s' =>
            (s'.1.get? (wideFlow 0 1 10).key).map Flow.usedBandwidth = some 50 := by
    decide +kernel
  refine ⟨⟨twoLinks_built, rfl⟩, s, reach_calls .start (fun c hc => ?_) hs, ⟨hin, by decide, hmodest⟩,
    s', hs', ?_⟩
  · simp only [List.mem_cons, List.not_mem_nil, or_false] at hc
    rcases hc with rfl | rfl <;> exact ⟨wideFlow_measured 100 (by decide +kernel), by decide⟩
  · rintro ⟨new, hnew, hused, -⟩
    rw [hnew, Option.map_some, hused] at hkept
    cases hkept

end Bwsync

end Kollaps
