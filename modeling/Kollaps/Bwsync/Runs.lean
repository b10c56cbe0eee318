import Kollaps.Bwsync.Calls

/-!
# Runs of calls

The states that sequences of calls reach, and what one call does to such a state.
-/

namespace Kollaps

open Run

namespace Bwsync

variable {T : Type} [Vertex T]

inductive Call (T : Type) where
  | update (f : Flow T)
  | remove (f : Flow T)

def Call.flow : Call T → Flow T
  | .update f => f
  | .remove f => f

def Call.path (g : Network T) (c : Call T) : List (Sym2 Nat) :=
  g.cells c.flow.source c.flow.destination

def call (it : Iter) (ar : Arith) (g : Network T) (s : FlowSet T × Network T) :
    Call T → Run (FlowSet T × Network T)
  | .update f => updateFlows it ar s.1 f g s.2
  | .remove f => removeFlow it ar s.1 f g

/-- A flow as `flow_loop` builds it: the measured bandwidth, or that of the path if it is less. -/
def Measured (g : Network T) (f : Flow T) : Prop :=
  ∃ props measured, g.propertiesBetween f.source f.destination = .ok (some props) ∧
    f = Flow.build f.source f.destination props.bandwidth (min measured props.bandwidth)

/-- The calls of `flow_loop` on a measurement: nothing measured is a removal. -/
def Call.Valid (g : Network T) : Call T → Prop
  | .update f => Measured g f ∧ f.usedBandwidth ≠ 0
  | .remove f => Measured g f ∧ f.usedBandwidth = 0

/-- The states that a sequence of calls reaches from no flow at all, each call meeting `ok`. -/
inductive Reach (ar : Arith) (g : Network T) (ok : FlowSet T → Call T → Prop) :
    FlowSet T × Network T → Prop where
  | start : Reach ar g ok (KeySet.empty, g)
  | call {s s' : FlowSet T × Network T} {c : Call T} (it : Iter) :
      Reach ar g ok s → ok s.1 c → call it ar g s c = .ok s' → Reach ar g ok s'

theorem reach_calls {it : Iter} {ar : Arith} {g : Network T} {ok : Call T → Prop} {cs : List (Call T)}
    {s s' : FlowSet T × Network T} (h : Reach ar g (fun _ c => ok c) s) (hcs : ∀ c ∈ cs, ok c)
    (he : cs.foldlM (call it ar g) s = .ok s') : Reach ar g (fun _ c => ok c) s' :=
  foldlM_ok_inv (Reach ar g fun _ c => ok c) h (fun c hc _ _ hs he => hs.call it (hcs c hc) he) he

/-! ## One call -/

theorem Measured.known {g : Network T} {f : Flow T} (h : Measured g f) : Known g f := by
  obtain ⟨props, measured, hp, -⟩ := h
  exact Network.mapTwo_of_propertiesBetween hp

theorem Measured.max {g : Network T} {f : Flow T} (h : Measured g f) :
    f.usedBandwidth ≤ f.maxAllowedBandwidth := by
  obtain ⟨props, measured, -, hf⟩ := h
  rw [hf]
  exact min_le_right _ _

theorem Measured.cells {g : Network T} (hg : g.Wf) {f : Flow T} (h : Measured g f) :
    g.cells f.source f.destination ≠ [] := by
  obtain ⟨props, measured, hp, -⟩ := h
  exact mt Network.cells_eq_nil.mp (Network.route_ne_nil hg hp)

theorem Call.Valid.measured {g : Network T} {c : Call T} (h : c.Valid g) : Measured g c.flow := by
  cases c <;> exact h.1

def Call.applied (flows : FlowSet T) : Call T → FlowSet T
  | .update f => withFlow flows (remember flows f)
  | .remove f => withFlow (flows.remove f.key) (remember (flows.remove f.key) f)

structure RunInv (g : Network T) (s : FlowSet T × Network T) : Prop where
  known : ∀ h ∈ s.1.elems, Known g h
  max : ∀ h ∈ s.1.elems, h.usedBandwidth ≤ h.maxAllowedBandwidth
  rebanded : g.Rebanded s.2
  wf : s.2.Wf

theorem RunInv.start {g : Network T} (hg : g.Wf) : RunInv g (KeySet.empty, g) :=
  ⟨by simp, by simp, Network.Rebanded.refl g, hg⟩

theorem mem_withFlow {flows : FlowSet T} {f h : Flow T} (hh : h ∈ (withFlow flows f).elems) :
    h = f ∨ h ∈ flows.elems := by
  unfold withFlow at hh
  split at hh
  · exact Or.inr (List.mem_filter.mp hh).1
  · rw [KeySet.mem_replace] at hh
    exact hh.imp id And.left

theorem Redistributed.known {g : Network T} {path : List (Sym2 Nat)} {flows flows' : FlowSet T}
    (h : Redistributed g path flows flows') (hflows : ∀ f ∈ flows.elems, Known g f) :
    ∀ f ∈ flows'.elems, Known g f := by
  intro f hf
  obtain ⟨f₀, hf₀, rfl⟩ := List.mem_map.mp (h.perm.mem_iff.mp hf)
  exact (hflows f₀ hf₀).congr (key_redistribute g flows path f₀)

theorem Redistributed.max {g : Network T} {path : List (Sym2 Nat)} {flows flows' : FlowSet T}
    (h : Redistributed g path flows flows')
    (hflows : ∀ f ∈ flows.elems, f.usedBandwidth ≤ f.maxAllowedBandwidth) :
    ∀ f ∈ flows'.elems, f.usedBandwidth ≤ f.maxAllowedBandwidth := by
  intro f hf
  obtain ⟨f₀, hf₀, rfl⟩ := List.mem_map.mp (h.perm.mem_iff.mp hf)
  unfold redistribute
  cases leastLevel g flows path f₀ with
  | none => exact hflows f₀ hf₀
  | some L =>
    rw [Flow.maxAllowedBandwidth_share]
    exact Flow.used_share_le_max (hflows f₀ hf₀)

theorem write_inv (it : Iter) (ar : Arith) {g : Network T} (hg : g.Wf) (flows : FlowSet T) {f : Flow T}
    (hflows : ∀ h ∈ flows.elems, Known g h ∧ h.usedBandwidth ≤ h.maxAllowedBandwidth)
    (hf : Known g f) (hfmax : f.usedBandwidth ≤ f.maxAllowedBandwidth)
    (hcase : (f.usedBandwidth = 0 ∧ flows.get? f.key = none) ∨
      (f.usedBandwidth ≠ 0 ∧ g.cells f.source f.destination ≠ []))
    (hcalc : ∀ flows', Redistributed g (g.cells f.source f.destination)
      (withFlow flows (remember flows f)) flows' →
        Returns (calculateBandwidthGraph it ar g flows') fun bw => g.Rebanded bw ∧ bw.Wf) :
    Returns (do
      let newFlows ← updateActiveFlows it f flows g
      let activeFlows := replaceAll it flows newFlows
      let bwGraph ← calculateBandwidthGraph it ar g activeFlows
      pure (activeFlows, bwGraph)) fun s => RunInv g s ∧
        Redistributed g (g.cells f.source f.destination) (withFlow flows (remember flows f)) s.1 := by
  have hmem : ∀ h ∈ (withFlow flows (remember flows f)).elems,
      Known g h ∧ h.usedBandwidth ≤ h.maxAllowedBandwidth := by
    intro h hh
    rcases mem_withFlow hh with rfl | hh
    · exact ⟨hf.congr (key_remember flows f), by simpa using hfmax⟩
    · exact hflows h hh
  refine (write_spec it ar hg (fun h hh => (hflows h hh).1) hf (fun h hh => (hmem h hh).2) hcase
    hcalc).mono ?_
  rintro ⟨flows', bw⟩ ⟨hred, hreb, hwf⟩
  exact ⟨⟨hred.known fun h hh => (hmem h hh).1, hred.max fun h hh => (hmem h hh).2, hreb, hwf⟩, hred⟩

theorem updateFlows_inv (it : Iter) (ar : Arith) {g : Network T} (hg : g.Wf) {s : FlowSet T × Network T}
    (hI : RunInv g s) {f : Flow T} (hf : Known g f) (hcells : g.cells f.source f.destination ≠ [])
    (hmax : f.usedBandwidth ≤ f.maxAllowedBandwidth) (hused : f.usedBandwidth ≠ 0)
    (hband : ∃ w, s.2.bandwidthBetween f.source f.destination = .ok (some w))
    (hcalc : ∀ flows', Redistributed g (g.cells f.source f.destination)
      (withFlow s.1 (remember s.1 f)) flows' →
        Returns (calculateBandwidthGraph it ar g flows') fun bw => g.Rebanded bw ∧ bw.Wf) :
    Returns (updateFlows it ar s.1 f g s.2) fun s' => RunInv g s' ∧
      Redistributed g (g.cells f.source f.destination) (withFlow s.1 (remember s.1 f)) s'.1 := by
  obtain ⟨w, hw⟩ := hband
  unfold updateFlows
  rw [hw, bind_ok]
  exact write_inv it ar hg _ (fun h hh => ⟨hI.known h hh, hI.max h hh⟩) hf hmax
    (Or.inr ⟨hused, hcells⟩) hcalc

theorem removeFlow_inv (it : Iter) (ar : Arith) {g : Network T} (hg : g.Wf) {s : FlowSet T × Network T}
    (hI : RunInv g s) {f : Flow T} (hf : Known g f) (hused : f.usedBandwidth = 0)
    (hcalc : ∀ flows', Redistributed g (g.cells f.source f.destination)
      (withFlow (s.1.remove f.key) (remember (s.1.remove f.key) f)) flows' →
        Returns (calculateBandwidthGraph it ar g flows') fun bw => g.Rebanded bw ∧ bw.Wf) :
    Returns (removeFlow it ar s.1 f g) fun s' => RunInv g s' ∧
      Redistributed g (g.cells f.source f.destination)
        (withFlow (s.1.remove f.key) (remember (s.1.remove f.key) f)) s'.1 := by
  refine write_inv it ar hg (s.1.remove f.key) (fun h hh => ?_) hf (by omega)
    (Or.inl ⟨hused, by rw [KeySet.get?_remove, if_pos rfl]⟩) hcalc
  have hh' := (List.mem_filter.mp hh).1
  exact ⟨hI.known h hh', hI.max h hh'⟩

theorem bandwidthBetween_rebanded {g bw : Network T} (hg : g.Wf) (hs : g.pathStrategy = .shortestPath)
    (hreb : g.Rebanded bw) (hbw : bw.Wf) {a b : T} (hcells : g.cells a b ≠ []) :
    ∃ w, bw.bandwidthBetween a b = .ok (some w) := by
  obtain ⟨o, ho, heq⟩ := Network.bandwidthBetween_spec hbw.shaped (hreb.pathStrategy.trans hs) a b
  have hroute : g.route a b ≠ [] := mt Network.cells_eq_nil.mpr hcells
  rw [hreb.route hg hs, if_neg hroute] at heq
  exact ⟨_, heq ▸ ho⟩

theorem call_spec (it : Iter) (ar : Arith) {g : Network T} (hg : g.Wf)
    (hs : g.pathStrategy = .shortestPath) {s : FlowSet T × Network T} (hI : RunInv g s) {c : Call T}
    (hc : c.Valid g)
    (hcalc : ∀ flows', Redistributed g (c.path g) (c.applied s.1) flows' →
      Returns (calculateBandwidthGraph it ar g flows') fun bw => g.Rebanded bw ∧ bw.Wf) :
    Returns (call it ar g s c) fun s' =>
      RunInv g s' ∧ Redistributed g (c.path g) (c.applied s.1) s'.1 := by
  have hf := hc.measured
  cases c with
  | update f =>
    have hcells := hf.cells hg
    exact updateFlows_inv it ar hg hI hf.known hcells hf.max hc.2
      (bandwidthBetween_rebanded hg hs hI.rebanded hI.wf hcells) hcalc
  | remove f => exact removeFlow_inv it ar hg hI hf.known hc.2 hcalc

theorem call_wrapping (it : Iter) {g : Network T} (hg : g.Wf) (hs : g.pathStrategy = .shortestPath)
    {s : FlowSet T × Network T} (hI : RunInv g s) {c : Call T} (hc : c.Valid g) :
    Returns (call it .wrapping g s c) fun s' =>
      RunInv g s' ∧ Redistributed g (c.path g) (c.applied s.1) s'.1 :=
  call_spec it .wrapping hg hs hI hc fun flows' _ => calculateBandwidthGraph_wrapping it hg flows'

theorem Reach.runInv {g : Network T} (hg : g.Wf) (hs : g.pathStrategy = .shortestPath)
    {s : FlowSet T × Network T} (h : Reach .wrapping g (fun _ c => c.Valid g) s) : RunInv g s := by
  induction h with
  | start => exact RunInv.start hg
  | call it _ hok he ih => exact ((call_wrapping it hg hs ih hok).of_eq he).1

end Bwsync

end Kollaps
