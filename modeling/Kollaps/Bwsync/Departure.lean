import Kollaps.Bwsync.Runs

/-!
# Taking a flow away

`remove_flow` deletes the flow and shares its links again. The sharing puts the flow back,
unless the flow says that it uses nothing.
-/

namespace Kollaps

open Run

namespace Bwsync

variable {T : Type} [Vertex T]

theorem known_of_cells {g : Network T} {f : Flow T} (h : g.cells f.source f.destination ≠ []) :
    Known g f := by
  unfold Known
  cases hm : g.mapTwo f.source f.destination with
  | some p => exact ⟨p, rfl⟩
  | none =>
    refine absurd ?_ h
    rw [Network.cells, Network.route, hm]
    rfl

theorem known_of_shared {it : Iter} {g : Network T} {flows : FlowSet T} {f : Flow T} (hg : g.Wf)
    (hcells : g.cells f.source f.destination ≠ []) {m : LinkMap T}
    (h : getFlowsBySharedLinks it f flows g = .ok m) : ∀ x ∈ flows.elems, Known g x := by
  obtain ⟨p, hp, hpath⟩ := getPathBetween_known hg (known_of_cells hcells)
  unfold getFlowsBySharedLinks at h
  rw [hp, bind_ok, unwrap_some, bind_ok] at h
  have hlinks : p.linksSet.elems ≠ [] := by
    intro hnil
    have hlen := hpath.cells
    rw [hnil, List.map_nil, eq_comm, List.reverse_eq_nil_iff] at hlen
    exact hcells hlen
  obtain ⟨link, hlink⟩ := List.exists_mem_of_ne_nil _ hlinks
  obtain ⟨acc, acc', hstep⟩ := ok_of_foldlM_ok h link (it.mem_order.mpr hlink)
  obtain ⟨set, hset, -⟩ := of_bind_eq_ok hstep
  intro x hx
  obtain ⟨s₁, s₂, hstep⟩ := ok_of_foldlM_ok hset x (it.mem_order.mpr hx)
  obtain ⟨o, ho, hstep⟩ := of_bind_eq_ok hstep
  obtain ⟨path, hpath', -⟩ := of_bind_eq_ok hstep
  rw [unwrap_eq_ok] at hpath'
  subst hpath'
  unfold Network.getPathBetween at ho
  cases hm : g.mapTwo x.source x.destination with
  | some p => exact ⟨p, hm⟩
  | none => rw [hm] at ho; cases ho

theorem known_of_ok {it : Iter} {g : Network T} {flows : FlowSet T} {f : Flow T} {m : LinkMap T}
    (h : getFlowsBySharedLinks it f flows g = .ok m) : Known g f := by
  obtain ⟨o, ho, h⟩ := of_bind_eq_ok h
  obtain ⟨p, hp, -⟩ := of_bind_eq_ok h
  rw [unwrap_eq_ok] at hp
  subst hp
  unfold Network.getPathBetween at ho
  cases hm : g.mapTwo f.source f.destination with
  | some p => exact ⟨p, hm⟩
  | none => rw [hm] at ho; cases ho

theorem removeFlow_wrapping (it : Iter) {g : Network T} (hg : g.Wf) {flows : FlowSet T} {f : Flow T}
    (hflows : ∀ h ∈ flows.elems, h.key ≠ f.key → Known g h) (hf : Known g f) :
    ∃ s, removeFlow it .wrapping flows f g = .ok s := by
  have hrest : ∀ h ∈ (flows.remove f.key).elems, Known g h := by
    intro h hh
    rw [KeySet.remove, KeySet.elems_filter, List.mem_filter, decide_eq_true_eq] at hh
    exact hflows h hh.1 hh.2
  obtain ⟨new, hnew, -⟩ := updateActiveFlows_spec it hg hrest hf
  obtain ⟨bw, hbw, -⟩ := calculateBandwidthGraph_wrapping it hg (replaceAll it (flows.remove f.key) new)
  refine ⟨(replaceAll it (flows.remove f.key) new, bw), ?_⟩
  show (updateActiveFlows it f (flows.remove f.key) g >>= _) = _
  rw [hnew, bind_ok]
  show (calculateBandwidthGraph it .wrapping g _ >>= _) = _
  rw [hbw, bind_ok]
  rfl

theorem removeFlow_spec (it : Iter) {g : Network T} (hg : g.Wf) {s : FlowSet T × Network T}
    (hI : RunInv g s) {f : Flow T} (hcells : g.cells f.source f.destination ≠ [])
    (hmax : f.usedBandwidth ≤ f.maxAllowedBandwidth) :
    Returns (removeFlow it .wrapping s.1 f g) fun s' => RunInv g s' ∧
      Redistributed g (g.cells f.source f.destination)
        (withFlow (s.1.remove f.key) (remember (s.1.remove f.key) f)) s'.1 := by
  refine write_inv it .wrapping hg (s.1.remove f.key) (fun h hh => ?_)
    (known_of_cells hcells) hmax ?_ fun flows' _ => calculateBandwidthGraph_wrapping it hg flows'
  · have hh' := (List.mem_filter.mp hh).1
    exact ⟨hI.known h hh', hI.max h hh'⟩
  · by_cases hused : f.usedBandwidth = 0
    · exact Or.inl ⟨hused, by rw [KeySet.get?_remove, if_pos rfl]⟩
    · exact Or.inr ⟨hused, hcells⟩

def Leaves (flows flows' : FlowSet T) (f : Flow T) : Prop :=
  ∀ k, flows'.contains k = true ↔ flows.contains k = true ∧ k ≠ f.key

/-- `remove_flow` takes the flow away, and nothing else, exactly when the flow uses nothing and
the other flows are in the network. -/
theorem removeFlow_leaves (it : Iter) {g : Network T} (hg : g.Wf) {flows : FlowSet T} {f : Flow T}
    (hcells : g.cells f.source f.destination ≠ []) :
    (Returns (removeFlow it .wrapping flows f g) fun s => Leaves flows s.1 f) ↔
      f.usedBandwidth = 0 ∧ ∀ h ∈ flows.elems, h.key ≠ f.key → Known g h := by
  have hf := known_of_cells hcells
  constructor
  · rintro ⟨s, hs, hleaves⟩
    have hknown : ∀ h ∈ flows.elems, h.key ≠ f.key → Known g h := by
      obtain ⟨new, hnew, -⟩ := of_bind_eq_ok hs
      obtain ⟨m, hm, -⟩ := of_bind_eq_ok hnew
      intro h hh hne
      refine known_of_shared (f := remember (flows.remove f.key) f) hg ?_ hm h ?_
      · rw [cells_congr g (key_remember (flows.remove f.key) f)]
        exact hcells
      · rw [KeySet.remove, KeySet.elems_filter, List.mem_filter, decide_eq_true_eq]
        exact ⟨hh, hne⟩
    refine ⟨?_, hknown⟩
    by_contra hused
    exact ((hleaves f.key).mp ((removeFlow_keys hg hknown hf hs f.key).mpr
      (Or.inr ⟨rfl, hused, hcells⟩))).2 rfl
  · rintro ⟨hused, hknown⟩
    obtain ⟨s, hs⟩ := removeFlow_wrapping it hg hknown hf
    refine ⟨s, hs, fun k => ?_⟩
    rw [removeFlow_keys hg hknown hf hs]
    exact or_iff_left fun h => h.2.1 hused

end Bwsync

end Kollaps
