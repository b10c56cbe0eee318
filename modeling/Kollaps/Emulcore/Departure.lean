import Kollaps.Bwsync.Capacity
import Kollaps.Emulcore.Runs

/-!
# A departing application

What `remove_flow` and `remove_all_flows_from` leave of the active flows.
-/

namespace Kollaps

open Run Act

namespace Emulcore

def Departed (flows flows' : FlowSet Node) (node : Node) : Prop :=
  (∀ f ∈ flows'.elems, Vertex.id f.source ≠ Vertex.id node) ∧
    ∀ f ∈ flows.elems, Vertex.id f.source ≠ Vertex.id node → flows'.contains f.key = true

/-- Between two messages, a node's flows all go exactly when all of them use nothing. -/
theorem removeAllFlowsFrom_departed (it : Iter) {g : Network Node} {core : EmulCore}
    (hc : CoreInv g core) (hg : core.graph.Wf) {s : FlowSet Node × Network Node}
    (h : FlowsInv core s) (node : Node) :
    (Returns (removeAllFlowsFrom it .wrapping core s.1 s.2 node).result fun r =>
        Departed s.1 r.1 node) ↔
      ∀ f ∈ s.1.elems, Vertex.id f.source = Vertex.id node → f.usedBandwidth = 0 := by
  obtain ⟨r, hr, -, hkeys⟩ := removeAllFlowsFrom_spec it hc hg h node
  rw [hr, returns_ok]
  constructor
  · rintro ⟨hgone, -⟩ f hf hsrc
    by_contra hused
    have hin : r.1.contains f.key = true := by
      refine (hkeys _).mpr ⟨KeySet.contains_key hf, fun f' hf' _ hused' heq => hused ?_⟩
      rw [← KeySet.eq_of_key_eq s.1 hf' hf heq]
      exact hused'
    obtain ⟨f', hf', hk⟩ := List.mem_map.mp (KeySet.contains_iff.mp hin)
    exact hgone f' hf' ((congrArg Prod.fst hk).trans hsrc)
  · refine fun hall => ⟨fun f hf hsrc => ?_, fun f hf hsrc => ?_⟩
    · obtain ⟨hin, hother⟩ := (hkeys _).mp (KeySet.contains_key hf)
      obtain ⟨f', hf', hk⟩ := List.mem_map.mp (KeySet.contains_iff.mp hin)
      have hsrc' : Vertex.id f'.source = Vertex.id node := (congrArg Prod.fst hk).trans hsrc
      exact hother f' hf' hsrc' (hall f' hf' hsrc') hk
    · exact (hkeys _).mpr ⟨KeySet.contains_key hf, fun f' _ hsrc' _ hk =>
        hsrc ((congrArg Prod.fst hk).symm.trans hsrc')⟩

/-- A flow that has a path goes, and no other does, exactly when it uses nothing. When a node
departs, its flows go exactly when all of them use nothing. -/
theorem departure (it : Iter) :
    (∀ {T : Type} [Vertex T] {g : Network T} {flows : FlowSet T} {f : Flow T}, g.Built →
      f ∈ flows.elems → g.cells f.source f.destination ≠ [] →
        ((Returns (Bwsync.removeFlow it .wrapping flows f g) fun s => Bwsync.Leaves flows s.1 f) ↔
          f.usedBandwidth = 0 ∧ ∀ h ∈ flows.elems, h.key ≠ f.key → Bwsync.Known g h)) ∧
    ∀ {g : Network Node} {core : EmulCore} {s : Loop} {log : List Effect}, g.Built →
      g.pathStrategy = .shortestPath → Reach .wrapping g (fun _ _ => True) core ⟨.running s, log⟩ →
        (∀ f ∈ s.activeFlows.elems, core.graph.cells f.source f.destination ≠ [] ∧
          Bwsync.Known core.graph f) ∧
        ∀ node : Node,
          (Returns (removeAllFlowsFrom it .wrapping core s.activeFlows s.bwGraph node).result fun r =>
              Departed s.activeFlows r.1 node) ↔
            ∀ f ∈ s.activeFlows.elems, Vertex.id f.source = Vertex.id node → f.usedBandwidth = 0 := by
  refine ⟨fun {T} _ {g flows f} hb _ hcells => Bwsync.removeFlow_leaves it hb.wf hcells,
    fun {g core s log} hb hs hreach => ?_⟩
  obtain ⟨hc, hinv⟩ := hreach.flowsInv hb.wf hs
  have hg : core.graph.Wf := hc.graph ▸ hb.wf
  have h := hinv s rfl
  exact ⟨fun f hf => ⟨(h.served f hf).cells, (h.served f hf).known⟩,
    fun node => removeAllFlowsFrom_departed it hc hg h node⟩

theorem departure_unused :
    (Returns (Bwsync.removeFlow .inOrder .wrapping (KeySet.empty.insert (Bwsync.wideFlow 0 1 0))
        (Bwsync.wideFlow 0 1 0) Bwsync.twoLinks) fun s =>
      Bwsync.Leaves (KeySet.empty.insert (Bwsync.wideFlow 0 1 0)) s.1 (Bwsync.wideFlow 0 1 0)) ∧
    Returns (demoRun (demoNet 0) (demoHost 0) [demoFlow (some 60)]).result fun p =>
      p.2.activeFlows.len = 1 ∧ Returns (removeAllFlowsFrom .inOrder .wrapping p.1 p.2.activeFlows
        p.2.bwGraph (demoApp 1 (demoHost 0))).result fun r =>
          Departed p.2.activeFlows r.1 (demoApp 1 (demoHost 0)) := by
  constructor
  · exact ((departure .inOrder).1 Bwsync.twoLinks_built (by decide) (by decide +kernel)).mpr
      ⟨by decide, fun h hh hne => absurd (congrArg Flow.key (List.mem_singleton.mp hh)) hne⟩
  · obtain ⟨⟨core, s⟩, hrun, hlen, hunused⟩ :
        Returns (demoRun (demoNet 0) (demoHost 0) [demoFlow (some 60)]).result fun p =>
          p.2.activeFlows.len = 1 ∧ ∀ f ∈ p.2.activeFlows.elems,
            Vertex.id f.source = Vertex.id (demoApp 1 (demoHost 0)) → f.usedBandwidth = 0 := by
      decide +kernel
    exact ⟨(core, s), hrun, hlen, (((departure .inOrder).2 (demoNet_built 0 (Or.inl rfl)) rfl
      (demoRun_reach (fun _ _ _ => along_true _ _ _ _ _) hrun)).2 _).mpr hunused⟩

/-- A flow that is in use stays when it is removed, and when its source departs. -/
theorem departure_keeps : ∃ core s log,
    ((demoNet 0).Built ∧ (demoNet 0).pathStrategy = .shortestPath) ∧
    Reach .wrapping (demoNet 0) (fun _ _ => True) core ⟨.running s, log⟩ ∧
    (∃ f ∈ s.activeFlows.elems, core.graph.cells f.source f.destination ≠ [] ∧
      ¬ Returns (Bwsync.removeFlow .inOrder .wrapping s.activeFlows f core.graph) fun r =>
        Bwsync.Leaves s.activeFlows r.1 f) ∧
    ∃ node, ¬ Returns
      (removeAllFlowsFrom .inOrder .wrapping core s.activeFlows s.bwGraph node).result fun r =>
        Departed s.activeFlows r.1 node := by
  obtain ⟨⟨core, s⟩, hrun, ⟨f, hf, hcells, hkept⟩, hgone⟩ :
      Returns (demoRun (demoNet 0) (demoHost 0) [demoFlow (some 60)]).result fun p =>
        (∃ f ∈ p.2.activeFlows.elems, p.1.graph.cells f.source f.destination ≠ [] ∧
          Returns (Bwsync.removeFlow .inOrder .wrapping p.2.activeFlows f p.1.graph) fun r =>
            r.1.contains f.key = true) ∧
        Returns (removeAllFlowsFrom .inOrder .wrapping p.1 p.2.activeFlows p.2.bwGraph
          (demoApp 0 (demoHost 0))).result fun r =>
            ∃ f ∈ r.1.elems, Vertex.id f.source = Vertex.id (demoApp 0 (demoHost 0)) := by
    decide +kernel
  refine ⟨core, s, _, ⟨demoNet_built 0 (Or.inl rfl), rfl⟩,
    demoRun_reach (fun _ _ _ => along_true _ _ _ _ _) hrun,
    ⟨f, hf, hcells, ?_⟩, demoApp 0 (demoHost 0), ?_⟩
  · rintro ⟨r, hr, hleaves⟩
    exact ((hleaves f.key).mp (hkept.of_eq hr)).2 rfl
  · rintro ⟨r, hr, hdeparted, -⟩
    obtain ⟨f', hf', hsrc⟩ := hgone.of_eq hr
    exact hdeparted f' hf' hsrc

end Emulcore

end Kollaps
