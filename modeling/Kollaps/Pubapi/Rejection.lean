import Kollaps.Pubapi.Calls

/-!
# What a rejected topology leaves

The emulation is entered in five tables before the first node is told of it, and a send that
fails takes nothing back.
-/

namespace Kollaps

open Run Act Cgraph

namespace Pubapi

namespace OManager

structure Untouched (m m' : OManager) : Prop where
  residualGraph : m'.orchestrator.residualGraph = m.orchestrator.residualGraph
  emulations : m'.orchestrator.emulations = m.orchestrator.emulations
  attributedEmul : m'.orchestrator.attributedEmul = m.orchestrator.attributedEmul
  currentLoad : m'.orchestrator.currentLoad = m.orchestrator.currentLoad
  emulationsAndTheirNodes : m'.emulationsAndTheirNodes = m.emulationsAndTheirNodes

theorem Untouched.refl (m : OManager) : Untouched m m := ⟨rfl, rfl, rfl, rfl, rfl⟩

end OManager

open OManager

/-- A rejected topology leaves no trace exactly when no placement was found that a node missed. -/
theorem rejected_untouched {env : Env} {m m' : OManager} {uuid : Uuid} {top : String}
    (h : (m.handleExperimentMessage env uuid (.newTopology top)).result = .ok m')
    (hrejected : (m.handleExperimentMessage env uuid (.newTopology top)).log.any Effect.isRejection = true) :
    Untouched m m' ↔ ¬ m.Misses env uuid top := by
  have hspec := onNewTopology_spec h
  generalize hlog : (m.onNewTopology env uuid top).log = log at hspec
  replace hrejected : log.any Effect.isRejection = true := hlog ▸ hrejected
  cases hspec with
  | refused reason hmiss => exact iff_of_true (Untouched.refl m) hmiss
  | @entered network network' events o nodes _ ok hparse hplace hok hany =>
    rw [hrejected] at hany
    have hmissed : ∃ n ∈ nodes, env.reaches n = false := by
      have hall : nodes.all env.reaches = false := by
        rw [← hok]
        simpa using hany.symm
      simpa using hall
    refine iff_of_false (fun hsame => ?_)
      (not_not_intro ⟨network, events, o, network', nodes, hparse, hplace, hmissed⟩)
    obtain ⟨n, hn, -⟩ := hmissed
    exact Orchestrator.newEmulation_loads hplace hn hsame.currentLoad

def demoHost (n port : Nat) : ClusterNodeInfo := ⟨.v4 n, port⟩

def demoApp (id : Nat) : Node := .app id ⟨none, none, "app", .bareMetal, none⟩

def demoTopology (bandwidth : Nat) : Run (Network Node) := do
  let g ← Network.new [demoApp 0, demoApp 1] .shortestPath
  g.addEdge (demoApp 0) (demoApp 1) bandwidth

def demoCluster (n speed : Nat) : Run (CGraph ClusterNodeInfo) := do
  let (g, _) ← (List.range n).foldlM (fun (g, nodes) i => do
    let (g, me) ← g.addNode Iter.inOrder speed (demoHost i 9090)
    let g ← nodes.foldlM (fun (g : CGraph ClusterNodeInfo) other => do
      let (g, _) ← g.addLinkDirectTest me other speed
      pure g) g
    pure (g, me :: nodes)) (CGraph.new, [])
  pure g

def demoManager (n maxLoad : Nat) : Run OManager := do
  OManager.build .inOrder (demoHost 0 9090) 9091 9092 (← demoCluster n 1000) maxLoad

/-- Every topology has the two apps, and the nodes of `down` cannot be reached. -/
def demoEnv (bandwidth : Nat) (down : List Nat) : Env :=
  { ar := .checked
    it := .inOrder
    parseTopology := fun _ _ => do pure (← demoTopology bandwidth, [])
    reaches := fun n => n ∉ down.map (demoHost · 9092) }

theorem rejected_untouched_demo : ∃ m m', (demoManager 3 1 = .ok m ∧
    (m.handleExperimentMessage (demoEnv 2000 []) ⟨1⟩ (.newTopology "")).result = .ok m') ∧
    Untouched m m' := by
  obtain ⟨m, hm, hrejected, m', hm', hmiss⟩ : Returns (demoManager 3 1) fun m =>
      (m.handleExperimentMessage (demoEnv 2000 []) ⟨1⟩ (.newTopology "")).log.any Effect.isRejection =
        true ∧
      Returns (m.handleExperimentMessage (demoEnv 2000 []) ⟨1⟩ (.newTopology "")).result fun _ => True := by
    decide +kernel
  refine ⟨m, m', ⟨hm, hm'⟩, (rejected_untouched hm' hrejected).mpr ?_⟩
  rintro ⟨network, events, o, network', nodes, -, -, n, -, hn⟩
  cases hn

/-- The second of two nodes is not reached: the topology is rejected, and stays in the tables. -/
theorem rejected_leaves_trace : ∃ m m', (demoManager 2 4 = .ok m ∧
    (m.handleExperimentMessage (demoEnv 100 [1]) ⟨1⟩ (.newTopology "")).result = .ok m' ∧
    (m.handleExperimentMessage (demoEnv 100 [1]) ⟨1⟩ (.newTopology "")).log.any Effect.isRejection =
      true) ∧ ¬ Untouched m m' := by
  obtain ⟨m, hm, hrejected, m', hm', hentered⟩ : Returns (demoManager 2 4) fun m =>
      (m.handleExperimentMessage (demoEnv 100 [1]) ⟨1⟩ (.newTopology "")).log.any Effect.isRejection =
        true ∧
      Returns (m.handleExperimentMessage (demoEnv 100 [1]) ⟨1⟩ (.newTopology "")).result fun m' =>
        m'.orchestrator.currentLoad ≠ m.orchestrator.currentLoad := by
    decide +kernel
  exact ⟨m, m', ⟨hm, hm', hrejected⟩, fun hsame => hentered hsame.currentLoad⟩

end Pubapi

end Kollaps
