import Kollaps.Orchestrator.Tables
import Kollaps.Pubapi.Rejection

/-!
# The table of the manager and that of the orchestrator

A topology enters both tables, and an update of the cluster clears both. An abort clears the
manager's alone, and the stop of the last app the orchestrator's alone.
-/

namespace Kollaps

open Run Act Cgraph

namespace Pubapi

namespace OManager

/-- The same emulations are known to the manager and to its orchestrator. -/
def Agree (m : OManager) : Prop :=
  ∀ id, m.emulationsAndTheirNodes.lookup id ≠ none ↔ m.orchestrator.emulations.lookup id ≠ none

/-- The input takes no emulation out of one table alone. -/
def Keeps (env : Env) (m : OManager) : Input → Prop
  | .message _ (.abort id) => m.emulationsAndTheirNodes.lookup id = none
  | .message _ (.cleanStop id node _) => m.orchestrator.emulations.lookup id = none ∨
      ∃ h, m.orchestrator.Attributed h id ∧ ¬ (h = node ∧ m.orchestrator.loadOf node id = some 1)
  | .message _ (.emulationReady id node) => ¬ m.Stalls env id node
  | _ => True

variable {env : Env} {m m' : OManager}

/-! ## One input -/

theorem Agree.not_forgotten {id : Uuid} (hm : m.Agree)
    (hmanager : m'.emulationsAndTheirNodes.lookup id = m.emulationsAndTheirNodes.lookup id)
    (horch : m'.orchestrator.emulations.lookup id = none)
    (hknown : m.orchestrator.emulations.lookup id ≠ none) : ¬ m'.Agree := by
  intro hm'
  refine (hm' id).mp ?_ horch
  rw [hmanager]
  exact (hm id).mpr hknown

theorem Agree.of_aborted {id : Uuid} (hm : m.Agree) (h : Aborted [id] m m') :
    m'.Agree ↔ m.emulationsAndTheirNodes.lookup id = none := by
  constructor
  · intro hm'
    by_contra hknown
    have hgone := (not_congr (hm' id)).mp
    rw [h.forgets, h.orchestrator] at hgone
    simp only [List.mem_singleton, if_true, ne_eq, not_true_eq_false, not_false_eq_true, forall_const,
      not_not] at hgone
    exact (hm id).mp hknown hgone
  · intro hnone u
    rw [h.forgets, h.orchestrator, ← hm u]
    simp only [List.mem_singleton]
    split <;> rename_i hu
    · rw [hu, hnone]
    · rfl

theorem Agree.onNewTopology {uuid : Uuid} {top : String} (hm : m.Agree)
    (h : (m.onNewTopology env uuid top).result = .ok m') : m'.Agree := by
  have hspec := onNewTopology_spec h
  generalize (m.onNewTopology env uuid top).log = log at hspec
  cases hspec with
  | refused reason hmiss => exact hm
  | entered ok hparse hplace hok hlog =>
    obtain ⟨matrix, p, places, hplaced, -⟩ := Orchestrator.newEmulation_some hplace
    intro u
    simp only [hplaced.emulations, KeySet.lookup_put]
    split
    · simp
    · exact hm u

theorem Agree.onCleanStop {id : Uuid} {node : ClusterNodeInfo} {appIndex : Nat} (hm : m.Agree)
    (h : (m.onCleanStop env id node appIndex).result = .ok m') :
    m'.Agree ↔ m.orchestrator.emulations.lookup id = none ∨
      ∃ h, m.orchestrator.Attributed h id ∧ ¬ (h = node ∧ m.orchestrator.loadOf node id = some 1) := by
  rcases onCleanStop_ok h with ⟨hnone, rfl⟩ | ⟨o, hstop, rfl⟩
  · exact iff_of_true hm (Or.inl hnone)
  · obtain ⟨matrix, p, hstopped⟩ := Orchestrator.stopAppEmulationOn_ok hstop
    have hknown : m.orchestrator.emulations.lookup id ≠ none := by simp [hstopped.emulation]
    rw [or_iff_right hknown]
    have hleft : (∃ h, o.Attributed h id) ↔ ∃ h, m.orchestrator.Attributed h id ∧
        ¬ (h = node ∧ m.orchestrator.loadOf node id = some 1) := by
      simp only [hstopped.attributed, true_and]
    rw [← hleft]
    by_cases hattr : ∃ h, o.Attributed h id
    · refine iff_of_true (fun u => ?_) hattr
      simp only [hstopped.kept hattr]
      exact hm u
    · refine iff_of_false (hm.not_forgotten rfl ?_ hknown) hattr
      simp only [hstopped.forgotten hattr, KeySet.lookup_remove, if_true]

theorem Agree.onEmulationReady {id : Uuid} {node : ClusterNodeInfo} (hm : m.Agree)
    (h : (m.onEmulationReady env id node).result = .ok m') : m'.Agree ↔ ¬ m.Stalls env id node := by
  obtain ⟨nodes, hlookup, -, hgo, hstall⟩ := onEmulationReady_ok h
  have hmark : (m.mark id nodes node).Agree := by
    intro u
    simp only [mark, KeySet.lookup_put]
    split <;> rename_i hu
    · rw [hu, ← hm id, hlookup]
      simp
    · exact hm u
  by_cases hs : m.Stalls env id node
  · refine iff_of_false (fun hm' => ?_) (not_not_intro hs)
    have hnone := (hmark.of_aborted (hstall hs)).mp hm'
    simp [mark, KeySet.lookup_put] at hnone
  · rw [hgo hs]
    exact iff_of_true hmark hs

theorem Agree.onUpdate {update : Cmanager.CGraphUpdate} (hm : m.Agree)
    (h : (m.onUpdate env update).result = .ok m') : m'.Agree := by
  have hforgets : ∃ uuids, Orchestrator.Forgets uuids m.orchestrator.emulations m'.orchestrator.emulations ∧
      Orchestrator.Forgets uuids m.emulationsAndTheirNodes m'.emulationsAndTheirNodes := by
    cases update with
    | new graph =>
      obtain ⟨o, uuids, ho, haborted⟩ := onChange_ok h
      refine ⟨uuids, ?_, haborted.forgets⟩
      rw [haborted.orchestrator]
      exact Orchestrator.updateWithCgraph_forgets ho
    | remove node =>
      obtain ⟨o, uuids, ho, haborted⟩ := onChange_ok h
      obtain ⟨i, o₁, hremoved⟩ := Orchestrator.removeClusterNode_ok ho
      refine ⟨uuids, ?_, haborted.forgets⟩
      rw [haborted.orchestrator]
      exact hremoved.forgets
  obtain ⟨uuids, horch, hmanager⟩ := hforgets
  intro u
  rw [horch u, hmanager u]
  split
  · simp
  · exact hm u

theorem Agree.handle {x : Input} (hm : m.Agree) (h : (m.handle env x).result = .ok m') :
    m'.Agree ↔ m.Keeps env x := by
  cases x with
  | update update => exact iff_of_true (hm.onUpdate h) trivial
  | message uuid message =>
    cases message with
    | newTopology top => exact iff_of_true (hm.onNewTopology h) trivial
    | abort id => exact hm.of_aborted ((onAbort_spec id).of_eq h)
    | cleanStop id node appIndex => exact hm.onCleanStop h
    | emulationReady id node => exact hm.onEmulationReady h
    | accepted | rejected reason =>
      cases h
      exact iff_of_true hm trivial

end OManager

open OManager

/-- While no input takes an emulation out of one table alone, the tables agree, what they do not
know has no bandwidth reserved for it and holds no load, and the next input keeps it so exactly when
it is such an input. -/
theorem tables_agree {it : Iter} {myInfo : ClusterNodeInfo} {omanagerPort emanagerPort maxLoad : Nat}
    {graph : CGraph ClusterNodeInfo} {m₀ m : OManager} {inputs : List (Env × Input)}
    (hbuild : build it myInfo omanagerPort emanagerPort graph maxLoad = .ok m₀)
    (hkeeps : ∀ pre x post m, inputs = pre ++ x :: post → m₀.acceptTopology pre = .ok m →
      m.Keeps x.1 x.2)
    (h : m₀.acceptTopology inputs = .ok m) :
    m.Agree ∧
      (∀ id, m.emulationsAndTheirNodes.lookup id = none → (∀ i j, m.orchestrator.takenBy [id] i j = 0) ∧
        ∀ n, m.orchestrator.loadOf n id = none ∧ ¬ m.orchestrator.Attributed n id) ∧
      ∀ env x m', (m.handle env x).result = .ok m' → (m'.Agree ↔ m.Keeps env x) := by
  obtain ⟨hacc, hemulations, hnodes⟩ := build_ok hbuild
  have hagree : m₀.Agree := fun id => by simp [hemulations, hnodes]
  have hrun : m.Agree ∧ m.orchestrator.Accounted :=
    acceptTopology_inv (fun _ s => s.Agree ∧ s.orchestrator.Accounted) ⟨hagree, hacc⟩
      (fun pre x post s s' hx hpre hs hstep =>
        ⟨(hs.1.handle hstep).mpr (hkeeps pre x post s hx hpre), handle_accounted hs.2 hstep⟩) h
  refine ⟨hrun.1, fun id hnone => ?_, fun env x m' => hrun.1.handle⟩
  have hunknown : m.orchestrator.emulations.lookup id = none := by
    by_contra hknown
    exact (hrun.1 id).mpr hknown hnone
  refine ⟨fun i j => ?_, hrun.2.idle hunknown⟩
  show m.orchestrator.takenBy ([] ++ [id]) i j = 0
  rw [Orchestrator.takenBy_snoc_gone (Or.inr hunknown)]
  simp [Orchestrator.takenBy]

def demoRemoval : List (Env × Input) :=
  [(demoEnv 100 [], .message ⟨1⟩ (.newTopology "")), (demoEnv 100 [], .update (.remove (demoHost 1 9090)))]

theorem tables_agree_demo : ∃ m₀ m, (demoManager 2 4 = .ok m₀ ∧ m₀.acceptTopology demoRemoval = .ok m) ∧
    m.Agree := by
  obtain ⟨graph, hgraph, m₀, hbuild, m, hm, -⟩ : Returns (demoCluster 2 1000) fun graph =>
      Returns (build .inOrder (demoHost 0 9090) 9091 9092 graph 4) fun m₀ =>
        Returns (m₀.acceptTopology demoRemoval) fun _ => True := by
    decide +kernel
  refine ⟨m₀, m, ⟨?_, hm⟩, (tables_agree hbuild (fun pre x post m hx _ => ?_) hm).1⟩
  · unfold demoManager
    rw [hgraph, bind_ok, hbuild]
  · have hmem : x ∈ demoRemoval := by
      rw [hx]
      exact List.mem_append_right _ List.mem_cons_self
    simp only [demoRemoval, List.mem_cons, List.not_mem_nil, or_false] at hmem
    rcases hmem with rfl | rfl <;> trivial

/-- An emulation that all its nodes got, and that one of them aborts: its load stays. -/
theorem tables_disagree : ∃ m₀ m, (demoManager 2 4 = .ok m₀ ∧
    m₀.acceptTopology [(demoEnv 100 [], .message ⟨1⟩ (.newTopology "")),
      (demoEnv 100 [], .message ⟨2⟩ (.abort ⟨1⟩))] = .ok m) ∧
    ¬ m.Agree ∧ m.orchestrator.loadOf (demoHost 0 9092) ⟨1⟩ = some 1 := by
  obtain ⟨m₀, hm₀, m, hm, hmanager, horch, hload⟩ : Returns (demoManager 2 4) fun m₀ =>
      Returns (m₀.acceptTopology [(demoEnv 100 [], .message ⟨1⟩ (.newTopology "")),
        (demoEnv 100 [], .message ⟨2⟩ (.abort ⟨1⟩))]) fun m =>
          m.emulationsAndTheirNodes.lookup ⟨1⟩ = none ∧ m.orchestrator.emulations.lookup ⟨1⟩ ≠ none ∧
            m.orchestrator.loadOf (demoHost 0 9092) ⟨1⟩ = some 1 := by
    decide +kernel
  exact ⟨m₀, m, ⟨hm₀, hm⟩, fun hagree => (hagree ⟨1⟩).mpr horch hmanager, hload⟩

end Pubapi

end Kollaps
