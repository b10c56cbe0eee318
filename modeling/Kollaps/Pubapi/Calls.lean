import Kollaps.Orchestrator.Accounts
import Kollaps.Pubapi.Basic

/-!
# What the handlers change
-/

namespace Kollaps

open Run Act Cgraph

namespace Pubapi

def Effect.isRejection : Effect → Bool
  | .reply (some (.rejected _)) => true
  | _ => false

namespace OManager

/-- A placement is found, and one of its nodes is not reached. -/
def Misses (env : Env) (m : OManager) (uuid : Uuid) (top : String) : Prop :=
  ∃ network events o network' nodes, env.parseTopology top uuid = .ok (network, events) ∧
    m.orchestrator.newEmulation env.ar env.it network uuid = .ok (o, some (network', nodes)) ∧
    ∃ n ∈ nodes, env.reaches n = false

variable {env : Env} {m : OManager}

theorem sendTo_eq (n : ClusterNodeInfo) (message : EManagerMessage) :
    sendTo env n message = ⟨if env.reaches n then [.send n message] else [], .ok (env.reaches n)⟩ := by
  unfold sendTo
  split <;> rename_i h
  · rw [h]
    rfl
  · rw [Bool.not_eq_true] at h
    rw [h]
    rfl

theorem forM_sendTo {α : Type} (node : α → ClusterNodeInfo) (message : EManagerMessage) (xs : List α) :
    xs.forM (fun x => do let _ ← sendTo env (node x) message) =
      (⟨((xs.map node).filter env.reaches).map (.send · message), .ok ()⟩ : Act Effect PUnit) := by
  induction xs with
  | nil => rfl
  | cons x xs ih =>
    show ((do let _ ← sendTo env (node x) message) >>= fun _ => xs.forM _) = _
    rw [ih, sendTo_eq]
    cases hr : env.reaches (node x) <;> simp [hr] <;> rfl

theorem sendAll_spec (env : Env) (m : OManager) (emul : Emulation) (nodes sent : List ClusterNodeInfo) :
    ∃ log, sendAll env m emul sent nodes = ⟨log, .ok (nodes.all env.reaches)⟩ ∧
      ∀ e ∈ log, e.isRejection = false := by
  induction nodes generalizing sent with
  | nil => exact ⟨[], rfl, by simp⟩
  | cons n rest ih =>
    unfold sendAll
    rw [sendTo_eq]
    cases hr : env.reaches n with
    | true =>
      obtain ⟨log, hlog, hsends⟩ := ih (sent ++ [n])
      rw [bind_of_ok rfl]
      simp only [if_true, hlog, List.all_cons, hr, Bool.true_and]
      refine ⟨_, rfl, fun e he => ?_⟩
      rcases List.mem_append.mp he with he | he
      · rw [List.mem_singleton.mp he]
        rfl
      · exact hsends e he
    | false =>
      rw [bind_of_ok rfl]
      simp only [Bool.false_eq_true, if_false, List.all_cons, hr, Bool.false_and]
      split
      · rw [forM_sendTo fun n => n, bind_of_ok rfl]
        refine ⟨_, rfl, fun e he => ?_⟩
        simp only [List.nil_append, log_pure, List.append_nil, List.mem_map] at he
        obtain ⟨n', -, rfl⟩ := he
        rfl
      · exact ⟨_, rfl, by simp⟩

/-- What becomes of a topology. -/
inductive Submitted (env : Env) (m : OManager) (uuid : Uuid) (top : String) :
    List Effect → OManager → Prop
  | refused (reason : TopologyRejectReason) (hmiss : ¬ m.Misses env uuid top) :
      Submitted env m uuid top [.reply (some (.rejected reason))] m
  | entered {network network' : Network Node} {events : List EmulationEvent} {o : Orchestrator}
      {nodes : List ClusterNodeInfo} {log : List Effect} (ok : Bool)
      (hparse : env.parseTopology top uuid = .ok (network, events))
      (hplace : m.orchestrator.newEmulation env.ar env.it network uuid = .ok (o, some (network', nodes)))
      (hok : ok = nodes.all env.reaches) (hlog : log.any Effect.isRejection = !ok) :
      Submitted env m uuid top log { m with
        orchestrator := o
        emulationsAndTheirNodes := m.emulationsAndTheirNodes.put uuid
          (nodes.foldl (fun acc n => acc.put n false) KeySet.empty) }

theorem onNewTopology_spec {uuid : Uuid} {top : String} {m' : OManager}
    (h : (m.onNewTopology env uuid top).result = .ok m') :
    Submitted env m uuid top (m.onNewTopology env uuid top).log m' := by
  unfold onNewTopology at h ⊢
  cases hparse : env.parseTopology top uuid with
  | error e =>
    have hmiss : ¬ m.Misses env uuid top := by
      rintro ⟨network, events, o, network', nodes, hok, -⟩
      rw [hparse] at hok
      cases hok
    rw [hparse] at h
    cases e with
    | err reason =>
      cases h
      exact .refused (.badFile reason) hmiss
    | _ => cases h
  | ok r =>
    obtain ⟨network, events⟩ := r
    rw [hparse] at h
    simp only at h ⊢
    cases hplace : m.orchestrator.newEmulation env.ar env.it network uuid with
    | error e =>
      have hmiss : ¬ m.Misses env uuid top := by
        rintro ⟨network₁, events₁, o, network', nodes, hok, hplaced, -⟩
        rw [hparse] at hok
        cases hok
        rw [hplace] at hplaced
        cases hplaced
      rw [hplace] at h
      cases e with
      | err reason =>
        cases h
        exact .refused .noDeploymentFound hmiss
      | _ => cases h
    | ok r =>
      obtain ⟨o, placed⟩ := r
      rw [hplace] at h
      cases placed with
      | none =>
        cases h
        obtain rfl := Orchestrator.newEmulation_none hplace
        refine .refused .noDeploymentFound ?_
        rintro ⟨network₁, events₁, o, network', nodes, hok, hplaced, -⟩
        rw [hparse] at hok
        cases hok
        rw [hplace] at hplaced
        cases hplaced
      | some placed =>
        obtain ⟨network', nodes⟩ := placed
        unfold onPlacement sendNewEmulation at h ⊢
        simp only at h ⊢
        obtain ⟨sends, hsends, hnone⟩ := sendAll_spec env { m with
          orchestrator := o
          emulationsAndTheirNodes := m.emulationsAndTheirNodes.put uuid
            (nodes.foldl (fun acc n => acc.put n false) KeySet.empty) }
          ⟨uuid, network', events⟩ nodes []
        have hquiet : sends.any Effect.isRejection = false := by
          simpa using hnone
        rw [hsends, bind_of_ok rfl] at h ⊢
        simp only at h ⊢
        cases hok : nodes.all env.reaches with
        | true =>
          rw [hok, if_pos rfl] at h
          cases h
          refine .entered true hparse hplace hok.symm ?_
          rw [if_pos rfl, List.any_append, hquiet]
          rfl
        | false =>
          rw [hok, if_neg (by simp)] at h
          cases h
          refine .entered false hparse hplace hok.symm ?_
          rw [if_neg (by simp), List.any_append, hquiet]
          rfl

/-! ## Aborts -/

structure Aborted (uuids : List Uuid) (m m' : OManager) : Prop where
  orchestrator : m'.orchestrator = m.orchestrator
  myInfoEmanager : m'.myInfoEmanager = m.myInfoEmanager
  forgets : Orchestrator.Forgets uuids m.emulationsAndTheirNodes m'.emulationsAndTheirNodes

theorem abortEmulation_spec (uuid : Uuid) :
    Returns (m.abortEmulation env uuid).result (Aborted [uuid] m) := by
  unfold abortEmulation
  rw [KeySet.get?_eq_lookup]
  cases hlookup : m.emulationsAndTheirNodes.lookup uuid with
  | none =>
    refine ⟨m, rfl, rfl, rfl, fun u => ?_⟩
    simp only [List.mem_singleton]
    split <;> rename_i hu
    · rw [hu, hlookup]
    · rfl
  | some nodes =>
    simp only [Option.map_some]
    rw [forM_sendTo Prod.fst, bind_of_ok rfl]
    refine ⟨_, rfl, rfl, rfl, fun u => ?_⟩
    simp only [List.mem_singleton]
    exact KeySet.lookup_remove ..

theorem abortEmulations_spec (uuids : List Uuid) :
    Returns (m.abortEmulations env uuids).result (Aborted uuids m) := by
  unfold abortEmulations
  refine returns_foldlM (fun done s => Aborted done m s) ⟨rfl, rfl, .refl _⟩
    (fun pre uuid post s _ hs => ?_)
  refine (abortEmulation_spec uuid).mono fun s' hs' => ?_
  exact ⟨hs'.orchestrator.trans hs.orchestrator, hs'.myInfoEmanager.trans hs.myInfoEmanager,
    hs.forgets.trans hs'.forgets⟩

theorem onAbort_spec (id : Uuid) : Returns (m.onAbort env id).result (Aborted [id] m) :=
  returns_bind (abortEmulations_spec [id]) fun m' hm' => ⟨m', rfl, hm'⟩

/-! ## The start of an emulation -/

theorem startAll_ok {id : Uuid} {nodes : List ClusterNodeInfo} {m' : OManager}
    (h : (startAll env id m nodes).result = .ok m') :
    if nodes.all env.reaches then m' = m else Aborted [id] m m' := by
  induction nodes with
  | nil =>
    cases h
    rfl
  | cons n rest ih =>
    unfold startAll at h
    rw [sendTo_eq, bind_of_ok rfl] at h
    cases hr : env.reaches n with
    | true =>
      simp only [hr, if_true] at h
      simpa [hr] using ih h
    | false =>
      simp only [hr, Bool.false_eq_true, if_false] at h
      simp only [List.all_cons, hr, Bool.false_and, Bool.false_eq_true, if_false]
      split at h
      · cases h
      · exact (abortEmulations_spec [id]).of_eq h

theorem startAll_returns (id : Uuid) {nodes : List ClusterNodeInfo} :
    Returns (startAll env id m nodes).result (fun _ => True) ↔
      nodes.find? (fun n => !env.reaches n) ≠ some m.myInfoEmanager := by
  induction nodes with
  | nil => exact iff_of_true ⟨m, rfl, trivial⟩ (by simp)
  | cons n rest ih =>
    unfold startAll
    rw [sendTo_eq, bind_of_ok rfl, List.find?_cons]
    cases hr : env.reaches n with
    | true => simpa using ih
    | false =>
      simp only [Bool.false_eq_true, if_false, Bool.not_false, ne_eq, Option.some.injEq]
      by_cases hn : n = m.myInfoEmanager
      · rw [if_pos hn]
        exact iff_of_false (returns_error _ _) (not_not_intro hn)
      · rw [if_neg hn]
        exact iff_of_true ((abortEmulations_spec [id]).mono fun _ _ => trivial) hn

def mark (m : OManager) (id : Uuid) (nodes : HostMap Bool) (node : ClusterNodeInfo) : OManager :=
  { m with emulationsAndTheirNodes := m.emulationsAndTheirNodes.put id (nodes.put node true) }

/-- The other nodes are all ready, and one of the nodes is not reached. -/
def Stalls (env : Env) (m : OManager) (id : Uuid) (node : ClusterNodeInfo) : Prop :=
  ∃ nodes, m.emulationsAndTheirNodes.lookup id = some nodes ∧
    (∀ p ∈ nodes.elems, p.1 ≠ node → p.2 = true) ∧ ∃ p ∈ nodes.elems, env.reaches p.1 = false

theorem put_ready {nodes : HostMap Bool} {node : ClusterNodeInfo} :
    (nodes.put node true).elems.all Prod.snd = true ↔
      ∀ p ∈ nodes.elems, p.1 ≠ node → p.2 = true := by
  simp only [List.all_eq_true, Prod.forall, ← KeySet.lookup_eq_some, KeySet.lookup_put]
  constructor
  · intro h n r hn hne
    exact h n r (by rw [if_neg hne, hn])
  · intro h n r hn
    split at hn <;> rename_i hne
    · exact (Option.some.inj hn).symm
    · exact h n r hn hne

theorem put_reached {nodes : HostMap Bool} {node : ClusterNodeInfo} (hnode : nodes.lookup node ≠ none) :
    ((env.it.order (nodes.put node true).elems).map Prod.fst).all env.reaches = true ↔
      ∀ p ∈ nodes.elems, env.reaches p.1 = true := by
  simp only [List.all_eq_true, List.mem_map, env.it.mem_order, Prod.exists, Prod.forall,
    exists_and_right, exists_eq_right, ← KeySet.lookup_eq_some, KeySet.lookup_put]
  constructor
  · intro h n r hn
    refine h n ?_
    by_cases hne : n = node
    · exact ⟨true, by rw [if_pos hne]⟩
    · exact ⟨r, by rw [if_neg hne, hn]⟩
  · rintro h n ⟨r, hn⟩
    split at hn <;> rename_i hne
    · obtain ⟨r₀, hr₀⟩ := Option.ne_none_iff_exists'.mp hnode
      exact h n r₀ (hne ▸ hr₀)
    · exact h n r hn

theorem onEmulationReady_ok {id : Uuid} {node : ClusterNodeInfo} {m' : OManager}
    (h : (m.onEmulationReady env id node).result = .ok m') :
    ∃ nodes, m.emulationsAndTheirNodes.lookup id = some nodes ∧ nodes.lookup node ≠ none ∧
      (¬ m.Stalls env id node → m' = m.mark id nodes node) ∧
      (m.Stalls env id node → Aborted [id] (m.mark id nodes node) m') := by
  unfold onEmulationReady at h
  obtain ⟨⟨k, nodes⟩, hget, h, -⟩ := of_bind_eq_ok h
  rw [result_lift, unwrap_eq_ok, KeySet.get?_eq_lookup, Option.map_eq_some_iff] at hget
  obtain ⟨_, hlookup, heq⟩ := hget
  cases heq
  obtain ⟨⟨k', r⟩, hget', h, -⟩ := of_bind_eq_ok h
  rw [result_lift, unwrap_eq_ok, KeySet.get?_eq_lookup, Option.map_eq_some_iff] at hget'
  obtain ⟨r', hnode, -⟩ := hget'
  have hkey : nodes.lookup node ≠ none := by simp [hnode]
  refine ⟨nodes, hlookup, hkey, ?_⟩
  simp only at h
  have hstalls : m.Stalls env id node ↔ (∀ p ∈ nodes.elems, p.1 ≠ node → p.2 = true) ∧
      ∃ p ∈ nodes.elems, env.reaches p.1 = false := by
    unfold Stalls
    rw [hlookup]
    simp
  split at h <;> rename_i hall <;> obtain ⟨m₁, hstart, h, -⟩ := of_bind_eq_ok h <;>
    obtain ⟨_, -, h, -⟩ := of_bind_eq_ok h <;> cases h
  · have hready := put_ready.mp hall
    have hok := startAll_ok hstart
    by_cases hreach : ∀ p ∈ nodes.elems, env.reaches p.1 = true
    · rw [if_pos ((put_reached hkey).mpr hreach)] at hok
      refine ⟨fun _ => hok, fun hs => ?_⟩
      obtain ⟨-, p, hp, hnot⟩ := hstalls.mp hs
      rw [hreach p hp] at hnot
      cases hnot
    · rw [if_neg (mt (put_reached hkey).mp hreach)] at hok
      refine ⟨fun hs => absurd (hstalls.mpr ⟨hready, ?_⟩) hs, fun _ => hok⟩
      simp only [not_forall, Bool.not_eq_true] at hreach
      obtain ⟨p, hp, hnot⟩ := hreach
      exact ⟨p, hp, hnot⟩
  · cases hstart
    exact ⟨fun _ => rfl, fun hs => absurd (put_ready.mpr (hstalls.mp hs).1) hall⟩

theorem onEmulationReady_returns {id : Uuid} {node : ClusterNodeInfo} :
    Returns (m.onEmulationReady env id node).result (fun _ => True) ↔
      ∃ nodes, m.emulationsAndTheirNodes.lookup id = some nodes ∧ nodes.lookup node ≠ none ∧
        ((nodes.put node true).elems.all Prod.snd →
          ((env.it.order (nodes.put node true).elems).map Prod.fst).find? (fun n => !env.reaches n) ≠
            some m.myInfoEmanager) := by
  unfold onEmulationReady
  rw [KeySet.get?_eq_lookup]
  cases hlookup : m.emulationsAndTheirNodes.lookup id with
  | none => exact iff_of_false (returns_error _ _) (by simp)
  | some nodes =>
    simp only [Option.some.injEq, exists_eq_left', Option.map_some, unwrap_some]
    rw [bind_of_ok (result_lift _)]
    simp only [KeySet.get?_eq_lookup]
    cases hnode : nodes.lookup node with
    | none => exact iff_of_false (returns_error _ _) (by simp)
    | some r =>
      simp only [Option.map_some, unwrap_some, ne_eq, reduceCtorEq, not_false_eq_true, true_and]
      rw [bind_of_ok (result_lift _)]
      simp only
      split <;> rename_i hall
      · rw [forall_prop_of_true hall]
        refine Iff.trans ?_ (startAll_returns id (m := m.mark id nodes node))
        constructor
        · rintro ⟨m', h, -⟩
          obtain ⟨m₁, h₁, -⟩ := of_bind_eq_ok h
          exact ⟨m₁, h₁, trivial⟩
        · exact fun h => returns_bind h fun m' _ => ⟨m', rfl, trivial⟩
      · exact iff_of_true ⟨_, rfl, trivial⟩ fun h => absurd h hall

/-! ## The stop of an app -/

theorem onCleanStop_ok {id : Uuid} {node : ClusterNodeInfo} {appIndex : Nat} {m' : OManager}
    (h : (m.onCleanStop env id node appIndex).result = .ok m') :
    (m.orchestrator.emulations.lookup id = none ∧ m' = m) ∨
    ∃ o, m.orchestrator.stopAppEmulationOn env.ar id node appIndex = .ok o ∧
      m' = { m with orchestrator := o } := by
  unfold onCleanStop at h
  obtain ⟨o, ho, h, -⟩ := of_bind_eq_ok h
  obtain ⟨_, -, h, -⟩ := of_bind_eq_ok h
  cases h
  rw [result_lift] at ho
  cases hstop : m.orchestrator.stopAppEmulationOn env.ar id node appIndex with
  | error e =>
    rw [hstop] at ho
    cases e with
    | err message =>
      cases ho
      exact Or.inl ⟨Orchestrator.stopAppEmulationOn_err hstop, rfl⟩
    | _ => cases ho
  | ok o₁ =>
    rw [hstop] at ho
    cases ho
    exact Or.inr ⟨o, rfl, rfl⟩

/-! ## Updates of the cluster graph -/

theorem onChange_ok {r : Run (Orchestrator × List Uuid)} {m' : OManager}
    (h : (m.onChange env r).result = .ok m') :
    ∃ o uuids, r = .ok (o, uuids) ∧ Aborted uuids { m with orchestrator := o } m' := by
  cases r with
  | error e => cases e <;> cases h
  | ok r =>
    obtain ⟨o, uuids⟩ := r
    exact ⟨o, uuids, rfl, (abortEmulations_spec uuids).of_eq h⟩

/-! ## Runs -/

theorem build_ok {it : Iter} {myInfo : ClusterNodeInfo} {omanagerPort emanagerPort maxLoad : Nat}
    {graph : CGraph ClusterNodeInfo} (h : build it myInfo omanagerPort emanagerPort graph maxLoad = .ok m) :
    m.orchestrator.Accounted ∧ m.orchestrator.emulations = KeySet.empty ∧
      m.emulationsAndTheirNodes = KeySet.empty := by
  unfold build at h
  obtain ⟨o, ho, h⟩ := Run.of_bind_eq_ok h
  have hacc := Orchestrator.new_accounted ho
  unfold Orchestrator.new at ho
  obtain ⟨⟨residualGraph, hostMapping⟩, -, ho⟩ := Run.of_bind_eq_ok ho
  cases ho
  cases h
  exact ⟨hacc, rfl, rfl⟩

theorem handle_accounted {x : Input} (hm : m.orchestrator.Accounted)
    (h : (m.handle env x).result = .ok m') : m'.orchestrator.Accounted := by
  cases x with
  | update update =>
    cases update with
    | new graph =>
      obtain ⟨o, uuids, ho, haborted⟩ := onChange_ok h
      rw [haborted.orchestrator]
      exact Orchestrator.updateWithCgraph_accounted ho hm
    | remove node =>
      obtain ⟨o, uuids, ho, haborted⟩ := onChange_ok h
      obtain ⟨i, o₁, hremoved⟩ := Orchestrator.removeClusterNode_ok ho
      rw [haborted.orchestrator]
      exact hremoved.accounted hm
  | message uuid message =>
    cases message with
    | newTopology top =>
      have hspec := onNewTopology_spec h
      generalize (m.onNewTopology env uuid top).log = log at hspec
      cases hspec with
      | refused reason hmiss => exact hm
      | entered ok hparse hplace hok hlog =>
        obtain ⟨matrix, p, places, hplaced, -⟩ := Orchestrator.newEmulation_some hplace
        exact hplaced.accounted hm
    | abort id =>
      rw [((onAbort_spec id).of_eq h).orchestrator]
      exact hm
    | cleanStop id node appIndex =>
      rcases onCleanStop_ok h with ⟨-, rfl⟩ | ⟨o, hstop, rfl⟩
      · exact hm
      · obtain ⟨matrix, p, hstopped⟩ := Orchestrator.stopAppEmulationOn_ok hstop
        exact hstopped.accounted hm
    | emulationReady id node =>
      obtain ⟨nodes, -, -, hgo, hstall⟩ := onEmulationReady_ok h
      by_cases hs : m.Stalls env id node
      · rw [(hstall hs).orchestrator]
        exact hm
      · rw [hgo hs]
        exact hm
    | accepted | rejected reason =>
      cases h
      exact hm

theorem acceptTopology_inv {m₀ : OManager} {inputs : List (Env × Input)}
    (I : List (Env × Input) → OManager → Prop) (h₀ : I [] m₀)
    (hstep : ∀ pre x post m m', inputs = pre ++ x :: post → m₀.acceptTopology pre = .ok m → I pre m →
      (m.handle x.1 x.2).result = .ok m' → I (pre ++ [x]) m')
    (h : m₀.acceptTopology inputs = .ok m) : I inputs m := by
  unfold acceptTopology at hstep h
  exact foldlM_ok_reach I h₀ hstep h

end OManager

end Pubapi

end Kollaps
