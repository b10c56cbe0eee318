import Kollaps.Cmanager.Joining
import Kollaps.Lib.Trace

/-!
# The heartbeats

The leader asks all nodes for a sign of life, round after round. A round that misses nobody
clears the counters of all nodes. A round that misses somebody leaves the counters of the nodes
that answered as they are.
-/

namespace Kollaps

open Run Act Cgraph

namespace Cmanager

/-- How far `perform_heartbeat_check` has come: it waits for answers, it has asked for a reset,
or it still has to report some of the nodes that it misses. -/
inductive Check where
  | idle
  | asking (graph : WCGraph)
  | resetting
  | telling (nodes : List ClusterNodeInfo)
deriving DecidableEq

structure Monitor where
  ctrl : Ctrl
  check : Check
deriving DecidableEq

inductive Pulse where
  | check
  | collect (it : Iter) (received : List ClusterNodeInfo)
  | next (it : Iter)
  /-- An event that comes in between. -/
  | event (it : Iter) (event : Event)

inductive Beat where
  | round (missed : List ClusterNodeInfo)
  | evicted (node : ClusterNodeInfo)
deriving DecidableEq

def remaining (graph : WCGraph) (received : List ClusterNodeInfo) :
    KeySet fun n : ClusterNodeInfo => n :=
  KeySet.collect (graph.infos.filter (· ∉ received))

/-- The two events that only a heartbeat check sends. -/
def Event.isBeat : Event → Bool
  | .nodeFailure _ | .cHeartbeatReset => true
  | _ => false

def evictions (log : List Effect) : List Beat :=
  log.filterMap fun
    | .update (.remove node) => some (.evicted node)
    | _ => none

namespace Monitor

def handled (check : Check) (program : Act Effect Ctrl) : Act Beat Monitor := do
  let ctrl ← liftM program.result
  (evictions program.log).forM emit
  pure { ctrl, check }

def step (m : Monitor) : Pulse → Act Beat Monitor
  | .check =>
    match m.check with
    | .idle => do
      if m.ctrl.isLeader then
        let _ ← liftM (unwrap m.ctrl.clusterId)
        pure { m with check := .asking m.ctrl.cgraph }
      else pure m
    | _ => pure m
  | .collect it received =>
    match m.check with
    | .asking graph => do
      let missed := (remaining graph received).elems
      emit (.round missed)
      pure { m with check := if missed = [] then .resetting else .telling (it.order missed) }
    | _ => pure m
  | .next it =>
    match m.check with
    | .resetting => handled .idle m.ctrl.onCHeartbeatReset
    | .telling [] => pure { m with check := .idle }
    | .telling (node :: nodes) => handled (.telling nodes) (m.ctrl.onNodeFailure it node)
    | _ => pure m
  | .event it event =>
    if event.isBeat then pure m else handled m.check (m.ctrl.handle it event)

/-- The answers of a round leave no counter of a node that answered: nobody is missing, or
every node with a counter is. -/
def steady (m : Monitor) : Pulse → Bool
  | .collect _ received =>
    match m.check with
    | .asking graph =>
      let missed := (remaining graph received).elems
      missed = [] || m.ctrl.heartbeatMisses.elems.all fun p => decide (p.1 ∈ missed)
    | _ => true
  | _ => true

end Monitor

/-! ## What the events do to the counters -/

namespace Ctrl

def missesOf (c : Ctrl) (n : ClusterNodeInfo) : Option Nat := KeySet.lookup c.heartbeatMisses n

inductive Counted (c : Ctrl) (info : ClusterNodeInfo) (c' : Ctrl) : List Effect → Prop
  | more (h : ∀ n, c'.missesOf n =
        if n = info then some ((c.missesOf info).getD 0 + 1) else c.missesOf n) :
      Counted c info c' [.reply none]
  | gone (hlimit : c.config.heartbeatMisses ≤ (c.missesOf info).getD 0 + 1)
      (h : ∀ n, c'.missesOf n = if n = info then none else c.missesOf n) :
      Counted c info c' [.update (.remove info), .reply none]

theorem onNodeFailure_counted {c c' : Ctrl} (h : c.isLeader = true) {it : Iter} {info : ClusterNodeInfo}
    (hc' : (c.onNodeFailure it info).result = .ok c') :
    Counted c info c' (c.onNodeFailure it info).log ∧ c'.isLeader = true ∧ c'.config = c.config := by
  unfold onNodeFailure at hc' ⊢
  obtain ⟨c₁, hc₁, hc', hlog⟩ := of_bind_eq_ok hc'
  rw [hlog]
  cases hc'
  unfold missHeartbeat at hc₁ ⊢
  cases hmiss : c.heartbeatMisses.get? info with
  | none =>
    rw [hmiss] at hc₁
    cases hc₁
    have hnone : c.missesOf info = none := by
      unfold missesOf KeySet.lookup
      rw [hmiss]
      rfl
    refine ⟨.more fun n => ?_, h, rfl⟩
    rw [hnone]
    exact KeySet.lookup_put _ _ _ _
  | some p =>
    have hsome : c.missesOf info = some p.2 := by
      unfold missesOf KeySet.lookup
      rw [hmiss]
      rfl
    rw [hmiss] at hc₁
    simp only at hc₁ ⊢
    split at hc₁ <;> rename_i hlimit
    · rw [if_pos hlimit]
      obtain ⟨cgraph, -, hc₁, hlog₁⟩ := of_bind_eq_ok hc₁
      rw [hlog₁]
      split at hc₁ <;> rename_i hsize
      · rw [if_pos hsize]
        rw [notify_leader (by exact h)] at hc₁ ⊢
        cases hc₁
        refine ⟨.gone ?_ fun n => KeySet.lookup_remove _ _ _, h, rfl⟩
        rw [hsome]
        exact hlimit
      · cases hc₁
    · rw [if_neg hlimit]
      cases hc₁
      refine ⟨.more fun n => ?_, h, rfl⟩
      rw [hsome]
      exact KeySet.lookup_put _ _ _ _

theorem handle_quiet {c c' : Ctrl} (h : c.isLeader = true) {it : Iter} {event : Event}
    (hevent : event.isBeat = false) (hc' : (c.handle it event).result = .ok c') :
    evictions (c.handle it event).log = [] ∧ c'.isLeader = true ∧ c'.config = c.config ∧
      ∀ n k, c'.missesOf n = some k → c.missesOf n = some k := by
  cases event with
  | cGraphGet =>
    cases hc'
    exact ⟨rfl, h, rfl, fun _ _ => id⟩
  | cGraphUpdate graph =>
    rw [handle, onCGraphUpdate_spec h] at hc' ⊢
    cases hc'
    exact ⟨rfl, h, rfl, fun _ _ => id⟩
  | cGraphSend graph | cjqResponse kind =>
    cases hc'
    exact ⟨rfl, h, rfl, fun _ _ => id⟩
  | cjqRequest info =>
    unfold handle onCJQRequest at hc' ⊢
    simp only [if_pos h] at hc' ⊢
    split at hc' <;> rename_i hadding
    · rw [if_pos hadding]
      cases hc'
      exact ⟨rfl, h, rfl, fun _ _ => id⟩
    · rw [if_neg hadding]
      obtain ⟨id, hid, hc', hlog⟩ := of_bind_eq_ok hc'
      rw [hlog]
      cases hc'
      refine ⟨rfl, h, rfl, fun n k hn => ?_⟩
      unfold missesOf at hn
      simp only at hn
      split at hn
      · rw [KeySet.lookup_remove] at hn
        split at hn
        · cases hn
        · exact hn
      · exact hn
  | cjqAbort | cHeartbeat info clusterId =>
    cases hc'
    exact ⟨rfl, h, rfl, fun _ _ => id⟩
  | cHeartbeatReset | nodeFailure info => cases hevent

end Ctrl

/-! ## Rounds -/

def rounds (log : List Beat) : List (List ClusterNodeInfo) :=
  log.filterMap fun
    | .round missed => some missed
    | .evicted _ => none

/-- The node was missing in the last `k` rounds. -/
def Absent (k : Nat) (n : ClusterNodeInfo) (log : List Beat) : Prop := Streak (n ∈ ·) k (rounds log)

/-- Whoever is evicted was missing in each of the last `k` rounds. -/
def Deserved (k : Nat) : List Beat → Beat → Prop
  | pre, .evicted n => Absent k n pre
  | _, .round _ => True

@[simp] theorem rounds_append (log log' : List Beat) : rounds (log ++ log') = rounds log ++ rounds log' :=
  List.filterMap_append

theorem rounds_evictions (log : List Effect) : rounds (evictions log) = [] := by
  unfold rounds evictions
  rw [List.filterMap_filterMap, List.filterMap_eq_nil_iff]
  intro e _
  match e with
  | .reply _ | .update (.new _) | .update (.remove _) => rfl

namespace Check

/-- The rounds that a counter of `k` stands for: those so far, less the one that is still to be
counted for the node. -/
def Stands (check : Check) (log : List Beat) (n : ClusterNodeInfo) (k : Nat) : Prop :=
  match check with
  | idle | asking _ => Absent k n log
  | resetting => True
  | telling nodes => if n ∈ nodes then Streak (n ∈ ·) k (rounds log).dropLast else Absent k n log

/-- The nodes that are still to be told are missing in the last round. -/
def Missing (check : Check) (log : List Beat) : Prop :=
  ∀ nodes, check = telling nodes → nodes.Nodup ∧
    (nodes ≠ [] → ∃ missed ∈ (rounds log).getLast?, ∀ n ∈ nodes, n ∈ missed)

end Check

/-- What the counters stand for, between any two steps. -/
structure Sound (limit : Nat) (log : List Beat) (m : Monitor) : Prop where
  leads : m.ctrl.isLeader = true
  config : m.ctrl.config.heartbeatMisses = limit
  misses : ∀ n k, m.ctrl.missesOf n = some k → 0 < k ∧ m.check.Stands log n k
  missing : m.check.Missing log
  deserved : Each (Deserved limit) log

theorem handled_ok {check : Check} {program : Act Effect Ctrl} {m : Monitor}
    (h : (Monitor.handled check program).result = .ok m) : ∃ ctrl, program.result = .ok ctrl ∧
      m = ⟨ctrl, check⟩ ∧ (Monitor.handled check program).log = evictions program.log := by
  unfold Monitor.handled at h ⊢
  obtain ⟨ctrl, hctrl, h, hlog⟩ := of_bind_eq_ok h
  rw [hlog, forM_emit] at *
  cases h
  exact ⟨ctrl, hctrl, rfl, by simp [bind_of_ok]⟩

theorem streak_dropLast {n : ClusterNodeInfo} {k : Nat} {log : List Beat}
    (h : Streak (n ∈ ·) k (rounds log).dropLast) (hlast : ∃ missed ∈ (rounds log).getLast?, n ∈ missed) :
    Absent (k + 1) n log := by
  obtain ⟨missed, hmissed, hn⟩ := hlast
  unfold Absent
  rw [← List.dropLast_append_getLast? missed hmissed]
  exact h.snoc hn

namespace Sound

variable {limit : Nat} {log : List Beat} {m m' : Monitor}

theorem quiet (h : Sound limit log m) {ctrl : Ctrl} {check : Check} (hleads : ctrl.isLeader = true)
    (hconfig : ctrl.config = m.ctrl.config) (hmisses : ∀ n k, ctrl.missesOf n = some k →
      m.ctrl.missesOf n = some k ∧ (m.check.Stands log n k → check.Stands log n k))
    (hmissing : check.Missing log) : Sound limit log ⟨ctrl, check⟩ := by
  refine ⟨hleads, hconfig ▸ h.config, fun n k hn => ?_, hmissing, h.deserved⟩
  obtain ⟨hold, hstands⟩ := hmisses n k hn
  exact (h.misses n k hold).imp_right hstands

theorem collect (h : Sound limit log m) {graph : WCGraph} (hcheck : m.check = .asking graph)
    {it : Iter} {received : List ClusterNodeInfo} (hok : m.steady (.collect it received) = true) :
    Sound limit (log ++ [.round (remaining graph received).elems])
      { m with check := if (remaining graph received).elems = [] then .resetting
          else .telling (it.order (remaining graph received).elems) } := by
  unfold Monitor.steady at hok
  rw [hcheck] at hok
  simp only [Bool.or_eq_true, decide_eq_true_eq, List.all_eq_true] at hok
  generalize hmissed : (remaining graph received).elems = missed at hok ⊢
  have hnodup : missed.Nodup := hmissed ▸ (remaining graph received).elems_nodup
  refine ⟨h.leads, h.config, fun n k hn => ?_, fun nodes hnodes => ?_,
    each_append.mpr ⟨h.deserved, each_singleton.mpr trivial⟩⟩
  · obtain ⟨hpos, hk⟩ := h.misses n k hn
    refine ⟨hpos, ?_⟩
    rw [hcheck] at hk
    split <;> rename_i hempty
    · trivial
    · -- The counter is one of a node that is missing again.
      have hmem : n ∈ missed := by
        rcases hok with hok | hok
        · exact absurd hok hempty
        · exact hok (n, k) (KeySet.lookup_eq_some.mp hn)
      show if n ∈ it.order missed then Streak (n ∈ ·) k (rounds (log ++ [.round missed])).dropLast else _
      rw [if_pos (it.mem_order.mpr hmem), rounds_append]
      show Streak (n ∈ ·) k (rounds log ++ [missed]).dropLast
      rw [List.dropLast_concat]
      exact hk
  · split at hnodes
    · cases hnodes
    · cases hnodes
      refine ⟨(it.perm missed).symm.nodup hnodup, fun _ => ⟨missed, ?_, fun n hn => it.mem_order.mp hn⟩⟩
      rw [rounds_append]
      show missed ∈ (rounds log ++ [missed]).getLast?
      rw [List.getLast?_concat]
      rfl

theorem tell (h : Sound limit log m) {node : ClusterNodeInfo} {nodes : List ClusterNodeInfo}
    (hcheck : m.check = .telling (node :: nodes)) {it : Iter} {ctrl : Ctrl}
    (hctrl : (m.ctrl.onNodeFailure it node).result = .ok ctrl) :
    Sound limit (log ++ evictions (m.ctrl.onNodeFailure it node).log) ⟨ctrl, .telling nodes⟩ := by
  obtain ⟨hcounted, hleads, hconfig⟩ := Ctrl.onNodeFailure_counted h.leads hctrl
  obtain ⟨hnodup, hlast⟩ := h.missing _ hcheck
  obtain ⟨missed, hmissed, hmem⟩ := hlast (List.cons_ne_nil _ _)
  have hnotin : node ∉ nodes := (List.nodup_cons.mp hnodup).1
  have hrounds : ∀ effects, rounds (log ++ evictions effects) = rounds log := fun effects => by
    rw [rounds_append, rounds_evictions, List.append_nil]
  have habsent : Absent ((m.ctrl.missesOf node).getD 0 + 1) node log := by
    refine streak_dropLast ?_ ⟨missed, hmissed, hmem _ List.mem_cons_self⟩
    cases hk : m.ctrl.missesOf node with
    | none => exact Streak.zero
    | some k =>
      have hstands := (h.misses node k hk).2
      rw [hcheck] at hstands
      simpa [Check.Stands] using hstands
  have hother : ∀ n k, n ≠ node → m.ctrl.missesOf n = some k → ∀ effects,
      0 < k ∧ (Check.telling nodes).Stands (log ++ evictions effects) n k := by
    intro n k hne hk effects
    obtain ⟨hpos, hstands⟩ := h.misses n k hk
    rw [hcheck] at hstands
    refine ⟨hpos, ?_⟩
    unfold Check.Stands Absent at hstands ⊢
    rw [hrounds]
    simpa [hne] using hstands
  have hmissing : ∀ effects, (Check.telling nodes).Missing (log ++ evictions effects) := by
    rintro effects _ ⟨⟩
    rw [hrounds]
    exact ⟨(List.nodup_cons.mp hnodup).2, fun _ =>
      ⟨missed, hmissed, fun n hn => hmem n (List.mem_cons_of_mem _ hn)⟩⟩
  generalize (m.ctrl.onNodeFailure it node).log = effects at hcounted ⊢
  cases hcounted with
  | more hmore =>
    refine ⟨hleads, hconfig ▸ h.config, fun n k hk => ?_, hmissing _, ?_⟩
    · rw [hmore] at hk
      split at hk <;> rename_i hne
      · cases hk
        refine ⟨Nat.succ_pos _, ?_⟩
        show if n ∈ nodes then _ else _
        rw [if_neg (hne ▸ hnotin), hne, Absent, hrounds]
        exact habsent
      · exact hother n k hne hk _
    · show Each _ (log ++ [])
      rw [List.append_nil]
      exact h.deserved
  | gone hlimit hgone =>
    refine ⟨hleads, hconfig ▸ h.config, fun n k hk => ?_, hmissing _, ?_⟩
    · rw [hgone] at hk
      split at hk <;> rename_i hne
      · cases hk
      · exact hother n k hne hk _
    · refine each_append.mpr ⟨h.deserved, each_singleton.mpr ?_⟩
      show Absent limit node (log ++ [])
      rw [List.append_nil]
      exact habsent.mono (h.config ▸ hlimit)

theorem step (h : Sound limit log m) {p : Pulse} (hok : m.steady p = true)
    (hm' : (m.step p).result = .ok m') : Sound limit (log ++ (m.step p).log) m' := by
  have hsame : Sound limit (log ++ []) m := by
    rwa [List.append_nil]
  cases p with
  | check =>
    unfold Monitor.step at hm' ⊢
    cases hcheck : m.check with
    | idle =>
      simp only [hcheck, h.leads, if_true] at hm' ⊢
      obtain ⟨id, -, hm', hlog⟩ := of_bind_eq_ok hm'
      rw [hlog]
      cases hm'
      refine hsame.quiet h.leads rfl (fun n k hn => ⟨hn, fun hk => ?_⟩) nofun
      rwa [hcheck] at hk
    | asking _ | resetting | telling _ =>
      simp only [hcheck] at hm' ⊢
      cases hm'
      exact hsame
  | collect it received =>
    cases hcheck : m.check with
    | asking graph =>
      have hround := h.collect hcheck hok
      unfold Monitor.step at hm' ⊢
      simp only [hcheck] at hm' ⊢
      cases hm'
      exact hround
    | idle | resetting | telling _ =>
      unfold Monitor.step at hm' ⊢
      simp only [hcheck] at hm' ⊢
      cases hm'
      exact hsame
  | next it =>
    unfold Monitor.step at hm' ⊢
    cases hcheck : m.check with
    | resetting =>
      simp only [hcheck] at hm' ⊢
      obtain ⟨ctrl, hctrl, rfl, hlog⟩ := handled_ok hm'
      rw [hlog]
      cases hctrl
      exact hsame.quiet h.leads rfl (fun n k hn => by cases hn) nofun
    | telling nodes =>
      cases nodes with
      | nil =>
        simp only [hcheck] at hm' ⊢
        cases hm'
        refine hsame.quiet h.leads rfl (fun n k hn => ⟨hn, fun hk => ?_⟩) nofun
        rw [hcheck] at hk
        simpa [Check.Stands] using hk
      | cons node nodes =>
        simp only [hcheck] at hm' ⊢
        obtain ⟨ctrl, hctrl, rfl, hlog⟩ := handled_ok hm'
        rw [hlog]
        exact h.tell hcheck hctrl
    | idle | asking _ =>
      simp only [hcheck] at hm' ⊢
      cases hm'
      exact hsame
  | event it event =>
    unfold Monitor.step at hm' ⊢
    by_cases hevent : event.isBeat = true
    · simp only [hevent, if_true] at hm' ⊢
      cases hm'
      exact hsame
    · simp only [hevent, if_false, Bool.false_eq_true] at hm' ⊢
      obtain ⟨ctrl, hctrl, rfl, hlog⟩ := handled_ok hm'
      obtain ⟨hnone, hleads, hconfig, hmisses⟩ :=
        Ctrl.handle_quiet h.leads (Bool.not_eq_true _ ▸ hevent) hctrl
      rw [hlog, hnone]
      exact hsame.quiet hleads hconfig (fun n k hn => ⟨hmisses n k hn, fun hk => hk⟩) hsame.missing

end Sound

/-- As long as every round leaves no counter of a node that answered, the leader takes a node out
only when it was missing in the last rounds, as many as configured, and a node that answered the
last round has no counter. -/
theorem evicted_absent {it : Iter} {config : RunnerConfig} {info : ClusterNodeInfo} {speed : Nat} {id : Uuid}
    {c : Ctrl} {log : List Beat} {m : Monitor}
    (hc : (Ctrl.build config info speed true).createCluster it id = .ok c)
    (h : Guarded Monitor.step (Monitor.steady · · = true) ⟨c, .idle⟩ log m) :
    Each (Deserved config.heartbeatMisses) log ∧
      (m.check = .idle → ∀ n, (∀ missed ∈ (rounds log).getLast?, n ∉ missed) → m.ctrl.missesOf n = none) := by
  have hsound : Sound config.heartbeatMisses log m := by
    refine Guarded.inv (Sound config.heartbeatMisses) ?_ (fun log m p m' _ hm hok hm' => hm.step hok hm') h
    obtain ⟨_, -, hc⟩ := Run.of_bind_eq_ok hc
    cases hc
    exact ⟨rfl, rfl, (fun n k hn => by cases hn), (nofun), Each.nil⟩
  refine ⟨hsound.deserved, fun hidle n hn => ?_⟩
  by_contra hsome
  obtain ⟨k, hk⟩ := Option.ne_none_iff_exists'.mp hsome
  obtain ⟨hpos, hstands⟩ := hsound.misses n k hk
  rw [hidle] at hstands
  obtain ⟨missed, hmissed, hmem⟩ := Streak.last hstands hpos
  exact hn missed hmissed hmem

def demoLeader : Run (Ctrl × WCGraph) := do
  let c ← (Ctrl.build demoConfig (demoNode 0) 100 true).createCluster .inOrder ⟨7⟩
  let (graph, _) ← c.cgraph.addNode .inOrder 100 (demoNode 1)
  let (graph, _) ← graph.addNode .inOrder 100 (demoNode 2)
  pure (c, graph)

def demoPulses (graph : WCGraph) (answers : List (List Nat)) : List Pulse :=
  .event .inOrder (.cGraphUpdate graph) :: answers.flatMap fun received =>
    [.check, .collect .inOrder (received.map demoNode), .next .inOrder, .next .inOrder]

theorem demoLeader_ok {c : Ctrl} {graph : WCGraph} (h : demoLeader = .ok (c, graph)) :
    (Ctrl.build demoConfig (demoNode 0) 100 true).createCluster .inOrder ⟨7⟩ = .ok c := by
  obtain ⟨c', hc', h⟩ := Run.of_bind_eq_ok h
  obtain ⟨_, -, h⟩ := Run.of_bind_eq_ok h
  obtain ⟨_, -, h⟩ := Run.of_bind_eq_ok h
  cases h
  exact hc'

theorem evicted_absent_demo : ∃ log, ∃ m : Monitor, .evicted (demoNode 2) ∈ log ∧ m.check = .idle ∧
    Each (Deserved demoConfig.heartbeatMisses) log ∧ m.ctrl.missesOf (demoNode 1) = none := by
  obtain ⟨⟨c, graph⟩, hleader, m, hm, hlog, hidle, hrounds⟩ : Returns demoLeader fun p =>
      Returns (guardedRun Monitor.step Monitor.steady ⟨p.1, .idle⟩
        (demoPulses p.2 [[0, 1], [0, 1]])).result fun m =>
          .evicted (demoNode 2) ∈ (guardedRun Monitor.step Monitor.steady ⟨p.1, .idle⟩
            (demoPulses p.2 [[0, 1], [0, 1]])).log ∧ m.check = .idle ∧
          ∀ missed ∈ (rounds (guardedRun Monitor.step Monitor.steady ⟨p.1, .idle⟩
            (demoPulses p.2 [[0, 1], [0, 1]])).log).getLast?, demoNode 1 ∉ missed := by decide +kernel
  obtain ⟨heach, hnone⟩ := evicted_absent (demoLeader_ok hleader) (Guarded.start.of_run hm)
  exact ⟨_, m, hlog, hidle, heach, hnone hidle _ hrounds⟩

/-- Two nodes miss rounds in turn: the first is taken out after a round that it answered and one
that it missed. -/
theorem evicted_present : ∃ c log m, (Ctrl.build demoConfig (demoNode 0) 100 true).createCluster
      .inOrder ⟨7⟩ = .ok c ∧ Act.Trace Monitor.step ⟨c, .idle⟩ log m ∧
    ¬ Each (Deserved demoConfig.heartbeatMisses) log := by
  obtain ⟨⟨c, graph⟩, hleader, m, hm, hlog⟩ : Returns demoLeader fun p =>
      Returns ((demoPulses p.2 [[0, 2], [0, 1], [0, 2]]).foldlM Monitor.step ⟨p.1, .idle⟩).result fun _ =>
        ((demoPulses p.2 [[0, 2], [0, 1], [0, 2]]).foldlM Monitor.step ⟨p.1, .idle⟩).log =
          [.round [demoNode 1], .round [demoNode 2], .round [demoNode 1], .evicted (demoNode 1)] := by
    decide +kernel
  refine ⟨c, _, m, demoLeader_ok hleader, Act.Trace.of_foldlM .start hm, fun heach => ?_⟩
  have habsent := heach [.round [demoNode 1], .round [demoNode 2], .round [demoNode 1]] _ [] hlog
  exact absurd (streak_iff.mp habsent) (by decide)

end Cmanager

end Kollaps
