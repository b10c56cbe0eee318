import Kollaps.Cgraph.Join
import Kollaps.Data
import Kollaps.Lib.Act

/-!
# The cluster manager

What a controller does with each event that another node waits on, and what a node does that
joins: `add_myself_in_cluster` is taken apart at its waits.
-/

namespace Kollaps

open Run Act Cgraph

namespace Cmanager

abbrev WCGraph := CGraph ClusterNodeInfo

/-- The fields of the configuration that the manager reads. -/
structure RunnerConfig where
  sufficientSpeed : Nat
  perfTestRetries : Nat
  cjqRetry : Nat
  cjqWaitingTimeSeconds : Nat
  heartbeatMisses : Nat
deriving DecidableEq

/-- The cluster id is sent as the text of a uuid. -/
inductive CJQResponseKind where
  | accepted (leader : ClusterNodeInfo) (clusterId : Uuid)
  | wait (seconds : Nat)
deriving DecidableEq

inductive Event where
  | cGraphUpdate (graph : WCGraph)
  | cGraphGet
  | cGraphSend (graph : WCGraph)
  | cjqResponse (kind : CJQResponseKind)
  | cjqRequest (info : ClusterNodeInfo)
  | cjqAbort
  | cHeartbeat (info : ClusterNodeInfo) (clusterId : Uuid)
  | cHeartbeatReset
  | nodeFailure (info : ClusterNodeInfo)
deriving DecidableEq

/-- What the emulation manager of the leader is told. -/
inductive CGraphUpdate where
  | new (graph : WCGraph)
  | remove (node : ClusterNodeInfo)
deriving DecidableEq

abbrev MissMap := KeySet fun p : ClusterNodeInfo × Nat => id p.1

structure Ctrl where
  cgraph : WCGraph
  myInfo : ClusterNodeInfo
  mySpeed : Nat
  isLeader : Bool
  addingNewNode : Bool
  config : RunnerConfig
  heartbeatMisses : MissMap
  clusterId : Option Uuid
deriving DecidableEq

/-- What a controller does with an event: it answers, and it tells the emulation manager. -/
inductive Effect where
  | reply (event : Option Event)
  | update (update : CGraphUpdate)
deriving DecidableEq

namespace Ctrl

/-- `cgraph_update.as_ref().unwrap().send(update)`: only the leader has the channel. -/
def notify (c : Ctrl) (update : CGraphUpdate) : Act Effect Unit :=
  if c.isLeader then emit (.update update) else liftM (.error .unwrap : Run Unit)

def build (config : RunnerConfig) (myInfo : ClusterNodeInfo) (mySpeed : Nat) (isLeader : Bool) :
    Ctrl :=
  { cgraph := CGraph.new
    myInfo, mySpeed, isLeader
    addingNewNode := false
    config
    heartbeatMisses := KeySet.empty
    clusterId := none }

def createCluster (it : Iter) (c : Ctrl) (newId : Uuid) : Run Ctrl := do
  let (cgraph, _) ← CGraph.new.addNode it c.mySpeed c.myInfo
  pure { c with addingNewNode := false, cgraph, clusterId := some newId }

/-! ## Events of the leader -/

def onCGraphGet (c : Ctrl) : Act Effect Ctrl := do
  emit (.reply (some (.cGraphSend c.cgraph)))
  pure c

def onCGraphUpdate (c : Ctrl) (graph : WCGraph) : Act Effect Ctrl := do
  let c := { c with addingNewNode := false, cgraph := graph }
  c.notify (.new c.cgraph)
  emit (.reply none)
  pure c

def onCJQRequest (c : Ctrl) (info : ClusterNodeInfo) : Act Effect Ctrl :=
  if c.isLeader then
    if c.addingNewNode then do
      emit (.reply (some (.cjqResponse (.wait c.config.cjqWaitingTimeSeconds))))
      pure c
    else do
      -- A node of the cluster that asks again has been started again.
      let heartbeatMisses :=
        if info ∈ c.cgraph.infos then c.heartbeatMisses.remove info else c.heartbeatMisses
      let clusterId ← liftM (unwrap c.clusterId)
      emit (.reply (some (.cjqResponse (.accepted c.myInfo clusterId))))
      pure { c with heartbeatMisses, addingNewNode := true }
  else do
    emit (.reply none)
    pure c

def onCJQAbort (c : Ctrl) : Act Effect Ctrl := do
  emit (.reply none)
  pure { c with addingNewNode := false }

def onCHeartbeat (c : Ctrl) (other : Uuid) : Act Effect Ctrl := do
  emit (.reply (if c.clusterId = some other then some (.cHeartbeat c.myInfo other) else none))
  pure c

/-- Counts a missed heartbeat, and takes the node out when there were too many. -/
def missHeartbeat (it : Iter) (c : Ctrl) (info : ClusterNodeInfo) : Act Effect Ctrl :=
  match c.heartbeatMisses.get? info with
  | some (_, missedHeartbeat) =>
    if missedHeartbeat + 1 ≥ c.config.heartbeatMisses then do
      let cgraph ← liftM (c.cgraph.removeOneBy it fun n => n.info = info)
      if c.cgraph.size - 1 = cgraph.size then do
        let c := { c with cgraph, heartbeatMisses := c.heartbeatMisses.remove info }
        c.notify (.remove info)
        pure c
      else liftM (.error .assertion : Run Ctrl)
    else pure { c with heartbeatMisses := c.heartbeatMisses.put info (missedHeartbeat + 1) }
  | none => pure { c with heartbeatMisses := c.heartbeatMisses.put info 1 }

def onNodeFailure (it : Iter) (c : Ctrl) (info : ClusterNodeInfo) : Act Effect Ctrl := do
  let c ← c.missHeartbeat it info
  emit (.reply none)
  pure c

def onCHeartbeatReset (c : Ctrl) : Act Effect Ctrl := do
  emit (.reply none)
  pure { c with heartbeatMisses := KeySet.empty }

def handle (it : Iter) (c : Ctrl) : Event → Act Effect Ctrl
  | .cGraphGet => c.onCGraphGet
  | .cGraphUpdate graph => c.onCGraphUpdate graph
  | .cjqRequest info => c.onCJQRequest info
  | .cjqAbort => c.onCJQAbort
  | .cHeartbeat _ other => c.onCHeartbeat other
  | .nodeFailure info => c.onNodeFailure it info
  | .cHeartbeatReset => c.onCHeartbeatReset
  | _ => pure c

/-! ## What the handlers of the leader do -/

theorem notify_leader {c : Ctrl} (h : c.isLeader = true) (update : CGraphUpdate) :
    c.notify update = emit (.update update) := by
  simp [notify, h]

theorem onCGraphUpdate_spec {c : Ctrl} (h : c.isLeader = true) (graph : WCGraph) :
    c.onCGraphUpdate graph =
      ⟨[.update (.new graph), .reply none], .ok { c with addingNewNode := false, cgraph := graph }⟩ := by
  unfold onCGraphUpdate
  simp only
  rw [notify_leader (by exact h)]
  rfl

theorem onCJQRequest_adding {c : Ctrl} (h : c.isLeader = true) (hadding : c.addingNewNode = true)
    (info : ClusterNodeInfo) : c.onCJQRequest info =
      ⟨[.reply (some (.cjqResponse (.wait c.config.cjqWaitingTimeSeconds)))], .ok c⟩ := by
  unfold onCJQRequest
  rw [if_pos h, if_pos hadding]
  rfl

theorem onCJQRequest_free {c : Ctrl} (h : c.isLeader = true) (hadding : c.addingNewNode = false)
    {info : ClusterNodeInfo} {c' : Ctrl} (hc' : (c.onCJQRequest info).result = .ok c') :
    ∃ misses id, c.clusterId = some id ∧ c' = { c with heartbeatMisses := misses, addingNewNode := true } ∧
      (c.onCJQRequest info).log = [.reply (some (.cjqResponse (.accepted c.myInfo id)))] := by
  unfold onCJQRequest at hc' ⊢
  rw [if_pos h, if_neg (by simp [hadding])] at hc' ⊢
  obtain ⟨id, hid, hc', hlog⟩ := of_bind_eq_ok hc'
  rw [hlog]
  cases hc'
  exact ⟨_, id, unwrap_eq_ok.mp hid, rfl, rfl⟩

inductive Missed (it : Iter) (c : Ctrl) (info : ClusterNodeInfo) : List Effect → Ctrl → Prop
  | counted (misses : MissMap) :
      Missed it c info [.reply none] { c with heartbeatMisses := misses }
  | removed (misses : MissMap) (cgraph : WCGraph)
      (hgraph : c.cgraph.removeOneBy it (fun n => n.info = info) = .ok cgraph) :
      Missed it c info [.update (.remove info), .reply none]
        { c with cgraph, heartbeatMisses := misses }

theorem onNodeFailure_spec {c : Ctrl} (h : c.isLeader = true) {it : Iter} {info : ClusterNodeInfo}
    {c' : Ctrl} (hc' : (c.onNodeFailure it info).result = .ok c') :
    Missed it c info (c.onNodeFailure it info).log c' := by
  unfold onNodeFailure at hc' ⊢
  obtain ⟨c₁, hc₁, hc', hlog⟩ := of_bind_eq_ok hc'
  rw [hlog]
  cases hc'
  unfold missHeartbeat at hc₁ ⊢
  cases hmiss : c.heartbeatMisses.get? info with
  | none =>
    rw [hmiss] at hc₁
    cases hc₁
    exact .counted _
  | some p =>
    rw [hmiss] at hc₁
    simp only at hc₁ ⊢
    split at hc₁ <;> rename_i hlimit
    · rw [if_pos hlimit]
      obtain ⟨cgraph, hgraph, hc₁, hlog₁⟩ := of_bind_eq_ok hc₁
      rw [hlog₁]
      split at hc₁ <;> rename_i hsize
      · rw [if_pos hsize]
        rw [notify_leader (by exact h)] at hc₁ ⊢
        cases hc₁
        exact .removed _ _ hgraph
      · cases hc₁
    · rw [if_neg hlimit]
      cases hc₁
      exact .counted _

/-! ## A node that joins -/

/-- The tests against one node: the first that succeeds counts. `attempt i` is the result of
the test number `i`. -/
def launchTests (attempt : Nat → Option Nat) (testRetries : Nat) : Run Nat :=
  match ((List.range (testRetries + 1)).filterMap attempt).head? with
  | some speed => pure speed
  | none => .error (.err "Exceeded number of tries.")

/-- `complete_graph`, with the results of the tests and the rounds that it may take. -/
def completeGraph (fuel : Nat) (its : Nat → Iter) (attempt : ClusterNodeInfo → Nat → Option Nat)
    (c : Ctrl) : Run Ctrl := do
  let (_, cgraph, _) ← CGraph.completeGraph fuel its
    (fun other => launchTests (attempt other.info) c.config.perfTestRetries) c.mySpeed c.myInfo
    c.config.sufficientSpeed c.cgraph
  pure { c with cgraph }

end Ctrl

end Cmanager

end Kollaps
