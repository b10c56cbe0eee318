import Kollaps.Cmanager.Basic
import Kollaps.Orchestrator.Basic

/-!
# The manager of the topologies

The leader takes topologies, sends the emulations to the nodes that they are placed on, and
follows what these nodes report. Ids are sent as the text of a uuid.
-/

namespace Kollaps

open Run Act Cgraph

structure Emulation where
  uuid : Uuid
  graph : Network Node
  events : List EmulationEvent

inductive EManagerMessage where
  | emulCoreInterchange (id : Uuid) (mess : EmulMessage)
  | experimentNew (leader : ClusterNodeInfo) (emul : Emulation)
  | experimentStop (id : Uuid)
  | experimentReady (id : Uuid)

inductive TopologyRejectReason where
  | tooMuch
  | noDeploymentFound
  | badFile (reason : String)
deriving DecidableEq

inductive OManagerMessage where
  | newTopology (top : String)
  | accepted
  | rejected (reason : TopologyRejectReason)
  | abort (id : Uuid)
  | cleanStop (id : Uuid) (node : ClusterNodeInfo) (appIndex : Nat)
  | emulationReady (id : Uuid) (node : ClusterNodeInfo)
deriving DecidableEq

namespace Pubapi

structure OManager where
  myInfoEmanager : ClusterNodeInfo
  myInfoOmanager : ClusterNodeInfo
  orchestrator : Orchestrator
  emulationsAndTheirNodes : UuidMap (HostMap Bool)
deriving DecidableEq

/-- What the manager does: a message that a node gets, and an answer to the sender. -/
inductive Effect where
  | send (node : ClusterNodeInfo) (message : EManagerMessage)
  | reply (message : Option OManagerMessage)

/-- What a message meets: the arithmetic, the iteration order, the parser of the topologies,
and the nodes that can be reached. The local node is reached through its channel. -/
structure Env where
  ar : Arith
  it : Iter
  parseTopology : String → Uuid → Run (Network Node × List EmulationEvent)
  reaches : ClusterNodeInfo → Bool

namespace OManager

def build (it : Iter) (myInfo : ClusterNodeInfo) (omanagerPort emanagerPort : Nat)
    (originalCgraph : CGraph ClusterNodeInfo) (maxLoadPerNode : Nat) : Run OManager := do
  let orchestrator ← Orchestrator.new it originalCgraph emanagerPort maxLoadPerNode
  pure {
    myInfoEmanager := { myInfo with port := emanagerPort }
    myInfoOmanager := { myInfo with port := omanagerPort }
    orchestrator
    emulationsAndTheirNodes := KeySet.empty }

def sendTo (env : Env) (node : ClusterNodeInfo) (message : EManagerMessage) : Act Effect Bool :=
  if env.reaches node then do
    emit (.send node message)
    pure true
  else pure false

def abortEmulation (env : Env) (m : OManager) (uuid : Uuid) : Act Effect OManager :=
  match m.emulationsAndTheirNodes.get? uuid with
  | none => pure m
  | some (_, nodes) => do
    (env.it.order nodes.elems).forM fun p => do
      let _ ← sendTo env p.1 (.experimentStop uuid)
    pure { m with emulationsAndTheirNodes := m.emulationsAndTheirNodes.remove uuid }

def abortEmulations (env : Env) (m : OManager) (uuids : List Uuid) : Act Effect OManager :=
  uuids.foldlM (abortEmulation env) m

/-- The loop of `send_new_emulation`, after the nodes `sent`. When a node is not reached, those
before it are told to stop, but for a failure of the local channel. -/
def sendAll (env : Env) (m : OManager) (emul : Emulation) (sent : List ClusterNodeInfo) :
    List ClusterNodeInfo → Act Effect Bool
  | [] => pure true
  | n :: rest => do
    if ← sendTo env n (.experimentNew m.myInfoOmanager emul) then
      sendAll env m emul (sent ++ [n]) rest
    else do
      if n ≠ m.myInfoEmanager then
        sent.forM fun n => do
          let _ ← sendTo env n (.experimentStop emul.uuid)
      pure false

def sendNewEmulation (env : Env) (m : OManager) (uuid : Uuid) (network : Network Node)
    (nodes : List ClusterNodeInfo) (events : List EmulationEvent) : Act Effect Bool :=
  sendAll env m ⟨uuid, network, events⟩ [] nodes

def reject (reason : TopologyRejectReason) : Act Effect Unit :=
  emit (.reply (some (.rejected reason)))

def onPlacement (env : Env) (m : OManager) (uuid : Uuid) (events : List EmulationEvent) :
    Run (Orchestrator × Option (Network Node × List ClusterNodeInfo)) → Act Effect OManager
  | .ok (orchestrator, none) => do
    reject .noDeploymentFound
    pure { m with orchestrator }
  | .ok (orchestrator, some (network, clusterNodesAffected)) => do
    let nodesReadyMap := clusterNodesAffected.foldl (fun acc n => acc.put n false) KeySet.empty
    let m := { m with
      orchestrator
      emulationsAndTheirNodes := m.emulationsAndTheirNodes.put uuid nodesReadyMap }
    if ← sendNewEmulation env m uuid network clusterNodesAffected events then
      emit (.reply (some .accepted))
    else reject .noDeploymentFound
    pure m
  | .error (.err _) => do
    reject .noDeploymentFound
    pure m
  | .error e => liftM (.error e : Run OManager)

def onNewTopology (env : Env) (m : OManager) (uuid : Uuid) (top : String) : Act Effect OManager :=
  match env.parseTopology top uuid with
  | .ok (network, events) =>
    m.onPlacement env uuid events (m.orchestrator.newEmulation env.ar env.it network uuid)
  | .error (.err e) => do
    reject (.badFile e)
    pure m
  | .error e => liftM (.error e : Run OManager)

def onAbort (env : Env) (m : OManager) (id : Uuid) : Act Effect OManager := do
  let m ← m.abortEmulations env [id]
  emit (.reply none)
  pure m

def onCleanStop (env : Env) (m : OManager) (id : Uuid) (node : ClusterNodeInfo) (appIndex : Nat) :
    Act Effect OManager := do
  let orchestrator ← liftM (match m.orchestrator.stopAppEmulationOn env.ar id node appIndex with
    | .error (.err _) => pure m.orchestrator
    | r => r)
  emit (.reply none)
  pure { m with orchestrator }

/-- The loop that sends `ExperimentReady`, over the nodes that are left. -/
def startAll (env : Env) (id : Uuid) (m : OManager) : List ClusterNodeInfo → Act Effect OManager
  | [] => pure m
  | n :: rest => do
    if ← sendTo env n (.experimentReady id) then startAll env id m rest
    else if n = m.myInfoEmanager then liftM (.error .unwrap : Run OManager)
    else m.abortEmulations env [id]

def onEmulationReady (env : Env) (m : OManager) (id : Uuid) (node : ClusterNodeInfo) :
    Act Effect OManager := do
  let (_, nodes) ← liftM (unwrap (m.emulationsAndTheirNodes.get? id))
  let _ ← liftM (unwrap (nodes.get? node))
  let nodes := nodes.put node true
  let m := { m with emulationsAndTheirNodes := m.emulationsAndTheirNodes.put id nodes }
  let m ←
    if nodes.elems.all Prod.snd then startAll env id m ((env.it.order nodes.elems).map Prod.fst)
    else pure m
  emit (.reply none)
  pure m

def handleExperimentMessage (env : Env) (m : OManager) (uuid : Uuid) :
    OManagerMessage → Act Effect OManager
  | .newTopology top => m.onNewTopology env uuid top
  | .abort id => m.onAbort env id
  | .cleanStop id node appIndex => m.onCleanStop env id node appIndex
  | .emulationReady id node => m.onEmulationReady env id node
  | .accepted | .rejected _ => do
    reject (.badFile "You need to send file via NewTopology enumeration")
    pure m

/-! ## Updates of the cluster graph -/

def onChange (env : Env) (m : OManager) : Run (Orchestrator × List Uuid) → Act Effect OManager
  | .ok (orchestrator, affected) => ({ m with orchestrator } : OManager).abortEmulations env affected
  | .error (.err _) => liftM (.error .unwrap : Run OManager)
  | .error e => liftM (.error e : Run OManager)

def onUpdate (env : Env) (m : OManager) : Cmanager.CGraphUpdate → Act Effect OManager
  | .new graph => m.onChange env (m.orchestrator.updateWithCgraph env.ar env.it graph)
  | .remove node => m.onChange env (m.orchestrator.removeClusterNode env.ar env.it node)

end OManager

/-- What `accept_topology` waits for: a message, with the id of a new topology, or an update. -/
inductive Input where
  | message (uuid : Uuid) (message : OManagerMessage)
  | update (update : Cmanager.CGraphUpdate)

namespace OManager

def handle (env : Env) (m : OManager) : Input → Act Effect OManager
  | .message uuid message => m.handleExperimentMessage env uuid message
  | .update update => m.onUpdate env update

def acceptTopology (m : OManager) (inputs : List (Env × Input)) : Run OManager :=
  inputs.foldlM (fun m x => (m.handle x.1 x.2).result) m

end OManager

end Pubapi

end Kollaps
