import Kollaps.Netgraph.Basic

/-!
# Nodes and messages

The vertices of an emulated network, and the messages of the emulation cores. A node compares
by its kind and its id.
-/

namespace Kollaps

open Run

inductive IpAddr where
  | v4 (addr : BitVec 32)
  | v6 (addr : BitVec 128)
deriving DecidableEq, Repr

def IpAddr.asV4 : IpAddr → Run (BitVec 32)
  | .v4 addr => pure addr
  | .v6 _ => .error .unwrap

structure Uuid where
  bits : BitVec 128
deriving DecidableEq, Repr

structure ClusterNodeInfo where
  ipAddr : IpAddr
  port : Nat
deriving DecidableEq, Repr

/-! ## Applications -/

structure ContainerConfig where
  name : String
  id : Option String
  imageCommand : Option (String × Option String)
deriving DecidableEq, Repr

def ContainerConfig.image (c : ContainerConfig) : Option String := c.imageCommand.map Prod.fst

inductive ApplicationKind where
  | bareMetal
  | container (config : ContainerConfig)
deriving DecidableEq, Repr

inductive AppStatus where
  | notInit
  | running
  | stopped
  | crashed
deriving DecidableEq, Repr

/-- The fields are named after those of the source. Their methods unwrap. -/
structure Application where
  ipApp : Option IpAddr
  hostOpt : Option ClusterNodeInfo
  name : String
  kind : ApplicationKind
  indexOpt : Option Nat
deriving DecidableEq, Repr

namespace Application

def runsOn (a : Application) (node : ClusterNodeInfo) : Run Bool := do
  let host ← unwrap a.hostOpt
  pure (decide (host = node))

def host (a : Application) : Run ClusterNodeInfo := unwrap a.hostOpt

def ipAddr (a : Application) : Run IpAddr := unwrap a.ipApp

def index (a : Application) : Run Nat := unwrap a.indexOpt

end Application

inductive Node where
  | app (id : Nat) (application : Application)
  | bridge (id : Nat)
deriving DecidableEq, Repr

namespace Node

def isApp : Node → Bool
  | app _ _ => true
  | bridge _ => false

def asApp : Node → Run Application
  | app _ a => pure a
  | bridge _ => .error (.stop "Trying to get the app from a bridge")

def id : Node → Nat
  | app id _ => id
  | bridge id => id

def isSameById (n : Node) (id : Nat) : Bool := decide (id = n.id)

end Node

/-- `Node::eq` looks at the kind and the id. -/
instance : Vertex Node := ⟨Bool × Nat, fun n => (n.isApp, n.id), inferInstance⟩

/-! ## Messages -/

structure TCConf where
  dest : IpAddr
  bandwidthKbitps : Option Nat
  latencyAndJitter : Option (F32 × F32)
  drop : Option F32
deriving DecidableEq, Repr

namespace TCConf

def default (dest : IpAddr) : TCConf :=
  { dest
    bandwidthKbitps := none
    latencyAndJitter := none
    drop := none }

def bandwidthKbs (c : TCConf) (bw : Nat) : TCConf := { c with bandwidthKbitps := some bw }

end TCConf

structure FlowConf where
  src : IpAddr
  dest : IpAddr
  throughput : Option Nat
deriving DecidableEq, Repr

inductive EventAction where
  | join
  | quit
  | crash
deriving DecidableEq, Repr

structure Duration where
  secs : Nat
  nanos : Nat
deriving DecidableEq, Repr

structure EmulationEvent where
  appId : Nat
  time : Duration
  action : EventAction
deriving DecidableEq, Repr

inductive EmulMessage where
  | flowUpdate (conf : FlowConf)
  | tcInit (conf : TCConf)
  | tcUpdate (conf : TCConf)
  | tcDisconnect
  | tcReconnect
  | tcTeardown
  | socketReady
  | event (event : EmulationEvent)
deriving DecidableEq, Repr

end Kollaps
