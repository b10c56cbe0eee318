import Kollaps.Bwsync.Basic
import Kollaps.Data
import Kollaps.Lib.Act

/-!
# The emulation core

`flow_loop` of one core: what it does with each message, and what it keeps between two of
them. Sends succeed: a send that fails ends the loop, and what was sent is a prefix of the log.
-/

namespace Kollaps

open Run Act

namespace Emulcore

/-- `HashMap<Node, (UnixBinding, AppStatus)>`, the bindings left out. -/
abbrev AppMap := KeySet fun p : Node × AppStatus => Vertex.id p.1

abbrev IpMap := KeySet fun p : IpAddr × Node => id p.1

abbrev HostSet := KeySet fun h : ClusterNodeInfo => h

/-- The fields of a core that its loop reads and does not write. -/
structure EmulCore where
  clusterLeader : ClusterNodeInfo
  graph : Network Node
  otherHosts : HostSet
  ipToApp : IpMap
  myself : ClusterNodeInfo
  emulId : Uuid

structure Loop where
  myApps : AppMap
  activeFlows : FlowSet Node
  bwGraph : Network Node

/-- What a core does to the outside. `cleanStop` names the app whose index the message holds. -/
inductive Effect where
  | toReporter (app : Node) (message : EmulMessage)
  | toHost (host : ClusterNodeInfo) (emulId : Uuid) (message : EmulMessage)
  | stopContainer (name : String)
  | cleanStop (app : Node) (leader : ClusterNodeInfo) (emulId : Uuid) (host : ClusterNodeInfo)
      (index : Nat)
deriving DecidableEq

/-! ## Before the loop -/

def parseEmulation (it : Iter) (graph : Network Node) (myself : ClusterNodeInfo) :
    Run (IpMap × HostSet) := do
  let apps := (graph.vertices it).filter Node.isApp
  let otherHost ← apps.foldlM (fun (acc : HostSet) node => do
    let app ← node.asApp
    if ← app.runsOn myself then pure acc
    else pure (acc.insert (← app.host))) KeySet.empty
  let ipToMap ← apps.foldlM (fun (acc : IpMap) node => do
    let app ← node.asApp
    pure (acc.put (← app.ipAddr) node)) KeySet.empty
  pure (ipToMap, otherHost)

def new (it : Iter) (uuid : Uuid) (graph : Network Node) (myself clusterLeader : ClusterNodeInfo) :
    Run EmulCore := do
  let (ipToApp, otherHosts) ← parseEmulation it graph myself
  pure { clusterLeader, graph, otherHosts, ipToApp, myself, emulId := uuid }

/-- `node.is_app() && node.as_app().runs_on(&this.myself)`. -/
def EmulCore.hosts (core : EmulCore) (node : Node) : Run Bool :=
  if node.isApp then do
    let app ← node.asApp
    app.runsOn core.myself
  else pure false

/-- Whether a reporter can be started for an app. The process itself is left out. -/
def launchReporterForApp (app : Application) : Run Unit :=
  match app.kind with
  | .bareMetal => .error (.stop "BareMetal not supported yet!")
  | .container config =>
    match config.image with
    | none => .error (.stop "Connecting to an existing container is not supported yet!")
    | some _ => pure ()

/-- The part of `init_emulation` that fills `my_apps`. -/
def initEmulation (it : Iter) (core : EmulCore) : Act Effect AppMap := do
  let mine ← (core.graph.vertices it).filterM (m := Run) core.hosts
  mine.forM (m := Run) fun node => do launchReporterForApp (← node.asApp)
  (it.order mine).foldlM (fun (myApps : AppMap) node => do
    let app ← node.asApp
    emit (.toReporter node (.tcInit (TCConf.default (← app.ipAddr))))
    pure (myApps.put node .notInit)) KeySet.empty

def start (core : EmulCore) (myApps : AppMap) : Loop :=
  { myApps
    activeFlows := KeySet.empty
    bwGraph := core.graph }

/-! ## What a message makes the core do -/

/-- One message on a new connection for each other host. -/
def broadcastFlow (it : Iter) (core : EmulCore) (flow : FlowConf) : Act Effect PUnit :=
  (it.order core.otherHosts.elems).forM fun host =>
    emit (.toHost host core.emulId (.flowUpdate flow))

/-- The message that the others get about a flow that is gone, and the flow. -/
def flowEnd (flow : Flow Node) : Run (FlowConf × Flow Node) := do
  let src ← (← flow.source.asApp).ipAddr
  let dest ← (← flow.destination.asApp).ipAddr
  pure ({ src, dest, throughput := none }, flow)

def removeAndTell (it : Iter) (ar : Arith) (core : EmulCore) (s : FlowSet Node × Network Node)
    (p : FlowConf × Flow Node) : Act Effect (FlowSet Node × Network Node) := do
  let s ← liftM (if s.1.contains p.2.key then Bwsync.removeFlow it ar s.1 p.2 core.graph else pure s)
  broadcastFlow it core p.1
  pure s

def removeAllFlowsFrom (it : Iter) (ar : Arith) (core : EmulCore) (activeFlows : FlowSet Node)
    (bwGraph : Network Node) (node : Node) : Act Effect (FlowSet Node × Network Node) := do
  let flows := (it.order activeFlows.elems).filter fun f =>
    decide (Vertex.id f.source = Vertex.id node)
  let toRemove ← flows.mapM (m := Run) flowEnd
  toRemove.foldlM (removeAndTell it ar core) (activeFlows, bwGraph)

def stopAppIfNecessary (node : Node) : Act Effect PUnit := do
  let app ← node.asApp
  match app.kind with
  | .bareMetal => pure ()
  | .container config =>
    match config.image with
    | none => pure ()
    | some _ => emit (.stopContainer config.name)

def reporterOf (myApps : AppMap) (node : Node) : Run Node := do
  let (app, _) ← unwrap (myApps.get? (Vertex.id node))
  pure app

/-- The flow that a message is about: the bandwidth asked for, or that of the path if it is less. -/
def newFlow (src dest : Node) (props : Network.Properties) (throughput : Option Nat) : Flow Node :=
  let usedBandwidth := match throughput with
    | none => 0
    | some bw => min bw props.bandwidth
  Flow.build src dest props.bandwidth usedBandwidth

/-- A flow that uses nothing is removed, if it is there. Any other flow is added or updated. -/
def applyFlow (it : Iter) (ar : Arith) (core : EmulCore) (s : Loop) (flow : Flow Node) :
    Run (FlowSet Node × Network Node) :=
  if flow.usedBandwidth = 0 then
    if s.activeFlows.contains flow.key then Bwsync.removeFlow it ar s.activeFlows flow core.graph
    else pure (s.activeFlows, s.bwGraph)
  else Bwsync.updateFlows it ar s.activeFlows flow core.graph s.bwGraph

/-- What a core does for a flow from one of its apps: the reporter gets the properties of the
path back when the flow is gone, and the other hosts learn about the flow. -/
def announceFlow (it : Iter) (core : EmulCore) (myApps : AppMap) (flow : Flow Node)
    (props : Network.Properties) (flowConf : FlowConf) : Act Effect PUnit := do
  if ← (← flow.source.asApp).runsOn core.myself then
    if flow.usedBandwidth = 0 then
      let tcConf : TCConf :=
        { dest := ← (← flow.destination.asApp).ipAddr
          bandwidthKbitps := some props.bandwidth
          latencyAndJitter := some props.latencyJitter
          drop := some props.drop }
      emit (.toReporter (← reporterOf myApps flow.source) (.tcUpdate tcConf))
    broadcastFlow it core flowConf

def onFlowUpdate (it : Iter) (ar : Arith) (core : EmulCore) (s : Loop) (flowConf : FlowConf) :
    Act Effect Loop :=
  match core.ipToApp.get? flowConf.src, core.ipToApp.get? flowConf.dest with
  | some (_, src), some (_, dest) => do
    match ← core.graph.propertiesBetween src dest with
    | none =>
      liftM (.error (.err "New flow between applications that do not have a connection!?") : Run Loop)
    | some props =>
      let flow := newFlow src dest props flowConf.throughput
      let (activeFlows, bwGraph) ← applyFlow it ar core s flow
      announceFlow it core s.myApps flow props flowConf
      pure { s with activeFlows, bwGraph }
  | _, _ => pure s

/-- A first join: every path from the app gets its properties. -/
def initPaths (it : Iter) (core : EmulCore) (node : Node) : Act Effect PUnit :=
  ((core.graph.vertices it).filter Node.isApp).forM fun otherNode => do
    if Vertex.id otherNode = Vertex.id node then pure ()
    else
      match ← core.graph.propertiesBetween node otherNode with
      | none => pure ()
      | some props =>
        let tcConf : TCConf :=
          { dest := ← (← otherNode.asApp).ipAddr
            bandwidthKbitps := some props.bandwidth
            latencyAndJitter := some props.latencyJitter
            drop := some props.drop }
        emit (.toReporter node (.tcUpdate tcConf))

/-- What a join sends: the paths at first, then a reconnection after each stop. -/
def tellJoin (it : Iter) (core : EmulCore) (node : Node) : AppStatus → Act Effect PUnit
  | .notInit => initPaths it core node
  | .stopped => emit (.toReporter node .tcReconnect)
  | _ => pure ()

def onJoin (it : Iter) (core : EmulCore) (s : Loop) (node : Node) (status : AppStatus) :
    Act Effect Loop := do
  tellJoin it core node status
  match status with
  | .notInit | .stopped => pure { s with myApps := s.myApps.put node .running }
  | _ => pure s

def onQuit (it : Iter) (ar : Arith) (core : EmulCore) (s : Loop) (node : Node) : Act Effect Loop := do
  let (activeFlows, bwGraph) ← removeAllFlowsFrom it ar core s.activeFlows s.bwGraph node
  emit (.toReporter node .tcDisconnect)
  pure { myApps := s.myApps.put node .stopped, activeFlows, bwGraph }

def onCrash (it : Iter) (ar : Arith) (core : EmulCore) (s : Loop) (node : Node) : Act Effect Loop := do
  let (activeFlows, bwGraph) ← removeAllFlowsFrom it ar core s.activeFlows s.bwGraph node
  emit (.toReporter node .tcDisconnect)
  stopAppIfNecessary node
  let s : Loop := { myApps := s.myApps.put node .crashed, activeFlows, bwGraph }
  let index ← (← node.asApp).index
  emit (.cleanStop node core.clusterLeader core.emulId core.myself index)
  pure s

/-- `filter(|(node, _)| node.is_same_by_id(event.app_id)).last()`. -/
def target (it : Iter) (s : Loop) (event : EmulationEvent) : Option (Node × AppStatus) :=
  ((it.order s.myApps.elems).filter fun p => p.1.isSameById event.appId).getLast?

def onEvent (it : Iter) (ar : Arith) (core : EmulCore) (s : Loop) (event : EmulationEvent) :
    Act Effect Loop :=
  match target it s event with
  | none => pure s
  | some (node, status) =>
    match event.action with
    | .join => onJoin it core s node status
    | .quit => onQuit it ar core s node
    | .crash => onCrash it ar core s node

def handle (it : Iter) (ar : Arith) (core : EmulCore) (s : Loop) : EmulMessage → Act Effect Loop
  | .flowUpdate flowConf => onFlowUpdate it ar core s flowConf
  | .event event => onEvent it ar core s event
  | _ => pure s

/-! ## The loop -/

/-- The end of an iteration: the reporter of each local flow learns its bandwidth. -/
def refresh (it : Iter) (core : EmulCore) (s : Loop) : Act Effect PUnit :=
  (it.order s.activeFlows.elems).forM fun flow => do
    if ← (← flow.source.asApp).runsOn core.myself then
      let tcConf := (TCConf.default (← (← flow.destination.asApp).ipAddr)).bandwidthKbs
        flow.authorizedBandwidth
      emit (.toReporter (← reporterOf s.myApps flow.source) (.tcUpdate tcConf))

def Loop.stop (s : Loop) : Bool := s.myApps.elems.all fun p => decide (p.2 = .crashed)

/-- One iteration of `flow_loop`. -/
def flowRound (it : Iter) (ar : Arith) (core : EmulCore) (s : Loop) (message : EmulMessage) :
    Act Effect (Loop ⊕ Loop) := do
  let s ← handle it ar core s message
  refresh it core s
  if s.stop then pure (.inr s) else pure (.inl s)

/-- `flow_loop` on the messages received so far: it waits for the next one, or it has stopped. -/
def flowLoop (it : Iter) (ar : Arith) (core : EmulCore) :
    List EmulMessage → Loop → Act Effect (Loop ⊕ Loop)
  | [], s => pure (.inl s)
  | message :: messages, s => do
    match ← flowRound it ar core s message with
    | .inl s => flowLoop it ar core messages s
    | .inr s => pure (.inr s)

end Emulcore

end Kollaps
