import Kollaps.Cmanager.Basic
import Mathlib.Logic.Function.Basic

/-!
# One leader and the nodes that join it

Every request of a node goes out on a socket of its own, and the answer comes back to that
socket. Datagrams are lost, repeated and overtaken; a message of a TCP connection arrives
once, at any time.
-/

namespace Kollaps

open Run Act Cgraph

namespace Cmanager

/-- The socket of one joining request. -/
structure Binding where
  node : ClusterNodeInfo
  request : Nat
deriving DecidableEq

structure Datagram where
  binding : Binding
  event : Event
deriving DecidableEq

/-- Where a node is in the procedure of joining. -/
inductive Phase where
  | off
  /-- Listens on the socket of its request. -/
  | pending (request : Nat)
  /-- A `CJQRetry` will come. -/
  | waiting
  /-- Got `Accepted`, and has not asked for the graph. -/
  | accepted (leader : ClusterNodeInfo) (clusterId : Uuid)
  /-- Has sent `CGraphGet`. -/
  | asked (clusterId : Uuid)
  /-- Has a copy of the graph, and makes tests. -/
  | completing (clusterId : Uuid)
  | joined
  | stopped
deriving DecidableEq

structure Peer where
  ctrl : Ctrl
  remainingRetries : Nat
  phase : Phase
deriving DecidableEq

structure World where
  leader : Ctrl
  peers : ClusterNodeInfo → Peer
  datagrams : List Datagram
  /-- TCP messages to the leader, each with its sender. -/
  connections : List (ClusterNodeInfo × Event)
  /-- What the leader sent back on a TCP connection. -/
  answers : List (ClusterNodeInfo × Event)
  nextRequest : Nat

/-- What a run is judged by. -/
inductive Mark where
  | requested (node : ClusterNodeInfo)
  | answered (node : ClusterNodeInfo)
  | updated (node : ClusterNodeInfo)
  | removed (node : ClusterNodeInfo)
deriving DecidableEq

inductive Move where
  | start (node : ClusterNodeInfo)
  | deliver (i : Nat)
  | lose (i : Nat)
  | duplicate (i : Nat)
  | timeout (node : ClusterNodeInfo)
  | retry (node : ClusterNodeInfo)
  | askGraph (node : ClusterNodeInfo)
  | failToAsk (node : ClusterNodeInfo)
  | serve (i : Nat)
  | receiveGraph (i : Nat)
  | complete (node : ClusterNodeInfo) (fuel : Nat) (its : Nat → Iter)
      (attempt : ClusterNodeInfo → Nat → Option Nat)
  | nodeFailure (info : ClusterNodeInfo)
  | heartbeatReset

def replies (log : List Effect) : List Event :=
  log.filterMap fun
    | .reply event => event
    | .update _ => none

def removals (log : List Effect) : List Mark :=
  log.filterMap fun
    | .update (.remove node) => some (.removed node)
    | _ => none

namespace World

def phase (w : World) (n : ClusterNodeInfo) : Phase := (w.peers n).phase

def setPeer (w : World) (n : ClusterNodeInfo) (p : Peer) : World :=
  { w with peers := Function.update w.peers n p }

def setPhase (w : World) (n : ClusterNodeInfo) (phase : Phase) : World :=
  w.setPeer n { w.peers n with phase }

def lead (w : World) (program : Act Effect Ctrl) : Act Mark (World × List Event) := do
  let leader ← liftM program.result
  (removals program.log).forM emit
  pure ({ w with leader }, replies program.log)

/-- `send_cluster_joining_request`, up to its wait: a new socket, and the broadcast. -/
def sendClusterJoiningRequest (w : World) (n : ClusterNodeInfo) (ctrl : Ctrl)
    (remainingRetries : Nat) : World :=
  { w.setPeer n { ctrl, remainingRetries, phase := .pending w.nextRequest } with
    datagrams := w.datagrams ++ [⟨⟨n, w.nextRequest⟩, .cjqRequest ctrl.myInfo⟩]
    nextRequest := w.nextRequest + 1 }

/-- The node opens a connection and sends one event. -/
def connect (w : World) (n : ClusterNodeInfo) (event : Event) : World :=
  { w with connections := w.connections ++ [(n, event)] }

/-- A response that comes to a socket. Only the first one on it is heard. -/
def hear (w : World) (b : Binding) (kind : CJQResponseKind) : World :=
  if w.phase b.node = .pending b.request then
    let p := w.peers b.node
    let p := { p with remainingRetries := p.ctrl.config.cjqRetry }
    match kind with
    | .accepted leader clusterId => w.setPeer b.node { p with phase := .accepted leader clusterId }
    | .wait _ => w.setPeer b.node { p with phase := .waiting }
  else w

/-! A move that does not apply is a fault. -/

def inapplicable : Act Mark World := liftM (.error .assertion : Run World)

def start (w : World) (n : ClusterNodeInfo) : Act Mark World :=
  match w.phase n with
  | .off | .joined | .stopped => do
    let c := (w.peers n).ctrl
    emit (.requested n)
    pure (w.sendClusterJoiningRequest n (Ctrl.build c.config c.myInfo c.mySpeed c.isLeader)
      c.config.cjqRetry)
  | _ => inapplicable

def deliver (w : World) (i : Nat) : Act Mark World := do
  let d ← liftM (Run.get w.datagrams i)
  let w := { w with datagrams := w.datagrams.eraseIdx i }
  match d.event with
  | .cjqRequest info => do
    let (w, events) ← w.lead (w.leader.onCJQRequest info)
    pure { w with datagrams := w.datagrams ++ events.map (⟨d.binding, ·⟩) }
  | .cjqResponse kind => pure (w.hear d.binding kind)
  | _ => pure w

def lose (w : World) (i : Nat) : Act Mark World := do
  let _ ← liftM (Run.get w.datagrams i)
  pure { w with datagrams := w.datagrams.eraseIdx i }

def duplicate (w : World) (i : Nat) : Act Mark World := do
  let d ← liftM (Run.get w.datagrams i)
  pure { w with datagrams := w.datagrams ++ [d] }

def timeout (w : World) (n : ClusterNodeInfo) : Act Mark World :=
  match w.phase n with
  | .pending _ => pure (w.setPhase n .waiting)
  | _ => inapplicable

def retry (w : World) (n : ClusterNodeInfo) : Act Mark World :=
  match w.phase n with
  | .waiting =>
    if (w.peers n).remainingRetries > 0 then do
      emit (.requested n)
      pure (w.sendClusterJoiningRequest n (w.peers n).ctrl ((w.peers n).remainingRetries - 1))
    else pure (w.setPhase n .stopped)
  | _ => inapplicable

def askGraph (w : World) (n : ClusterNodeInfo) : Act Mark World :=
  match w.phase n with
  | .accepted _ clusterId => pure ((w.setPhase n (.asked clusterId)).connect n .cGraphGet)
  | _ => inapplicable

def failToAsk (w : World) (n : ClusterNodeInfo) : Act Mark World :=
  match w.phase n with
  | .accepted _ _ => pure ((w.setPhase n .waiting).connect n .cjqAbort)
  | _ => inapplicable

def served (n : ClusterNodeInfo) : Event → List Mark
  | .cGraphGet => [.answered n]
  | .cGraphUpdate _ => [.updated n]
  | _ => []

def serve (it : Iter) (w : World) (i : Nat) : Act Mark World := do
  let (n, event) ← liftM (Run.get w.connections i)
  (served n event).forM emit
  let (w, events) ← w.lead (w.leader.handle it event)
  pure { w with
    connections := w.connections.eraseIdx i
    answers := w.answers ++ events.map (n, ·) }

def receiveGraph (w : World) (i : Nat) : Act Mark World := do
  let (n, event) ← liftM (Run.get w.answers i)
  match event, w.phase n with
  | .cGraphSend cgraph, .asked clusterId =>
    let p := w.peers n
    pure { w.setPeer n { p with ctrl := { p.ctrl with cgraph }, phase := .completing clusterId } with
      answers := w.answers.eraseIdx i }
  | _, _ => inapplicable

def complete (w : World) (n : ClusterNodeInfo) (fuel : Nat) (its : Nat → Iter)
    (attempt : ClusterNodeInfo → Nat → Option Nat) : Act Mark World :=
  match w.phase n with
  | .completing clusterId =>
    let p := w.peers n
    match p.ctrl.completeGraph fuel its attempt with
    | .ok ctrl =>
      pure ((w.setPeer n { p with
        ctrl := { ctrl with clusterId := some clusterId }
        phase := .joined }).connect n (.cGraphUpdate ctrl.cgraph))
    | .error (.err _) => pure ((w.setPhase n .waiting).connect n .cjqAbort)
    | .error e => liftM (.error e : Run World)
  | _ => inapplicable

def nodeFailure (it : Iter) (w : World) (info : ClusterNodeInfo) : Act Mark World := do
  let (w, _) ← w.lead (w.leader.onNodeFailure it info)
  pure w

def heartbeatReset (w : World) : Act Mark World := do
  let (w, _) ← w.lead w.leader.onCHeartbeatReset
  pure w

def step (it : Iter) (w : World) : Move → Act Mark World
  | .start n => w.start n
  | .deliver i => w.deliver i
  | .lose i => w.lose i
  | .duplicate i => w.duplicate i
  | .timeout n => w.timeout n
  | .retry n => w.retry n
  | .askGraph n => w.askGraph n
  | .failToAsk n => w.failToAsk n
  | .serve i => w.serve it i
  | .receiveGraph i => w.receiveGraph i
  | .complete n fuel its attempt => w.complete n fuel its attempt
  | .nodeFailure info => w.nodeFailure it info
  | .heartbeatReset => w.heartbeatReset

def run (it : Iter) (w : World) (ms : List Move) : Act Mark World := ms.foldlM (step it) w

structure Initial (w : World) : Prop where
  leader : ∃ (it : Iter) (config : RunnerConfig) (info : ClusterNodeInfo) (speed : Nat) (newId : Uuid),
    (Ctrl.build config info speed true).createCluster it newId = .ok w.leader
  peers : ∀ n, w.phase n = .off ∧ (w.peers n).ctrl.myInfo = n
  datagrams : w.datagrams = []
  connections : w.connections = []
  answers : w.answers = []

end World

inductive Trace (w₀ : World) : List Mark → World → Prop
  | start : w₀.Initial → Trace w₀ [] w₀
  | step {log : List Mark} {w w' : World} (it : Iter) (m : Move) (h : Trace w₀ log w)
      (hw' : (w.step it m).result = .ok w') : Trace w₀ (log ++ (w.step it m).log) w'

theorem Trace.run {it : Iter} {w₀ w w' : World} {log : List Mark} {ms : List Move}
    (h : Trace w₀ log w) (hw' : (w.run it ms).result = .ok w') :
    Trace w₀ (log ++ (w.run it ms).log) w' := by
  induction ms generalizing w log with
  | nil =>
    cases hw'
    show Trace w₀ (log ++ []) _
    rwa [List.append_nil]
  | cons m ms ih =>
    unfold World.run at hw' ⊢
    rw [List.foldlM_cons] at hw' ⊢
    obtain ⟨w₁, hw₁, hw', hlog⟩ := of_bind_eq_ok hw'
    rw [hlog, ← List.append_assoc]
    exact ih (h.step it m hw₁) hw'

end Cmanager

end Kollaps
