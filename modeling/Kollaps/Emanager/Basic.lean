import Kollaps.Emulcore.Basic
import Kollaps.Lib.Trace
import Kollaps.Pubapi.Basic

/-!
# The emulation manager

What the manager of one node does with each message, and what the tasks do that it spawns. A
task stands at one of its waits, and takes a step from there when it runs. A task that panics
is gone, and drops its core.
-/

namespace Kollaps

open Run Act

namespace Emanager

open Emulcore (EmulCore)

/-- The fields that tell emulations apart. A channel to abort is a number. -/
structure EManager where
  myself : ClusterNodeInfo
  emulIdToChannel : UuidSet
  emulIdAbortChan : UuidMap Nat
  emulIdToEmulcore : UuidMap EmulCore
  clusterOmanager : Option ClusterNodeInfo

inductive Task where
  /-- `create_emulation`, before the core is built. -/
  | create (emul : Emulation) (clusterOmanager : ClusterNodeInfo)
  /-- In `init_emulation`, before the core is in `emul_id_to_channel`. -/
  | init (core : EmulCore)
  /-- In `init_emulation`, after that. -/
  | bind (core : EmulCore)
  /-- The core is stored, and the leader is not told yet. -/
  | announce (emulId : Uuid) (leader : ClusterNodeInfo)
  /-- `start_emulation`, before it takes the core. -/
  | start (uuid : Uuid) (leader : ClusterNodeInfo) (abortChannel : Nat)
  | synchronize (core : EmulCore) (leader : ClusterNodeInfo) (abortChannel : Nat)
  | flowLoop (core : EmulCore) (leader : ClusterNodeInfo) (abortChannel : Nat)
  /-- What `drop` spawns for a core. -/
  | drop (emulId : Uuid)

def Task.id : Task → Uuid
  | .create emul _ => emul.uuid
  | .init core | .bind core => core.emulId
  | .announce id _ | .start id _ _ | .drop id => id
  | .synchronize core _ _ | .flowLoop core _ _ => core.emulId

/-- The task holds a core that is in `emul_id_to_channel`. -/
def Task.holds (id : Uuid) : Task → Bool
  | .bind core | .synchronize core _ _ | .flowLoop core _ _ => core.emulId = id
  | _ => false

/-- A node: its manager, the tasks it spawned, and the channels to abort that hold an abort. -/
structure Machine where
  manager : EManager
  tasks : List Task
  channels : Nat
  aborts : List Nat

inductive Move where
  | receive (message : EManagerMessage)
  /-- A task takes its next step, and what it waited for has succeeded or failed. -/
  | task (i : Nat) (ok : Bool)
  /-- A task that runs an emulation takes the abort out of its channel. -/
  | abort (i : Nat)

/-- What happens on a node. -/
inductive Mark where
  | new (id : Uuid)
  | ready (id : Uuid)
  | stop (id : Uuid)
  | delivered (id : Uuid)
  | discarded (id : Uuid)
  | registered (id : Uuid)
  | stored (id : Uuid)
  | failed (id : Uuid)
  | started (id : Uuid)
  | entered (id : Uuid)
  | released (id : Uuid)
  | tell (leader : ClusterNodeInfo) (message : OManagerMessage)
deriving DecidableEq

namespace Machine

def build (myself : ClusterNodeInfo) : Machine :=
  { manager := ⟨myself, KeySet.empty, KeySet.empty, KeySet.empty, none⟩
    tasks := []
    channels := 0
    aborts := [] }

def spawn (m : Machine) (task : Task) : Machine := { m with tasks := m.tasks ++ [task] }

/-- Someone holds the receiver of a core's channel. -/
def alive (m : Machine) (id : Uuid) : Bool :=
  m.tasks.any (Task.holds id) || m.manager.emulIdToEmulcore.contains id

def createEmulation (m : Machine) (emul : Emulation) (clusterOmanager : ClusterNodeInfo) : Machine :=
  m.spawn (.create emul clusterOmanager)

def startEmulation (m : Machine) (uuid : Uuid) (clusterLeader : ClusterNodeInfo) (abortChannel : Nat) :
    Machine :=
  m.spawn (.start uuid clusterLeader abortChannel)

/-! ## Messages -/

def onExperimentNew (m : Machine) (leader : ClusterNodeInfo) (emul : Emulation) : Act Mark Machine := do
  let leader := m.manager.clusterOmanager.getD leader
  emit (.new emul.uuid)
  pure (({ m with manager := { m.manager with clusterOmanager := some leader } } : Machine).createEmulation
    emul leader)

/-- The receiver of a channel may be gone before its sender is. -/
def onEmulCoreInterchange (m : Machine) (id : Uuid) : Act Mark Machine :=
  if m.manager.emulIdToChannel.contains id then
    if m.alive id then do
      emit (.delivered id)
      pure m
    else liftM (.error .unwrap : Run Machine)
  else do
    emit (.discarded id)
    pure m

def onExperimentStop (m : Machine) (id : Uuid) : Act Mark Machine := do
  let aborts := match m.manager.emulIdAbortChan.get? id with
    | some (_, abort) => m.aborts ++ [abort]
    | none => m.aborts
  emit (.stop id)
  pure { m with
    manager := { m.manager with emulIdAbortChan := m.manager.emulIdAbortChan.remove id }
    aborts }

def onExperimentReady (m : Machine) (id : Uuid) : Act Mark Machine := do
  let leader ← liftM (unwrap m.manager.clusterOmanager)
  emit (.ready id)
  pure (({ m with
    manager := { m.manager with emulIdAbortChan := m.manager.emulIdAbortChan.put id m.channels }
    channels := m.channels + 1 } : Machine).startEmulation id leader m.channels)

/-- One round of `start`. -/
def receive (m : Machine) : EManagerMessage → Act Mark Machine
  | .experimentNew leader emul => m.onExperimentNew leader emul
  | .emulCoreInterchange id _ => m.onEmulCoreInterchange id
  | .experimentStop id => m.onExperimentStop id
  | .experimentReady id => m.onExperimentReady id

/-! ## Tasks -/

/-- An error in `init_emulation`: the core is dropped, and the leader is told. -/
def failInit (m : Machine) (core : EmulCore) : Act Mark Machine := do
  emit (.failed core.emulId)
  emit (.tell core.clusterLeader (.abort core.emulId))
  pure (m.spawn (.drop core.emulId))

def failRun (m : Machine) (core : EmulCore) (leader : ClusterNodeInfo) : Act Mark Machine := do
  emit (.tell leader (.abort core.emulId))
  pure (m.spawn (.drop core.emulId))

/-- A core that is stored already under the same id is dropped. -/
def store (m : Machine) (core : EmulCore) : Machine :=
  let m' := { m with manager := { m.manager with
    emulIdToEmulcore := m.manager.emulIdToEmulcore.put core.emulId core } }
  if m.manager.emulIdToEmulcore.contains core.emulId then m'.spawn (.drop core.emulId) else m'

/-- One step of a task, which has been taken out of the tasks. -/
def runTask (it : Iter) (m : Machine) (ok : Bool) : Task → Act Mark Machine
  | .create emul clusterOmanager =>
    match Emulcore.new it emul.uuid emul.graph m.manager.myself clusterOmanager with
    | .ok core => pure (m.spawn (.init core))
    | .error _ => do
      emit (.failed emul.uuid)
      pure m
  | .init core =>
    if ok then
      match (Emulcore.initEmulation it core).result with
      | .ok _ => do
        emit (.registered core.emulId)
        pure (({ m with manager := { m.manager with
          emulIdToChannel := m.manager.emulIdToChannel.insert core.emulId } } : Machine).spawn (.bind core))
      | .error _ => do
        emit (.failed core.emulId)
        pure (m.spawn (.drop core.emulId))
    else m.failInit core
  | .bind core =>
    if ok then do
      emit (.stored core.emulId)
      pure ((m.store core).spawn (.announce core.emulId core.clusterLeader))
    else m.failInit core
  | .announce id leader => do
    emit (.tell leader (if ok then .emulationReady id m.manager.myself else .abort id))
    pure m
  | .start id leader abortChannel => do
    emit (.started id)
    match m.manager.emulIdToEmulcore.get? id with
    | none => pure m
    | some (_, core) => do
      emit (.entered id)
      pure (({ m with manager := { m.manager with
        emulIdToEmulcore := m.manager.emulIdToEmulcore.remove id } } : Machine).spawn
          (.synchronize core leader abortChannel))
  | .synchronize core leader abortChannel =>
    if ok then pure (m.spawn (.flowLoop core leader abortChannel))
    else m.failRun core leader
  | .flowLoop core leader _ =>
    if ok then
      pure (({ m with manager := { m.manager with
        emulIdToChannel := m.manager.emulIdToChannel.remove core.emulId } } : Machine).spawn
          (.drop core.emulId))
    else m.failRun core leader
  | .drop id => do
    emit (.released id)
    pure { m with manager := { m.manager with
      emulIdToChannel := m.manager.emulIdToChannel.remove id } }

def takeTask (m : Machine) (i : Nat) : Run (Task × Machine) := do
  let t ← Run.get m.tasks i
  pure (t, { m with tasks := m.tasks.eraseIdx i })

/-- The other branch of the `select` of a task that runs an emulation. -/
def takeAbort (m : Machine) : Task → Act Mark Machine
  | .synchronize core _ abortChannel | .flowLoop core _ abortChannel =>
    if abortChannel ∈ m.aborts then pure (m.spawn (.drop core.emulId))
    else liftM (.error .assertion : Run Machine)
  | _ => liftM (.error .assertion : Run Machine)

/-- A move that cannot be made now is an assertion that fails. -/
def step (m : Machine) : Iter × Move → Act Mark Machine
  | (_, .receive message) => m.receive message
  | (it, .task i ok) => do
    let (t, m) ← liftM (m.takeTask i)
    m.runTask it ok t
  | (_, .abort i) => do
    let (t, m) ← liftM (m.takeTask i)
    m.takeAbort t

end Machine

end Emanager

end Kollaps
