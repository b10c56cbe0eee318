import Kollaps.Emanager.Steps
import Kollaps.Pubapi.Sends

/-!
# The leader and the nodes together

The leader sends emulations and starts to the nodes, and the nodes tell it when they are ready.
Messages wait in flight, and are taken in any order. When the leader faults, what it had sent stays.
-/

namespace Kollaps

open Run Act

namespace Emanager

open Pubapi (OManager Effect Env Input)

/-- What happens: a mark of a node, an emulation that is placed on its nodes, a node that the
leader takes as ready, and the loop that starts an emulation. -/
inductive Event where
  | node (n : ClusterNodeInfo) (mark : Mark)
  | placed (id : Uuid) (nodes : List ClusterNodeInfo)
  | handled (id : Uuid) (node : ClusterNodeInfo)
  | loop (id : Uuid)
deriving DecidableEq

structure World where
  leader : Option OManager
  machines : ClusterNodeInfo → Machine
  toNodes : List (ClusterNodeInfo × EManagerMessage)
  /-- The `EmulationReady` messages. -/
  toLeader : List (Uuid × ClusterNodeInfo)
  log : List Event

inductive WorldMove where
  /-- The leader gets an input, but for `EmulationReady`. -/
  | lead (env : Env) (input : Input)
  | ready (env : Env) (i : Nat)
  | deliver (it : Iter) (i : Nat)
  /-- A node gets a message of a core, or a stop. -/
  | receive (it : Iter) (n : ClusterNodeInfo) (message : EManagerMessage)
  | task (it : Iter) (n : ClusterNodeInfo) (i : Nat) (ok : Bool)
  | abort (it : Iter) (n : ClusterNodeInfo) (i : Nat)

def sends (effects : List Effect) : List (ClusterNodeInfo × EManagerMessage) :=
  effects.filterMap fun e => match e with
    | .send n message => some (n, message)
    | .reply _ => none

def readies (marks : List Mark) : List (Uuid × ClusterNodeInfo) :=
  marks.filterMap fun mark => match mark with
    | .tell _ (.emulationReady id n) => some (id, n)
    | _ => none

def events (m : OManager) (input : Input) (m' : Option OManager) : List Event :=
  match input with
  | .message uuid (.newTopology _) =>
    match m'.bind fun m' => m'.emulationsAndTheirNodes.lookup uuid with
    | some nodes => [.placed uuid nodes.keys]
    | none => []
  | .message _ (.emulationReady id node) => .handled id node :: if m.startsLoop id node
    then [.loop id] else []
  | _ => []

/-- A message that a node may get from anyone. -/
def free : EManagerMessage → Bool
  | .emulCoreInterchange _ _ | .experimentStop _ => true
  | _ => false

namespace World

def build (m : OManager) : World := ⟨some m, Machine.build, [], [], []⟩

def isPlaced (w : World) (id : Uuid) : Bool :=
  w.log.any fun e => match e with
    | .placed id' _ => id' = id
    | _ => false

/-- A topology gets a fresh id. -/
def admits (w : World) : Input → Bool
  | .message uuid (.newTopology _) => !w.isPlaced uuid
  | .message _ (.emulationReady _ _) => false
  | _ => true

def lead (w : World) (env : Env) (input : Input) : Run World :=
  match w.leader with
  | none => .error .assertion
  | some m => pure { w with
      leader := (m.handle env input).result.toOption
      toNodes := w.toNodes ++ sends (m.handle env input).log
      log := w.log ++ events m input (m.handle env input).result.toOption }

def act (w : World) (n : ClusterNodeInfo) (it : Iter) (move : Move) : Run World := do
  let machine ← ((w.machines n).step (it, move)).result
  pure { w with
    machines := Function.update w.machines n machine
    toLeader := w.toLeader ++ readies ((w.machines n).step (it, move)).log
    log := w.log ++ ((w.machines n).step (it, move)).log.map (.node n) }

/-- A move that cannot be made now is an assertion that fails. -/
def step (w : World) : WorldMove → Run World
  | .lead env input => if w.admits input then w.lead env input else .error .assertion
  | .ready env i => do
    let (id, n) ← get w.toLeader i
    ({ w with toLeader := w.toLeader.eraseIdx i } : World).lead env (.message id (.emulationReady id n))
  | .deliver it i => do
    let (n, message) ← get w.toNodes i
    ({ w with toNodes := w.toNodes.eraseIdx i } : World).act n it (.receive message)
  | .receive it n message => if free message then w.act n it (.receive message) else .error .assertion
  | .task it n i ok => w.act n it (.task i ok)
  | .abort it n i => w.act n it (.abort i)

inductive Reached : World → Prop
  | build {it : Iter} {myInfo : ClusterNodeInfo} {omanagerPort emanagerPort maxLoadPerNode : Nat}
      {graph : Cgraph.CGraph ClusterNodeInfo} {m : OManager}
      (h : OManager.build it myInfo omanagerPort emanagerPort graph maxLoadPerNode = .ok m) :
      Reached (build m)
  | step {w w' : World} {move : WorldMove} (h : Reached w) (hs : w.step move = .ok w') : Reached w'

theorem Reached.run {w w' : World} {moves : List WorldMove} (h : Reached w)
    (hs : moves.foldlM World.step w = .ok w') : Reached w' :=
  Run.foldlM_ok_inv Reached h (fun _ _ _ _ h hs => .step h hs) hs

/-! ## What a move does -/

/-- The leader has taken an input of its own, or a node as ready. -/
inductive Led (w : World) (toLeader : List (Uuid × ClusterNodeInfo)) : Input → Prop
  | free {input : Input} (hadmits : w.admits input = true) (hsame : toLeader = w.toLeader) :
    Led w toLeader input
  | ready {id : Uuid} {n : ClusterNodeInfo} (hperm : w.toLeader.Perm ((id, n) :: toLeader)) :
      Led w toLeader (.message id (.emulationReady id n))

/-- A node has taken a message in flight, one from elsewhere, or none. -/
inductive Acted (w : World) (toNodes : List (ClusterNodeInfo × EManagerMessage)) (n : ClusterNodeInfo) :
    Move → Prop
  | deliver {message : EManagerMessage} (hperm : w.toNodes.Perm ((n, message) :: toNodes)) :
      Acted w toNodes n (.receive message)
  | free {message : EManagerMessage} (hfree : free message = true) (hsame : toNodes = w.toNodes) :
      Acted w toNodes n (.receive message)
  | task (i : Nat) (ok : Bool) (hsame : toNodes = w.toNodes) : Acted w toNodes n (.task i ok)
  | abort (i : Nat) (hsame : toNodes = w.toNodes) : Acted w toNodes n (.abort i)

inductive Stepped (w : World) : World → Prop
  | led {m : OManager} {env : Env} {input : Input} {toLeader : List (Uuid × ClusterNodeInfo)}
      (hm : w.leader = some m) (h : Led w toLeader input) : Stepped w { w with
        leader := (m.handle env input).result.toOption
        toNodes := w.toNodes ++ sends (m.handle env input).log
        toLeader
        log := w.log ++ events m input (m.handle env input).result.toOption }
  | acted {n : ClusterNodeInfo} {it : Iter} {move : Move} {toNodes : List (ClusterNodeInfo × EManagerMessage)}
      {machine : Machine} (h : Acted w toNodes n move)
      (hs : ((w.machines n).step (it, move)).result = .ok machine) : Stepped w { w with
        machines := Function.update w.machines n machine
        toNodes
        toLeader := w.toLeader ++ readies ((w.machines n).step (it, move)).log
        log := w.log ++ ((w.machines n).step (it, move)).log.map (.node n) }

theorem perm_of_get {α : Type} {l : List α} {i : Nat} {a : α} (h : get l i = .ok a) :
    l.Perm (a :: l.eraseIdx i) := by
  obtain ⟨hi, rfl⟩ := List.getElem?_eq_some_iff.mp (get_eq_ok.mp h)
  exact (List.getElem_cons_eraseIdx_perm hi).symm

theorem lead_stepped {w w' : World} {env : Env} {input : Input} {toLeader : List (Uuid × ClusterNodeInfo)}
    (hled : Led w toLeader input) (h : ({ w with toLeader } : World).lead env input = .ok w') :
    Stepped w w' := by
  unfold lead at h
  split at h <;> rename_i hm
  · cases h
  · cases h
    exact .led hm hled

theorem act_stepped {w w' : World} {n : ClusterNodeInfo} {it : Iter} {move : Move}
    {toNodes : List (ClusterNodeInfo × EManagerMessage)} (hacted : Acted w toNodes n move)
    (h : ({ w with toNodes } : World).act n it move = .ok w') : Stepped w w' := by
  unfold act at h
  obtain ⟨machine, hs, h⟩ := Run.of_bind_eq_ok h
  cases h
  exact .acted hacted hs

theorem step_stepped {w w' : World} {move : WorldMove} (h : w.step move = .ok w') : Stepped w w' := by
  cases move with
  | lead env input =>
    unfold World.step at h
    simp only at h
    split at h <;> rename_i hadmits
    · exact lead_stepped (.free hadmits rfl) h
    · cases h
  | ready env i =>
    unfold World.step at h
    obtain ⟨⟨id, n⟩, hget, h⟩ := Run.of_bind_eq_ok h
    exact lead_stepped (.ready (perm_of_get hget)) h
  | deliver it i =>
    unfold World.step at h
    obtain ⟨⟨n, message⟩, hget, h⟩ := Run.of_bind_eq_ok h
    exact act_stepped (.deliver (perm_of_get hget)) h
  | receive it n message =>
    unfold World.step at h
    simp only at h
    split at h <;> rename_i hfree
    · exact act_stepped (.free hfree rfl) h
    · cases h
  | task it n i ok => exact act_stepped (.task i ok rfl) h
  | abort it n i => exact act_stepped (.abort i rfl) h

end World

end Emanager

end Kollaps
