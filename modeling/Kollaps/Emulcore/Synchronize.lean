import Kollaps.Emulcore.Basic
import Mathlib.Data.List.Sort

/-!
# Synchronization

`synchronize` of one core. The hosts form a ring in the order of their addresses. The first one
proposes a time to begin, each one passes it on, and a confirmation follows it round. The replies
to the sending connections are empty and left out. A time is a number of nanoseconds.
-/

namespace Kollaps

open Run

/-! ## The order of addresses -/

/-- The place of an address in its order: IPv4 comes before IPv6. -/
def IpAddr.rank : IpAddr → Nat
  | .v4 addr => addr.toNat
  | .v6 addr => 4294967296 + addr.toNat

theorem IpAddr.rank_inj {a b : IpAddr} (h : a.rank = b.rank) : a = b := by
  cases a with
  | v4 a =>
    cases b with
    | v4 b => exact congrArg IpAddr.v4 (BitVec.eq_of_toNat_eq h)
    | v6 b =>
      have := a.isLt
      simp only [rank] at h
      omega
  | v6 a =>
    cases b with
    | v4 b =>
      have := b.isLt
      simp only [rank] at h
      omega
    | v6 b =>
      simp only [rank, Nat.add_left_cancel_iff] at h
      exact congrArg IpAddr.v6 (BitVec.eq_of_toNat_eq h)

/-- The `Ord` of addresses. -/
def IpAddr.Le (a b : IpAddr) : Prop := a.rank ≤ b.rank

instance : DecidableRel IpAddr.Le := fun a b => Nat.decLe a.rank b.rank

instance : Std.Total IpAddr.Le := ⟨fun a b => Nat.le_total a.rank b.rank⟩

instance : IsTrans IpAddr IpAddr.Le := ⟨fun _ _ _ => Nat.le_trans⟩

/-- `all.sort()`. -/
def sortIps (ips : List IpAddr) : List IpAddr := ips.insertionSort IpAddr.Le

theorem sortIps_perm (ips : List IpAddr) : (sortIps ips).Perm ips := List.perm_insertionSort _ ips

theorem sortIps_congr {ips ips' : List IpAddr} (h : ips.Perm ips') : sortIps ips = sortIps ips' := by
  refine (((sortIps_perm ips).trans h).trans (sortIps_perm ips').symm).eq_of_pairwise ?_
    (List.pairwise_insertionSort _ ips) (List.pairwise_insertionSort _ ips')
  intro a b _ _ hab hba
  exact IpAddr.rank_inj (Nat.le_antisymm hab hba)

namespace Emulcore

/-! ## The ring -/

def syncPort : Nat := 9090

def EmulCore.all (it : Iter) (core : EmulCore) : List IpAddr :=
  sortIps ((it.order core.otherHosts.elems).map ClusterNodeInfo.ipAddr ++ [core.myself.ipAddr])

def EmulCore.myPosition (it : Iter) (core : EmulCore) : Nat := (core.all it).idxOf core.myself.ipAddr

def EmulCore.iamLeader (it : Iter) (core : EmulCore) : Bool := core.myPosition it = 0

def EmulCore.nextHost (it : Iter) (core : EmulCore) : Run ClusterNodeInfo := do
  let ipAddr ← get (core.all it) ((core.myPosition it + 1) % (core.all it).length)
  pure { ipAddr, port := syncPort }

/-! ## The messages and the loops -/

structure EmulBeginTime where
  time : Nat
deriving DecidableEq, Repr

inductive ECSynchroMessage where
  | emulStart (begin_ : EmulBeginTime)
  | emulStartOk
deriving DecidableEq, Repr

def fromSecs (secs : Nat) : Nat := secs * 1000000000

/-- Where a core is in `synchronize`. Each state from `measuring` on to `checking` ends with a
reading of the clock. -/
inductive SyncState where
  | idle
  /-- At `receiver.recv()`. -/
  | waiting
  /-- Before `next_conn.send(message)`. -/
  | sending (message : ECSynchroMessage)
  /-- The leader has its proposal back, before `time.elapsed()`. -/
  | measuring (begin_ : EmulBeginTime)
  /-- Before the `Instant::now()` of `next_round_time`. -/
  | comparing (begin_ : EmulBeginTime) (roundDuration : Nat)
  /-- Too late for another round, before `time = Instant::now()`. -/
  | adapting (begin_ : EmulBeginTime) (roundDuration : Nat)
  /-- The confirmation is here, before `begin_time > Instant::now()`. -/
  | checking
  /-- In `sleep_until(begin_time)`. -/
  | sleeping
  /-- `Ok(())`. -/
  | done
  /-- `Err`, or stopped from outside. -/
  | failed
deriving DecidableEq, Repr

/-- The variables of the loops. `checkedAt` is no variable: it keeps the time at which the
confirmation was found in time. -/
structure Sync where
  state : SyncState
  time : Nat
  beginTime : Nat
  checkedAt : Option Nat
deriving DecidableEq, Repr

namespace Sync

def build : Sync := ⟨.idle, 0, 0, none⟩

/-- Up to the loop. A core that is alone has nothing to do. -/
def enter (hosts : Nat) (leader : Bool) (now : Nat) (s : Sync) : Sync :=
  if hosts = 1 then { s with state := .done }
  else if leader then
    { s with
      state := .sending (.emulStart ⟨now + fromSecs 5⟩)
      time := now
      beginTime := now + fromSecs 5 }
  else { s with state := .waiting, beginTime := now }

/-- What a message does up to the next send or the next reading of the clock. -/
def receive (leader : Bool) (message : ECSynchroMessage) (s : Sync) : Sync :=
  match message with
  | .emulStart begin_ =>
    if leader then { s with state := .measuring begin_ }
    else { s with state := .sending (.emulStart begin_), beginTime := begin_.time }
  | .emulStartOk => { s with state := .checking }

/-- One reading of the clock, and what follows up to the next one, the next send or the sleep. -/
def read (leader : Bool) (now : Nat) (s : Sync) : Option Sync :=
  match s.state with
  | .measuring begin_ => some { s with state := .comparing begin_ (now - s.time) }
  | .comparing begin_ roundDuration =>
    let nextRoundTime := now + (roundDuration + fromSecs 1)
    if begin_.time > nextRoundTime then some { s with state := .sending .emulStartOk }
    else some { s with state := .adapting begin_ roundDuration }
  | .adapting _ roundDuration =>
    let beginTime := now + (roundDuration * 2 + fromSecs 2)
    some { s with
      state := .sending (.emulStart ⟨beginTime⟩)
      time := now
      beginTime }
  | .checking =>
    if s.beginTime > now then
      some { s with
        state := if leader then .sleeping else .sending .emulStartOk
        checkedAt := some now }
    else some { s with state := .failed }
  | _ => none

def sent (leader : Bool) (message : ECSynchroMessage) (s : Sync) : Sync :=
  match message with
  | .emulStart _ => { s with state := .waiting }
  | .emulStartOk => { s with state := if leader then .waiting else .sleeping }

end Sync

/-- The message that a core has received and not yet passed on, or dealt with. -/
def SyncState.carried : SyncState → Option ECSynchroMessage
  | .sending message => some message
  | .measuring begin_ | .comparing begin_ _ | .adapting begin_ _ => some (.emulStart begin_)
  | .checking => some .emulStartOk
  | _ => none

end Emulcore

end Kollaps
