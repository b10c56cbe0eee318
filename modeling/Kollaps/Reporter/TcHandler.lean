import Kollaps.Common.Wire
import Kollaps.Emulcore.Opening
import Kollaps.Lib.Trace

/-!
# The commands for traffic control

An emulation sends commands to the reporter of an app, which asks a library for what they say. The
library is not part of the source: it is known by the calls that it gets. A panic ends the task
that reads one connection, and poisons the mutex of the manager if it is held.
-/

namespace Kollaps

open Run Act

namespace Reporter

open Emulcore (TcCall)

inductive TcalCall where
  | init (udpPort queueLength : Nat) (ip : BitVec 32)
  | path (call : TcCall)
  | disconnect
  | reconnect
  | tearDown

/-- `signalled` and `cleanerGone` are the channel to the `Cleaner`, which ends after one signal. -/
structure TCHandler where
  initializedPath : List (BitVec 32)
  poisoned : Bool
  signalled : Bool
  cleanerGone : Bool

namespace TCHandler

def new : TCHandler :=
  { initializedPath := []
    poisoned := false
    signalled := false
    cleanerGone := false }

/-- `self.manager.lock().ok()?`, and what is done with the manager. -/
def withManager (h : TCHandler) (act : Act TcalCall TCHandler) : Act TcalCall TCHandler :=
  if h.poisoned then pure h else act

def updatePath (h : TCHandler) (conf : TCConf) : Act TcalCall TCHandler :=
  let update := Emulcore.tcUpdate h.initializedPath conf
  ⟨update.log.map .path, (fun initializedPath => { h with initializedPath }) <$> update.result⟩

def handle (h : TCHandler) : EmulMessage → Act TcalCall TCHandler
  | .tcInit conf => h.withManager do
    emit (.init 7073 1000 (← conf.dest.asV4))
    pure h
  | .tcUpdate conf => h.withManager (h.updatePath conf)
  | .tcDisconnect => h.withManager do
    emit .disconnect
    pure h
  | .tcReconnect => h.withManager do
    emit .reconnect
    pure h
  | .tcTeardown =>
    if h.cleanerGone then liftM (.error .unwrap : Run TCHandler)
    else
      let h := { h with signalled := true }
      h.withManager do
        emit .tearDown
        pure h
  | _ => pure h

/-- What a panic leaves. Only these two commands unwrap while they hold the manager. -/
def panicked (h : TCHandler) : EmulMessage → TCHandler
  | .tcInit _ | .tcUpdate _ => { h with poisoned := true }
  | _ => h

end TCHandler

/-! ## What the calls come to -/

structure TcPath where
  bandwidth : Nat
  latency : F32
  jitter : F32
  drop : F32
deriving DecidableEq

/-- The path that an update gives, if it says everything. -/
def TcPath.given (conf : TCConf) : Option TcPath := do
  let bandwidth ← conf.bandwidthKbitps
  let (latency, jitter) ← conf.latencyAndJitter
  let drop ← conf.drop
  some { bandwidth, latency, jitter, drop }

theorem given_isSome {conf : TCConf} : (TcPath.given conf).isSome = true ↔ Emulcore.Complete conf := by
  unfold TcPath.given Emulcore.Complete
  cases conf.bandwidthKbitps <;> cases conf.latencyAndJitter <;> cases conf.drop <;> simp

/-- The path after an update: what the update does not say stays. -/
def TcPath.adjust (p : TcPath) (conf : TCConf) : TcPath :=
  { bandwidth := conf.bandwidthKbitps.getD p.bandwidth
    latency := (conf.latencyAndJitter.map Prod.fst).getD p.latency
    jitter := (conf.latencyAndJitter.map Prod.snd).getD p.jitter
    drop := conf.drop.getD p.drop }

def TcPath.update (old : Option TcPath) (conf : TCConf) : Option TcPath :=
  match old with
  | some p => some (p.adjust conf)
  | none => TcPath.given conf

structure Shaping where
  paths : BitVec 32 → Option TcPath
  connected : Bool
  tornDown : Bool

namespace Shaping

def start : Shaping :=
  { paths := fun _ => none
    connected := true
    tornDown := false }

def set (sh : Shaping) (dest : BitVec 32) (p : Option TcPath) : Shaping :=
  { sh with paths := Function.update sh.paths dest p }

@[simp] theorem set_paths (sh : Shaping) (dest : BitVec 32) (p : Option TcPath) :
    (sh.set dest p).paths = Function.update sh.paths dest p := rfl

@[simp] theorem set_set (sh : Shaping) (dest : BitVec 32) (p q : Option TcPath) :
    (sh.set dest p).set dest q = sh.set dest q := by
  simp [set]

theorem set_self {sh : Shaping} {dest : BitVec 32} {p : Option TcPath} (h : sh.paths dest = p) :
    sh.set dest p = sh := by
  rw [set, ← h, Function.update_eq_self]

/-- A call on a path needs it to be there, and only one that is not can be initialised. -/
def call (sh : Shaping) : TcalCall → Option Shaping
  | .init _ _ _ => some sh
  | .path (.initializePath dest bandwidth latency jitter drop) =>
    if (sh.paths dest).isSome then none
    else some (sh.set dest (some { bandwidth, latency, jitter, drop }))
  | .path (.changeBandwidth dest bandwidth) =>
    (sh.paths dest).map fun p => sh.set dest (some { p with bandwidth })
  | .path (.changeLatency dest latency jitter) =>
    (sh.paths dest).map fun p => sh.set dest (some { p with latency, jitter })
  | .path (.changeLoss dest drop) => (sh.paths dest).map fun p => sh.set dest (some { p with drop })
  | .disconnect => some { sh with connected := false }
  | .reconnect => some { sh with connected := true }
  | .tearDown => some { sh with tornDown := true }

/-- The state that the calls lead to, if each can be made where it is made. -/
def replay (calls : List TcalCall) : Option Shaping := calls.foldlM call start

/-- What a command asks for. -/
def tell (sh : Shaping) : EmulMessage → Shaping
  | .tcUpdate conf =>
    match conf.dest with
    | .v4 dest => sh.set dest (TcPath.update (sh.paths dest) conf)
    | .v6 _ => sh
  | .tcDisconnect => { sh with connected := false }
  | .tcReconnect => { sh with connected := true }
  | .tcTeardown => { sh with tornDown := true }
  | _ => sh

theorem tell_v4 (sh : Shaping) {conf : TCConf} {dest : BitVec 32} (h : conf.dest = .v4 dest) :
    sh.tell (.tcUpdate conf) = sh.set dest (TcPath.update (sh.paths dest) conf) := by
  simp only [tell, h]

theorem tell_other {sh : Shaping} {m : EmulMessage} {dest : BitVec 32}
    (h : ∀ conf, m = .tcUpdate conf → conf.dest ≠ .v4 dest) : (sh.tell m).paths dest = sh.paths dest := by
  cases m with
  | tcUpdate conf =>
    cases hdest : conf.dest with
    | v4 d =>
      have hne : dest ≠ d := by
        rintro rfl
        exact h conf rfl hdest
      rw [tell_v4 sh hdest, set_paths, Function.update_of_ne hne]
    | v6 addr => simp only [tell, hdest]
  | _ => rfl

theorem tells_other {ms : List EmulMessage} {sh : Shaping} {dest : BitVec 32}
    (h : ∀ conf, .tcUpdate conf ∈ ms → conf.dest ≠ .v4 dest) :
    (ms.foldl tell sh).paths dest = sh.paths dest := by
  induction ms generalizing sh with
  | nil => rfl
  | cons m ms ih =>
    rw [List.foldl_cons, ih fun conf hin => h conf (List.mem_cons_of_mem _ hin)]
    refine tell_other ?_
    rintro conf rfl
    exact h conf List.mem_cons_self

theorem tells_bandwidth {ms : List EmulMessage} {sh : Shaping} {dest : BitVec 32} {bandwidth : Nat}
    (hall : ∀ conf, .tcUpdate conf ∈ ms → conf.dest = .v4 dest → conf.bandwidthKbitps = some bandwidth ∧
      (Emulcore.Complete conf ∨ (sh.paths dest).isSome = true))
    (hin : (∃ conf, .tcUpdate conf ∈ ms ∧ conf.dest = .v4 dest) ∨
      ∃ p, sh.paths dest = some p ∧ p.bandwidth = bandwidth) :
    ∃ p, (ms.foldl tell sh).paths dest = some p ∧ p.bandwidth = bandwidth := by
  induction ms generalizing sh with
  | nil =>
    rcases hin with ⟨conf, hin, -⟩ | hin
    · cases hin
    · exact hin
  | cons m ms ih =>
    rw [List.foldl_cons]
    by_cases hm : ∃ conf, m = .tcUpdate conf ∧ conf.dest = .v4 dest
    · obtain ⟨conf, rfl, hdest⟩ := hm
      obtain ⟨hbw, hready⟩ := hall conf List.mem_cons_self hdest
      have hnow : ∃ p, (sh.tell (.tcUpdate conf)).paths dest = some p ∧ p.bandwidth = bandwidth := by
        rw [tell_v4 sh hdest, set_paths, Function.update_self]
        cases hpath : sh.paths dest with
        | some p => exact ⟨_, rfl, by rw [TcPath.adjust, hbw]; rfl⟩
        | none =>
          rw [hpath] at hready
          obtain ⟨-, hlat, hdrop⟩ := hready.resolve_right (by simp)
          obtain ⟨lat, hlat⟩ := Option.isSome_iff_exists.mp hlat
          obtain ⟨drop, hdrop⟩ := Option.isSome_iff_exists.mp hdrop
          refine ⟨⟨bandwidth, lat.1, lat.2, drop⟩, ?_, rfl⟩
          simp only [TcPath.update, TcPath.given, hbw, hlat, hdrop]
          rfl
      obtain ⟨p, hp, -⟩ := id hnow
      refine ih (fun conf' hin' hdest' => ?_) (Or.inr hnow)
      exact ⟨(hall conf' (List.mem_cons_of_mem _ hin') hdest').1, Or.inr (by rw [hp]; rfl)⟩
    · have hsame : (sh.tell m).paths dest = sh.paths dest :=
        tell_other fun conf hconf hdest => hm ⟨conf, hconf, hdest⟩
      refine ih (fun conf' hin' hdest' => ?_) ?_
      · rw [hsame]
        exact hall conf' (List.mem_cons_of_mem _ hin') hdest'
      · rw [hsame]
        refine hin.imp ?_ id
        rintro ⟨conf, hin', hdest⟩
        rcases List.mem_cons.mp hin' with rfl | hin'
        · exact absurd ⟨conf, rfl, hdest⟩ hm
        · exact ⟨conf, hin', hdest⟩

theorem tell_isSome {sh : Shaping} {dest : BitVec 32} (h : (sh.paths dest).isSome = true)
    (m : EmulMessage) : ((sh.tell m).paths dest).isSome = true := by
  by_cases hm : ∃ conf, m = .tcUpdate conf ∧ conf.dest = .v4 dest
  · obtain ⟨conf, rfl, hdest⟩ := hm
    obtain ⟨p, hp⟩ := Option.isSome_iff_exists.mp h
    rw [tell_v4 sh hdest, set_paths, Function.update_self, hp]
    rfl
  · rw [tell_other fun conf hconf hdest => hm ⟨conf, hconf, hdest⟩]
    exact h

theorem tells_keep {sh : Shaping} {dest : BitVec 32} (h : (sh.paths dest).isSome = true)
    (ms : List EmulMessage) : ((ms.foldl tell sh).paths dest).isSome = true := by
  induction ms generalizing sh with
  | nil => exact h
  | cons m ms ih => exact ih (tell_isSome h m)

theorem tells_isSome {ms : List EmulMessage} {sh : Shaping} {conf : TCConf} {dest : BitVec 32}
    (hin : .tcUpdate conf ∈ ms) (hdest : conf.dest = .v4 dest) (hcomplete : Emulcore.Complete conf) :
    ((ms.foldl tell sh).paths dest).isSome = true := by
  obtain ⟨before, after, rfl⟩ := List.append_of_mem hin
  rw [List.foldl_append, List.foldl_cons]
  apply tells_keep
  rw [tell_v4 _ hdest, set_paths, Function.update_self]
  cases (before.foldl tell sh).paths dest with
  | some p => rfl
  | none => exact given_isSome.mpr hcomplete

theorem tells_connected {ms : List EmulMessage} {sh : Shaping}
    (h : ∀ m ∈ ms, m ≠ .tcDisconnect ∧ m ≠ .tcReconnect) :
    (ms.foldl tell sh).connected = sh.connected := by
  induction ms generalizing sh with
  | nil => rfl
  | cons m ms ih =>
    rw [List.foldl_cons, ih fun m' hin => h m' (List.mem_cons_of_mem _ hin)]
    cases m with
    | tcUpdate conf =>
      simp only [tell]
      split <;> rfl
    | tcDisconnect => exact absurd rfl (h _ List.mem_cons_self).1
    | tcReconnect => exact absurd rfl (h _ List.mem_cons_self).2
    | _ => rfl

theorem replay_append {log calls : List TcalCall} {sh : Shaping} (h : replay log = some sh) :
    replay (log ++ calls) = calls.foldlM call sh := by
  unfold replay at h ⊢
  rw [List.foldlM_append, h]
  rfl

end Shaping

/-! ## One command -/

section Update

variable {initialized : List (BitVec 32)} {conf : TCConf} {dest : BitVec 32}

def changes (dest : BitVec 32) (conf : TCConf) : List TcCall :=
  (conf.bandwidthKbitps.map (TcCall.changeBandwidth dest)).toList ++
    ((conf.latencyAndJitter.map fun l => TcCall.changeLatency dest l.1 l.2).toList ++
      (conf.drop.map (TcCall.changeLoss dest)).toList)

theorem tcUpdate_v6 {addr : BitVec 128} (h : conf.dest = .v6 addr) :
    Emulcore.tcUpdate initialized conf = ⟨[], .error .unwrap⟩ := by
  unfold Emulcore.tcUpdate
  rw [h]
  rfl

theorem tcUpdate_known (h : conf.dest = .v4 dest) (hin : dest ∈ initialized) :
    Emulcore.tcUpdate initialized conf = ⟨changes dest conf, .ok initialized⟩ := by
  unfold Emulcore.tcUpdate changes
  rw [h, bind_of_ok (m := liftM _) rfl, if_pos hin]
  generalize conf.bandwidthKbitps = bw, conf.latencyAndJitter = lat, conf.drop = drop
  cases bw <;> cases lat <;> cases drop <;> rfl

theorem tcUpdate_new {p : TcPath} (h : conf.dest = .v4 dest) (hin : dest ∉ initialized)
    (hp : TcPath.given conf = some p) :
    Emulcore.tcUpdate initialized conf =
      ⟨[.initializePath dest p.bandwidth p.latency p.jitter p.drop], .ok (dest :: initialized)⟩ := by
  obtain ⟨_, bw, lat, drop⟩ := conf
  unfold Emulcore.tcUpdate
  rw [h, bind_of_ok (m := liftM _) rfl, if_neg hin]
  cases bw with
  | none => cases hp
  | some bw =>
    cases lat with
    | none => cases hp
    | some lat =>
      cases drop with
      | none => cases hp
      | some drop =>
        cases hp
        rfl

theorem tcUpdate_lacking (h : conf.dest = .v4 dest) (hin : dest ∉ initialized)
    (hp : TcPath.given conf = none) : Emulcore.tcUpdate initialized conf = ⟨[], .error .unwrap⟩ := by
  obtain ⟨_, bw, lat, drop⟩ := conf
  unfold Emulcore.tcUpdate
  rw [h, bind_of_ok (m := liftM _) rfl, if_neg hin]
  cases bw with
  | none => rfl
  | some bw =>
    cases lat with
    | none => rfl
    | some lat =>
      cases drop with
      | none => rfl
      | some drop => cases hp

theorem call_changes {sh : Shaping} {p : TcPath} (h : sh.paths dest = some p) :
    ((changes dest conf).map TcalCall.path).foldlM Shaping.call sh =
      some (sh.set dest (some (p.adjust conf))) := by
  unfold changes TcPath.adjust
  generalize conf.bandwidthKbitps = bw, conf.latencyAndJitter = lat, conf.drop = drop
  cases bw <;> cases lat <;> cases drop <;>
    simp [Shaping.call, h, Shaping.set_self]

end Update

/-- The paths that the handler knows are those that its calls initialised. -/
def Knows (h : TCHandler) (sh : Shaping) : Prop :=
  ∀ dest, dest ∈ h.initializedPath ↔ (sh.paths dest).isSome = true

/-- The commands that the handler can carry out. -/
def TCHandler.Takes (h : TCHandler) : EmulMessage → Prop
  | .tcInit conf => ∃ ip, conf.dest = .v4 ip
  | .tcUpdate conf => ∃ dest, conf.dest = .v4 dest ∧ (Emulcore.Complete conf ∨ dest ∈ h.initializedPath)
  | .tcTeardown => h.cleanerGone = false
  | _ => True

/-- A command that is carried out: its calls lead where the command says. -/
structure Obeyed (h : TCHandler) (sh : Shaping) (m : EmulMessage) (log : List TcalCall) (h' : TCHandler) :
    Prop where
  calls : log.foldlM Shaping.call sh = some (sh.tell m)
  knows : Knows h' (sh.tell m)
  poisoned : h'.poisoned = false
  initialized : ∀ dest, dest ∈ h'.initializedPath ↔ dest ∈ h.initializedPath ∨
    ∃ conf, m = .tcUpdate conf ∧ conf.dest = .v4 dest
  cleanerGone : h'.cleanerGone = h.cleanerGone
  signalled : h'.signalled = true ↔ h.signalled = true ∨ m = .tcTeardown

theorem withManager_free {h : TCHandler} (hp : h.poisoned = false) (act : Act TcalCall TCHandler) :
    h.withManager act = act := by
  unfold TCHandler.withManager
  rw [hp]
  rfl

theorem knows_set {h : TCHandler} {sh : Shaping} (hk : Knows h sh) {dest : BitVec 32} {p : TcPath}
    (hin : dest ∈ h.initializedPath) : Knows h (sh.set dest (some p)) := by
  intro d
  rw [Shaping.set_paths, Function.update_apply]
  split
  · next heq => exact iff_of_true (heq ▸ hin) rfl
  · exact hk d

theorem knows_cons {h : TCHandler} {sh : Shaping} (hk : Knows h sh) (dest : BitVec 32) (p : TcPath) :
    Knows { h with initializedPath := dest :: h.initializedPath } (sh.set dest (some p)) := by
  intro d
  rw [Shaping.set_paths, Function.update_apply, List.mem_cons]
  split
  · next heq => exact iff_of_true (Or.inl heq) rfl
  · next hne => exact (or_iff_right hne).trans (hk d)

theorem updatePath_spec {h : TCHandler} {sh : Shaping} (hk : Knows h sh) (hp : h.poisoned = false)
    (conf : TCConf) :
    (h.Takes (.tcUpdate conf) ∧ ∃ log h', h.updatePath conf = ⟨log, .ok h'⟩ ∧
      Obeyed h sh (.tcUpdate conf) log h') ∨
    (¬ h.Takes (.tcUpdate conf) ∧ ∃ e, h.updatePath conf = ⟨[], .error e⟩) := by
  simp only [TCHandler.updatePath, TCHandler.Takes]
  cases hdest : conf.dest with
  | v6 addr =>
    refine Or.inr ⟨by simp, .unwrap, ?_⟩
    rw [tcUpdate_v6 hdest]
    rfl
  | v4 dest =>
    have htell : sh.tell (.tcUpdate conf) = sh.set dest (TcPath.update (sh.paths dest) conf) := by
      simp only [Shaping.tell, hdest]
    by_cases hin : dest ∈ h.initializedPath
    · obtain ⟨p, hpath⟩ := Option.isSome_iff_exists.mp ((hk dest).mp hin)
      rw [tcUpdate_known hdest hin]
      refine Or.inl ⟨⟨dest, rfl, Or.inr hin⟩, _, _, rfl, ?_⟩
      rw [hpath] at htell
      refine ⟨?_, ?_, hp, fun d => ?_, rfl, by simp⟩
      · rw [call_changes hpath, htell]
        rfl
      · rw [htell]
        exact knows_set hk hin
      · refine ⟨Or.inl, ?_⟩
        rintro (hd | ⟨_, ⟨⟩, hd⟩)
        · exact hd
        · cases hdest.symm.trans hd
          exact hin
    · have hnone : sh.paths dest = none := by
        rw [← Option.not_isSome_iff_eq_none]
        exact mt (hk dest).mpr hin
      rw [hnone] at htell
      cases hgiven : TcPath.given conf with
      | none =>
        rw [tcUpdate_lacking hdest hin hgiven]
        refine Or.inr ⟨?_, .unwrap, rfl⟩
        rintro ⟨_, ⟨⟩, hcomplete | hin'⟩
        · rw [← given_isSome, hgiven] at hcomplete
          cases hcomplete
        · exact hin hin'
      | some p =>
        have hcomplete : Emulcore.Complete conf := given_isSome.mp (by rw [hgiven]; rfl)
        rw [tcUpdate_new hdest hin hgiven]
        refine Or.inl ⟨⟨dest, rfl, Or.inl hcomplete⟩, _, _, rfl, ?_⟩
        have hupdate : TcPath.update none conf = some p := hgiven
        rw [hupdate] at htell
        refine ⟨?_, ?_, hp, fun d => ?_, rfl, by simp⟩
        · simp [Shaping.call, hnone, htell]
        · rw [htell]
          exact knows_cons hk dest p
        · rw [List.mem_cons, or_comm]
          refine or_congr_right ⟨?_, ?_⟩
          · rintro rfl
            exact ⟨conf, rfl, hdest⟩
          · rintro ⟨_, ⟨⟩, hd⟩
            cases hdest.symm.trans hd
            rfl

theorem handle_spec {h : TCHandler} {sh : Shaping} (hk : Knows h sh) (hp : h.poisoned = false)
    (m : EmulMessage) :
    (h.Takes m ∧ ∃ log h', h.handle m = ⟨log, .ok h'⟩ ∧ Obeyed h sh m log h') ∨
    (¬ h.Takes m ∧ ∃ e, h.handle m = ⟨[], .error e⟩) := by
  cases m with
  | tcUpdate conf =>
    rw [TCHandler.handle, withManager_free hp]
    exact updatePath_spec hk hp conf
  | tcInit conf =>
    rw [TCHandler.handle, withManager_free hp]
    cases hdest : conf.dest with
    | v4 ip => exact Or.inl ⟨⟨ip, hdest⟩, [.init 7073 1000 ip], h, rfl, rfl, hk, hp, by simp, rfl, by simp⟩
    | v6 addr =>
      refine Or.inr ⟨?_, .unwrap, rfl⟩
      rintro ⟨_, hip⟩
      rw [hdest] at hip
      cases hip
  | tcDisconnect =>
    rw [TCHandler.handle, withManager_free hp]
    exact Or.inl ⟨trivial, [.disconnect], h, rfl, rfl, hk, hp, by simp, rfl, by simp⟩
  | tcReconnect =>
    rw [TCHandler.handle, withManager_free hp]
    exact Or.inl ⟨trivial, [.reconnect], h, rfl, rfl, hk, hp, by simp, rfl, by simp⟩
  | tcTeardown =>
    rw [TCHandler.handle]
    cases hgone : h.cleanerGone with
    | true => exact Or.inr ⟨by simp [TCHandler.Takes, hgone], .unwrap, rfl⟩
    | false =>
      refine Or.inl ⟨hgone, [.tearDown], { h with signalled := true }, ?_, rfl, hk, hp, by simp, rfl, by simp⟩
      simp only [TCHandler.withManager, hp, hgone, Bool.false_eq_true, if_false]
      rfl
  | _ => exact Or.inl ⟨trivial, [], h, rfl, rfl, hk, hp, by simp, rfl, by simp⟩

/-- Nothing is called once the mutex is poisoned. -/
theorem handle_poisoned {h : TCHandler} (hp : h.poisoned = true) (m : EmulMessage) :
    (h.handle m).log = [] ∧ ∀ h', (h.handle m).result = .ok h' →
      h'.poisoned = true ∧ h'.initializedPath = h.initializedPath := by
  have hskip : ∀ act, h.withManager act = pure h := fun act => by
    unfold TCHandler.withManager
    rw [hp]
    rfl
  cases m with
  | tcTeardown =>
    rw [TCHandler.handle]
    cases hgone : h.cleanerGone with
    | true => exact ⟨rfl, fun h' hh => by cases hh⟩
    | false =>
      simp only [TCHandler.withManager, hp, Bool.false_eq_true, if_false, if_true]
      refine ⟨rfl, ?_⟩
      rintro _ ⟨⟩
      exact ⟨rfl, rfl⟩
  | tcInit conf | tcUpdate conf | tcDisconnect | tcReconnect =>
    rw [TCHandler.handle, hskip]
    refine ⟨rfl, ?_⟩
    rintro _ ⟨⟩
    exact ⟨hp, rfl⟩
  | _ =>
    refine ⟨rfl, ?_⟩
    rintro _ ⟨⟩
    exact ⟨hp, rfl⟩

theorem panicked_initializedPath (h : TCHandler) (m : EmulMessage) :
    (h.panicked m).initializedPath = h.initializedPath := by
  cases m <;> rfl

theorem panicked_poisoned {h : TCHandler} (hp : h.poisoned = true) (m : EmulMessage) :
    (h.panicked m).poisoned = true := by
  cases m <;> first | exact hp | rfl

/-- The listener of `tc_socket`: its handler, and the connections whose task has panicked. -/
structure TcBinding where
  handler : TCHandler
  dead : List Nat

def TcBinding.bind : TcBinding := ⟨TCHandler.new, []⟩

/-- What happens at the listener: a message on a connection, or the turn of the `Cleaner`. -/
inductive Arrival where
  | bytes (connection : Nat) (buf : Bytes)
  | clean

/-- The task of the connection carries out a command. -/
def TcBinding.serve (b : TcBinding) (connection : Nat) (m : EmulMessage) : Act TcalCall TcBinding :=
  let served := b.handler.handle m
  match served.result with
  | .ok handler => ⟨served.log, .ok { b with handler }⟩
  | .error _ => ⟨served.log, .ok ⟨b.handler.panicked m, connection :: b.dead⟩⟩

theorem serve_of_ok {b : TcBinding} (connection : Nat) {m : EmulMessage} {handler : TCHandler}
    (h : (b.handler.handle m).result = .ok handler) :
    b.serve connection m = ⟨(b.handler.handle m).log, .ok { b with handler }⟩ := by
  simp only [TcBinding.serve, h]

theorem serve_of_error {b : TcBinding} (connection : Nat) {m : EmulMessage} {e : Fault}
    (h : (b.handler.handle m).result = .error e) : b.serve connection m =
      ⟨(b.handler.handle m).log, .ok ⟨b.handler.panicked m, connection :: b.dead⟩⟩ := by
  simp only [TcBinding.serve, h]

variable [Serde FlowConf] [Serde TCConf] [Serde EmulationEvent]

def TcBinding.receive (b : TcBinding) : Arrival → Act TcalCall TcBinding
  | .clean => pure { b with handler.cleanerGone := b.handler.cleanerGone || b.handler.signalled }
  | .bytes connection buf =>
    if connection ∈ b.dead then pure b
    else
      match EmulMessage.fromBytes buf with
      | .ok m => b.serve connection m
      | .error (.err _) => pure b
      | .error _ => pure { b with dead := connection :: b.dead }

def TcBinding.run (arrivals : List Arrival) : Act TcalCall TcBinding :=
  arrivals.foldlM TcBinding.receive TcBinding.bind

/-! ## What the listener is told -/

def heard (arrivals : List Arrival) : List EmulMessage :=
  arrivals.filterMap fun
    | .bytes _ buf => (EmulMessage.fromBytes buf).toOption
    | .clean => none

/-- The `Cleaner` had a turn after a first `TCTeardown`. -/
def Cleaned (arrivals : List Arrival) : Prop :=
  ∃ before after, arrivals = before ++ .clean :: after ∧ .tcTeardown ∈ heard before

/-- A command that can be carried out, by what was heard before. -/
def Sound (before : List Arrival) : EmulMessage → Prop
  | .tcInit conf => ∃ ip, conf.dest = .v4 ip
  | .tcUpdate conf => ∃ dest, conf.dest = .v4 dest ∧
      (Emulcore.Complete conf ∨ ∃ conf', .tcUpdate conf' ∈ heard before ∧ conf'.dest = .v4 dest)
  | .tcTeardown => ¬ Cleaned before
  | _ => True

/-- An arrival that makes no task panic. -/
def Harmless (before : List Arrival) : Arrival → Prop
  | .bytes _ buf => NoPanic (EmulMessage.fromBytes buf) ∧
      ∀ m, EmulMessage.fromBytes buf = .ok m → Sound before m
  | .clean => True

theorem heard_append (a b : List Arrival) : heard (a ++ b) = heard a ++ heard b := List.filterMap_append

theorem heard_clean (arrivals : List Arrival) : heard (arrivals ++ [.clean]) = heard arrivals := by
  simp [heard]

theorem heard_ok (arrivals : List Arrival) {connection : Nat} {buf : Bytes} {m : EmulMessage}
    (h : EmulMessage.fromBytes buf = .ok m) :
    heard (arrivals ++ [.bytes connection buf]) = heard arrivals ++ [m] := by
  rw [heard_append]
  simp [heard, h, Except.toOption]

theorem heard_error (arrivals : List Arrival) {connection : Nat} {buf : Bytes} {e : Fault}
    (h : EmulMessage.fromBytes buf = .error e) :
    heard (arrivals ++ [.bytes connection buf]) = heard arrivals := by
  rw [heard_append]
  simp [heard, h, Except.toOption]

theorem cleaned_bytes (arrivals : List Arrival) (connection : Nat) (buf : Bytes) :
    Cleaned (arrivals ++ [.bytes connection buf]) ↔ Cleaned arrivals := by
  constructor
  · rintro ⟨before, after, h, htear⟩
    rcases List.eq_nil_or_concat after with rfl | ⟨after, last, rfl⟩
    · cases (List.append_inj' h rfl).2
    · rw [List.concat_eq_append, ← List.cons_append, ← List.append_assoc] at h
      exact ⟨before, after, (List.append_inj' h rfl).1, htear⟩
  · rintro ⟨before, after, rfl, htear⟩
    exact ⟨before, after ++ [.bytes connection buf], by simp, htear⟩

theorem cleaned_clean (arrivals : List Arrival) :
    Cleaned (arrivals ++ [.clean]) ↔ Cleaned arrivals ∨ .tcTeardown ∈ heard arrivals := by
  constructor
  · rintro ⟨before, after, h, htear⟩
    rcases List.eq_nil_or_concat after with rfl | ⟨after, last, rfl⟩
    · rw [(List.append_inj' h rfl).1]
      exact Or.inr htear
    · rw [List.concat_eq_append, ← List.cons_append, ← List.append_assoc] at h
      exact Or.inl ⟨before, after, (List.append_inj' h rfl).1, htear⟩
  · rintro (⟨before, after, rfl, htear⟩ | htear)
    · exact ⟨before, after ++ [.clean], by simp, htear⟩
    · exact ⟨arrivals, [], rfl, htear⟩

/-! ## Runs -/

/-- While no task has panicked, the handler knows what was heard. -/
structure Alive (arrivals : List Arrival) (sh : Shaping) (h : TCHandler) : Prop where
  told : sh = (heard arrivals).foldl Shaping.tell Shaping.start
  poisoned : h.poisoned = false
  initialized : ∀ dest, dest ∈ h.initializedPath ↔
    ∃ conf, .tcUpdate conf ∈ heard arrivals ∧ conf.dest = .v4 dest
  signalled : h.signalled = true ↔ .tcTeardown ∈ heard arrivals
  cleaned : h.cleanerGone = true ↔ Cleaned arrivals

/-- The listener, and the state that its calls lead to. -/
structure ListenInv (arrivals : List Arrival) (log : List TcalCall) (b : TcBinding) : Prop where
  replays : ∃ sh, Shaping.replay log = some sh ∧ Knows b.handler sh ∧
    (b.dead = [] → Alive arrivals sh b.handler)
  dead : b.dead = [] ↔ Each Harmless arrivals

theorem takes_iff {arrivals : List Arrival} {sh : Shaping} {h : TCHandler} (ha : Alive arrivals sh h)
    (m : EmulMessage) : h.Takes m ↔ Sound arrivals m := by
  cases m with
  | tcUpdate conf =>
    refine exists_congr fun dest => and_congr_right fun _ => or_congr_right ?_
    exact ha.initialized dest
  | tcTeardown =>
    show h.cleanerGone = false ↔ ¬ Cleaned arrivals
    rw [← ha.cleaned, Bool.not_eq_true]
  | _ => exact Iff.rfl

theorem Obeyed.alive {arrivals : List Arrival} {sh : Shaping} {h h' : TCHandler} {m : EmulMessage}
    {log : List TcalCall} {connection : Nat} {buf : Bytes} (hm : EmulMessage.fromBytes buf = .ok m)
    (ho : Obeyed h sh m log h') (ha : Alive arrivals sh h) :
    Alive (arrivals ++ [.bytes connection buf]) (sh.tell m) h' := by
  refine ⟨?_, ho.poisoned, fun dest => ?_, ?_, ?_⟩
  · rw [heard_ok arrivals hm, List.foldl_append, ← ha.told]
    rfl
  · rw [ho.initialized, ha.initialized, heard_ok arrivals hm]
    constructor
    · rintro (⟨conf, hin, hdest⟩ | ⟨conf, rfl, hdest⟩)
      · exact ⟨conf, List.mem_append_left _ hin, hdest⟩
      · exact ⟨conf, by simp, hdest⟩
    · rintro ⟨conf, hin, hdest⟩
      rcases List.mem_append.mp hin with hin | hin
      · exact Or.inl ⟨conf, hin, hdest⟩
      · exact Or.inr ⟨conf, (List.mem_singleton.mp hin).symm, hdest⟩
  · rw [ho.signalled, ha.signalled, heard_ok arrivals hm, List.mem_append, List.mem_singleton]
    exact or_congr_right eq_comm
  · rw [ho.cleanerGone, ha.cleaned, cleaned_bytes]

theorem ListenInv.gone {arrivals : List Arrival} {log calls : List TcalCall} {b b' : TcBinding}
    (h : ListenInv arrivals log b) {arrival : Arrival} (hcalls : calls = [])
    (hpaths : b'.handler.initializedPath = b.handler.initializedPath) (hd : b'.dead ≠ [])
    (harmless : b.dead = [] → ¬ Harmless arrivals arrival) :
    ListenInv (arrivals ++ [arrival]) (log ++ calls) b' := by
  obtain ⟨⟨sh, hreplay, hknows, -⟩, hdead⟩ := h
  refine ⟨⟨sh, by rwa [hcalls, List.append_nil], fun dest => ?_, fun hd' => absurd hd' hd⟩, ?_⟩
  · rw [hpaths]
    exact hknows dest
  · rw [each_snoc, ← hdead]
    exact iff_of_false hd fun hboth => harmless hboth.1 hboth.2

theorem ListenInv.serve {arrivals : List Arrival} {log : List TcalCall} {b : TcBinding}
    (h : ListenInv arrivals log b) {connection : Nat} {buf : Bytes} {m : EmulMessage}
    (hm : EmulMessage.fromBytes buf = .ok m) :
    Returns (b.serve connection m).result (ListenInv (arrivals ++ [.bytes connection buf])
      (log ++ (b.serve connection m).log)) := by
  obtain ⟨⟨sh, hreplay, hknows, halive⟩, hdead⟩ := id h
  have hsound : Harmless arrivals (.bytes connection buf) ↔ Sound arrivals m := by
    constructor
    · exact fun hn => hn.2 m hm
    · intro hs
      refine ⟨hm ▸ noPanic_ok m, fun m' hm' => ?_⟩
      cases Except.ok.inj (hm.symm.trans hm')
      exact hs
  cases hp : b.handler.poisoned with
  | true =>
    obtain ⟨hlog, hnext⟩ := handle_poisoned hp m
    have hd : b.dead ≠ [] := fun hd => by
      rw [(halive hd).poisoned] at hp
      cases hp
    cases hr : (b.handler.handle m).result with
    | ok handler =>
      rw [serve_of_ok connection hr]
      exact ⟨_, rfl, h.gone hlog (hnext handler hr).2 hd fun hd' => absurd hd' hd⟩
    | error e =>
      rw [serve_of_error connection hr]
      exact ⟨_, rfl, h.gone hlog (panicked_initializedPath _ m) (List.cons_ne_nil _ _)
        fun hd' => absurd hd' hd⟩
  | false =>
    rcases handle_spec hknows hp m with ⟨htakes, calls, handler, hr, ho⟩ | ⟨htakes, e, hr⟩
    · rw [serve_of_ok connection (show (b.handler.handle m).result = .ok handler by rw [hr]), hr]
      refine ⟨_, rfl, ⟨sh.tell m, ?_, ho.knows, fun hd => ho.alive hm (halive hd)⟩, ?_⟩
      · rw [Shaping.replay_append hreplay]
        exact ho.calls
      · rw [each_snoc, ← hdead, hsound]
        refine (and_iff_left_of_imp fun hd => ?_).symm
        exact (takes_iff (halive hd) m).mp htakes
    · rw [serve_of_error (e := e) connection (by rw [hr]), hr]
      refine ⟨_, rfl, h.gone rfl (panicked_initializedPath _ m) (List.cons_ne_nil _ _) fun hd => ?_⟩
      rw [hsound, ← takes_iff (halive hd) m]
      exact htakes

theorem ListenInv.receive {arrivals : List Arrival} {log : List TcalCall} {b : TcBinding}
    (h : ListenInv arrivals log b) (arrival : Arrival) :
    Returns (b.receive arrival).result
      (ListenInv (arrivals ++ [arrival]) (log ++ (b.receive arrival).log)) := by
  obtain ⟨⟨sh, hreplay, hknows, halive⟩, hdead⟩ := id h
  cases arrival with
  | clean =>
    refine ⟨_, rfl, ⟨sh, ?_, hknows, fun hd => ?_⟩, ?_⟩
    · rwa [TcBinding.receive, log_pure, List.append_nil]
    · have ha := halive hd
      refine ⟨?_, ha.poisoned, ?_, ?_, ?_⟩
      · rw [heard_clean]
        exact ha.told
      · rw [heard_clean]
        exact ha.initialized
      · rw [heard_clean]
        exact ha.signalled
      · rw [cleaned_clean, ← ha.cleaned, ← ha.signalled, Bool.or_eq_true]
    · rw [each_snoc, hdead]
      exact (and_iff_left trivial).symm
  | bytes connection buf =>
    rw [TcBinding.receive]
    by_cases hin : connection ∈ b.dead
    · rw [if_pos hin]
      have hd : b.dead ≠ [] := List.ne_nil_of_mem hin
      exact ⟨b, rfl, h.gone rfl rfl hd fun hd' => absurd hd' hd⟩
    · rw [if_neg hin]
      cases hbuf : EmulMessage.fromBytes buf with
      | ok m => exact h.serve hbuf
      | error e =>
        have hfault : (∀ message, e ≠ .err message) → ¬ Harmless arrivals (.bytes connection buf) := by
          rintro hne ⟨hpanic, -⟩
          obtain ⟨message, he⟩ := hpanic e hbuf
          exact hne message he
        cases e with
        | err message =>
          refine ⟨b, rfl, ⟨sh, by rwa [log_pure, List.append_nil], hknows, fun hd => ?_⟩, ?_⟩
          · have ha := halive hd
            refine ⟨?_, ha.poisoned, ?_, ?_, ?_⟩
            · rw [heard_error arrivals hbuf]
              exact ha.told
            · rw [heard_error arrivals hbuf]
              exact ha.initialized
            · rw [heard_error arrivals hbuf]
              exact ha.signalled
            · rw [cleaned_bytes]
              exact ha.cleaned
          · rw [each_snoc, hdead]
            refine (and_iff_left ⟨?_, fun m hm => ?_⟩).symm
            · rw [hbuf]
              exact noPanic_error.mpr ⟨message, rfl⟩
            · rw [hbuf] at hm
              cases hm
        | _ =>
          exact ⟨_, rfl, h.gone rfl rfl (List.cons_ne_nil _ _) fun _ => hfault (by simp)⟩

theorem listen_inv (arrivals : List Arrival) : Returns (TcBinding.run arrivals).result
    (ListenInv arrivals (TcBinding.run arrivals).log) := by
  refine returns_foldlM_log ListenInv ⟨⟨Shaping.start, rfl, by simp [Knows, TcBinding.bind, TCHandler.new,
    Shaping.start], fun _ => ?_⟩, by simp [TcBinding.bind, Each.nil]⟩ fun pre arrival post log b _ h =>
    h.receive arrival
  refine ⟨rfl, rfl, ?_, ?_, ?_⟩ <;> simp [TcBinding.bind, TCHandler.new, heard, Cleaned]

theorem silent_receive {b : TcBinding} (hp : b.handler.poisoned = true) (arrival : Arrival) :
    (b.receive arrival).log = [] ∧
      Returns (b.receive arrival).result fun b' => b'.handler.poisoned = true := by
  cases arrival with
  | clean => exact ⟨rfl, _, rfl, hp⟩
  | bytes connection buf =>
    rw [TcBinding.receive]
    split
    · exact ⟨rfl, _, rfl, hp⟩
    · cases EmulMessage.fromBytes buf with
      | ok m =>
        obtain ⟨hlog, hnext⟩ := handle_poisoned hp m
        dsimp only
        cases hr : (b.handler.handle m).result with
        | ok handler =>
          rw [serve_of_ok connection hr]
          exact ⟨hlog, _, rfl, (hnext handler hr).1⟩
        | error e =>
          rw [serve_of_error connection hr]
          exact ⟨hlog, _, rfl, panicked_poisoned hp m⟩
      | error e => cases e <;> exact ⟨rfl, _, rfl, hp⟩

theorem silent_run {b : TcBinding} (hp : b.handler.poisoned = true) (more : List Arrival) :
    (more.foldlM TcBinding.receive b).log = [] := by
  induction more generalizing b with
  | nil => rfl
  | cons arrival more ih =>
    obtain ⟨hlog, b', hb', hp'⟩ := silent_receive hp arrival
    rw [List.foldlM_cons, bind_of_ok hb', hlog, ih hp']
    rfl

/-- Whatever arrives on whatever connections, every path is initialised once and before it is
changed. As long as each command can be carried out, traffic control is in the state that the
commands ask for, and no task panics. A panic that holds the manager is the end of all calls. -/
theorem calls_follow_commands (arrivals : List Arrival) :
    Returns (TcBinding.run arrivals).result fun b =>
      (∃ sh, Shaping.replay (TcBinding.run arrivals).log = some sh ∧
        (∀ dest, dest ∈ b.handler.initializedPath ↔ (sh.paths dest).isSome = true) ∧
        (Each Harmless arrivals → sh = (heard arrivals).foldl Shaping.tell Shaping.start)) ∧
      (b.dead = [] ↔ Each Harmless arrivals) ∧
      (b.handler.poisoned = true → ∀ more : List Arrival, (more.foldlM TcBinding.receive b).log = []) := by
  obtain ⟨b, hb, ⟨sh, hreplay, hknows, halive⟩, hdead⟩ := listen_inv arrivals
  refine ⟨b, hb, ⟨sh, hreplay, hknows, fun h => ?_⟩, hdead, fun hp more => silent_run hp more⟩
  exact (halive (hdead.mpr h)).told

end Reporter

end Kollaps
