import Kollaps.Emanager.Steps
import Kollaps.Emulcore.Runs

/-!
# Whether a stop is effective

The manager has a channel to abort an emulation from `ExperimentReady` on. A stop that comes
before finds no channel and does nothing, and the core that is stored stays so.
-/

namespace Kollaps

open Run Act

namespace Emanager

open Emulcore (EmulCore)

/-- The task builds a core that is not stored yet. -/
def Task.makes (id : Uuid) : Task → Bool
  | .create emul _ => emul.uuid = id
  | .init core | .bind core => core.emulId = id
  | _ => false

def Task.starts (id : Uuid) : Task → Bool
  | .start i _ _ => i = id
  | _ => false

/-- The channel to abort that a task of the emulation listens to, or will listen to. -/
def Task.channel (id : Uuid) : Task → Option Nat
  | .start i _ c => if i = id then some c else none
  | .synchronize core _ c | .flowLoop core _ c => if core.emulId = id then some c else none
  | _ => none

namespace Machine

variable {m m' : Machine} {new : List Mark} {id : Uuid}

def Keyed (m : Machine) : Prop :=
  ∀ id core, m.manager.emulIdToEmulcore.lookup id = some core → core.emulId = id

/-- A core of the emulation is stored, is in a channel, or is about to be released. -/
def Live (m : Machine) (id : Uuid) : Prop :=
  m.manager.emulIdToEmulcore.lookup id ≠ none ∨ (∃ t ∈ m.tasks, t.holds id = true) ∨
    Task.drop id ∈ m.tasks

theorem Takes.mem {t : Task} {rest : List Task} (ht : m.Takes t rest) : t ∈ m.tasks :=
  ht.mem_iff.mpr List.mem_cons_self

theorem Takes.mem_rest {t t' : Task} {rest : List Task} (ht : m.Takes t rest) (h : t' ∈ rest) :
    t' ∈ m.tasks :=
  ht.mem_iff.mpr (List.mem_cons_of_mem _ h)

theorem Takes.cases {t t' : Task} {rest : List Task} (ht : m.Takes t rest) (h : t' ∈ m.tasks) :
    t' = t ∨ t' ∈ rest :=
  List.mem_cons.mp (ht.mem_iff.mp h)

/-! ## What a turn changes -/

theorem Turn.keyed (h : Turn m new m') (hm : m.Keyed) : m'.Keyed := by
  cases h with
  | stored ht hdropped =>
    intro u core hu
    simp only [KeySet.lookup_put] at hu
    split at hu <;> rename_i heq
    · cases hu
      exact heq.symm
    · exact hm u core hu
  | entered ht hcore =>
    intro u core hu
    simp only [KeySet.lookup_remove] at hu
    split at hu
    · cases hu
    · exact hm u core hu
  | _ => exact hm

theorem count_tells {tells : List Mark} {leader : ClusterNodeInfo} {message : OManagerMessage} {e : Mark}
    (htells : ∀ e ∈ tells, e = .tell leader message) (he : e ≠ .tell leader message) : tells.count e = 0 :=
  List.count_eq_zero.mpr fun hmem => he (htells e hmem)

theorem not_mem_tells {tells : List Mark} {leader : ClusterNodeInfo} {message : OManagerMessage} {e : Mark}
    (htells : ∀ e ∈ tells, e = .tell leader message) (he : e ≠ .tell leader message) : e ∉ tells :=
  fun hmem => he (htells e hmem)

theorem countP_dropped {dropped : List Task} {P : Task → Bool} {u : Uuid}
    (hdropped : ∀ t ∈ dropped, t = .drop u) (hP : P (.drop u) = false) : dropped.countP P = 0 :=
  List.countP_eq_zero.mpr fun t hmem => by simp [hdropped t hmem, hP]

theorem Turn.made (h : Turn m new m') (id : Uuid) :
    m'.tasks.countP (Task.makes id) + new.count (.stored id) + new.count (.failed id) ≤
      m.tasks.countP (Task.makes id) + new.count (.new id) := by
  cases h with
  | new leader emul => by_cases he : emul.uuid = id <;> simp [Task.makes, he]
  | delivered | discarded | stop => simp
  | ready => simp [Task.makes]
  | built ht hid =>
    rw [ht.countP_eq]
    simp [Task.makes, List.countP_cons, hid]
  | @unbuilt emul leader rest ht =>
    rw [ht.countP_eq]
    by_cases he : emul.uuid = id <;> simp [Task.makes, he]
  | registered ht =>
    rw [ht.countP_eq]
    simp [Task.makes, List.countP_cons]
  | @failed t core rest tells ht hinit htells =>
    have hs := count_tells htells (e := .stored id) (by simp)
    have hf := count_tells htells (e := .failed id) (by simp)
    rw [ht.countP_eq]
    rcases hinit with rfl | rfl <;> by_cases he : core.emulId = id <;> simp [Task.makes, hs, hf, he]
  | @stored core rest dropped ht hdropped =>
    have hd := countP_dropped (P := Task.makes id) hdropped rfl
    rw [ht.countP_eq]
    by_cases he : core.emulId = id <;> simp [Task.makes, hd, he]
  | announced ok ht | missing ht | released ht | entered ht | synchronized ht | finished ht =>
    rw [ht.countP_eq]
    simp [Task.makes]
  | ended _ ht hrun htells =>
    have hs := count_tells htells (e := .stored id) (by simp)
    have hf := count_tells htells (e := .failed id) (by simp)
    rw [ht.countP_eq]
    rcases hrun with rfl | rfl <;> simp [Task.makes, hs, hf]

/-- A task that waits to start was spawned for a message, and starts once. -/
theorem Turn.pending (h : Turn m new m') (id : Uuid) :
    m'.tasks.countP (Task.starts id) + new.count (.started id) =
      m.tasks.countP (Task.starts id) + new.count (.ready id) := by
  cases h with
  | new | delivered | discarded | stop => simp [Task.starts]
  | ready u leader => by_cases he : u = id <;> simp [Task.starts, he]
  | built ht | unbuilt ht | registered ht | announced ok ht | released ht | synchronized ht
  | finished ht =>
    rw [ht.countP_eq]
    simp [Task.starts]
  | @failed t core rest tells ht hinit htells =>
    have hs := count_tells htells (e := .started id) (by simp)
    have hr := count_tells htells (e := .ready id) (by simp)
    rw [ht.countP_eq]
    rcases hinit with rfl | rfl <;> simp [Task.starts, hs, hr]
  | @stored core rest dropped ht hdropped =>
    have hd := countP_dropped (P := Task.starts id) hdropped rfl
    rw [ht.countP_eq]
    simp [Task.starts, hd]
  | @missing u leader c rest ht =>
    rw [ht.countP_eq]
    by_cases he : u = id <;> simp [Task.starts, he]
  | @entered u leader c rest core ht hcore =>
    rw [ht.countP_eq]
    by_cases he : u = id <;> simp [Task.starts, he]
  | ended _ ht hrun htells =>
    have hs := count_tells htells (e := .started id) (by simp)
    have hr := count_tells htells (e := .ready id) (by simp)
    rw [ht.countP_eq]
    rcases hrun with rfl | rfl <;> simp [Task.starts, hs, hr]

theorem Turn.channel (h : Turn m new m') (hm : m.Keyed) {t : Task} (ht : t ∈ m'.tasks) {c : Nat}
    (hc : t.channel id = some c) :
    (∃ t₀ ∈ m.tasks, t₀.channel id = some c) ∨ (new = [.ready id] ∧ c = m.channels) := by
  cases h with
  | delivered | discarded | stop => exact Or.inl ⟨t, ht, hc⟩
  | new leader emul =>
    rcases List.mem_append.mp ht with ht | ht
    · exact Or.inl ⟨t, ht, hc⟩
    · rw [List.mem_singleton.mp ht] at hc
      cases hc
  | ready u leader =>
    rcases List.mem_append.mp ht with ht | ht
    · exact Or.inl ⟨t, ht, hc⟩
    · rw [List.mem_singleton.mp ht, Task.channel] at hc
      split at hc <;> rename_i heq
      · cases hc
        exact Or.inr ⟨by rw [heq], rfl⟩
      · cases hc
  | unbuilt htakes | announced ok htakes | missing htakes | released htakes =>
    exact Or.inl ⟨t, htakes.mem_rest ht, hc⟩
  | built htakes | registered htakes | failed _ htakes | ended _ htakes | finished htakes =>
    rcases List.mem_append.mp ht with ht | ht
    · exact Or.inl ⟨t, htakes.mem_rest ht, hc⟩
    · rw [List.mem_singleton.mp ht] at hc
      cases hc
  | stored htakes hdropped =>
    rcases List.mem_append.mp ht with ht | ht
    · rcases List.mem_append.mp ht with ht | ht
      · exact Or.inl ⟨t, htakes.mem_rest ht, hc⟩
      · rw [hdropped t ht] at hc
        cases hc
    · rw [List.mem_singleton.mp ht] at hc
      cases hc
  | @entered u leader abortChannel rest core htakes hcore =>
    rcases List.mem_append.mp ht with ht | ht
    · exact Or.inl ⟨t, htakes.mem_rest ht, hc⟩
    · rw [List.mem_singleton.mp ht, Task.channel, hm u core hcore] at hc
      exact Or.inl ⟨_, htakes.mem, hc⟩
  | synchronized htakes =>
    rcases List.mem_append.mp ht with ht | ht
    · exact Or.inl ⟨t, htakes.mem_rest ht, hc⟩
    · rw [List.mem_singleton.mp ht] at hc
      exact Or.inl ⟨_, htakes.mem, hc⟩

theorem Turn.running (h : Turn m new m') {t : Task} {core : EmulCore} {leader : ClusterNodeInfo} {c : Nat}
    (ht : t ∈ m'.tasks) (hrun : Runs t core leader c) :
    (∃ t₀ ∈ m.tasks, Runs t₀ core leader c) ∨
      ∃ u, new = [.started u, .entered u] ∧ m.manager.emulIdToEmulcore.lookup u = some core := by
  cases h with
  | delivered | discarded | stop => exact Or.inl ⟨t, ht, hrun⟩
  | new | ready =>
    rcases List.mem_append.mp ht with ht | ht
    · exact Or.inl ⟨t, ht, hrun⟩
    · rw [List.mem_singleton.mp ht] at hrun
      simp [Runs] at hrun
  | unbuilt htakes | announced ok htakes | missing htakes | released htakes =>
    exact Or.inl ⟨t, htakes.mem_rest ht, hrun⟩
  | built htakes | registered htakes | failed _ htakes | ended _ htakes | finished htakes =>
    rcases List.mem_append.mp ht with ht | ht
    · exact Or.inl ⟨t, htakes.mem_rest ht, hrun⟩
    · rw [List.mem_singleton.mp ht] at hrun
      simp [Runs] at hrun
  | stored htakes hdropped =>
    rcases List.mem_append.mp ht with ht | ht
    · rcases List.mem_append.mp ht with ht | ht
      · exact Or.inl ⟨t, htakes.mem_rest ht, hrun⟩
      · rw [hdropped t ht] at hrun
        simp [Runs] at hrun
    · rw [List.mem_singleton.mp ht] at hrun
      simp [Runs] at hrun
  | @entered u leader' abortChannel rest core' htakes hcore =>
    rcases List.mem_append.mp ht with ht | ht
    · exact Or.inl ⟨t, htakes.mem_rest ht, hrun⟩
    · rw [List.mem_singleton.mp ht] at hrun
      simp only [Runs, Task.synchronize.injEq, reduceCtorEq, or_false] at hrun
      exact Or.inr ⟨u, rfl, hrun.1 ▸ hcore⟩
  | synchronized htakes =>
    rcases List.mem_append.mp ht with ht | ht
    · exact Or.inl ⟨t, htakes.mem_rest ht, hrun⟩
    · rw [List.mem_singleton.mp ht] at hrun
      simp only [Runs, Task.flowLoop.injEq, reduceCtorEq, false_or] at hrun
      obtain ⟨rfl, rfl, rfl⟩ := hrun
      exact Or.inl ⟨_, htakes.mem, Or.inl rfl⟩

theorem Turn.kept (h : Turn m new m') (hid : m'.manager.emulIdToEmulcore.lookup id ≠ none) :
    (m.manager.emulIdToEmulcore.lookup id ≠ none ∧ .started id ∉ new) ∨
      (new = [.stored id] ∧ ∃ core rest, m.Takes (.bind core) rest ∧ core.emulId = id) := by
  cases h with
  | @stored core rest dropped ht hdropped =>
    simp only [KeySet.lookup_put] at hid
    split at hid <;> rename_i heq
    · exact Or.inr ⟨by rw [heq], core, rest, ht, heq.symm⟩
    · exact Or.inl ⟨hid, by simp⟩
  | @missing u leader c rest ht hnone =>
    refine Or.inl ⟨hid, fun hmem => hid ?_⟩
    simp only [List.mem_singleton, Mark.started.injEq] at hmem
    rw [hmem]
    exact hnone
  | @entered u leader c rest core ht hcore =>
    simp only [KeySet.lookup_remove] at hid
    split at hid <;> rename_i heq
    · exact absurd rfl hid
    · exact Or.inl ⟨hid, by simp [heq]⟩
  | failed tells ht hinit htells =>
    refine Or.inl ⟨hid, fun hmem => ?_⟩
    rcases List.mem_cons.mp hmem with hmem | hmem
    · cases hmem
    · cases htells _ hmem
  | ended _ ht hrun htells =>
    exact Or.inl ⟨hid, fun hmem => by cases htells _ hmem⟩
  | _ => exact Or.inl ⟨hid, by simp⟩

theorem Turn.live (h : Turn m new m') (hm : m.Keyed) (hid : m.Live id) :
    m'.Live id ∨ (.released id ∈ new ∧ m'.manager.emulIdToChannel.contains id = false) := by
  rcases hid with hid | ⟨t, ht, hholds⟩ | hdrop
  · cases h with
    | @entered u leader c rest core ht hcore =>
      by_cases he : id = u
      · subst he
        exact Or.inl (Or.inr (Or.inl ⟨.synchronize core leader c, by simp,
          decide_eq_true (hm id core hcore)⟩))
      · refine Or.inl (Or.inl ?_)
        simp only [KeySet.lookup_remove, if_neg he]
        exact hid
    | @stored core rest dropped ht hdropped =>
      refine Or.inl (Or.inl ?_)
      simp only [KeySet.lookup_put]
      split
      · simp
      · exact hid
    | _ => exact Or.inl (Or.inl hid)
  · cases h with
    | delivered | discarded | stop => exact Or.inl (Or.inr (Or.inl ⟨t, ht, hholds⟩))
    | new | ready => exact Or.inl (Or.inr (Or.inl ⟨t, List.mem_append_left _ ht, hholds⟩))
    | built htakes | registered htakes | entered htakes =>
      rcases htakes.cases ht with rfl | hrest
      · cases hholds
      · exact Or.inl (Or.inr (Or.inl ⟨t, List.mem_append_left _ hrest, hholds⟩))
    | unbuilt htakes | announced ok htakes | missing htakes | released htakes =>
      rcases htakes.cases ht with rfl | hrest
      · cases hholds
      · exact Or.inl (Or.inr (Or.inl ⟨t, hrest, hholds⟩))
    | @failed t' core rest tells htakes hinit htells =>
      rcases htakes.cases ht with rfl | hrest
      · refine Or.inl (Or.inr (Or.inr ?_))
        rcases hinit with rfl | rfl
        · cases hholds
        · simp [← of_decide_eq_true hholds]
      · exact Or.inl (Or.inr (Or.inl ⟨t, List.mem_append_left _ hrest, hholds⟩))
    | @stored core rest dropped htakes hdropped =>
      rcases htakes.cases ht with rfl | hrest
      · refine Or.inl (Or.inl ?_)
        simp [KeySet.lookup_put, ← of_decide_eq_true hholds]
      · exact Or.inl (Or.inr (Or.inl ⟨t, by simp [hrest], hholds⟩))
    | @synchronized core leader c rest htakes =>
      rcases htakes.cases ht with rfl | hrest
      · exact Or.inl (Or.inr (Or.inl ⟨.flowLoop core leader c, by simp, hholds⟩))
      · exact Or.inl (Or.inr (Or.inl ⟨t, List.mem_append_left _ hrest, hholds⟩))
    | @ended t' core leader c rest _ htakes hrun htells =>
      rcases htakes.cases ht with rfl | hrest
      · refine Or.inl (Or.inr (Or.inr ?_))
        rcases hrun with rfl | rfl <;> simp [← of_decide_eq_true hholds]
      · exact Or.inl (Or.inr (Or.inl ⟨t, List.mem_append_left _ hrest, hholds⟩))
    | finished htakes =>
      rcases htakes.cases ht with rfl | hrest
      · refine Or.inl (Or.inr (Or.inr ?_))
        simp [← of_decide_eq_true hholds]
      · exact Or.inl (Or.inr (Or.inl ⟨t, List.mem_append_left _ hrest, hholds⟩))
  · cases h with
    | delivered | discarded | stop => exact Or.inl (Or.inr (Or.inr hdrop))
    | new | ready => exact Or.inl (Or.inr (Or.inr (List.mem_append_left _ hdrop)))
    | built htakes | registered htakes | entered htakes | synchronized htakes | finished htakes =>
      rcases htakes.cases hdrop with heq | hrest
      · cases heq
      · exact Or.inl (Or.inr (Or.inr (List.mem_append_left _ hrest)))
    | unbuilt htakes | announced ok htakes | missing htakes =>
      rcases htakes.cases hdrop with heq | hrest
      · cases heq
      · exact Or.inl (Or.inr (Or.inr hrest))
    | failed tells htakes hinit =>
      rcases htakes.cases hdrop with rfl | hrest
      · rcases hinit with hinit | hinit <;> cases hinit
      · exact Or.inl (Or.inr (Or.inr (List.mem_append_left _ hrest)))
    | stored htakes =>
      rcases htakes.cases hdrop with heq | hrest
      · cases heq
      · exact Or.inl (Or.inr (Or.inr (by simp [hrest])))
    | ended _ htakes hrun =>
      rcases htakes.cases hdrop with rfl | hrest
      · rcases hrun with hrun | hrun <;> cases hrun
      · exact Or.inl (Or.inr (Or.inr (List.mem_append_left _ hrest)))
    | @released u rest htakes =>
      rcases htakes.cases hdrop with heq | hrest
      · cases heq
        refine Or.inr ⟨List.mem_singleton_self _, ?_⟩
        simp [KeySet.contains, KeySet.get?_remove]
      · exact Or.inl (Or.inr (Or.inr hrest))

theorem Turn.channelLive (h : Turn m new m') (hm : m.Keyed)
    (hchannel : m.manager.emulIdToChannel.contains id = true → m.Live id)
    (hid : m'.manager.emulIdToChannel.contains id = true) : m'.Live id := by
  have hold : m.manager.emulIdToChannel.contains id = true → m'.Live id := fun hc =>
    (h.live hm (hchannel hc)).resolve_right fun hr => by
      rw [hid] at hr
      cases hr.2
  cases h with
  | @registered core rest htakes =>
    by_cases he : core.emulId = id
    · exact Or.inr (Or.inl ⟨.bind core, by simp, decide_eq_true he⟩)
    · refine hold ?_
      simp only [KeySet.contains, KeySet.get?_insert, if_neg (Ne.symm he)] at hid
      exact hid
  | finished htakes | released htakes =>
    refine hold ?_
    simp only [KeySet.contains, KeySet.get?_remove] at hid
    split at hid
    · cases hid
    · exact hid
  | _ => exact hold hid

theorem Turn.stored_live (h : Turn m new m') (hid : .stored id ∈ new) : m'.Live id := by
  cases h with
  | stored ht hdropped =>
    simp only [List.mem_singleton, Mark.stored.injEq] at hid
    refine Or.inl ?_
    simp [KeySet.lookup_put, hid]
  | failed tells ht hinit htells =>
    rcases List.mem_cons.mp hid with hid | hid
    · cases hid
    · cases htells _ hid
  | ended _ ht hrun htells => cases htells _ hid
  | announced ok => simp at hid
  | _ => simp at hid

theorem Turn.aborts (h : Turn m new m') {c : Nat} (hc : c ∈ m.aborts) : c ∈ m'.aborts := by
  cases h with
  | stop u => exact List.mem_append_left _ hc
  | _ => exact hc

theorem Turn.abortChan (h : Turn m new m') (id : Uuid) :
    (m'.manager.emulIdAbortChan.lookup id = m.manager.emulIdAbortChan.lookup id ∧
      .stop id ∉ new ∧ .ready id ∉ new) ∨
    (new = [.stop id] ∧ ∀ c, m.manager.emulIdAbortChan.lookup id = some c → c ∈ m'.aborts) ∨
    (new = [.ready id] ∧ m'.manager.emulIdAbortChan.lookup id = some m.channels) := by
  cases h with
  | stop u =>
    by_cases he : id = u
    · subst he
      exact Or.inr (Or.inl ⟨rfl, fun c hc => by simp [hc]⟩)
    · exact Or.inl ⟨by simp [KeySet.lookup_remove, he], by simp [he], by simp⟩
  | ready u leader =>
    by_cases he : id = u
    · subst he
      exact Or.inr (Or.inr ⟨rfl, by simp [KeySet.lookup_put]⟩)
    · exact Or.inl ⟨by simp [KeySet.lookup_put, he], by simp, by simp [he]⟩
  | failed tells ht hinit htells =>
    have hstop := not_mem_tells htells (e := .stop id) (by simp)
    have hready := not_mem_tells htells (e := .ready id) (by simp)
    exact Or.inl ⟨rfl, by simp [hstop], by simp [hready]⟩
  | ended _ ht hrun htells =>
    exact Or.inl ⟨rfl, not_mem_tells htells (by simp), not_mem_tells htells (by simp)⟩
  | announced ok => exact Or.inl ⟨rfl, by simp, by simp⟩
  | _ => exact Or.inl ⟨rfl, by simp, by simp⟩

/-! ## A run -/

/-- A stop comes when the emulation is ready or has failed, and it starts when its core is stored
or has failed. -/
def InOrder (id : Uuid) (log : List Mark) : Prop :=
  Each (fun pre e => (e = .stop id → .ready id ∈ pre ∨ .failed id ∈ pre) ∧
    (e = .started id → .stored id ∈ pre ∨ .failed id ∈ pre)) log

/-- The spawned tasks of the emulation have run: what is left of them waits for others. -/
def Quiet (m : Machine) (id : Uuid) : Prop :=
  ∀ t ∈ m.tasks, t.id = id → ∃ core leader c, Runs t core leader c ∧ c ∉ m.aborts

/-- What is true of an emulation that is made and started once. -/
structure Managed (id : Uuid) (log : List Mark) (m : Machine) : Prop where
  keyed : m.Keyed
  made : m.tasks.countP (Task.makes id) + log.count (.stored id) + log.count (.failed id) ≤
    log.count (.new id)
  pending : m.tasks.countP (Task.starts id) + log.count (.started id) = log.count (.ready id)
  kept : m.manager.emulIdToEmulcore.lookup id ≠ none → .stored id ∈ log ∧ .started id ∉ log
  running : ∀ t ∈ m.tasks, ∀ core leader c, Runs t core leader c → core.emulId = id → .stored id ∈ log
  aborted : ∀ t ∈ m.tasks, ∀ c, t.channel id = some c → .ready id ∈ log ∧ (c ∈ m.aborts ∨
    (m.manager.emulIdAbortChan.lookup id = some c ∧ (.stop id ∈ log → .failed id ∈ log)))
  live : .stored id ∈ log → .released id ∈ log ∨ m.Live id
  channel : m.manager.emulIdToChannel.contains id = true → m.Live id

theorem InOrder.stop {log : List Mark} (h : InOrder id log) (hstop : .stop id ∈ log) :
    .ready id ∈ log ∨ .failed id ∈ log := by
  obtain ⟨pre, post, rfl⟩ := List.append_of_mem hstop
  exact ((h pre _ post rfl).1 rfl).imp (List.mem_append_left _) (List.mem_append_left _)

theorem InOrder.started {log : List Mark} (h : InOrder id log) (hstarted : .started id ∈ log) :
    .stored id ∈ log ∨ .failed id ∈ log := by
  obtain ⟨pre, post, rfl⟩ := List.append_of_mem hstarted
  exact ((h pre _ post rfl).2 rfl).imp (List.mem_append_left _) (List.mem_append_left _)

theorem Managed.turn {log : List Mark} (hm : Managed id log m) (h : Turn m new m')
    (horder : InOrder id log) (hnew : (log ++ new).count (.new id) ≤ 1)
    (hready : (log ++ new).count (.ready id) ≤ 1) : Managed id (log ++ new) m' := by
  have hmade := h.made id
  have hpending := h.pending id
  have hsofar := hm.made
  have hwait := hm.pending
  rw [List.count_append] at hnew hready
  refine ⟨h.keyed hm.keyed, ?_, ?_, fun hid => ?_, fun t ht core leader c hrun hid => ?_,
    fun t ht c hc => ?_, fun hid => ?_, h.channelLive hm.keyed hm.channel⟩
  · simp only [List.count_append]
    omega
  · simp only [List.count_append]
    omega
  · rcases h.kept hid with ⟨hold, hstarted⟩ | ⟨rfl, core, rest, htakes, hcore⟩
    · obtain ⟨h₁, h₂⟩ := hm.kept hold
      exact ⟨List.mem_append_left _ h₁, by simp [h₂, hstarted]⟩
    · refine ⟨by simp, ?_⟩
      have hmaking : 0 < m.tasks.countP (Task.makes id) :=
        List.countP_pos_iff.mpr ⟨_, htakes.mem, by simp [Task.makes, hcore]⟩
      simp only [List.mem_append, List.mem_singleton, reduceCtorEq, or_false]
      intro hstarted
      -- The core that is being made has neither been stored nor failed.
      rcases horder.started hstarted with hin | hin <;>
        · have := List.count_pos_iff.mpr hin
          omega
  · rcases h.running ht hrun with ⟨t₀, ht₀, hrun₀⟩ | ⟨u, -, hlookup⟩
    · exact List.mem_append_left _ (hm.running t₀ ht₀ core leader c hrun₀ hid)
    · have heq := hm.keyed u core hlookup
      rw [hid] at heq
      subst heq
      exact List.mem_append_left _ (hm.kept (by simp [hlookup])).1
  · rcases h.channel hm.keyed ht hc with ⟨t₀, ht₀, hc₀⟩ | ⟨rfl, rfl⟩
    · obtain ⟨hreadied, hchannel⟩ := hm.aborted t₀ ht₀ c hc₀
      refine ⟨List.mem_append_left _ hreadied, ?_⟩
      rcases hchannel with hsent | ⟨hlookup, hfailed⟩
      · exact Or.inl (h.aborts hsent)
      · rcases h.abortChan id with ⟨hsame, hstop, -⟩ | ⟨rfl, hsent⟩ | ⟨rfl, -⟩
        · refine Or.inr ⟨hsame.trans hlookup, fun hmem => List.mem_append_left _ (hfailed ?_)⟩
          exact (List.mem_append.mp hmem).resolve_right hstop
        · exact Or.inl (hsent c hlookup)
        · have := List.count_pos_iff.mpr hreadied
          simp only [List.count_cons_self, List.count_nil] at hready
          omega
    · refine ⟨by simp, ?_⟩
      rcases h.abortChan id with ⟨-, -, hno⟩ | ⟨heq, -⟩ | ⟨-, hlookup⟩
      · simp at hno
      · cases heq
      · refine Or.inr ⟨hlookup, fun hmem => ?_⟩
        simp only [List.mem_append, List.mem_singleton, reduceCtorEq, or_false] at hmem ⊢
        refine (horder.stop hmem).resolve_left fun hreadied => ?_
        have := List.count_pos_iff.mpr hreadied
        simp only [List.count_cons_self, List.count_nil] at hready
        omega
  · rcases List.mem_append.mp hid with hid | hid
    · rcases hm.live hid with hreleased | hlive
      · exact Or.inl (List.mem_append_left _ hreleased)
      · rcases h.live hm.keyed hlive with hlive | ⟨hreleased, -⟩
        · exact Or.inr hlive
        · exact Or.inl (List.mem_append_right _ hreleased)
    · exact Or.inr (h.stored_live hid)

theorem build_managed (myself : ClusterNodeInfo) : Managed id [] (build myself) := by
  refine ⟨fun u core hu => ?_, by simp [build], by simp [build], fun hid => absurd rfl hid, ?_, ?_, by simp,
    fun hid => ?_⟩
  · cases hu
  · simp [build]
  · simp [build]
  · cases hid

theorem trace_managed {myself : ClusterNodeInfo} {log : List Mark} (h : Trace step (build myself) log m)
    (horder : InOrder id log) (hnew : log.count (.new id) ≤ 1) (hready : log.count (.ready id) ≤ 1) :
    Managed id log m := by
  refine h.inv (fun log m => InOrder id log → log.count (.new id) ≤ 1 → log.count (.ready id) ≤ 1 →
    Managed id log m) (fun _ _ _ => build_managed myself) (fun log m x m' _ ih hx horder hnew hready => ?_)
    horder hnew hready
  have horder' := (each_append.mp horder).1
  refine (ih horder' ?_ ?_).turn (step_turn hx) horder' hnew hready
  · exact ((List.sublist_append_left _ _).count_le _).trans hnew
  · exact ((List.sublist_append_left _ _).count_le _).trans hready

end Machine

open Machine

/-- An emulation that is made and started once, and whose stop comes after it is ready or has
failed, is gone when its tasks have run. -/
theorem stop_effective {myself : ClusterNodeInfo} {id : Uuid} {log : List Mark} {m : Machine}
    (h : Trace step (build myself) log m) (hnew : log.count (.new id) ≤ 1)
    (hready : log.count (.ready id) ≤ 1) (horder : InOrder id log) (hstop : .stop id ∈ log)
    (hquiet : m.Quiet id) :
    m.manager.emulIdToEmulcore.lookup id = none ∧ (∀ t ∈ m.tasks, t.id ≠ id) ∧
      m.manager.emulIdToChannel.contains id = false ∧ (.stored id ∈ log → .released id ∈ log) := by
  have hm := trace_managed h horder hnew hready
  have hmade := hm.made
  have hnone : m.manager.emulIdToEmulcore.lookup id = none := by
    by_contra hkept
    obtain ⟨hstored, hstarted⟩ := hm.kept hkept
    have hwaits : m.tasks.countP (Task.starts id) = 0 := by
      refine List.countP_eq_zero.mpr fun t ht hstarts => ?_
      cases t with
      | start u leader c =>
        obtain ⟨core, leader', c', hrun, -⟩ := hquiet _ ht (of_decide_eq_true hstarts)
        simp [Runs] at hrun
      | _ => cases hstarts
    have hpending := hm.pending
    rw [hwaits, List.count_eq_zero.mpr hstarted] at hpending
    have hstored' := List.count_pos_iff.mpr hstored
    rcases horder.stop hstop with hin | hin <;>
      · have := List.count_pos_iff.mpr hin
        omega
  have hgone : ∀ t ∈ m.tasks, t.id ≠ id := by
    intro t ht hid
    obtain ⟨core, leader, c, hrun, hc⟩ := hquiet t ht hid
    have hcore : core.emulId = id := by
      rcases hrun with rfl | rfl <;> exact hid
    have hchannel : t.channel id = some c := by
      rcases hrun with rfl | rfl <;> simp [Task.channel, hcore]
    obtain ⟨-, hsent | ⟨-, hfailed⟩⟩ := hm.aborted t ht c hchannel
    · exact hc hsent
    · have hstored := List.count_pos_iff.mpr (hm.running t ht core leader c hrun hcore)
      have hfailed := List.count_pos_iff.mpr (hfailed hstop)
      omega
  have hdead : ¬ m.Live id := by
    rintro (hlookup | ⟨t, ht, hholds⟩ | hdrop)
    · exact hlookup hnone
    · refine hgone t ht ?_
      cases t <;> first | exact of_decide_eq_true hholds | cases hholds
    · exact hgone _ hdrop rfl
  refine ⟨hnone, hgone, ?_, fun hstored => (hm.live hstored).resolve_right hdead⟩
  by_contra hchannel
  exact hdead (hm.channel (by simpa using hchannel))

def demoEmulation : Emulation := ⟨⟨1⟩, Emulcore.demoNet 0, []⟩

def demoRun (moves : List Move) : Act Mark Machine :=
  (moves.map fun move => (Iter.inOrder, move)).foldlM step (build (Emulcore.demoHost 0))

theorem demoRun_trace {moves : List Move} {m : Machine} (h : (demoRun moves).result = .ok m) :
    Trace step (build (Emulcore.demoHost 0)) (demoRun moves).log m :=
  Trace.start.of_foldlM h

def demoMake : List Move :=
  [.receive (.experimentNew (Emulcore.demoHost 0) demoEmulation), .task 0 true, .task 0 true,
    .task 0 true, .task 0 true]

theorem stop_effective_demo : ∃ log m, Trace step (build (Emulcore.demoHost 0)) log m ∧
    .entered ⟨1⟩ ∈ log ∧ .stop ⟨1⟩ ∈ log ∧ m.manager.emulIdToEmulcore.lookup ⟨1⟩ = none ∧
    (∀ t ∈ m.tasks, t.id ≠ ⟨1⟩) ∧ .released ⟨1⟩ ∈ log := by
  have hlog : (demoRun (demoMake ++ [.receive (.experimentReady ⟨1⟩), .task 0 true,
      .receive (.experimentStop ⟨1⟩), .abort 0, .task 0 true])).log =
        [.new ⟨1⟩, .registered ⟨1⟩, .stored ⟨1⟩,
          .tell (Emulcore.demoHost 0) (.emulationReady ⟨1⟩ (Emulcore.demoHost 0)), .ready ⟨1⟩,
          .started ⟨1⟩, .entered ⟨1⟩, .stop ⟨1⟩, .released ⟨1⟩] := by
    decide +kernel
  obtain ⟨m, hm, hquiet⟩ : Returns (demoRun (demoMake ++ [.receive (.experimentReady ⟨1⟩), .task 0 true,
      .receive (.experimentStop ⟨1⟩), .abort 0, .task 0 true])).result fun m => m.tasks.length = 0 := by
    decide +kernel
  have htrace := demoRun_trace hm
  rw [hlog] at htrace
  have horder : InOrder ⟨1⟩ [.new ⟨1⟩, .registered ⟨1⟩, .stored ⟨1⟩,
      .tell (Emulcore.demoHost 0) (.emulationReady ⟨1⟩ (Emulcore.demoHost 0)), .ready ⟨1⟩,
      .started ⟨1⟩, .entered ⟨1⟩, .stop ⟨1⟩, .released ⟨1⟩] := by
    simp [InOrder, each_cons, Each.nil]
  obtain ⟨hnone, hgone, -, hreleased⟩ := stop_effective htrace (by decide) (by decide) horder (by simp)
    fun t ht => by simp [List.length_eq_zero_iff.mp hquiet] at ht
  exact ⟨_, m, htrace, by simp, by simp, hnone, hgone, hreleased (by simp)⟩

/-- A stop that comes after the core is stored and before the emulation is ready. -/
theorem stop_too_early : ∃ log m, Trace step (build (Emulcore.demoHost 0)) log m ∧
    log.count (.new ⟨1⟩) ≤ 1 ∧ log.count (.ready ⟨1⟩) ≤ 1 ∧ .stop ⟨1⟩ ∈ log ∧ m.Quiet ⟨1⟩ ∧
    m.manager.emulIdToEmulcore.lookup ⟨1⟩ ≠ none := by
  obtain ⟨m, hm, hquiet, hkept⟩ : Returns (demoRun (demoMake ++ [.receive (.experimentStop ⟨1⟩)])).result
      fun m => m.tasks.length = 0 ∧ (m.manager.emulIdToEmulcore.contains ⟨1⟩ = true) := by
    decide +kernel
  refine ⟨_, m, demoRun_trace hm, by decide +kernel, by decide +kernel, by decide +kernel,
    fun t ht => ?_, (KeySet.contains_iff_lookup _ _).mp hkept⟩
  simp [List.length_eq_zero_iff.mp hquiet] at ht

end Emanager

end Kollaps
