import Kollaps.Emanager.Stopping
import Kollaps.Emanager.World
import Kollaps.Pubapi.Rejection

/-!
# The start of an emulation

An emulation starts when all its nodes have told the leader that they are ready. A node tells so
once, and its core is registered by then.
-/

namespace Kollaps

open Run Act

namespace Emanager

open Emulcore (EmulCore)

def Task.announces (id : Uuid) : Task → Bool
  | .announce i _ => i = id
  | _ => false

/-- The task has a core that is registered, and has not told the leader yet. -/
def Task.claims (id : Uuid) : Task → Bool
  | .bind core => core.emulId = id
  | .announce i _ => i = id
  | _ => false

def makesOf (id : Uuid) : EManagerMessage → Bool
  | .experimentNew _ emul => emul.uuid = id
  | _ => false

def beginsOf (id : Uuid) : EManagerMessage → Bool
  | .experimentReady i => i = id
  | _ => false

def Mark.IsOwn (id : Uuid) (e : Mark) : Prop := e ≠ .new id ∧ e ≠ .ready id

def Move.brings (p : EManagerMessage → Bool) : Move → Bool
  | .receive message => p message
  | _ => false

theorem readies_tells {tells : List Mark} {leader : ClusterNodeInfo} {id : Uuid}
    (htells : ∀ e ∈ tells, e = .tell leader (.abort id)) : readies tells = [] := by
  refine List.filterMap_eq_nil_iff.mpr fun e he => ?_
  rw [htells e he]

theorem readies_failed {tells : List Mark} {leader : ClusterNodeInfo} {id : Uuid}
    (htells : ∀ e ∈ tells, e = .tell leader (.abort id)) : readies (.failed id :: tells) = [] := by
  unfold readies
  rw [List.filterMap_cons_none rfl]
  exact readies_tells htells

namespace Machine

variable {m m' : Machine} {new : List Mark} {id : Uuid}

/-! ## What a turn changes -/

theorem Turn.myself (h : Turn m new m') : m'.manager.myself = m.manager.myself := by
  cases h <;> rfl

theorem Turn.announces (h : Turn m new m') (id : Uuid) :
    m'.tasks.countP (Task.announces id) + (readies new).count (id, m.manager.myself) ≤
      m.tasks.countP (Task.announces id) + new.count (.stored id) := by
  cases h with
  | new | delivered | discarded | stop | ready => simp [Task.announces, readies]
  | built ht | unbuilt ht | registered ht | missing ht | entered ht | synchronized ht | finished ht
  | released ht =>
    rw [ht.countP_eq]
    simp [Task.announces, readies]
  | @failed t core rest tells ht hinit htells =>
    rw [ht.countP_eq, readies_failed htells]
    rcases hinit with rfl | rfl <;> simp [Task.announces]
  | @stored core rest dropped ht hdropped =>
    have hd := countP_dropped (P := Task.announces id) hdropped rfl
    rw [ht.countP_eq]
    by_cases he : core.emulId = id <;> simp [Task.announces, readies, hd, he]
  | @announced u leader rest ok ht =>
    rw [ht.countP_eq]
    cases ok with
    | true => by_cases he : u = id <;> simp [Task.announces, readies, he]
    | false => simp [readies, List.countP_cons]
  | ended _ ht hrun htells =>
    rw [ht.countP_eq, readies_tells htells]
    rcases hrun with rfl | rfl <;> simp [Task.announces]

/-- What a node has to tell the leader for one emulation that it is sent. -/
theorem Turn.token (h : Turn m new m') (id : Uuid) :
    m'.tasks.countP (Task.makes id) + m'.tasks.countP (Task.announces id) +
        (readies new).count (id, m.manager.myself) ≤
      m.tasks.countP (Task.makes id) + m.tasks.countP (Task.announces id) + new.count (.new id) := by
  have hmade := h.made id
  have hannounces := h.announces id
  omega

theorem Turn.claims (h : Turn m new m') {t : Task} (ht : t ∈ m'.tasks) (hc : t.claims id = true) :
    (∃ t₀ ∈ m.tasks, t₀.claims id = true) ∨ .registered id ∈ new := by
  cases h with
  | delivered | discarded | stop => exact Or.inl ⟨t, ht, hc⟩
  | new | ready =>
    rcases List.mem_append.mp ht with ht | ht
    · exact Or.inl ⟨t, ht, hc⟩
    · rw [List.mem_singleton.mp ht] at hc
      cases hc
  | unbuilt htakes | announced ok htakes | missing htakes | released htakes =>
    exact Or.inl ⟨t, htakes.mem_rest ht, hc⟩
  | built htakes | failed _ htakes | ended _ htakes | finished htakes | entered htakes
  | synchronized htakes =>
    rcases List.mem_append.mp ht with ht | ht
    · exact Or.inl ⟨t, htakes.mem_rest ht, hc⟩
    · rw [List.mem_singleton.mp ht] at hc
      cases hc
  | registered htakes =>
    rcases List.mem_append.mp ht with ht | ht
    · exact Or.inl ⟨t, htakes.mem_rest ht, hc⟩
    · rw [List.mem_singleton.mp ht] at hc
      exact Or.inr (by simp [← of_decide_eq_true hc])
  | stored htakes hdropped =>
    rcases List.mem_append.mp ht with ht | ht
    · rcases List.mem_append.mp ht with ht | ht
      · exact Or.inl ⟨t, htakes.mem_rest ht, hc⟩
      · rw [hdropped t ht] at hc
        cases hc
    · rw [List.mem_singleton.mp ht] at hc
      exact Or.inl ⟨_, htakes.mem, hc⟩

theorem Turn.tells (h : Turn m new m') {p : Uuid × ClusterNodeInfo} (hp : p ∈ readies new) :
    p.2 = m.manager.myself ∧ ∃ t ∈ m.tasks, t.claims p.1 = true := by
  cases h with
  | @announced u leader rest ok htakes =>
    cases ok with
    | true =>
      simp only [readies, if_true, List.filterMap_cons, List.filterMap_nil, List.mem_singleton] at hp
      subst hp
      exact ⟨rfl, _, htakes.mem, by simp [Task.claims]⟩
    | false => simp [readies] at hp
  | @failed t core rest tells ht hinit htells =>
    simp [readies_failed htells] at hp
  | ended _ ht hrun htells => simp [readies_tells htells] at hp
  | _ => simp [readies] at hp

theorem Turn.waits (h : Turn m new m') {t : Task} (ht : t ∈ m'.tasks) (hs : t.starts id = true) :
    (∃ t₀ ∈ m.tasks, t₀.starts id = true) ∨ .ready id ∈ new := by
  have hpos : 0 < m'.tasks.countP (Task.starts id) := List.countP_pos_iff.mpr ⟨t, ht, hs⟩
  have hpending := h.pending id
  rw [← List.countP_pos_iff, ← List.count_pos_iff]
  omega

theorem Turn.entered_waited (h : Turn m new m') (hid : .entered id ∈ new) :
    ∃ t ∈ m.tasks, t.starts id = true := by
  cases h with
  | entered htakes =>
    simp only [List.mem_cons, reduceCtorEq, Mark.entered.injEq, List.not_mem_nil, or_false, false_or] at hid
    exact ⟨_, htakes.mem, by simp [Task.starts, hid]⟩
  | failed tells ht hinit htells =>
    rcases List.mem_cons.mp hid with hid | hid
    · cases hid
    · cases htells _ hid
  | ended _ ht hrun htells => cases htells _ hid
  | announced ok => simp at hid
  | _ => simp at hid

/-! ## What comes from a message -/

def heard (m : Machine) : EManagerMessage → Mark
  | .experimentNew _ emul => .new emul.uuid
  | .emulCoreInterchange id _ => if m.manager.emulIdToChannel.contains id then .delivered id
    else .discarded id
  | .experimentStop id => .stop id
  | .experimentReady id => .ready id

theorem receive_log {message : EManagerMessage} (h : (m.receive message).result = .ok m') :
    (m.receive message).log = [m.heard message] := by
  cases message with
  | experimentNew leader emul => rfl
  | emulCoreInterchange u mess =>
    unfold receive onEmulCoreInterchange heard at *
    simp only at h ⊢
    split at h <;> rename_i hchannel
    · split at h <;> rename_i halive
      · rw [if_pos hchannel, if_pos halive, if_pos hchannel]
        rfl
      · cases h
    · rw [if_neg hchannel, if_neg hchannel]
      rfl
  | experimentStop u => rfl
  | experimentReady u =>
    unfold receive onExperimentReady at h ⊢
    obtain ⟨leader, -, h, hlog⟩ := of_bind_eq_ok h
    rw [hlog]
    rfl

theorem runTask_own (it : Iter) (m : Machine) (ok : Bool) (t : Task) (id : Uuid) :
    ∀ e ∈ (m.runTask it ok t).log, e.IsOwn id := by
  cases t with
  | create emul leader =>
    unfold runTask
    simp only
    split <;> simp [Mark.IsOwn, log_emit_bind]
  | init core =>
    unfold runTask failInit
    simp only
    split
    · split <;> simp [Mark.IsOwn, log_emit_bind]
    · simp [Mark.IsOwn, log_emit_bind]
  | bind core =>
    unfold runTask failInit
    simp only
    split <;> simp [Mark.IsOwn, log_emit_bind]
  | start u leader abortChannel =>
    unfold runTask
    simp only [log_emit_bind, List.forall_mem_cons]
    refine ⟨by simp [Mark.IsOwn], ?_⟩
    split <;> simp [Mark.IsOwn, log_emit_bind]
  | synchronize core leader abortChannel | flowLoop core leader abortChannel =>
    unfold runTask failRun
    simp only
    split <;> simp [Mark.IsOwn, log_emit_bind]
  | announce u leader | drop u => simp [runTask, Mark.IsOwn, log_emit_bind]

theorem takeAbort_log (m : Machine) (t : Task) : (m.takeAbort t).log = [] := by
  unfold takeAbort
  split
  · split <;> rfl
  · split <;> rfl
  · rfl

theorem step_own {it : Iter} {move : Move} (h : (m.step (it, move)).result = .ok m')
    (hmove : ∀ message, move ≠ .receive message) (id : Uuid) : ∀ e ∈ (m.step (it, move)).log, e.IsOwn id := by
  unfold step at h ⊢
  cases move with
  | receive message => exact absurd rfl (hmove message)
  | task i ok =>
    obtain ⟨⟨t, m₁⟩, -, -, hlog⟩ := of_bind_eq_ok h
    rw [hlog]
    exact runTask_own it m₁ ok t id
  | abort i =>
    obtain ⟨⟨t, m₁⟩, -, -, hlog⟩ := of_bind_eq_ok h
    rw [hlog]
    simp [takeAbort_log]

theorem step_new {it : Iter} {move : Move} (h : (m.step (it, move)).result = .ok m') (id : Uuid) :
    (m.step (it, move)).log.count (.new id) ≤ if move.brings (makesOf id) then 1 else 0 := by
  cases move with
  | receive message =>
    have hlog : (m.step (it, .receive message)).log = [m.heard message] := receive_log h
    rw [hlog]
    cases message with
    | experimentNew leader emul => by_cases he : emul.uuid = id <;> simp [heard, Move.brings, makesOf, he]
    | emulCoreInterchange u mess =>
      simp only [heard]
      split <;> simp
    | experimentStop u | experimentReady u => simp [heard]
  | task | abort =>
    rw [List.count_eq_zero.mpr fun hmem => (step_own h (by simp) id _ hmem).1 rfl]
    exact Nat.zero_le _

theorem step_ready {it : Iter} {move : Move} (h : (m.step (it, move)).result = .ok m')
    (hid : .ready id ∈ (m.step (it, move)).log) : move.brings (beginsOf id) = true := by
  cases move with
  | receive message =>
    have hlog : (m.step (it, .receive message)).log = [m.heard message] := receive_log h
    rw [hlog, List.mem_singleton] at hid
    cases message with
    | experimentReady u => simpa [heard, Move.brings, beginsOf, eq_comm] using hid
    | emulCoreInterchange u mess =>
      simp only [heard] at hid
      split at hid <;> cases hid
    | experimentNew | experimentStop => cases hid
  | task | abort => exact absurd rfl (step_own h (by simp) id _ hid).2

end Machine

/-! ## What the leader does -/

open Pubapi (OManager Effect Env Input)

def sentTo (p : EManagerMessage → Bool) (n : ClusterNodeInfo)
    (x : ClusterNodeInfo × EManagerMessage) : Bool :=
  x.1 = n && p x.2

section

variable {m : OManager} {m' : Option OManager} {input : Input} {id : Uuid} {n : ClusterNodeInfo}

theorem countP_sends (effects : List Effect) (id : Uuid) (n : ClusterNodeInfo) :
    (sends effects).countP (sentTo (makesOf id) n) = effects.countP (Effect.news id n) := by
  unfold sends
  rw [List.countP_filterMap]
  refine List.countP_congr fun e _ => ?_
  cases e with
  | reply message => simp [Effect.news]
  | send k message => cases message <;> simp [Effect.news, sentTo, makesOf]

theorem mem_sends {effects : List Effect} {x : ClusterNodeInfo × EManagerMessage} (h : x ∈ sends effects) :
    .send x.1 x.2 ∈ effects := by
  unfold sends at h
  obtain ⟨e, he, hx⟩ := List.mem_filterMap.mp h
  cases e with
  | reply message => cases hx
  | send k message =>
    cases hx
    exact he

theorem events_topology {uuid : Uuid} {top : String} {m₁ : OManager} {table : HostMap Bool}
    (h : m₁.emulationsAndTheirNodes.lookup uuid = some table) :
    events m (.message uuid (.newTopology top)) (some m₁) = [.placed uuid table.keys] := by
  simp only [events, Option.bind_some, h]

theorem events_cases (m : OManager) (input : Input) (m' : Option OManager) :
    events m input m' = [] ∧ (∀ uuid id n, input ≠ .message uuid (.emulationReady id n)) ∨
    (∃ uuid top m₁ table, input = .message uuid (.newTopology top) ∧ m' = some m₁ ∧
      m₁.emulationsAndTheirNodes.lookup uuid = some table ∧ events m input m' = [.placed uuid table.keys]) ∨
    ∃ uuid id n, input = .message uuid (.emulationReady id n) ∧
      events m input m' = .handled id n :: if m.startsLoop id n then [.loop id] else [] := by
  cases input with
  | update update => exact Or.inl ⟨rfl, by simp⟩
  | message uuid message =>
    cases message with
    | newTopology top =>
      cases m' with
      | none => exact Or.inl ⟨rfl, by simp⟩
      | some m₁ =>
        cases htable : m₁.emulationsAndTheirNodes.lookup uuid with
        | none => exact Or.inl ⟨by simp [events, htable], by simp⟩
        | some table =>
          exact Or.inr (Or.inl ⟨uuid, top, m₁, table, rfl, rfl, htable, events_topology htable⟩)
    | emulationReady id n => exact Or.inr (Or.inr ⟨uuid, id, n, rfl, rfl⟩)
    | _ => exact Or.inl ⟨rfl, by simp⟩

theorem placed_of_events {nodes : List ClusterNodeInfo} (h : .placed id nodes ∈ events m input m') :
    ∃ top m₁ table, input = .message id (.newTopology top) ∧ m' = some m₁ ∧
      m₁.emulationsAndTheirNodes.lookup id = some table ∧ nodes = table.keys := by
  rcases events_cases m input m' with ⟨he, -⟩ | ⟨uuid, top, m₁, table, hin, hm, htable, he⟩ |
    ⟨uuid, u, k, -, he⟩
  · simp [he] at h
  · rw [he, List.mem_singleton] at h
    cases h
    exact ⟨top, m₁, table, hin, hm, htable, rfl⟩
  · rw [he] at h
    split at h <;> simp at h

theorem loop_of_events (h : .loop id ∈ events m input m') :
    ∃ uuid n, input = .message uuid (.emulationReady id n) ∧ m.startsLoop id n = true := by
  rcases events_cases m input m' with ⟨he, -⟩ | ⟨uuid, top, m₁, table, -, -, -, he⟩ | ⟨uuid, u, k, hin, he⟩
  · simp [he] at h
  · simp [he] at h
  · rw [he] at h
    split at h <;> rename_i hloop
    · simp only [List.mem_cons, reduceCtorEq, Event.loop.injEq, List.not_mem_nil, or_false, false_or] at h
      subst h
      exact ⟨uuid, k, hin, hloop⟩
    · simp at h

theorem count_loop_events : (events m input m').count (.loop id) ≤ 1 := by
  rcases events_cases m input m' with ⟨he, -⟩ | ⟨uuid, top, m₁, table, -, -, -, he⟩ | ⟨uuid, u, k, -, he⟩
  · simp [he]
  · simp [he]
  · rw [he]
    split
    · by_cases hu : u = id <;> simp [hu]
    · simp

theorem node_not_mem_events {mark : Mark} : .node n mark ∉ events m input m' := by
  rcases events_cases m input m' with ⟨he, -⟩ | ⟨uuid, top, m₁, table, -, -, -, he⟩ | ⟨uuid, u, k, -, he⟩
  · simp [he]
  · simp [he]
  · rw [he]
    split <;> simp

end

namespace World

variable {w w' : World} {toLeader : List (Uuid × ClusterNodeInfo)} {input : Input} {m : OManager} {id : Uuid}
  {n : ClusterNodeInfo}

theorem isPlaced_iff {id : Uuid} : w.isPlaced id = true ↔ ∃ nodes, .placed id nodes ∈ w.log := by
  unfold isPlaced
  rw [List.any_eq_true]
  constructor
  · rintro ⟨e, he, hid⟩
    cases e with
    | placed u nodes => exact ⟨nodes, of_decide_eq_true hid ▸ he⟩
    | _ => cases hid
  · rintro ⟨nodes, he⟩
    exact ⟨_, he, by simp⟩

theorem Led.fresh {top : String} {nodes : List ClusterNodeInfo}
    (h : Led w toLeader (.message id (.newTopology top))) : .placed id nodes ∉ w.log := by
  intro hmem
  cases h with
  | free hadmits _ => simp [admits, isPlaced_iff.mpr ⟨nodes, hmem⟩] at hadmits

theorem Led.passed (h : Led w toLeader input) (m' : Option OManager) (id : Uuid) (n : ClusterNodeInfo) :
    toLeader.count (id, n) + (events m input m').count (.handled id n) = w.toLeader.count (id, n) := by
  cases h with
  | free hadmits hsame =>
    subst hsame
    rcases events_cases m input m' with ⟨he, -⟩ | ⟨uuid, top, m₁, table, -, -, -, he⟩ | ⟨uuid, u, k, rfl, he⟩
    · simp [he]
    · simp [he]
    · cases hadmits
  | @ready u k hperm =>
    rw [hperm.count_eq, List.count_cons]
    show _ + (Event.handled u k :: if m.startsLoop u k then [.loop u] else []).count _ = _
    split <;> by_cases hu : u = id <;> by_cases hk : k = n <;> simp [hu, hk]

theorem Led.news (h : Led w toLeader input) (env : Env) (id : Uuid) (n : ClusterNodeInfo) :
    (sends (m.handle env input).log).countP (sentTo (makesOf id) n) ≤ 1 ∧
    (0 < (sends (m.handle env input).log).countP (sentTo (makesOf id) n) →
      w.isPlaced id = false ∧
        ∃ nodes, .placed id nodes ∈ events m input (m.handle env input).result.toOption) := by
  rw [countP_sends]
  have hidle : (∀ e ∈ (m.handle env input).log, e.Idle ∨ ∃ k u, e = .send k (.experimentReady u)) →
      (m.handle env input).log.countP (Effect.news id n) = 0 := by
    refine fun hlog => List.countP_eq_zero.mpr fun e he => ?_
    rcases hlog e he with hidle | ⟨k, u, rfl⟩
    · simp [(hidle id).2 n]
    · simp [Effect.news]
  cases h with
  | free hadmits hsame =>
    by_cases htopology : ∀ uuid top, input ≠ .message uuid (.newTopology top)
    · rw [hidle fun e he => Or.inl (OManager.handle_idle htopology (fun uuid u k hin => ?_) e he)]
      · simp
      · subst hin
        cases hadmits
    · simp only [ne_eq, not_forall, not_not] at htopology
      obtain ⟨uuid, top, rfl⟩ := htopology
      have hsends := OManager.onNewTopology_sends env m uuid id top
      refine ⟨hsends.once n, fun hpos => ?_⟩
      obtain ⟨rfl, m₁, hm₁, hentered⟩ := hsends.entered n hpos
      obtain ⟨table, htable⟩ := Option.ne_none_iff_exists'.mp hentered
      refine ⟨by simpa [admits] using hadmits, table.keys, ?_⟩
      have hresult : (m.handle env (.message uuid (.newTopology top))).result = .ok m₁ := hm₁
      rw [hresult]
      show _ ∈ events m _ (some m₁)
      rw [events_topology htable]
      exact List.mem_singleton_self _
  | @ready u k hperm =>
    rw [hidle fun e he => ?_]
    · simp
    · refine (OManager.onEmulationReady_sends env m u k e he).imp_right ?_
      rintro ⟨-, k', rfl⟩
      exact ⟨k', u, rfl⟩

theorem Led.begins (h : Led w toLeader input) {env : Env} {x : ClusterNodeInfo × EManagerMessage}
    (hx : x ∈ sends (m.handle env input).log) (hid : beginsOf id x.2 = true) :
    .loop id ∈ events m input (m.handle env input).result.toOption := by
  have hmem := mem_sends hx
  obtain ⟨k, message⟩ := x
  cases message with
  | experimentReady u =>
    have hu : u = id := of_decide_eq_true hid
    subst hu
    have hbusy : ¬ Effect.Idle (.send k (.experimentReady u)) := fun hidle => by
      simpa [Effect.begins] using (hidle u).1
    cases h with
    | free hadmits hsame =>
      by_cases htopology : ∀ uuid top, input ≠ .message uuid (.newTopology top)
      · refine absurd (OManager.handle_idle htopology (fun uuid u k hin => ?_) _ hmem) hbusy
        subst hin
        cases hadmits
      · simp only [ne_eq, not_forall, not_not] at htopology
        obtain ⟨uuid, top, rfl⟩ := htopology
        have hno := (OManager.onNewTopology_sends env m uuid u top).begins _ hmem
        simp [Effect.begins] at hno
    | @ready u' k' hperm =>
      rcases OManager.onEmulationReady_sends env m u' k' _ hmem with hidle | ⟨hloop, k'', heq⟩
      · exact absurd hidle hbusy
      · cases heq
        show _ ∈ Event.handled u k' :: if m.startsLoop u k' then [.loop u] else []
        simp [hloop]
  | _ => cases hid

theorem Acted.brings {toNodes : List (ClusterNodeInfo × EManagerMessage)} {move : Move}
    (h : Acted w toNodes n move) {p : EManagerMessage → Bool}
    (hp : ∀ message, Emanager.free message = true → p message = false)
    (k : ClusterNodeInfo) : toNodes.countP (sentTo p k) + (if n = k ∧ move.brings p = true then 1 else 0) =
      w.toNodes.countP (sentTo p k) := by
  cases h with
  | @deliver message hperm =>
    rw [hperm.countP_eq, List.countP_cons]
    by_cases hn : n = k ∧ p message = true <;> simp [sentTo, Move.brings, hn]
  | free hfree hsame => simp [hsame, Move.brings, hp _ hfree]
  | task i ok hsame => simp [hsame, Move.brings]
  | abort i hsame => simp [hsame, Move.brings]

theorem Acted.subset {toNodes : List (ClusterNodeInfo × EManagerMessage)} {move : Move}
    (h : Acted w toNodes n move) {x : ClusterNodeInfo × EManagerMessage} (hx : x ∈ toNodes) :
    x ∈ w.toNodes := by
  cases h with
  | deliver hperm => exact hperm.mem_iff.mpr (List.mem_cons_of_mem _ hx)
  | free hfree hsame => exact hsame ▸ hx
  | task i ok hsame => exact hsame ▸ hx
  | abort i hsame => exact hsame ▸ hx

theorem Acted.brought {toNodes : List (ClusterNodeInfo × EManagerMessage)} {move : Move}
    (h : Acted w toNodes n move) {p : EManagerMessage → Bool}
    (hp : ∀ message, Emanager.free message = true → p message = false) (hmove : move.brings p = true) :
    ∃ x ∈ w.toNodes, p x.2 = true := by
  have hcount := h.brings hp n
  rw [if_pos ⟨rfl, hmove⟩] at hcount
  obtain ⟨x, hx, hsent⟩ := List.countP_pos_iff.mp (by omega : 0 < w.toNodes.countP (sentTo p n))
  exact ⟨x, hx, (Bool.and_eq_true _ _ ▸ hsent).2⟩

/-! ## Every run -/

theorem Reached.inv {P : World → Prop} (hbuild : ∀ m, m.emulationsAndTheirNodes = KeySet.empty → P (.build m))
    (hstep : ∀ w w', Reached w → P w → Stepped w w' → P w') (h : Reached w) : P w := by
  induction h with
  | build h => exact hbuild _ (OManager.build_ok h).2.2
  | step h hs ih => exact hstep _ _ h ih (step_stepped hs)

theorem Reached.myself (h : Reached w) (n : ClusterNodeInfo) : (w.machines n).manager.myself = n := by
  refine h.inv (P := fun w => ∀ n, (w.machines n).manager.myself = n) (fun _ _ _ => rfl) ?_ n
  intro w w' _ ih hs k
  cases hs with
  | led hm hled => exact ih k
  | @acted n it move toNodes machine hacted hs =>
    by_cases hk : k = n
    · subst hk
      simp only [Function.update_self]
      exact (Machine.step_turn hs).myself.trans (ih k)
    · simp only [Function.update_of_ne hk]
      exact ih k

/-- The one thing that stands for node `n` on its way from the placement to the leader: the
emulation in flight, its core, the answer in flight, or the answer that was taken. -/
def token (w : World) (id : Uuid) (n : ClusterNodeInfo) : Nat :=
  w.toNodes.countP (sentTo (makesOf id) n) + (w.machines n).tasks.countP (Task.makes id) +
    (w.machines n).tasks.countP (Task.announces id) + w.toLeader.count (id, n) + w.log.count (.handled id n)

theorem count_nodes {e : Event} (he : ∀ n mark, .node n mark ≠ e) (marks : List Mark) (k : ClusterNodeInfo) :
    (marks.map (Event.node k)).count e = 0 := by
  refine List.count_eq_zero.mpr fun hmem => ?_
  obtain ⟨mark, -, heq⟩ := List.mem_map.mp hmem
  exact he k mark heq

theorem free_makes (message : EManagerMessage) (h : Emanager.free message = true) :
    makesOf id message = false := by
  cases message <;> first | rfl | cases h

theorem free_begins (message : EManagerMessage) (h : Emanager.free message = true) :
    beginsOf id message = false := by
  cases message <;> first | rfl | cases h

theorem token_acted {k : ClusterNodeInfo} {it : Iter} {move : Move}
    {toNodes : List (ClusterNodeInfo × EManagerMessage)} {machine : Machine} (h : Reached w)
    (hacted : Acted w toNodes k move) (hs : ((w.machines k).step (it, move)).result = .ok machine)
    (id : Uuid) (n : ClusterNodeInfo) : token { w with
      machines := Function.update w.machines k machine
      toNodes
      toLeader := w.toLeader ++ readies ((w.machines k).step (it, move)).log
      log := w.log ++ ((w.machines k).step (it, move)).log.map (.node k) } id n ≤ w.token id n := by
  have hbrings := hacted.brings (p := makesOf id) free_makes n
  have hturn := Machine.step_turn hs
  have hmyself := h.myself k
  unfold token
  rw [List.count_append, List.count_append, count_nodes (by simp)]
  by_cases hn : n = k
  · subst hn
    have htoken := hturn.token id
    have hnew := Machine.step_new hs id
    rw [hmyself] at htoken
    simp only [Function.update_self]
    simp only [true_and] at hbrings
    omega
  · have hreadies : (readies ((w.machines k).step (it, move)).log).count (id, n) = 0 := by
      refine List.count_eq_zero.mpr fun hmem => hn ?_
      exact (hturn.tells hmem).1.trans hmyself
    simp only [Function.update_of_ne hn]
    omega

theorem Reached.token (h : Reached w) (id : Uuid) (n : ClusterNodeInfo) :
    w.token id n ≤ 1 ∧ (w.isPlaced id = false → w.token id n = 0) := by
  refine h.inv (P := fun w => w.token id n ≤ 1 ∧ (w.isPlaced id = false → w.token id n = 0)) ?_ ?_
  · simp [World.token, World.build, Machine.build]
  intro w w' h ih hs
  cases hs with
  | @led m env input toLeader hm hled =>
    have hpassed := hled.passed (m := m) (m.handle env input).result.toOption id n
    obtain ⟨honce, hplaced⟩ := hled.news (m := m) env id n
    have hsame : World.token { w with
        leader := (m.handle env input).result.toOption
        toNodes := w.toNodes ++ sends (m.handle env input).log
        toLeader
        log := w.log ++ events m input (m.handle env input).result.toOption } id n =
        w.token id n + (sends (m.handle env input).log).countP (sentTo (makesOf id) n) := by
      simp only [World.token, List.countP_append, List.count_append]
      omega
    rw [hsame]
    constructor
    · by_cases hpos : 0 < (sends (m.handle env input).log).countP (sentTo (makesOf id) n)
      · have hzero := ih.2 (hplaced hpos).1
        omega
      · omega
    · intro hnot
      rw [Bool.eq_false_iff, ne_eq, isPlaced_iff] at hnot
      have hold : w.isPlaced id = false := by
        rw [Bool.eq_false_iff, ne_eq, isPlaced_iff]
        rintro ⟨nodes, hmem⟩
        exact hnot ⟨nodes, List.mem_append_left _ hmem⟩
      have hzero := ih.2 hold
      by_contra hne
      obtain ⟨-, nodes, hmem⟩ := hplaced (by omega)
      exact hnot ⟨nodes, List.mem_append_right _ hmem⟩
  | acted hacted hs =>
    have hle := token_acted h hacted hs id n
    refine ⟨hle.trans ih.1, fun hnot => ?_⟩
    have hold : w.isPlaced id = false := by
      rw [Bool.eq_false_iff, ne_eq, isPlaced_iff] at hnot ⊢
      rintro ⟨nodes, hmem⟩
      exact hnot ⟨nodes, List.mem_append_left _ hmem⟩
    have hzero := ih.2 hold
    omega

theorem Reached.placed (h : Reached w) {nodes nodes' : List ClusterNodeInfo}
    (hnodes : .placed id nodes ∈ w.log)
    (hnodes' : .placed id nodes' ∈ w.log) : nodes = nodes' := by
  refine h.inv (P := fun w => ∀ nodes nodes', .placed id nodes ∈ w.log → .placed id nodes' ∈ w.log →
    nodes = nodes') (by simp [World.build]) ?_ nodes nodes' hnodes hnodes'
  intro w w' _ ih hs nodes nodes' hnodes hnodes'
  cases hs with
  | led hm hled =>
    rcases List.mem_append.mp hnodes with hold | hnew
    · rcases List.mem_append.mp hnodes' with hold' | hnew'
      · exact ih _ _ hold hold'
      · obtain ⟨top, m₁, table, rfl, -⟩ := placed_of_events hnew'
        exact absurd hold hled.fresh
    · obtain ⟨top, m₁, table, rfl, hm₁, htable, rfl⟩ := placed_of_events hnew
      rcases List.mem_append.mp hnodes' with hold' | hnew'
      · exact absurd hold' hled.fresh
      · obtain ⟨top', m₂, table', -, hm₂, htable', rfl⟩ := placed_of_events hnew'
        cases hm₁.symm.trans hm₂
        cases htable.symm.trans htable'
        rfl
  | acted hacted hs =>
    simp only [List.mem_append, List.mem_map, reduceCtorEq, and_false, exists_false,
      or_false] at hnodes hnodes'
    exact ih _ _ hnodes hnodes'

theorem Reached.registered (h : Reached w) (hclaim : (∃ t ∈ (w.machines n).tasks, t.claims id = true) ∨
    (id, n) ∈ w.toLeader ∨ .handled id n ∈ w.log) : .node n (.registered id) ∈ w.log := by
  refine h.inv (P := fun w => ∀ n, ((∃ t ∈ (w.machines n).tasks, t.claims id = true) ∨
    (id, n) ∈ w.toLeader ∨ .handled id n ∈ w.log) → .node n (.registered id) ∈ w.log) ?_ ?_ n hclaim
  · simp [World.build, Machine.build]
  intro w w' h ih hs n hclaim
  cases hs with
  | @led m env input toLeader hm hled =>
    have hpassed := hled.passed (m := m) (m.handle env input).result.toOption id n
    refine List.mem_append_left _ (ih n ?_)
    rcases hclaim with htask | hflight | hhandled
    · exact Or.inl htask
    · refine Or.inr (Or.inl (List.count_pos_iff.mp ?_))
      have hpos : 0 < toLeader.count (id, n) := List.count_pos_iff.mpr hflight
      omega
    · rcases List.mem_append.mp hhandled with hold | hnew
      · exact Or.inr (Or.inr hold)
      · refine Or.inr (Or.inl (List.count_pos_iff.mp ?_))
        have hpos := List.count_pos_iff.mpr hnew
        omega
  | @acted k it move toNodes machine hacted hs =>
    have hturn := Machine.step_turn hs
    rcases hclaim with ⟨t, ht, hc⟩ | hflight | hhandled
    · by_cases hn : n = k
      · subst hn
        simp only [Function.update_self] at ht
        rcases hturn.claims ht hc with hold | hnew
        · exact List.mem_append_left _ (ih n (Or.inl hold))
        · exact List.mem_append_right _ (List.mem_map_of_mem hnew)
      · simp only [Function.update_of_ne hn] at ht
        exact List.mem_append_left _ (ih n (Or.inl ⟨t, ht, hc⟩))
    · refine List.mem_append_left _ (ih n ?_)
      rcases List.mem_append.mp hflight with hold | hnew
      · exact Or.inr (Or.inl hold)
      · obtain ⟨hself, hclaims⟩ := hturn.tells hnew
        rw [h.myself] at hself
        simp only at hself
        subst hself
        exact Or.inl hclaims
    · simp only [List.mem_append, List.mem_map, reduceCtorEq, and_false, exists_false, or_false] at hhandled
      exact List.mem_append_left _ (ih n (Or.inr (Or.inr hhandled)))

/-- The nodes that the leader has for an emulation are those it was placed on, and those that are
ready have told so. -/
structure Tabled (w : World) (id : Uuid) (table : HostMap Bool) (nodes : List ClusterNodeInfo) : Prop where
  placed : .placed id nodes ∈ w.log
  keys : ∀ k, table.lookup k ≠ none ↔ k ∈ nodes
  ready : ∀ k, table.lookup k = some true → .handled id k ∈ w.log

theorem Reached.table (h : Reached w) (hm : w.leader = some m) {table : HostMap Bool}
    (htable : m.emulationsAndTheirNodes.lookup id = some table) : ∃ nodes, w.Tabled id table nodes := by
  refine h.inv (P := fun w => ∀ m table, w.leader = some m →
    m.emulationsAndTheirNodes.lookup id = some table →
    ∃ nodes, w.Tabled id table nodes) ?_ ?_ m table hm htable
  · intro m hempty m' table hm htable
    cases hm
    simp [hempty] at htable
  intro w w' _ ih hs m' table hm' htable
  cases hs with
  | @led m env input toLeader hm hled =>
    simp only at hm'
    have hresult : (m.handle env input).result = .ok m' := by
      cases hr : (m.handle env input).result <;> simp_all [Except.toOption]
    rw [hm']
    rcases OManager.handle_table hresult htable with hold | ⟨top, rfl, hnone⟩ | ⟨uuid, k, old, rfl,
      hold, hk, rfl⟩
    · obtain ⟨nodes, hplaced, hkeys, hready⟩ := ih m table hm hold
      exact ⟨nodes, List.mem_append_left _ hplaced, hkeys, fun k hk => List.mem_append_left _ (hready k hk)⟩
    · refine ⟨table.keys, ?_, fun k => ?_, fun k hk => absurd hk (hnone k)⟩
      · simp [events_topology htable]
      · rw [← KeySet.contains_iff_lookup, KeySet.contains_iff]
    · obtain ⟨nodes, hplaced, hkeys, hready⟩ := ih m old hm hold
      refine ⟨nodes, List.mem_append_left _ hplaced, fun k' => ?_, fun k' hk' => ?_⟩
      · rw [← hkeys, KeySet.lookup_put]
        split <;> rename_i heq
        · simpa [heq] using hk
        · rfl
      · rw [KeySet.lookup_put] at hk'
        split at hk' <;> rename_i heq
        · simp [events, heq]
        · exact List.mem_append_left _ (hready k' hk')
  | acted hacted hs =>
    obtain ⟨nodes, hplaced, hkeys, hready⟩ := ih m' table hm' htable
    exact ⟨nodes, List.mem_append_left _ hplaced, hkeys, fun k hk => List.mem_append_left _ (hready k hk)⟩

def Full (log : List Event) (id : Uuid) : Prop :=
  ∃ nodes, .placed id nodes ∈ log ∧ ∀ k ∈ nodes, .handled id k ∈ log

theorem Full.mono {log log' : List Event} (h : Full log id) (hsub : ∀ e, e ∈ log → e ∈ log') :
    Full log' id := by
  obtain ⟨nodes, hplaced, hall⟩ := h
  exact ⟨nodes, hsub _ hplaced, fun k hk => hsub _ (hall k hk)⟩

/-- A loop runs when the last node of the emulation is taken as ready. -/
theorem Reached.last (h : Reached w) (hm : w.leader = some m) (hloop : m.startsLoop id n = true) :
    ∃ nodes, .placed id nodes ∈ w.log ∧ n ∈ nodes ∧ ∀ k ∈ nodes, k = n ∨ .handled id k ∈ w.log := by
  unfold OManager.startsLoop at hloop
  split at hloop <;> rename_i htable
  · rw [Bool.and_eq_true, KeySet.contains_iff_lookup, OManager.put_ready] at hloop
    obtain ⟨hn, hall⟩ := hloop
    obtain ⟨nodes, hplaced, hkeys, hready⟩ := h.table hm htable
    refine ⟨nodes, hplaced, (hkeys n).mp hn, fun k hk => or_iff_not_imp_left.mpr fun hne => hready k ?_⟩
    obtain ⟨r, hr⟩ := Option.ne_none_iff_exists'.mp ((hkeys k).mpr hk)
    have htrue : r = true := hall (k, r) (KeySet.lookup_eq_some.mp hr) hne
    rw [hr, htrue]
  · cases hloop

theorem Reached.begun (h : Reached w) (hbegun : (∃ x ∈ w.toNodes, beginsOf id x.2 = true) ∨
    (∃ n, ∃ t ∈ (w.machines n).tasks, t.starts id = true) ∨ .loop id ∈ w.log) : Full w.log id := by
  refine h.inv (P := fun w => ((∃ x ∈ w.toNodes, beginsOf id x.2 = true) ∨
    (∃ n, ∃ t ∈ (w.machines n).tasks, t.starts id = true) ∨ .loop id ∈ w.log) → Full w.log id) ?_ ?_ hbegun
  · simp [World.build, Machine.build]
  intro w w' h ih hs hbegun
  cases hs with
  | @led m env input toLeader hm hled =>
    by_cases hloop : .loop id ∈ events m input (m.handle env input).result.toOption
    · obtain ⟨uuid, n, rfl, hstarts⟩ := loop_of_events hloop
      obtain ⟨nodes, hplaced, -, hall⟩ := h.last hm hstarts
      refine ⟨nodes, List.mem_append_left _ hplaced, fun k hk => ?_⟩
      rcases hall k hk with rfl | hhandled
      · simp [events]
      · exact List.mem_append_left _ hhandled
    · refine (ih ?_).mono fun e => List.mem_append_left _
      rcases hbegun with ⟨x, hx, hid⟩ | htask | hmem
      · rcases List.mem_append.mp hx with hold | hnew
        · exact Or.inl ⟨x, hold, hid⟩
        · exact absurd (hled.begins hnew hid) hloop
      · exact Or.inr (Or.inl htask)
      · exact Or.inr (Or.inr ((List.mem_append.mp hmem).resolve_right hloop))
  | @acted k it move toNodes machine hacted hs =>
    refine (ih ?_).mono fun e => List.mem_append_left _
    rcases hbegun with ⟨x, hx, hid⟩ | ⟨n, t, ht, hstarts⟩ | hmem
    · exact Or.inl ⟨x, hacted.subset hx, hid⟩
    · by_cases hn : n = k
      · subst hn
        simp only [Function.update_self] at ht
        rcases (Machine.step_turn hs).waits ht hstarts with hold | hnew
        · exact Or.inr (Or.inl ⟨n, hold⟩)
        · exact Or.inl (hacted.brought free_begins (Machine.step_ready hs hnew))
      · simp only [Function.update_of_ne hn] at ht
        exact Or.inr (Or.inl ⟨n, t, ht, hstarts⟩)
    · simp only [List.mem_append, List.mem_map, reduceCtorEq, and_false, exists_false, or_false] at hmem
      exact Or.inr (Or.inr hmem)

theorem Reached.loops (h : Reached w) (id : Uuid) : w.log.count (.loop id) ≤ 1 := by
  refine h.inv (P := fun w => w.log.count (.loop id) ≤ 1) (by simp [World.build]) ?_
  intro w w' h ih hs
  cases hs with
  | @led m env input toLeader hm hled =>
    rw [List.count_append]
    have hone : (events m input (m.handle env input).result.toOption).count (.loop id) ≤ 1 :=
      count_loop_events
    by_cases hloop : .loop id ∈ events m input (m.handle env input).result.toOption
    · obtain ⟨uuid, n, rfl, hstarts⟩ := loop_of_events hloop
      obtain ⟨nodes, hplaced, hn, -⟩ := h.last hm hstarts
      -- The node is in flight, so it has not been taken as ready, and no loop has run.
      have hflight : 0 < w.toLeader.count (id, n) := by
        have hpassed := hled.passed (m := m)
          (m.handle env (.message uuid (.emulationReady id n))).result.toOption id n
        simp only [events, List.count_cons_self] at hpassed
        omega
      have htoken := (h.token id n).1
      unfold World.token at htoken
      have hold : w.log.count (.loop id) = 0 := by
        refine List.count_eq_zero.mpr fun hmem => ?_
        obtain ⟨nodes', hplaced', hall⟩ := h.begun (Or.inr (Or.inr hmem))
        rw [h.placed hplaced hplaced'] at hn
        have hpos := List.count_pos_iff.mpr (hall n hn)
        omega
      omega
    · rw [List.count_eq_zero.mpr hloop]
      exact ih
  | acted hacted hs =>
    rw [List.count_append, count_nodes (by simp)]
    exact ih

/-- What a core that enters `synchronize` may rely on. -/
def AllRegistered (pre : List Event) (e : Event) : Prop :=
  ∀ n id, e = .node n (.entered id) → ∃ nodes, .placed id nodes ∈ pre ∧
    ∀ k ∈ nodes, .node k (.registered id) ∈ pre

theorem Reached.barrier (h : Reached w) : Each AllRegistered w.log := by
  refine h.inv (P := fun w => Each AllRegistered w.log) (fun _ _ => Each.nil) ?_
  intro w w' h ih hs
  cases hs with
  | @led m env input toLeader hm hled =>
    refine each_append.mpr ⟨ih, fun pre e post hsplit n id he => ?_⟩
    subst he
    have hmem : Event.node n (.entered id) ∈ events m input (m.handle env input).result.toOption := by
      rw [hsplit]
      simp
    exact absurd hmem node_not_mem_events
  | @acted k it move toNodes machine hacted hs =>
    refine each_append.mpr ⟨ih, fun pre e post hsplit n id he => ?_⟩
    subst he
    have hmem : Event.node n (.entered id) ∈ ((w.machines k).step (it, move)).log.map (.node k) := by
      rw [hsplit]
      simp
    obtain ⟨mark, hmark, heq⟩ := List.mem_map.mp hmem
    cases heq
    obtain ⟨nodes, hplaced, hall⟩ :=
      h.begun (Or.inr (Or.inl ⟨k, (Machine.step_turn hs).entered_waited hmark⟩))
    exact ⟨nodes, List.mem_append_left _ hplaced, fun n hn =>
      List.mem_append_left _ (h.registered (Or.inr (Or.inr (hall n hn))))⟩

end World

open World

/-- When a core enters `synchronize`, all the nodes of its emulation have registered theirs, and a
message that its node then discards was for a core that had been registered. The loop that starts
the emulation runs once at most. -/
theorem start_barrier {w : World} (h : Reached w) (id : Uuid) :
    (∀ n pre post, w.log = pre ++ .node n (.entered id) :: post → ∃ nodes, .placed id nodes ∈ pre ∧
      (∀ nodes', .placed id nodes' ∈ w.log → nodes' = nodes) ∧ ∀ k ∈ nodes, .node k (.registered id) ∈ pre) ∧
    w.log.count (.loop id) ≤ 1 ∧
    ∀ n k pre post nodes, w.log = pre ++ .node n (.discarded id) :: post → .node k (.entered id) ∈ pre →
      .placed id nodes ∈ w.log → n ∈ nodes → .node n (.registered id) ∈ pre := by
  have hentered :
    ∀ n pre post, w.log = pre ++ .node n (.entered id) :: post → ∃ nodes, .placed id nodes ∈ pre ∧
      (∀ nodes', .placed id nodes' ∈ w.log → nodes' = nodes) ∧
        ∀ k ∈ nodes, .node k (.registered id) ∈ pre := by
    intro n pre post hsplit
    obtain ⟨nodes, hplaced, hall⟩ := h.barrier pre _ post hsplit n id rfl
    refine ⟨nodes, hplaced, fun nodes' hplaced' => h.placed hplaced' ?_, hall⟩
    rw [hsplit]
    exact List.mem_append_left _ hplaced
  refine ⟨hentered, h.loops id, fun n k pre post nodes hsplit hk hplaced hn => ?_⟩
  obtain ⟨before, after, rfl⟩ := List.append_of_mem hk
  obtain ⟨nodes', -, hunique, hall⟩ :=
    hentered k before (after ++ .node n (.discarded id) :: post) (by simp [hsplit])
  rw [hunique nodes hplaced] at hn
  exact List.mem_append_left _ (hall n hn)

def demoEnv : Env :=
  { Pubapi.demoEnv 100 [] with parseTopology := fun _ _ => pure (Emulcore.demoNet 0, []) }

/-- A node makes the core that it has to, and tells the leader, who takes it as ready. -/
def demoInit (n : Nat) : List WorldMove :=
  let task := .task .inOrder (Pubapi.demoHost n 9092) 0 true
  [task, task, task, task, .ready demoEnv 0]

/-- A topology is placed on two nodes, and starts on the second one. -/
def demoStart : List WorldMove :=
  [.lead demoEnv (.message ⟨1⟩ (.newTopology "")), .deliver .inOrder 0, .deliver .inOrder 0] ++
    demoInit 0 ++ demoInit 1 ++ [.deliver .inOrder 0, .task .inOrder (Pubapi.demoHost 1 9092) 0 true]

theorem start_barrier_demo : ∃ w, Reached w ∧ .node (Pubapi.demoHost 1 9092) (.entered ⟨1⟩) ∈ w.log ∧
    .loop ⟨1⟩ ∈ w.log ∧ w.log.count (.loop ⟨1⟩) ≤ 1 ∧
    ∀ n ∈ [0, 1], .node (Pubapi.demoHost n 9092) (.registered ⟨1⟩) ∈ w.log := by
  obtain ⟨m, hm, w, hw, hentered, hloop, hplaced⟩ : Returns (Pubapi.demoManager 2 4) fun m =>
      Returns (demoStart.foldlM World.step (World.build m)) fun w =>
        .node (Pubapi.demoHost 1 9092) (.entered ⟨1⟩) ∈ w.log ∧ .loop ⟨1⟩ ∈ w.log ∧
          .placed ⟨1⟩ [Pubapi.demoHost 0 9092, Pubapi.demoHost 1 9092] ∈ w.log := by
    decide +kernel
  unfold Pubapi.demoManager at hm
  obtain ⟨graph, -, hm⟩ := Run.of_bind_eq_ok hm
  have hreached := (Reached.build hm).run hw
  obtain ⟨hall, honce, -⟩ := start_barrier hreached ⟨1⟩
  obtain ⟨pre, post, hsplit⟩ := List.append_of_mem hentered
  obtain ⟨nodes, -, hunique, hregistered⟩ := hall _ pre post hsplit
  refine ⟨w, hreached, hentered, hloop, honce, fun n hn => ?_⟩
  rw [hsplit]
  refine List.mem_append_left _ (hregistered _ ?_)
  rw [← hunique _ hplaced]
  simp only [List.mem_cons, List.not_mem_nil, or_false] at hn ⊢
  rcases hn with rfl | rfl
  · exact Or.inl rfl
  · exact Or.inr rfl

end Emanager

end Kollaps
