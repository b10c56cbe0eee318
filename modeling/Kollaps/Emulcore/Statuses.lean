import Kollaps.Emulcore.Opening

/-!
# The status of an app

It follows the events for the app, and the loop stops with the message after which every app of
the host has crashed.
-/

namespace Kollaps

open Run Act

namespace Emulcore

def IsNode (g : Network Node) (n : Node) : Prop := n ∈ g.mapper.elems.map Prod.fst ∧ n.isApp = true

theorem Located.isNode {g : Network Node} {n : Node} {ip : IpAddr} (h : Located g n ip) : IsNode g n := by
  obtain ⟨hmem, id, app, rfl, -⟩ := h
  exact ⟨hmem, rfl⟩

theorem IsNode.eq_of_vertex {g : Network Node} {a b : Node} (ha : IsNode g a) (hb : IsNode g b)
    (h : Vertex.id a = Vertex.id b) : a = b := eq_of_nodeId ha hb (congrArg Prod.snd h)

theorem IsNode.located {g : Network Node} {n : Node} (h : IsNode g n) {app : Application} {ip : IpAddr}
    (happ : n.asApp = .ok app) (hip : app.ipAddr = .ok ip) : Located g n ip := by
  cases n with
  | bridge id => cases happ
  | app id a =>
    cases happ
    exact ⟨h.1, id, _, rfl, unwrap_eq_ok.mp hip⟩

theorem onEvent_cases {it : Iter} {ar : Arith} {core : EmulCore} {s s' : Loop} {event : EmulationEvent}
    (he : (onEvent it ar core s event).result = .ok s') :
    (s' = s ∧ (onEvent it ar core s event).log = [] ∧ ∀ p ∈ s.myApps.elems, event.appId ≠ p.1.id) ∨
    ∃ node status, (node, status) ∈ s.myApps.elems ∧ event.appId = node.id ∧
      ((event.action = .join ∧ onEvent it ar core s event = onJoin it core s node status) ∨
        (event.action = .quit ∧ onEvent it ar core s event = onQuit it ar core s node) ∨
        (event.action = .crash ∧ onEvent it ar core s event = onCrash it ar core s node)) := by
  unfold onEvent at he ⊢
  cases ht : target it s event with
  | none =>
    rw [ht] at he
    cases he
    exact Or.inl ⟨rfl, rfl, target_none ht⟩
  | some p =>
    obtain ⟨hin, hid⟩ := target_some ht
    refine Or.inr ⟨p.1, p.2, hin, hid, ?_⟩
    cases event.action
    · exact Or.inl ⟨rfl, rfl⟩
    · exact Or.inr (Or.inl ⟨rfl, rfl⟩)
    · exact Or.inr (Or.inr ⟨rfl, rfl⟩)

theorem flowRound_refreshed {it : Iter} {ar : Arith} {core : EmulCore} {s : Loop} {m : EmulMessage}
    {r : Loop ⊕ Loop} (h : (flowRound it ar core s m).result = .ok r) :
    ∃ s', (handle it ar core s m).result = .ok s' ∧ (refresh it core s').result = .ok ⟨⟩ ∧
      (flowRound it ar core s m).log = (handle it ar core s m).log ++ (refresh it core s').log ∧
      r = if s'.stop then .inr s' else .inl s' := by
  obtain ⟨s', hs', hlog, hr⟩ := flowRound_cases h
  obtain ⟨s'', hs'', h, -⟩ := Act.of_bind_eq_ok h
  cases Except.ok.inj (hs'.symm.trans hs'')
  obtain ⟨_, hrefresh, -⟩ := Act.of_bind_eq_ok h
  exact ⟨s', hs', hrefresh, hlog, hr⟩

theorem Step.refreshed {ar : Arith} {core : EmulCore} {ok : Loop → EmulMessage → Prop} {c c' : Config}
    (h : Step ar core ok c c') {s' : Loop} (hs' : c'.phase.loop = some s') :
    ∃ s it m, c.phase = .running s ∧ ok s m ∧ (handle it ar core s m).result = .ok s' ∧
      (refresh it core s').result = .ok ⟨⟩ ∧
      c'.log = c.log ++ ((handle it ar core s m).log ++ (refresh it core s').log) := by
  cases h with
  | @next s s₁ m log it hok hr =>
    obtain ⟨s₂, hs₂, hrefresh, hlog, hr'⟩ := flowRound_refreshed hr
    split at hr' <;> cases hr'
    cases hs'
    exact ⟨s, it, m, rfl, hok, hs₂, hrefresh, by rw [← hlog]⟩
  | @stop s s₁ m log it hok hr =>
    obtain ⟨s₂, hs₂, hrefresh, hlog, hr'⟩ := flowRound_refreshed hr
    split at hr' <;> cases hr'
    cases hs'
    exact ⟨s, it, m, rfl, hok, hs₂, hrefresh, by rw [← hlog]⟩
  | fail it hok hr => cases hs'

/-! ## Events -/

/-- The status of an app after an event for it. -/
def AppStatus.after : AppStatus → EventAction → AppStatus
  | .notInit, .join => .running
  | .stopped, .join => .running
  | status, .join => status
  | _, .quit => .stopped
  | _, .crash => .crashed

def actionsOf (messages : List EmulMessage) (appId : Nat) : List EventAction :=
  messages.filterMap fun
    | .event event => if event.appId = appId then some event.action else none
    | _ => none

def statusAfter (messages : List EmulMessage) (app : Node) : AppStatus :=
  (actionsOf messages app.id).foldl AppStatus.after .notInit

theorem actionsOf_event (messages : List EmulMessage) (event : EmulationEvent) (appId : Nat) :
    actionsOf (messages ++ [.event event]) appId =
      actionsOf messages appId ++ if event.appId = appId then [event.action] else [] := by
  unfold actionsOf
  rw [List.filterMap_append]
  split <;> rename_i h <;> simp [h]

theorem actionsOf_other (messages : List EmulMessage) {m : EmulMessage} (h : ∀ event, m ≠ .event event)
    (appId : Nat) : actionsOf (messages ++ [m]) appId = actionsOf messages appId := by
  unfold actionsOf
  rw [List.filterMap_append]
  cases m with
  | event event => exact absurd rfl (h event)
  | _ => simp

def nodesOf (apps : AppMap) : List Node := apps.elems.map Prod.fst

theorem nodesOf_nodup (apps : AppMap) : (nodesOf apps).Nodup := by
  have h := apps.nodup
  rw [show apps.elems.map (fun p => Vertex.id p.1) = (nodesOf apps).map Vertex.id by
    rw [nodesOf, List.map_map]; rfl] at h
  exact List.Nodup.of_map _ h

theorem mem_nodesOf {apps : AppMap} {n : Node} : n ∈ nodesOf apps ↔ ∃ status, (n, status) ∈ apps.elems := by
  simp [nodesOf]

theorem nodesOf_put {apps : AppMap} {node : Node} {old : AppStatus} (hin : (node, old) ∈ apps.elems)
    (status : AppStatus) (n : Node) : n ∈ nodesOf (apps.put node status) ↔ n ∈ nodesOf apps := by
  rw [mem_nodesOf, mem_nodesOf]
  constructor
  · rintro ⟨st, h⟩
    rcases mem_put_status hin h with heq | ⟨h, -⟩
    · cases heq
      exact ⟨old, hin⟩
    · exact ⟨st, h⟩
  · rintro ⟨st, h⟩
    have hget : apps.get? (Vertex.id node) = some (node, old) := KeySet.get?_eq_some.mpr ⟨hin, rfl⟩
    unfold KeySet.put
    rw [hget]
    by_cases hid : Vertex.id n = Vertex.id node
    · cases apps.eq_of_key_eq h hin hid
      exact ⟨status, KeySet.mem_replace.mpr (Or.inl rfl)⟩
    · exact ⟨st, KeySet.mem_replace.mpr (Or.inr ⟨h, hid⟩)⟩

def Hosted (core : EmulCore) (n : Node) : Prop :=
  n ∈ core.graph.mapper.elems.map Prod.fst ∧ core.hosts n = .ok true

theorem Hosted.isNode {core : EmulCore} {n : Node} (h : Hosted core n) : IsNode core.graph n := by
  refine ⟨h.1, ?_⟩
  have hhosts := h.2
  unfold EmulCore.hosts at hhosts
  split at hhosts
  · assumption
  · cases hhosts

theorem initEmulation_hosted {it : Iter} {core : EmulCore} {apps : AppMap}
    (h : (initEmulation it core).result = .ok apps) (n : Node) :
    n ∈ nodesOf apps ↔ Hosted core n := by
  obtain ⟨hall, hin⟩ := initEmulation_apps h
  obtain ⟨mine, hmine, h, -⟩ := Act.of_bind_eq_ok h
  obtain ⟨_, -, h, -⟩ := Act.of_bind_eq_ok h
  have hmem : ∀ n, n ∈ it.order mine ↔ Hosted core n := by
    intro n
    rw [it.mem_order, mem_filterM hmine, Network.vertices, ((it.perm _).map _).mem_iff]
    exact Iff.rfl
  have hmine' : ∀ p ∈ apps.elems, p.1 ∈ it.order mine := by
    refine Act.foldlM_ok_inv (fun _ (acc : AppMap) => ∀ p ∈ acc.elems, p.1 ∈ it.order mine) (by simp) ?_ h
    rintro pre node post acc acc' hx hacc hstep p hp
    obtain ⟨_, -, hstep, -⟩ := Act.of_bind_eq_ok hstep
    obtain ⟨_, -, hstep, -⟩ := Act.of_bind_eq_ok hstep
    cases hstep
    rcases mem_put hp with ⟨-, -, hnode | ⟨q, hq, hqp⟩⟩ | hp
    · rw [hnode, hx]
      simp
    · exact hqp ▸ hacc q hq
    · exact hacc p hp
  constructor
  · intro hn
    obtain ⟨p, hp, rfl⟩ := List.mem_map.mp hn
    exact (hmem _).mp (hmine' p hp)
  · intro hn
    obtain ⟨p, hp, hk⟩ := List.mem_map.mp (KeySet.contains_iff.mp (hin n hn.1 hn.2))
    have heq := ((hmem _).mp (hmine' p hp)).isNode.eq_of_vertex hn.isNode hk
    exact List.mem_map.mpr ⟨p, hp, heq⟩

/-- The apps of the host, each with the status that the events for it lead to. -/
structure StatusInv (core : EmulCore) (messages : List EmulMessage) (apps : AppMap) : Prop where
  nodes : ∀ n, n ∈ nodesOf apps ↔ Hosted core n
  status : ∀ p ∈ apps.elems, p.2 = statusAfter messages p.1

theorem StatusInv.isNode {core : EmulCore} {messages : List EmulMessage} {apps : AppMap}
    (h : StatusInv core messages apps) {p : Node × AppStatus} (hp : p ∈ apps.elems) :
    IsNode core.graph p.1 := ((h.nodes p.1).mp (List.mem_map_of_mem hp)).isNode

theorem statusAfter_event (messages : List EmulMessage) (event : EmulationEvent) (app : Node) :
    statusAfter (messages ++ [.event event]) app =
      if event.appId = app.id then AppStatus.after (statusAfter messages app) event.action
      else statusAfter messages app := by
  unfold statusAfter
  rw [actionsOf_event, List.foldl_append]
  split <;> rfl

theorem statusAfter_other (messages : List EmulMessage) {m : EmulMessage} (h : ∀ event, m ≠ .event event)
    (app : Node) : statusAfter (messages ++ [m]) app = statusAfter messages app := by
  unfold statusAfter
  rw [actionsOf_other messages h]

theorem StatusInv.put {core : EmulCore} {messages : List EmulMessage} {apps : AppMap}
    (h : StatusInv core messages apps) {node : Node} {old status : AppStatus}
    (hin : (node, old) ∈ apps.elems) {event : EmulationEvent} (hid : event.appId = node.id)
    (hstatus : status = AppStatus.after old event.action) :
    StatusInv core (messages ++ [.event event]) (apps.put node status) := by
  refine ⟨fun n => (nodesOf_put hin status n).trans (h.nodes n), fun p hp => ?_⟩
  rw [statusAfter_event]
  rcases mem_put_status hin hp with rfl | ⟨hp, hne⟩
  · rw [if_pos hid, ← h.status _ hin]
    exact hstatus
  · rw [if_neg fun heq => hne ?_]
    · exact h.status p hp
    · rw [eq_of_nodeId (h.isNode hp) (h.isNode hin) (heq.symm.trans hid)]

theorem StatusInv.same {core : EmulCore} {messages : List EmulMessage} {apps : AppMap}
    (h : StatusInv core messages apps) {m : EmulMessage}
    (hm : ∀ event, m = .event event → ∀ p ∈ apps.elems, event.appId = p.1.id →
      AppStatus.after p.2 event.action = p.2) : StatusInv core (messages ++ [m]) apps := by
  refine ⟨h.nodes, fun p hp => ?_⟩
  by_cases hevent : ∃ event, m = .event event
  · obtain ⟨event, rfl⟩ := hevent
    rw [statusAfter_event, ← h.status p hp]
    split
    · next hid => exact (hm event rfl p hp hid).symm
    · rfl
  · rw [statusAfter_other messages fun event heq => hevent ⟨event, heq⟩]
    exact h.status p hp

theorem StatusInv.handled {it : Iter} {ar : Arith} {core : EmulCore} {messages : List EmulMessage}
    {s s' : Loop} (h : StatusInv core messages s.myApps) {m : EmulMessage}
    (he : (handle it ar core s m).result = .ok s') : StatusInv core (messages ++ [m]) s'.myApps := by
  cases m with
  | flowUpdate conf =>
    have hsame : s'.myApps = s.myApps := by
      rcases onFlowUpdate_cases he with ⟨rfl, -⟩ | ⟨_, _, -, hsame, -⟩
      · rfl
      · exact hsame
    rw [hsame]
    exact h.same fun event heq => by cases heq
  | event event =>
    have he' : (onEvent it ar core s event).result = .ok s' := he
    rcases onEvent_cases he' with ⟨rfl, -, hnone⟩ | ⟨node, old, hin, hid,
      ⟨hact, heq⟩ | ⟨hact, heq⟩ | ⟨hact, heq⟩⟩
    · refine h.same fun event' heq p hp hid => ?_
      cases heq
      exact absurd hid (hnone p hp)
    · rw [heq] at he'
      obtain ⟨_, -, hjoin, -⟩ := Act.of_bind_eq_ok he'
      have hignored : AppStatus.after old event.action = old →
          StatusInv core (messages ++ [.event event]) s.myApps := fun hsame => by
        refine h.same fun event' heq p hp hid' => ?_
        cases heq
        have hnode := eq_of_nodeId (h.isNode hp) (h.isNode hin) (hid'.symm.trans hid)
        rw [s.myApps.eq_of_key_eq hp hin (by rw [hnode])]
        exact hsame
      cases old with
      | notInit | stopped =>
        cases hjoin
        exact h.put hin hid (by rw [hact]; rfl)
      | running | crashed =>
        cases hjoin
        exact hignored (by rw [hact]; rfl)
    · rw [heq] at he'
      rw [(onQuit_cases he').2]
      exact h.put hin hid (by rw [hact]; cases old <;> rfl)
    · rw [heq] at he'
      rw [(onCrash_cases he').2]
      exact h.put hin hid (by rw [hact]; cases old <;> rfl)
  | _ =>
    cases he
    exact h.same fun event heq => by cases heq

theorem Init.statusInv {g : Network Node} {core : EmulCore} {c : Config} (h : Init g core c) {s : Loop}
    (hs : c.phase.loop = some s) : StatusInv core [] s.myApps := by
  cases h with
  | mk it hnew happs =>
    cases hs
    exact ⟨initEmulation_hosted happs, fun p hp => ((initEmulation_apps happs).1 p hp).1⟩

theorem Course.statusInv {ar : Arith} {g : Network Node} {core : EmulCore}
    {ok : List EmulMessage → EmulMessage → Prop} {messages : List EmulMessage} {c : Config}
    (h : Course ar g core ok messages c) {s : Loop} (hs : c.phase.loop = some s) :
    StatusInv core messages s.myApps := by
  induction h generalizing s with
  | init hinit => exact hinit.statusInv hs
  | message _ _ hstep ih =>
    obtain ⟨s₀, it, m, hphase, rfl, he, -, -⟩ := hstep.refreshed hs
    exact (ih (by rw [hphase]; rfl)).handled he

theorem stop_iff {core : EmulCore} {messages : List EmulMessage} {s : Loop}
    (h : StatusInv core messages s.myApps) :
    s.stop = true ↔ ∀ n, Hosted core n → statusAfter messages n = .crashed := by
  unfold Loop.stop
  rw [List.all_eq_true]
  constructor
  · intro hall n hn
    obtain ⟨status, hin⟩ := mem_nodesOf.mp ((h.nodes n).mpr hn)
    rw [← h.status _ hin]
    exact of_decide_eq_true (hall _ hin)
  · intro hall p hp
    rw [h.status p hp]
    exact decide_eq_true (hall p.1 ((h.nodes p.1).mp (List.mem_map_of_mem hp)))

theorem Step.stops {ar : Arith} {core : EmulCore} {ok : Loop → EmulMessage → Prop} {c c' : Config}
    (h : Step ar core ok c c') {s' : Loop} (hs' : c'.phase.loop = some s') :
    c'.phase = if s'.stop then .done s' else .running s' := by
  cases h with
  | next it hok hr =>
    obtain ⟨s₂, -, -, -, hr'⟩ := flowRound_refreshed hr
    split at hr' <;> rename_i hstop <;> cases hr'
    cases hs'
    exact (if_neg hstop).symm
  | stop it hok hr =>
    obtain ⟨s₂, -, -, -, hr'⟩ := flowRound_refreshed hr
    split at hr' <;> rename_i hstop <;> cases hr'
    cases hs'
    exact (if_pos hstop).symm
  | fail it hok hr => cases hs'

theorem Course.done_iff {ar : Arith} {g : Network Node} {core : EmulCore}
    {ok : List EmulMessage → EmulMessage → Prop} {messages : List EmulMessage} {c : Config}
    (h : Course ar g core ok messages c) {s : Loop} (hs : c.phase.loop = some s) :
    c.phase = .done s ↔ messages ≠ [] ∧ ∀ n, Hosted core n → statusAfter messages n = .crashed := by
  cases h with
  | init hinit =>
    cases hinit
    exact iff_of_false (by simp) (by simp)
  | message hcourse hok hstep =>
    rw [hstep.stops hs, ← stop_iff ((hcourse.message hok hstep).statusInv hs)]
    cases s.stop <;> simp

/-- The apps of a core are those of its host, each with the status that the events for it lead to,
and the loop stops with the first message after which all of them have crashed. -/
theorem statuses_follow_events {ar : Arith} {g : Network Node} {core : EmulCore}
    {ok : List EmulMessage → EmulMessage → Prop} {messages : List EmulMessage} {c : Config}
    (h : Course ar g core ok messages c) :
    (∀ s, c.phase.loop = some s → (∀ n, n ∈ nodesOf s.myApps ↔ Hosted core n) ∧
      (∀ p ∈ s.myApps.elems, p.2 = statusAfter messages p.1) ∧
      (c.phase = .done s ↔ messages ≠ [] ∧ ∀ n, Hosted core n → statusAfter messages n = .crashed)) ∧
    ∀ before m after, messages = before ++ m :: after → before ≠ [] →
      ∃ n, Hosted core n ∧ statusAfter before n ≠ .crashed := by
  refine ⟨fun s hs => ⟨(h.statusInv hs).nodes, (h.statusInv hs).status, h.done_iff hs⟩, ?_⟩
  induction h with
  | init _ =>
    intro before m after hms
    simp at hms
  | @message messages last c c' hcourse hok hstep ih =>
    intro before m after hms hne
    rcases List.eq_nil_or_concat after with rfl | ⟨after, x, rfl⟩
    · obtain rfl : messages = before := (List.append_inj' hms rfl).1
      obtain ⟨s, -, -, hphase, -⟩ := hstep.handled
      have hdone := hcourse.done_iff (s := s) (by rw [hphase]; rfl)
      rw [hphase] at hdone
      by_contra hall
      refine absurd (hdone.mpr ⟨hne, fun n hn => ?_⟩) (by simp)
      by_contra hcrashed
      exact hall ⟨n, hn, hcrashed⟩
    · rw [List.concat_eq_append, ← List.cons_append, ← List.append_assoc] at hms
      exact ih before m after (List.append_inj' hms rfl).1 hne

theorem statuses_follow_events_crash : ∃ core s log, Course .wrapping (demoNet 1) core (fun _ _ => True)
    [demoEvent 0 .join, demoEvent 0 .crash] ⟨.done s, log⟩ ∧
      ∀ p ∈ s.myApps.elems, p.2 = statusAfter [demoEvent 0 .join, demoEvent 0 .crash] p.1 := by
  obtain ⟨⟨core, s⟩, hrun, r, hr, hstop⟩ : Returns (demoRun (demoNet 1) (demoHost 0)
      [demoEvent 0 .join]).result fun p => Returns (flowRound .inOrder .wrapping p.1 p.2
        (demoEvent 0 .crash)).result fun r => r.isRight = true := by decide +kernel
  cases r with
  | inl s' => cases hstop
  | inr s' =>
    have hcourse :=
      (@demoRun_course _ _ _ (fun _ _ => True) _ _ (fun _ _ _ _ => trivial) hrun).message trivial
      (.stop .inOrder rfl hr)
    exact ⟨core, s', _, hcourse, ((statuses_follow_events hcourse).1 s' rfl).2.1⟩

end Emulcore

end Kollaps
