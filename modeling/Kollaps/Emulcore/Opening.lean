import Kollaps.Emulcore.Runs

/-!
# Paths are initialised before they are adjusted

A reporter unwraps every property of the first `TCUpdate` that it gets for a destination. The core
sends all of them on a first join and when a flow ends. While a flow is in use it sends the
bandwidth alone.
-/

namespace Kollaps

open Run Act

namespace Emulcore

/-- A `TCUpdate` with every property, to the reporter of the app. -/
def Effect.opens (app : Node) (dest : IpAddr) : Effect → Prop
  | .toReporter a (.tcUpdate conf) => Vertex.id a = Vertex.id app ∧ conf.dest = dest ∧ Complete conf
  | _ => False

/-- A `TCUpdate` that lacks a property, to the reporter of the app. -/
def Effect.adjusts (app : Node) (dest : IpAddr) : Effect → Prop
  | .toReporter a (.tcUpdate conf) => Vertex.id a = Vertex.id app ∧ conf.dest = dest ∧ ¬ Complete conf
  | _ => False

instance (conf : TCConf) : Decidable (Complete conf) := by unfold Complete; infer_instance

instance (app : Node) (dest : IpAddr) (e : Effect) : Decidable (e.opens app dest) := by
  unfold Effect.opens; split <;> infer_instance

instance (app : Node) (dest : IpAddr) (e : Effect) : Decidable (e.adjusts app dest) := by
  unfold Effect.adjusts; split <;> infer_instance

theorem Effect.opens.congr {a b : Node} {dest : IpAddr} {e : Effect} (h : e.opens a dest)
    (hk : Vertex.id a = Vertex.id b) : e.opens b dest := by
  cases e with
  | toReporter node m =>
    cases m with
    | tcUpdate conf => exact ⟨h.1.trans hk, h.2⟩
    | _ => exact h.elim
  | _ => exact h.elim

/-- Every update that lacks something comes after one that lacks nothing. -/
def PathsFirst (log : List Effect) : Prop :=
  ∀ i e, log[i]? = some e → ∀ app dest, e.adjusts app dest → ∃ e' ∈ log.take i, e'.opens app dest

/-! ## The messages before -/

/-- What the first event for this app asks. -/
def firstAction (messages : List EmulMessage) (appId : Nat) : Option EventAction :=
  (messages.filterMap fun
    | .event event => if event.appId = appId then some event.action else none
    | _ => none).head?

/-- The path of the flow has its properties: the first event for the source was a join, or an
earlier message ended the flow. -/
def Opened (core : EmulCore) (messages : List EmulMessage) (conf : FlowConf) (flow : Flow Node) : Prop :=
  firstAction messages flow.source.id = some .join ∨
    ∃ conf' flow' props', .flowUpdate conf' ∈ messages ∧ conf'.src = conf.src ∧ conf'.dest = conf.dest ∧
      About core conf' flow' props' ∧ flow'.usedBandwidth = 0

/-- A local flow that asks for bandwidth has its path opened by the messages before it. -/
def OpensFirst (core : EmulCore) (messages : List EmulMessage) (m : EmulMessage) : Prop :=
  ∀ conf flow props, m = .flowUpdate conf → About core conf flow props → flow.usedBandwidth ≠ 0 →
    RunsHere core flow.source → Opened core messages conf flow

/-- A core handles these messages, in this order, and each meets `ok` after those before it. -/
inductive Course (ar : Arith) (g : Network Node) (core : EmulCore)
    (ok : List EmulMessage → EmulMessage → Prop) : List EmulMessage → Config → Prop where
  | init {c : Config} : Init g core c → Course ar g core ok [] c
  | message {messages : List EmulMessage} {m : EmulMessage} {c c' : Config} :
      Course ar g core ok messages c → ok messages m → Step ar core (fun _ m' => m' = m) c c' →
      Course ar g core ok (messages ++ [m]) c'

theorem pathsFirst_append {log es : List Effect} (h : PathsFirst log)
    (hes : ∀ e ∈ es, ∀ app dest, e.adjusts app dest → ∃ e' ∈ log, e'.opens app dest) :
    PathsFirst (log ++ es) := by
  intro i e he app dest hadj
  rcases Nat.lt_or_ge i log.length with hlt | hge
  · rw [List.getElem?_append_left hlt] at he
    rw [List.take_append_of_le_length (by omega)]
    exact h i e he app dest hadj
  · rw [List.getElem?_append_right hge] at he
    obtain ⟨e', he', hopen⟩ := hes e (List.mem_of_getElem? he) app dest hadj
    refine ⟨e', ?_, hopen⟩
    rw [List.take_append, List.take_of_length_le hge]
    exact List.mem_append_left _ he'

theorem firstAction_append_event (messages : List EmulMessage) (event : EmulationEvent) (appId : Nat) :
    firstAction (messages ++ [.event event]) appId =
      (firstAction messages appId).or (if event.appId = appId then some event.action else none) := by
  unfold firstAction
  rw [List.filterMap_append, List.head?_append]
  by_cases h : event.appId = appId <;> simp [h]

theorem firstAction_append_other (messages : List EmulMessage) {m : EmulMessage}
    (h : ∀ event, m ≠ .event event) (appId : Nat) :
    firstAction (messages ++ [m]) appId = firstAction messages appId := by
  unfold firstAction
  rw [List.filterMap_append]
  cases m with
  | event event => exact absurd rfl (h event)
  | _ => simp

/-! ## What a message sends -/

theorem not_adjusts_of_complete {app a : Node} {dest : IpAddr} {conf : TCConf} (h : Complete conf) :
    ¬ (Effect.toReporter a (.tcUpdate conf)).adjusts app dest := fun hadj => hadj.2.2 h

theorem handle_adjusts (it : Iter) (ar : Arith) (core : EmulCore) (s : Loop) (m : EmulMessage) :
    Does (handle it ar core s m) (fun e => ∀ app dest, ¬ e.adjusts app dest) fun _ => True := by
  have hhost : ∀ host id m, ∀ app dest, ¬ (Effect.toHost host id m).adjusts app dest :=
    fun _ _ _ _ _ h => h
  cases m with
  | flowUpdate conf =>
    show Does (onFlowUpdate it ar core s conf) _ _
    unfold onFlowUpdate
    split
    · refine Does.bind_lift fun o _ => ?_
      split
      · exact Does.lift fun _ _ => trivial
      · refine Does.bind_lift fun r _ => ?_
        exact (announceFlow_does hhost it core s.myApps _ conf fun _ _ _ hc _ _ =>
          not_adjusts_of_complete hc).bind fun _ _ => Does.pure trivial
    · exact Does.pure trivial
  | event event =>
    show Does (onEvent it ar core s event) _ _
    unfold onEvent
    split
    · exact Does.pure trivial
    · rename_i node status _
      split
      · refine Does.bind (Q := fun _ => True) ?_ fun _ _ => by split <;> exact Does.pure trivial
        cases status with
        | notInit => exact initPaths_does it core node fun _ hc _ _ => not_adjusts_of_complete hc
        | stopped => exact Does.emit (fun _ _ h => h) trivial
        | _ => exact Does.pure trivial
      · refine (removeAllFlowsFrom_does hhost it ar core _ _ node).bind fun r _ => ?_
        exact (Does.emit (Q := fun _ => True) (fun _ _ h => h) trivial).bind fun _ _ => Does.pure trivial
      · refine (removeAllFlowsFrom_does hhost it ar core _ _ node).bind fun r _ => ?_
        refine (Does.emit (Q := fun _ => True) (fun _ _ h => h) trivial).bind fun _ _ => ?_
        refine (stopAppIfNecessary_does node fun _ _ _ h => h).bind fun _ _ => ?_
        refine Does.bind_lift fun _ _ => ?_
        refine Does.bind_lift fun _ _ => ?_
        exact (Does.emit (Q := fun _ => True) (fun _ _ h => h) trivial).bind fun _ _ => Does.pure trivial
  | _ => exact Does.pure trivial

theorem announceFlow_opens {it : Iter} {core : EmulCore} {myApps : AppMap} {flow : Flow Node}
    {props : Network.Properties} {conf : FlowConf} (hused : flow.usedBandwidth = 0)
    (hhere : RunsHere core flow.source) {dest : IpAddr} (hdest : Located core.graph flow.destination dest)
    (h : (announceFlow it core myApps flow props conf).result = .ok ()) :
    ∃ e ∈ (announceFlow it core myApps flow props conf).log, e.opens flow.source dest := by
  obtain ⟨app, happ, hruns⟩ := hhere
  obtain ⟨destApp, hdestApp, hip⟩ := hdest.asApp
  unfold announceFlow at h ⊢
  obtain ⟨_, happ', h, hlog⟩ := Act.of_bind_eq_ok h
  cases Except.ok.inj (happ.symm.trans happ')
  obtain ⟨here, hhere, h, hlog'⟩ := Act.of_bind_eq_ok h
  cases Except.ok.inj (hruns.symm.trans hhere)
  rw [hlog, hlog']
  simp only [if_true, hused] at h ⊢
  obtain ⟨_, hd, h, hlog₁⟩ := Act.of_bind_eq_ok h
  cases Except.ok.inj (hdestApp.symm.trans hd)
  obtain ⟨_, hi, h, hlog₂⟩ := Act.of_bind_eq_ok h
  cases Except.ok.inj (hip.symm.trans hi)
  obtain ⟨reporter, hreporter, h, hlog₃⟩ := Act.of_bind_eq_ok h
  obtain ⟨_, _, _, hlog₄⟩ := Act.of_bind_eq_ok h
  rw [hlog₁, hlog₂, hlog₃, hlog₄]
  refine ⟨_, List.mem_append_right _ (List.mem_append_right _ (List.mem_append_right _
    (List.mem_append_right _ (List.mem_append_right _ (List.mem_append_left _ List.mem_cons_self))))), ?_⟩
  exact ⟨id_reporterOf hreporter, rfl, rfl, rfl, rfl⟩

theorem initPaths_opens {it : Iter} {core : EmulCore} {node other : Node} {dest : IpAddr}
    {props : Network.Properties} (hdest : Located core.graph other dest)
    (hne : Vertex.id other ≠ Vertex.id node)
    (hpath : core.graph.propertiesBetween node other = .ok (some props))
    (h : (initPaths it core node).result = .ok ⟨⟩) :
    ∃ e ∈ (initPaths it core node).log, e.opens node dest := by
  obtain ⟨app, happ, hip⟩ := hdest.asApp
  have hmem : other ∈ (core.graph.vertices it).filter Node.isApp := by
    obtain ⟨hmem, id, app, rfl, -⟩ := hdest
    exact mem_apps.mpr ⟨hmem, rfl⟩
  refine ⟨.toReporter node (.tcUpdate ⟨dest, some props.bandwidth, some props.latencyJitter,
    some props.drop⟩), mem_log_forM h hmem ?_, rfl, rfl, rfl, rfl, rfl⟩
  rw [if_neg hne, bind_of_ok (m := liftM _) hpath]
  dsimp only
  rw [bind_of_ok (m := liftM _) happ, bind_of_ok (m := liftM _) hip]
  simp

/-! ## Runs -/

structure AppsInv (core : EmulCore) (messages : List EmulMessage) (apps : AppMap) (log : List Effect) :
    Prop where
  known : ∀ p ∈ apps.elems, p.1 ∈ core.graph.mapper.elems.map Prod.fst ∧ p.1.isApp = true
  mine : ∀ n ∈ core.graph.mapper.elems.map Prod.fst, RunsHere core n →
    apps.contains (Vertex.id n) = true
  status : ∀ p ∈ apps.elems, p.2 = .notInit ↔ firstAction messages p.1.id = none
  joined : ∀ p ∈ apps.elems, firstAction messages p.1.id = some .join → ∀ n dest props,
    Located core.graph n dest → core.graph.propertiesBetween p.1 n = .ok (some props) →
      ∃ e ∈ log, e.opens p.1 dest

/-- What holds between two messages: what the log opened. -/
structure OpenInv (core : EmulCore) (messages : List EmulMessage) (s : Loop) (log : List Effect) :
    Prop where
  flows : FlowsInv core (s.activeFlows, s.bwGraph)
  apps : AppsInv core messages s.myApps log
  ended : ∀ conf flow props, .flowUpdate conf ∈ messages → About core conf flow props →
    flow.usedBandwidth = 0 → RunsHere core flow.source → ∃ e ∈ log, e.opens flow.source conf.dest
  inUse : ∀ f ∈ s.activeFlows.elems, RunsHere core f.source → ∀ dest,
    Located core.graph f.destination dest → ∃ e ∈ log, e.opens f.source dest
  first : PathsFirst log

theorem handle_keys {it : Iter} {g : Network Node} {core : EmulCore} (hc : CoreInv g core)
    (hg : core.graph.Wf) (hs : core.graph.pathStrategy = .shortestPath) {s s' : Loop}
    (h : FlowsInv core (s.activeFlows, s.bwGraph)) {m : EmulMessage}
    (he : (handle it .wrapping core s m).result = .ok s') {k : Vertex.Id Node × Vertex.Id Node}
    (hk : s'.activeFlows.contains k = true) : s.activeFlows.contains k = true ∨
      ∃ conf flow props, m = .flowUpdate conf ∧ About core conf flow props ∧
        flow.usedBandwidth ≠ 0 ∧ k = flow.key := by
  cases m with
  | flowUpdate conf =>
    rcases onFlowUpdate_cases he with ⟨rfl, -⟩ | ⟨flow, props, ha, -, happly, -⟩
    · exact Or.inl hk
    · have hkeys := ((applyFlow_inv it hg hs h ha).of_eq happly).2 k
      rw [hkeys] at hk
      split at hk <;> rename_i hused
      · exact Or.inl hk.1
      · rcases hk with hk | hk
        · exact Or.inl hk
        · exact Or.inr ⟨conf, flow, props, rfl, ha, hused, hk⟩
  | event event =>
    have he' : (onEvent it .wrapping core s event).result = .ok s' := he
    unfold onEvent at he'
    split at he'
    · cases he'
      exact Or.inl hk
    · rename_i node status _
      split at he'
      · rcases onJoin_cases he' with rfl | ⟨-, rfl⟩ <;> exact Or.inl hk
      · have hspec := (removeAllFlowsFrom_spec it hc hg h node).of_eq (onQuit_cases he').1
        exact Or.inl ((hspec.2 k).mp hk).1
      · have hspec := (removeAllFlowsFrom_spec it hc hg h node).of_eq (onCrash_cases he').1
        exact Or.inl ((hspec.2 k).mp hk).1
  | _ => cases he; exact Or.inl hk

theorem eq_of_nodeId {g : Network Node} {a b : Node}
    (ha : a ∈ g.mapper.elems.map Prod.fst ∧ a.isApp = true)
    (hb : b ∈ g.mapper.elems.map Prod.fst ∧ b.isApp = true) (h : a.id = b.id) : a = b := by
  obtain ⟨p, hp, hpa⟩ := List.mem_map.mp ha.1
  obtain ⟨q, hq, hqb⟩ := List.mem_map.mp hb.1
  have hid : Vertex.id a = Vertex.id b := Prod.ext (ha.2.trans hb.2.symm) h
  rw [← hpa, ← hqb] at hid ⊢
  rw [KeySet.eq_of_key_eq g.mapper hp hq hid]

theorem mem_put_status {m : AppMap} {node : Node} {status old : AppStatus} (hin : (node, old) ∈ m.elems)
    {p : Node × AppStatus} (hp : p ∈ (m.put node status).elems) :
    p = (node, status) ∨ (p ∈ m.elems ∧ Vertex.id p.1 ≠ Vertex.id node) := by
  have hget : m.get? (Vertex.id node) = some (node, old) := KeySet.get?_eq_some.mpr ⟨hin, rfl⟩
  unfold KeySet.put at hp
  rw [hget, KeySet.mem_replace] at hp
  exact hp

theorem exists_append {log : List Effect} {app : Node} {dest : IpAddr} (es : List Effect)
    (h : ∃ e ∈ log, e.opens app dest) : ∃ e ∈ log ++ es, e.opens app dest := by
  obtain ⟨e, he, hopen⟩ := h
  exact ⟨e, List.mem_append_left _ he, hopen⟩

theorem AppsInv.same {core : EmulCore} {messages : List EmulMessage} {apps : AppMap}
    {log : List Effect} (h : AppsInv core messages apps log) {m : EmulMessage} (es : List Effect)
    (hsame : ∀ event, m = .event event → ∀ p ∈ apps.elems, event.appId = p.1.id → p.2 ≠ .notInit) :
    AppsInv core (messages ++ [m]) apps (log ++ es) := by
  have hfirst : ∀ p ∈ apps.elems, firstAction (messages ++ [m]) p.1.id = firstAction messages p.1.id := by
    intro p hp
    by_cases hm : ∃ event, m = .event event
    · obtain ⟨event, rfl⟩ := hm
      rw [firstAction_append_event]
      split <;> rename_i hid
      · cases hf : firstAction messages p.1.id with
        | none => exact absurd ((h.status p hp).mpr hf) (hsame event rfl p hp hid)
        | some action => rfl
      · simp
    · exact firstAction_append_other messages (fun event heq => hm ⟨event, heq⟩) _
  refine ⟨h.known, h.mine, fun p hp => ?_, fun p hp hf n dest props hl hpath => ?_⟩
  · rw [hfirst p hp]
    exact h.status p hp
  · rw [hfirst p hp] at hf
    exact exists_append es (h.joined p hp hf n dest props hl hpath)

theorem AppsInv.put {core : EmulCore} {messages : List EmulMessage} {apps : AppMap}
    {log : List Effect} (h : AppsInv core messages apps log) {node : Node} {old status : AppStatus}
    (hin : (node, old) ∈ apps.elems) {event : EmulationEvent} (hid : event.appId = node.id)
    (hstatus : status ≠ .notInit) {es : List Effect}
    (hopen : firstAction messages node.id = none → event.action = .join → ∀ n dest props,
      Located core.graph n dest → core.graph.propertiesBetween node n = .ok (some props) →
        ∃ e ∈ es, e.opens node dest) :
    AppsInv core (messages ++ [.event event]) (apps.put node status) (log ++ es) := by
  have hother : ∀ p ∈ apps.elems, Vertex.id p.1 ≠ Vertex.id node →
      firstAction (messages ++ [.event event]) p.1.id = firstAction messages p.1.id := by
    intro p hp hne
    rw [firstAction_append_event, if_neg, Option.or_none]
    intro hid'
    apply hne
    rw [eq_of_nodeId (h.known p hp) (h.known _ hin) (hid'.symm.trans hid)]
  have hnode : firstAction (messages ++ [.event event]) node.id =
      (firstAction messages node.id).or (some event.action) := by
    rw [firstAction_append_event, if_pos hid]
  refine ⟨fun p hp => ?_, fun n hn hhere => contains_put (Or.inl (h.mine n hn hhere)), fun p hp => ?_,
    fun p hp hf n dest props hl hpath => ?_⟩
  · rcases mem_put_status hin hp with rfl | ⟨hp, -⟩
    · exact h.known (node, old) hin
    · exact h.known p hp
  · rcases mem_put_status hin hp with rfl | ⟨hp, hne⟩
    · refine iff_of_false hstatus ?_
      rw [hnode]
      cases firstAction messages node.id <;> simp
    · rw [hother p hp hne]
      exact h.status p hp
  · rcases mem_put_status hin hp with rfl | ⟨hp, hne⟩
    · rw [hnode] at hf
      cases hold : firstAction messages node.id with
      | none =>
        rw [hold] at hf
        obtain ⟨e, he, hopens⟩ := hopen hold (Option.some.inj hf) n dest props hl hpath
        exact ⟨e, List.mem_append_right _ he, hopens⟩
      | some action =>
        rw [hold] at hf
        exact exists_append es (h.joined _ hin (hold.trans hf) n dest props hl hpath)
    · rw [hother p hp hne] at hf
      exact exists_append es (h.joined p hp hf n dest props hl hpath)

theorem target_some {it : Iter} {s : Loop} {event : EmulationEvent} {p : Node × AppStatus}
    (h : target it s event = some p) : p ∈ s.myApps.elems ∧ event.appId = p.1.id := by
  have hmem := List.mem_of_getLast? h
  rw [List.mem_filter, it.mem_order] at hmem
  exact ⟨hmem.1, by simpa [Node.isSameById] using hmem.2⟩

theorem target_none {it : Iter} {s : Loop} {event : EmulationEvent} (h : target it s event = none) :
    ∀ p ∈ s.myApps.elems, event.appId ≠ p.1.id := by
  intro p hp hid
  have hnil := List.getLast?_eq_none_iff.mp h
  have hmem : p ∈ (it.order s.myApps.elems).filter fun q => q.1.isSameById event.appId := by
    rw [List.mem_filter, it.mem_order]
    exact ⟨hp, by simpa [Node.isSameById] using hid⟩
  rw [hnil] at hmem
  cases hmem

theorem handle_apps {it : Iter} {ar : Arith} {core : EmulCore} (hg : core.graph.Wf)
    {messages : List EmulMessage} {s s' : Loop} {log : List Effect}
    (h : AppsInv core messages s.myApps log) {m : EmulMessage}
    (he : (handle it ar core s m).result = .ok s') :
    AppsInv core (messages ++ [m]) s'.myApps (log ++ (handle it ar core s m).log) := by
  cases m with
  | flowUpdate conf =>
    have happs : s'.myApps = s.myApps := by
      rcases onFlowUpdate_cases he with ⟨rfl, -⟩ | ⟨flow, props, -, happs, -⟩
      · rfl
      · exact happs
    rw [happs]
    exact h.same _ fun event heq => by cases heq
  | event event =>
    show AppsInv core _ _ (log ++ (onEvent it ar core s event).log)
    have he' : (onEvent it ar core s event).result = .ok s' := he
    unfold onEvent at he' ⊢
    cases ht : target it s event with
    | none =>
      rw [ht] at he'
      cases he'
      refine h.same _ fun event' heq p hp hid => ?_
      cases heq
      exact absurd hid (target_none ht p hp)
    | some p =>
      obtain ⟨node, status⟩ := p
      obtain ⟨hin, hid⟩ := target_some ht
      rw [ht] at he'
      dsimp only at he' ⊢ hid
      cases hact : event.action with
      | join =>
        rw [hact] at he'
        dsimp only at he' ⊢
        obtain ⟨⟨⟩, htell, hrest, hlog⟩ := Act.of_bind_eq_ok he'
        rw [show (onJoin it core s node status).log = _ from hlog]
        -- An app that is running or has crashed ignores a join.
        have hignored : status ≠ .notInit → ∀ ev, EmulMessage.event event = .event ev →
            ∀ p ∈ s.myApps.elems, ev.appId = p.1.id → p.2 ≠ .notInit := by
          rintro hne _ ⟨⟩ p hp hid'
          have hsame := eq_of_nodeId (h.known p hp) (h.known _ hin) (hid'.symm.trans hid)
          rw [s.myApps.eq_of_key_eq hp hin (by rw [hsame])]
          exact hne
        cases status with
        | notInit =>
          cases hrest
          refine h.put hin hid (by decide) fun _ _ n dest props hl hpath => ?_
          have hne : Vertex.id n ≠ Vertex.id node := fun heq =>
            Network.route_ne_nil hg hpath (hg.route_self heq.symm)
          exact exists_append _ (initPaths_opens hl hne hpath htell)
        | stopped =>
          cases hrest
          refine h.put hin hid (by decide) fun hnone => ?_
          have := (h.status _ hin).mpr hnone
          cases this
        | running =>
          cases hrest
          exact h.same _ (hignored (by decide))
        | crashed =>
          cases hrest
          exact h.same _ (hignored (by decide))
      | quit =>
        rw [hact] at he'
        rw [(onQuit_cases he').2]
        exact h.put hin hid (by decide) fun _ hjoin => by rw [hact] at hjoin; cases hjoin
      | crash =>
        rw [hact] at he'
        rw [(onCrash_cases he').2]
        exact h.put hin hid (by decide) fun _ hjoin => by rw [hact] at hjoin; cases hjoin
  | _ =>
    cases he
    exact h.same _ fun event heq => by cases heq

theorem About.unique {core : EmulCore} {conf : FlowConf} {flow flow' : Flow Node}
    {props props' : Network.Properties} (h : About core conf flow props)
    (h' : About core conf flow' props') : flow = flow' ∧ props = props' := by
  have hsrc := Option.some.inj (h.source.symm.trans h'.source)
  have hdest := Option.some.inj (h.destination.symm.trans h'.destination)
  have hs : flow.source = flow'.source := congrArg Prod.snd hsrc
  have hd : flow.destination = flow'.destination := congrArg Prod.snd hdest
  have hpath := h'.path
  rw [← hs, ← hd, h.path] at hpath
  obtain rfl := Option.some.inj (Except.ok.inj hpath)
  exact ⟨by rw [h.eq, h'.eq, ← hs, ← hd], rfl⟩

theorem Served.eq_ends {core : EmulCore} (hc : CoreInv core.graph core) {f h : Flow Node}
    (hf : Served core f) (hh : Served core h) (hk : f.key = h.key) :
    f.source = h.source ∧ f.destination = h.destination := by
  obtain ⟨_, h₁⟩ := hf.source
  obtain ⟨_, h₂⟩ := hh.source
  obtain ⟨_, h₃⟩ := hf.destination
  obtain ⟨_, h₄⟩ := hh.destination
  exact ⟨(hc.located _ h₁).eq_of_id (hc.located _ h₂) (congrArg Prod.fst hk),
    (hc.located _ h₃).eq_of_id (hc.located _ h₄) (congrArg Prod.snd hk)⟩

theorem OpenInv.opened {core : EmulCore} (hc : CoreInv core.graph core) {messages : List EmulMessage}
    {s : Loop} {log : List Effect} (h : OpenInv core messages s log) {conf : FlowConf}
    {flow : Flow Node} {props : Network.Properties} (ha : About core conf flow props)
    (hhere : RunsHere core flow.source) (hopened : Opened core messages conf flow) {dest : IpAddr}
    (hdest : Located core.graph flow.destination dest) : ∃ e ∈ log, e.opens flow.source dest := by
  have hsrc := hc.located _ (KeySet.mem_of_get? ha.source)
  rcases hopened with hjoin | ⟨conf', flow', props', hin, hsrc', hdest', ha', hused⟩
  · obtain ⟨p, hp, hk⟩ := List.mem_map.mp (KeySet.contains_iff.mp (h.apps.mine _ hsrc.1 hhere))
    obtain ⟨-, id, app, hnode, -⟩ := id hsrc
    have happ : flow.source.isApp = true := by
      dsimp only at hnode
      rw [hnode]
      rfl
    have heq : p.1 = flow.source :=
      eq_of_nodeId (h.apps.known p hp) ⟨hsrc.1, happ⟩ (congrArg Prod.snd hk)
    rw [← heq] at hjoin ⊢
    exact h.apps.joined p hp hjoin _ _ props hdest (heq ▸ ha.path)
  · have hs : flow'.source = flow.source := by
      have := ha'.source
      rw [hsrc', ha.source] at this
      exact (congrArg Prod.snd (Option.some.inj this)).symm
    have hd := hc.located _ (KeySet.mem_of_get? ha.destination)
    rw [← hs] at hhere ⊢
    rw [hdest.unique hd, ← hdest']
    exact h.ended conf' flow' props' hin ha' hused hhere

theorem OpenInv.handled {it : Iter} {core : EmulCore} (hc : CoreInv core.graph core)
    (hg : core.graph.Wf) (hs : core.graph.pathStrategy = .shortestPath) {messages : List EmulMessage}
    {s s' : Loop} {log : List Effect} (h : OpenInv core messages s log) {m : EmulMessage}
    (hopens : OpensFirst core messages m) (he : (handle it .wrapping core s m).result = .ok s') :
    OpenInv core (messages ++ [m]) s' (log ++ (handle it .wrapping core s m).log) := by
  have hflows := handle_inv hc hg hs h.flows he
  refine ⟨hflows, handle_apps hg h.apps he, ?_, fun f hf hhere dest hdest => ?_, ?_⟩
  · intro conf flow props hin ha hused hhere
    rcases List.mem_append.mp hin with hin | hin
    · exact exists_append _ (h.ended conf flow props hin ha hused hhere)
    · obtain rfl := List.mem_singleton.mp hin
      rcases onFlowUpdate_cases he with ⟨-, hnone, -⟩ | ⟨flow', props', ha', -, -, hann, hlog⟩
      · rcases hnone with hnone | hnone
        · rw [ha.source] at hnone
          cases hnone
        · rw [ha.destination] at hnone
          cases hnone
      · obtain ⟨rfl, rfl⟩ := ha.unique ha'
        obtain ⟨e, hin', hopen⟩ := announceFlow_opens hused hhere
          (hc.located _ (KeySet.mem_of_get? ha.destination)) hann
        refine ⟨e, List.mem_append_right _ ?_, hopen⟩
        show e ∈ (onFlowUpdate it .wrapping core s conf).log
        rw [hlog]
        exact hin'
  · have hserved := hflows.served f hf
    rcases handle_keys hc hg hs h.flows he (KeySet.contains_key hf) with
      hin | ⟨conf, flow, props, rfl, ha, hused, hk⟩
    · obtain ⟨f₀, hf₀, hk⟩ := List.mem_map.mp (KeySet.contains_iff.mp hin)
      obtain ⟨hsrc, hdst⟩ := hserved.eq_ends hc (h.flows.served f₀ hf₀) hk.symm
      rw [hsrc] at hhere ⊢
      rw [hdst] at hdest
      exact exists_append _ (h.inUse f₀ hf₀ hhere dest hdest)
    · obtain ⟨hsrc, hdst⟩ := hserved.eq_ends hc (ha.served hg) hk
      rw [hsrc] at hhere ⊢
      rw [hdst] at hdest
      exact exists_append _ (h.opened hc ha hhere (hopens conf flow props rfl ha hused hhere) hdest)
  · exact pathsFirst_append h.first fun e he' app dest hadj =>
      absurd hadj ((handle_adjusts it .wrapping core s m).log e he' app dest)

theorem OpenInv.round (it : Iter) {core : EmulCore} (hc : CoreInv core.graph core)
    (hg : core.graph.Wf) (hs : core.graph.pathStrategy = .shortestPath) {messages : List EmulMessage}
    {s : Loop} {log : List Effect} (h : OpenInv core messages s log) {m : EmulMessage}
    (hopens : OpensFirst core messages m) :
    PathsFirst (log ++ (flowRound it .wrapping core s m).log) ∧
    ∀ s', (handle it .wrapping core s m).result = .ok s' →
      (flowRound it .wrapping core s m).log =
        (handle it .wrapping core s m).log ++ (refresh it core s').log →
      OpenInv core (messages ++ [m]) s' (log ++ (flowRound it .wrapping core s m).log) := by
  have hrefresh : ∀ s', (handle it .wrapping core s m).result = .ok s' →
      OpenInv core (messages ++ [m]) s'
        (log ++ ((handle it .wrapping core s m).log ++ (refresh it core s').log)) := by
    intro s' hs'
    have hinv := h.handled hc hg hs hopens hs'
    have hadjusts := refresh_does it core s' (P := fun e => ∀ app dest, e.adjusts app dest →
        ∃ e' ∈ log ++ (handle it .wrapping core s m).log, e'.opens app dest) (by
      rintro f hf app destApp ip happ hhere hdestApp hip app' dest ⟨happ', rfl, -⟩
      obtain ⟨d, hd⟩ := (hinv.flows.served f hf).destination
      obtain ⟨destApp', hdestApp', hip'⟩ := (hc.located _ hd).asApp
      cases Except.ok.inj (hdestApp.symm.trans hdestApp')
      cases Except.ok.inj (hip.symm.trans hip')
      obtain ⟨e, he, hopen⟩ := hinv.inUse f hf hhere d (hc.located _ hd)
      exact ⟨e, he, hopen.congr (happ.symm.trans happ')⟩)
    rw [← List.append_assoc]
    refine ⟨hinv.flows, ?_, fun conf flow props hin ha hused hhere => ?_, fun f hf hhere dest hdest => ?_,
      pathsFirst_append hinv.first hadjusts.log⟩
    · exact ⟨hinv.apps.known, hinv.apps.mine, hinv.apps.status, fun p hp hf n dest props hl hpath =>
        exists_append _ (hinv.apps.joined p hp hf n dest props hl hpath)⟩
    · exact exists_append _ (hinv.ended conf flow props hin ha hused hhere)
    · exact exists_append _ (hinv.inUse f hf hhere dest hdest)
  refine ⟨?_, fun s' hs' hlog => hlog ▸ hrefresh s' hs'⟩
  rcases log_flowRound it .wrapping core s m with ⟨-, -, hlog⟩ | ⟨s', hs', hlog⟩
  · rw [hlog]
    exact pathsFirst_append h.first fun e he app dest hadj =>
      absurd hadj ((handle_adjusts it .wrapping core s m).log e he app dest)
  · rw [hlog]
    exact (hrefresh s' hs').first

theorem Init.openInv {g : Network Node} (hg : g.Wf) {core : EmulCore} {c : Config} (h : Init g core c) :
    CoreInv g core ∧ PathsFirst c.log ∧ ∀ s, c.phase.loop = some s → OpenInv core [] s c.log := by
  cases h with
  | @mk _ _ _ _ apps it hnew happs =>
    have hc := (new_inv hnew).1
    have hquiet := initEmulation_does it core (P := fun e => ∀ app dest, ¬ e.adjusts app dest)
      fun _ _ _ _ h => h
    have hfirst : PathsFirst (initEmulation it core).log := fun i e he app dest hadj =>
      absurd hadj (hquiet.log e (List.mem_of_getElem? he) app dest)
    refine ⟨hc, hfirst, ?_⟩
    rintro s ⟨⟩
    obtain ⟨hall, hin⟩ := initEmulation_apps happs
    refine ⟨FlowsInv.start (hc.graph ▸ hg), ⟨fun p hp => (hall p hp).2, fun n hn hhere => ?_,
      fun p hp => by simp [(hall p hp).1, firstAction], by simp [firstAction]⟩, by simp, by simp [start],
      hfirst⟩
    obtain ⟨app, happ, hruns⟩ := hhere
    refine hin n hn ?_
    cases n with
    | bridge id => cases happ
    | app id _ =>
      cases happ
      exact hruns

theorem Course.openInv {g : Network Node} (hg : g.Wf) (hs : g.pathStrategy = .shortestPath)
    {core : EmulCore} {messages : List EmulMessage} {c : Config}
    (h : Course .wrapping g core (OpensFirst core) messages c) :
    CoreInv g core ∧ PathsFirst c.log ∧ ∀ s, c.phase.loop = some s → OpenInv core messages s c.log := by
  induction h with
  | init hinit => exact hinit.openInv hg
  | message _ hok hstep ih =>
    obtain ⟨hc, -, hinv⟩ := ih
    have hgraph := hc.graph
    subst hgraph
    obtain ⟨s, it, m, hphase, rfl, hlog, hnext⟩ := hstep.handled
    obtain ⟨hfirst, hinv'⟩ := (hinv s (by rw [hphase]; rfl)).round it hc hg hs hok
    rw [hlog]
    exact ⟨hc, hfirst, fun s' hs' => hinv' s' (hnext s' hs').1 (hnext s' hs').2⟩

/-! ## The reporter -/

inductive TcCall where
  | initializePath (dest : BitVec 32) (bandwidth : Nat) (latency jitter drop : F32)
  | changeBandwidth (dest : BitVec 32) (bandwidth : Nat)
  | changeLatency (dest : BitVec 32) (latency jitter : F32)
  | changeLoss (dest : BitVec 32) (drop : F32)

/-- `TCHandler::handle` on a `TCUpdate`, with the destinations whose path is initialised. -/
def tcUpdate (initializedPath : List (BitVec 32)) (conf : TCConf) :
    Act TcCall (List (BitVec 32)) := do
  let destination ← conf.dest.asV4
  if destination ∈ initializedPath then
    if let some bw := conf.bandwidthKbitps then emit (.changeBandwidth destination bw)
    if let some (lat, jit) := conf.latencyAndJitter then emit (.changeLatency destination lat jit)
    if let some drop := conf.drop then emit (.changeLoss destination drop)
    pure initializedPath
  else
    let bw ← unwrap conf.bandwidthKbitps
    let (lat, jit) ← unwrap conf.latencyAndJitter
    let drop ← unwrap conf.drop
    emit (.initializePath destination bw lat jit drop)
    pure (destination :: initializedPath)

/-- The part of a log that a reporter gets. -/
def reporterHandles (app : Node) (initializedPath : List (BitVec 32)) :
    Effect → Act TcCall (List (BitVec 32))
  | .toReporter a (.tcUpdate conf) =>
    if Vertex.id a = Vertex.id app then tcUpdate initializedPath conf else pure initializedPath
  | _ => pure initializedPath

/-- A reporter whose paths come first unwraps nothing that is missing. -/
theorem reporter_returns {log : List Effect} (h : PathsFirst log) (app : Node)
    (hv4 : ∀ a conf, .toReporter a (.tcUpdate conf) ∈ log → Vertex.id a = Vertex.id app →
      ∃ addr, conf.dest = .v4 addr) :
    Returns (log.foldlM (reporterHandles app) []).result fun _ => True := by
  -- Every destination that the log has opened so far is initialised.
  refine Returns.mono (returns_foldlM (fun pre initialized => ∀ e ∈ pre, ∀ addr,
    e.opens app (.v4 addr) → addr ∈ initialized) (by simp) ?_) fun _ _ => trivial
  rintro pre e post initialized hlog hinv
  have hkeep : (∀ addr, ¬ e.opens app (.v4 addr)) → ∀ e' ∈ pre ++ [e], ∀ addr,
      e'.opens app (.v4 addr) → addr ∈ initialized := by
    intro hnone e' he' addr hopen
    rcases List.mem_append.mp he' with he' | he'
    · exact hinv e' he' addr hopen
    · rw [List.mem_singleton.mp he'] at hopen
      exact absurd hopen (hnone addr)
  by_cases hmine : ∃ a conf, e = .toReporter a (.tcUpdate conf) ∧ Vertex.id a = Vertex.id app
  · obtain ⟨a, conf, rfl, hid⟩ := hmine
    obtain ⟨addr, hdest⟩ := hv4 a conf (by rw [hlog]; simp) hid
    have hlast : ∀ initialized' : List (BitVec 32), addr ∈ initialized' →
        (∀ x ∈ initialized, x ∈ initialized') →
        ∀ e' ∈ pre ++ [.toReporter a (.tcUpdate conf)], ∀ x, e'.opens app (.v4 x) → x ∈ initialized' := by
      intro initialized' hin hsub e' he' x hopen
      rcases List.mem_append.mp he' with he' | he'
      · exact hsub x (hinv e' he' x hopen)
      · rw [List.mem_singleton.mp he'] at hopen
        have hx : addr = x := by
          have := hopen.2.1
          rw [hdest] at this
          exact IpAddr.v4.inj this
        exact hx ▸ hin
    simp only [reporterHandles, if_pos hid, tcUpdate, hdest]
    refine returns_bind (m := liftM _) (P := fun d => d = addr) ⟨addr, rfl, rfl⟩ ?_
    rintro _ rfl
    split <;> rename_i hin
    · refine ⟨initialized, ?_, hlast initialized hin fun x hx => hx⟩
      generalize conf.bandwidthKbitps = bw, conf.latencyAndJitter = lat, conf.drop = drop
      cases bw <;> cases lat <;> cases drop <;> rfl
    · have hcomplete : Complete conf := by
        by_contra hlacks
        have hget : log[pre.length]? = some (.toReporter a (.tcUpdate conf)) := by
          rw [hlog]
          simp
        obtain ⟨e', he', hopen⟩ := h _ _ hget app (.v4 _) ⟨hid, hdest, hlacks⟩
        have hpre : log.take pre.length = pre := by
          rw [hlog]
          simp
        rw [hpre] at he'
        exact hin (hinv e' he' _ hopen)
      obtain ⟨hbw, hlat, hdrop⟩ := hcomplete
      obtain ⟨bw, hbw⟩ := Option.isSome_iff_exists.mp hbw
      obtain ⟨lat, hlat⟩ := Option.isSome_iff_exists.mp hlat
      obtain ⟨drop, hdrop⟩ := Option.isSome_iff_exists.mp hdrop
      rw [hbw, hlat, hdrop]
      exact ⟨_, rfl, hlast _ List.mem_cons_self fun x hx => List.mem_cons_of_mem _ hx⟩
  · have hskip : reporterHandles app initialized e = pure initialized := by
      cases e with
      | toReporter a m =>
        cases m with
        | tcUpdate conf =>
          simp only [reporterHandles]
          rw [if_neg fun hid => hmine ⟨a, conf, rfl, hid⟩]
        | _ => rfl
      | _ => rfl
    rw [hskip]
    refine ⟨initialized, rfl, hkeep fun addr hopen => hmine ?_⟩
    cases e with
    | toReporter a m =>
      cases m with
      | tcUpdate conf => exact ⟨a, conf, rfl, hopen.1⟩
      | _ => exact hopen.elim
    | _ => exact hopen.elim

/-- In a run of messages whose paths are open, every update that lacks a property comes after one
for the same reporter and destination that lacks none, and no reporter unwraps a missing one. -/
theorem paths_first {g : Network Node} (hb : g.Built) (hs : g.pathStrategy = .shortestPath)
    {core : EmulCore} {messages : List EmulMessage} {c : Config}
    (h : Course .wrapping g core (OpensFirst core) messages c) :
    PathsFirst c.log ∧ ∀ app, (∀ a conf, .toReporter a (.tcUpdate conf) ∈ c.log →
      Vertex.id a = Vertex.id app → ∃ addr, conf.dest = .v4 addr) →
        Returns (c.log.foldlM (reporterHandles app) []).result fun _ => True := by
  obtain ⟨-, hfirst, -⟩ := h.openInv hb.wf hs
  exact ⟨hfirst, fun app hv4 => reporter_returns hfirst app hv4⟩

/-! ## Two apps on one host -/

theorem course_flowLoop {g : Network Node} {core : EmulCore}
    {ok : List EmulMessage → EmulMessage → Prop} {messages pre : List EmulMessage} {s s' : Loop}
    {log : List Effect} (h : Course .wrapping g core ok pre ⟨.running s, log⟩)
    (hok : ∀ before m after, messages = before ++ m :: after → ok (pre ++ before) m)
    (he : (flowLoop .inOrder .wrapping core messages s).result = .ok (.inl s')) :
    Course .wrapping g core ok (pre ++ messages)
      ⟨.running s', log ++ (flowLoop .inOrder .wrapping core messages s).log⟩ := by
  induction messages generalizing pre s log with
  | nil =>
    cases he
    rw [flowLoop, log_pure, List.append_nil, List.append_nil]
    exact h
  | cons m ms ih =>
    obtain ⟨r, hr, he, hlog⟩ := Act.of_bind_eq_ok he
    rw [flowLoop, hlog]
    cases r with
    | inr s₁ => cases he
    | inl s₁ =>
      have hfirst : ok pre m := by simpa using hok [] m ms rfl
      have hrest := ih (h.message hfirst (.next .inOrder rfl hr)) (fun before m' after hms => by
        simpa using hok (m :: before) m' after (by rw [hms]; rfl)) he
      simpa using hrest

theorem demoRun_course {net : Network Node} {myself : ClusterNodeInfo} {messages : List EmulMessage}
    {ok : List EmulMessage → EmulMessage → Prop} {core : EmulCore} {s : Loop}
    (hok : ∀ before m after, messages = before ++ m :: after → ok before m)
    (h : (demoRun net myself messages).result = .ok (core, s)) :
    Course .wrapping net core ok messages
      ⟨.running s, (demoRun net myself messages).log⟩ := by
  obtain ⟨core', hnew, h, hlog⟩ := Act.of_bind_eq_ok h
  obtain ⟨apps, happs, h, hlog₁⟩ := Act.of_bind_eq_ok h
  obtain ⟨r, hr, h, hlog₂⟩ := Act.of_bind_eq_ok h
  cases r with
  | inr s' => cases h
  | inl s' =>
    cases h
    rw [demoRun, hlog, hlog₁, hlog₂]
    have hcourse := course_flowLoop (.init (.mk .inOrder hnew happs)) hok hr
    simpa using hcourse

theorem paths_first_join : Returns (demoRun (demoNet 0) (demoHost 0)
    [demoEvent 0 .join, demoFlow (some 60)]).result fun p => p.2.activeFlows.len = 1 ∧
      PathsFirst (demoRun (demoNet 0) (demoHost 0) [demoEvent 0 .join, demoFlow (some 60)]).log := by
  obtain ⟨⟨core, s⟩, hrun, hlen, hsource⟩ : Returns (demoRun (demoNet 0) (demoHost 0)
      [demoEvent 0 .join, demoFlow (some 60)]).result fun p => p.2.activeFlows.len = 1 ∧
        (p.1.ipToApp.get? (.v4 100)).map (fun q => q.2.id) = some 0 := by decide +kernel
  have hcourse : Course .wrapping (demoNet 0) core (OpensFirst core)
      [demoEvent 0 .join, demoFlow (some 60)] ⟨.running s, (demoRun (demoNet 0) (demoHost 0)
        [demoEvent 0 .join, demoFlow (some 60)]).log⟩ := by
    refine demoRun_course (fun before m after hms => ?_) hrun
    rintro conf flow props rfl ha - -
    rcases before with _ | ⟨b, _ | ⟨b', before⟩⟩
    · cases hms
    · cases hms
      rw [ha.source] at hsource
      have hid : flow.source.id = 0 := Option.some.inj hsource
      left
      rw [hid]
      rfl
    · cases before <;> cases hms
  exact ⟨(core, s), hrun, hlen, (paths_first (demoNet_built 0 (Or.inl rfl)) rfl hcourse).1⟩

theorem not_pathsFirst (log : List Effect) (i : Nat) (e : Effect) (app : Node) (dest : IpAddr)
    (h : log[i]? = some e ∧ e.adjusts app dest ∧ ∀ e' ∈ log.take i, ¬ e'.opens app dest) :
    ¬ PathsFirst log := by
  intro hfirst
  obtain ⟨e', he', hopen⟩ := hfirst i e h.1 app dest h.2.1
  exact h.2.2 e' he' hopen

/-- An app that sends before it joins, or that quits before its first join, is sent a bandwidth for
a path that its reporter does not know, and the reporter unwraps what is missing. -/
theorem path_not_first : ((demoNet 0).Built ∧ (demoNet 0).pathStrategy = .shortestPath) ∧
    (∃ core c, Course .wrapping (demoNet 0) core (fun _ _ => True) [demoFlow (some 60)] c ∧
      ¬ PathsFirst c.log ∧
      ¬ Returns (c.log.foldlM (reporterHandles (demoApp 0 (demoHost 0))) []).result fun _ => True) ∧
    ∃ core c, Course .wrapping (demoNet 0) core (fun _ _ => True)
      [demoEvent 0 .quit, demoEvent 0 .join, demoFlow (some 60)] c ∧ ¬ PathsFirst c.log := by
  refine ⟨⟨demoNet_built 0 (Or.inl rfl), rfl⟩, ?_, ?_⟩
  · obtain ⟨⟨core, s⟩, hrun, -⟩ : Returns (demoRun (demoNet 0) (demoHost 0)
        [demoFlow (some 60)]).result fun _ => True := by decide +kernel
    refine ⟨core, _, demoRun_course (fun _ _ _ _ => trivial) hrun, ?_, ?_⟩
    · -- The third thing done, after two `TCInit`, is to send the bandwidth.
      exact not_pathsFirst (demoRun (demoNet 0) (demoHost 0) [demoFlow (some 60)]).log 2
        (.toReporter (demoApp 0 (demoHost 0)) (.tcUpdate ((TCConf.default (.v4 101)).bandwidthKbs 100)))
        (demoApp 0 (demoHost 0)) (.v4 101) (by decide +kernel)
    · show ¬ Returns ((demoRun (demoNet 0) (demoHost 0) [demoFlow (some 60)]).log.foldlM
        (reporterHandles (demoApp 0 (demoHost 0))) []).result _
      decide +kernel
  · obtain ⟨⟨core, s⟩, hrun, -⟩ : Returns (demoRun (demoNet 0) (demoHost 0)
        [demoEvent 0 .quit, demoEvent 0 .join, demoFlow (some 60)]).result fun _ => True := by
      decide +kernel
    refine ⟨core, _, demoRun_course (fun _ _ _ _ => trivial) hrun, ?_⟩
    -- The disconnection and the reconnection stand in between.
    exact not_pathsFirst (demoRun (demoNet 0) (demoHost 0)
        [demoEvent 0 .quit, demoEvent 0 .join, demoFlow (some 60)]).log 4
      (.toReporter (demoApp 0 (demoHost 0)) (.tcUpdate ((TCConf.default (.v4 101)).bandwidthKbs 100)))
      (demoApp 0 (demoHost 0)) (.v4 101) (by decide +kernel)

end Emulcore

end Kollaps
