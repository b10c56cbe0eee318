import Kollaps.Bwsync.Fairness
import Kollaps.Emulcore.Agreement
import Kollaps.Emulcore.Statuses
import Kollaps.Reporter.TcHandler

/-!
# What the reporters enforce

Between two messages the traffic control of each local app is in the state that the core means:
every active flow has its share, and no path is given more than the topology has.
-/

namespace Kollaps

open Run Act
open Reporter (Shaping TcPath)

namespace Emulcore

/-! ## The rates of the flows -/

structure Rated (g : Network Node) (f : Flow Node) : Prop where
  authorized : f.authorizedBandwidth ≤ f.maxAllowedBandwidth
  path : ∃ props, g.propertiesBetween f.source f.destination = .ok (some props) ∧
    f.maxAllowedBandwidth = props.bandwidth

theorem Rated.share {g : Network Node} {f : Flow Node} (h : Rated g f) (partition : ℚ) :
    Rated g (f.share partition) := by
  refine ⟨?_, by simpa using h.path⟩
  rw [Flow.maxAllowedBandwidth_share]
  exact Bwsync.authorized_share_le partition f

theorem Rated.remember {g : Network Node} {f : Flow Node} (h : Rated g f) (flows : FlowSet Node) :
    Rated g (Bwsync.remember flows f) := by
  unfold Bwsync.remember
  split <;> exact ⟨h.authorized, h.path⟩

theorem Rated.redistribute {g : Network Node} {f : Flow Node} (h : Rated g f) (flows : FlowSet Node)
    (path : List (Sym2 Nat)) : Rated g (Bwsync.redistribute g flows path f) := by
  unfold Bwsync.redistribute
  split
  · exact h.share _
  · exact h

theorem rated_of_redistributed {g : Network Node} {path : List (Sym2 Nat)} {flows flows' : FlowSet Node}
    (h : Bwsync.Redistributed g path flows flows') (hflows : ∀ f ∈ flows.elems, Rated g f) :
    ∀ f ∈ flows'.elems, Rated g f := by
  intro f hf
  obtain ⟨f₀, hf₀, rfl⟩ := List.mem_map.mp (h.perm.mem_iff.mp hf)
  exact (hflows f₀ hf₀).redistribute flows path

theorem rated_withFlow {g : Network Node} {flows : FlowSet Node} {f : Flow Node}
    (hflows : ∀ h ∈ flows.elems, Rated g h) (hf : Rated g f) :
    ∀ h ∈ (Bwsync.withFlow flows (Bwsync.remember flows f)).elems, Rated g h := by
  intro h hh
  rcases Bwsync.mem_withFlow hh with rfl | hh
  · exact hf.remember flows
  · exact hflows h hh

theorem About.rated {core : EmulCore} {conf : FlowConf} {flow : Flow Node}
    {props : Network.Properties} (h : About core conf flow props) : Rated core.graph flow := by
  refine ⟨?_, props, h.path, ?_⟩ <;> rw [h.eq]
  · exact Nat.zero_le _
  · rfl

theorem removeFlow_rated (it : Iter) {core : EmulCore} (hg : core.graph.Wf)
    {s s' : FlowSet Node × Network Node} (h : FlowsInv core s) {f : Flow Node} (hf : Served core f)
    (hmax : f.usedBandwidth ≤ f.maxAllowedBandwidth) (hrated : ∀ x ∈ s.1.elems, Rated core.graph x)
    (hfr : Rated core.graph f) (hs' : Bwsync.removeFlow it .wrapping s.1 f core.graph = .ok s') :
    ∀ x ∈ s'.1.elems, Rated core.graph x := by
  have hred := ((Bwsync.removeFlow_spec it hg h.run hf.cells hmax).of_eq hs').2
  exact rated_of_redistributed hred
    (rated_withFlow (fun x hx => hrated x (List.mem_filter.mp hx).1) hfr)

theorem applyFlow_rated {it : Iter} {core : EmulCore} (hg : core.graph.Wf)
    (hs : core.graph.pathStrategy = .shortestPath) {s : Loop}
    (h : FlowsInv core (s.activeFlows, s.bwGraph)) {conf : FlowConf} {flow : Flow Node}
    {props : Network.Properties} (ha : About core conf flow props)
    (hrated : ∀ x ∈ s.activeFlows.elems, Rated core.graph x) {s' : FlowSet Node × Network Node}
    (hs' : applyFlow it .wrapping core s flow = .ok s') : ∀ x ∈ s'.1.elems, Rated core.graph x := by
  unfold applyFlow at hs'
  split at hs' <;> rename_i hused
  · split at hs'
    · exact removeFlow_rated it hg h (ha.served hg) ha.measured.max hrated ha.rated hs'
    · cases hs'
      exact hrated
  · have hred := ((Bwsync.call_wrapping it hg hs h.run (c := .update flow) ⟨ha.measured, hused⟩).of_eq hs').2
    exact rated_of_redistributed hred (rated_withFlow hrated ha.rated)

theorem removeAllFlowsFrom_rated {it : Iter} {core : EmulCore} (hg : core.graph.Wf)
    {s s' : FlowSet Node × Network Node} (h : FlowsInv core s) {node : Node}
    (hrated : ∀ x ∈ s.1.elems, Rated core.graph x)
    (he : (removeAllFlowsFrom it .wrapping core s.1 s.2 node).result = .ok s') :
    ∀ x ∈ s'.1.elems, Rated core.graph x := by
  rw [removeAllFlowsFrom_eq] at he
  obtain ⟨toRemove, hmap, he, -⟩ := Act.of_bind_eq_ok he
  have hsnd : toRemove.map Prod.snd = flowsFrom it s.1 node := map_snd_of_flowEnd (of_mapM_eq_ok hmap)
  refine (Act.foldlM_ok_inv (fun _ s' => FlowsInv core s' ∧ ∀ x ∈ s'.1.elems, Rated core.graph x)
    ⟨h, hrated⟩ ?_ he).2
  rintro pre p post s₁ s₂ hx ⟨hinv, hr⟩ hstep
  have hin : p.2 ∈ s.1.elems :=
    (mem_flowsFrom.mp (hsnd ▸ List.mem_map_of_mem (by rw [hx]; simp) : p.2 ∈ flowsFrom it s.1 node)).1
  obtain ⟨s₃, hs₃, hstep, -⟩ := Act.of_bind_eq_ok hstep
  obtain ⟨_, -, hstep, -⟩ := Act.of_bind_eq_ok hstep
  cases hstep
  have hs₃' : (if s₁.1.contains p.2.key then Bwsync.removeFlow it .wrapping s₁.1 p.2 core.graph
    else pure s₁) = .ok s₂ := hs₃
  split at hs₃' <;> rename_i hcontains
  · have hmax := h.run.max _ hin
    exact ⟨((removeFlow_inv it hg hinv (h.served _ hin) hmax hcontains).of_eq hs₃').1,
      removeFlow_rated it hg hinv (h.served _ hin) hmax hr (hrated _ hin) hs₃'⟩
  · cases hs₃'
    exact ⟨hinv, hr⟩

theorem handle_rated {it : Iter} {core : EmulCore} (hg : core.graph.Wf)
    (hs : core.graph.pathStrategy = .shortestPath) {s s' : Loop}
    (h : FlowsInv core (s.activeFlows, s.bwGraph)) {m : EmulMessage}
    (hrated : ∀ x ∈ s.activeFlows.elems, Rated core.graph x)
    (he : (handle it .wrapping core s m).result = .ok s') :
    ∀ x ∈ s'.activeFlows.elems, Rated core.graph x := by
  cases m with
  | flowUpdate conf =>
    rcases onFlowUpdate_cases he with ⟨rfl, -⟩ | ⟨flow, props, ha, -, happly, -⟩
    · exact hrated
    · exact applyFlow_rated hg hs h ha hrated happly
  | event event =>
    have he' : (onEvent it .wrapping core s event).result = .ok s' := he
    unfold onEvent at he'
    split at he'
    · cases he'
      exact hrated
    · split at he'
      · rcases onJoin_cases he' with rfl | ⟨-, rfl⟩ <;> exact hrated
      · exact removeAllFlowsFrom_rated hg h hrated (onQuit_cases he').1
      · exact removeAllFlowsFrom_rated hg h hrated (onCrash_cases he').1
  | _ => cases he; exact hrated

/-! ## What a reporter is told -/

def Effect.told (app : Node) : Effect → Option EmulMessage
  | .toReporter a m => if Vertex.id a = Vertex.id app then some m else none
  | _ => none

def toldTo (app : Node) (log : List Effect) : List EmulMessage := log.filterMap (Effect.told app)

/-- The state of traffic control that the messages ask for. -/
def enforced (app : Node) (log : List Effect) : Shaping :=
  (toldTo app log).foldl Shaping.tell Shaping.start

theorem toldTo_append (app : Node) (a b : List Effect) :
    toldTo app (a ++ b) = toldTo app a ++ toldTo app b := List.filterMap_append

theorem enforced_append (app : Node) (a b : List Effect) :
    enforced app (a ++ b) = (toldTo app b).foldl Shaping.tell (enforced app a) := by
  rw [enforced, toldTo_append, List.foldl_append]
  rfl

theorem toldTo_eq_nil {app : Node} {log : List Effect} (h : ∀ e ∈ log, e.told app = none) :
    toldTo app log = [] := List.filterMap_eq_nil_iff.mpr h

theorem mem_toldTo {app : Node} {log : List Effect} {m : EmulMessage} :
    m ∈ toldTo app log ↔ ∃ a, .toReporter a m ∈ log ∧ Vertex.id a = Vertex.id app := by
  rw [toldTo, List.mem_filterMap]
  constructor
  · rintro ⟨e, he, htold⟩
    cases e with
    | toReporter a m' =>
      rw [Effect.told, Option.ite_none_right_eq_some, Option.some.injEq] at htold
      exact ⟨a, htold.2 ▸ he, htold.1⟩
    | _ => cases htold
  · rintro ⟨a, he, hid⟩
    exact ⟨_, he, if_pos hid⟩

theorem toldTo_of_does {app : Node} {α : Type} {m : Act Effect α} {P : EmulMessage → Prop} {Q : α → Prop}
    (h : Does m (fun e => ∀ message, e.told app = some message → P message) Q) :
    ∀ message ∈ toldTo app m.log, P message := by
  intro message hm
  obtain ⟨e, he, htold⟩ := List.mem_filterMap.mp hm
  exact h.log e he message htold

/-- An update with all properties of a path. -/
def whole (dest : IpAddr) (props : Network.Properties) : TCConf :=
  { dest
    bandwidthKbitps := some props.bandwidth
    latencyAndJitter := some props.latencyJitter
    drop := some props.drop }

/-- What a message may tell a reporter before the refresh. -/
def Meant (g : Network Node) (app : Node) (m : EmulMessage) : Prop :=
  m = .tcDisconnect ∨ m = .tcReconnect ∨ ∃ n dest props, m = .tcUpdate (whole dest props) ∧
    Located g n dest ∧ g.propertiesBetween app n = .ok (some props)

theorem told_toReporter {app a : Node} {m m' : EmulMessage}
    (h : (Effect.toReporter a m).told app = some m') : Vertex.id a = Vertex.id app ∧ m' = m := by
  rw [Effect.told, Option.ite_none_right_eq_some, Option.some.injEq] at h
  exact ⟨h.1, h.2.symm⟩

theorem announceFlow_tells (it : Iter) {core : EmulCore} (myApps : AppMap) {flow : Flow Node}
    {props : Network.Properties} (conf : FlowConf) {app : Node} {dest : IpAddr}
    (hdest : Located core.graph flow.destination dest) :
    ∀ m ∈ toldTo app (announceFlow it core myApps flow props conf).log,
      m = .tcUpdate (whole dest props) ∧ Vertex.id flow.source = Vertex.id app := by
  refine toldTo_of_does (Q := fun _ => True) ?_
  have hhost : ∀ host id m message, (Effect.toHost host id m).told app = some message →
      message = .tcUpdate (whole dest props) ∧ Vertex.id flow.source = Vertex.id app := by
    intro _ _ _ _ h
    cases h
  obtain ⟨destApp, hdestApp, hip⟩ := hdest.asApp
  unfold announceFlow
  refine Does.bind_lift fun _ _ => ?_
  refine Does.bind_lift fun here _ => ?_
  split
  · split
    · refine Does.bind_lift fun _ hd => ?_
      cases Except.ok.inj (hdestApp.symm.trans hd)
      refine Does.bind_lift fun _ hi => ?_
      cases Except.ok.inj (hip.symm.trans hi)
      refine Does.bind_lift fun reporter hreporter => ?_
      refine (Does.emit (Q := fun _ => True) (fun m hm => ?_) trivial).bind fun _ _ =>
        broadcastFlow_does hhost it core conf
      obtain ⟨hid, rfl⟩ := told_toReporter hm
      exact ⟨rfl, (id_reporterOf hreporter).symm.trans hid⟩
    · exact broadcastFlow_does hhost it core conf
  · exact Does.pure trivial

theorem initPaths_tells (it : Iter) {core : EmulCore} {node app : Node} :
    ∀ m ∈ toldTo app (initPaths it core node).log, Vertex.id node = Vertex.id app ∧
      ∃ n dest props, m = .tcUpdate (whole dest props) ∧ Located core.graph n dest ∧
        core.graph.propertiesBetween node n = .ok (some props) := by
  refine toldTo_of_does (Q := fun _ => True) ?_
  refine Does.forM fun other hother => ?_
  split
  · exact Does.pure trivial
  · refine Does.bind_lift fun o ho => ?_
    split
    · exact Does.pure trivial
    · refine Does.bind_lift fun _ happ => ?_
      refine Does.bind_lift fun dest hip => ?_
      refine Does.emit (fun m hm => ?_) trivial
      obtain ⟨hid, rfl⟩ := told_toReporter hm
      have hnode : IsNode core.graph other := mem_apps.mp hother
      exact ⟨hid, other, dest, _, rfl, hnode.located happ hip, ho⟩

/-- A path that the topology has, with its latency and loss and no more than its bandwidth. -/
def Real (g : Network Node) (app : Node) (dest : BitVec 32) (p : TcPath) : Prop :=
  ∃ n props, Located g n (.v4 dest) ∧ g.propertiesBetween app n = .ok (some props) ∧
    p.bandwidth ≤ props.bandwidth ∧ p.latency = props.latencyJitter.1 ∧
    p.jitter = props.latencyJitter.2 ∧ p.drop = props.drop

/-- An update that says nothing but the truth about a path. -/
def Fits (g : Network Node) (app : Node) (conf : TCConf) : Prop :=
  ∃ n props, Located g n conf.dest ∧ g.propertiesBetween app n = .ok (some props) ∧
    (∀ bw, conf.bandwidthKbitps = some bw → bw ≤ props.bandwidth) ∧
    (∀ l, conf.latencyAndJitter = some l → l = props.latencyJitter) ∧
    ∀ drop, conf.drop = some drop → drop = props.drop

theorem fits_whole {g : Network Node} {app n : Node} {dest : IpAddr} {props : Network.Properties}
    (hl : Located g n dest) (hp : g.propertiesBetween app n = .ok (some props)) :
    Fits g app (whole dest props) := by
  refine ⟨n, props, hl, hp, ?_, ?_, ?_⟩ <;> rintro _ ⟨⟩
  · exact le_refl _
  · rfl
  · rfl

theorem Real.update {g : Network Node} (hown : OwnAddress g) {app : Node} {conf : TCConf}
    {dest : BitVec 32} (hconf : Fits g app conf) (hdest : conf.dest = .v4 dest) {old : Option TcPath}
    (hold : ∀ p, old = some p → Real g app dest p) {p : TcPath} (hp : TcPath.update old conf = some p) :
    Real g app dest p := by
  obtain ⟨n, props, hl, hpath, hbw, hlat, hdrop⟩ := hconf
  rw [hdest] at hl
  cases old with
  | some p₀ =>
    obtain ⟨n', props', hl', hpath', hbw', hlat', hjit', hdrop'⟩ := hold p₀ rfl
    obtain rfl := hown _ _ _ hl hl'
    obtain rfl := Option.some.inj (Except.ok.inj (hpath.symm.trans hpath'))
    cases hp
    refine ⟨n, props, hl, hpath, ?_, ?_, ?_, ?_⟩ <;> dsimp only [TcPath.adjust]
    · cases h : conf.bandwidthKbitps with
      | none => exact hbw'
      | some bw => exact hbw bw h
    · cases h : conf.latencyAndJitter with
      | none => exact hlat'
      | some l => rw [← hlat l h]; rfl
    · cases h : conf.latencyAndJitter with
      | none => exact hjit'
      | some l => rw [← hlat l h]; rfl
    · cases h : conf.drop with
      | none => exact hdrop'
      | some drop => exact hdrop drop h
  | none =>
    obtain ⟨bw, hbw', hp⟩ := Option.bind_eq_some_iff.mp hp
    obtain ⟨lat, hlat', hp⟩ := Option.bind_eq_some_iff.mp hp
    obtain ⟨drop, hdrop', hp⟩ := Option.bind_eq_some_iff.mp hp
    cases hp
    refine ⟨n, props, hl, hpath, hbw bw hbw', ?_, ?_, hdrop drop hdrop'⟩
    · rw [hlat lat hlat']
    · rw [hlat lat hlat']

theorem tells_real {g : Network Node} (hown : OwnAddress g) {app : Node} {ms : List EmulMessage}
    (h : ∀ conf, .tcUpdate conf ∈ ms → Fits g app conf) {sh : Shaping}
    (hsh : ∀ dest p, sh.paths dest = some p → Real g app dest p) {dest : BitVec 32} {p : TcPath}
    (hp : (ms.foldl Shaping.tell sh).paths dest = some p) : Real g app dest p := by
  induction ms generalizing sh with
  | nil => exact hsh dest p hp
  | cons m ms ih =>
    refine ih (fun conf hin => h conf (List.mem_cons_of_mem _ hin)) (fun d q hq => ?_) hp
    by_cases hm : ∃ conf, m = .tcUpdate conf ∧ conf.dest = .v4 d
    · obtain ⟨conf, rfl, hdest⟩ := hm
      rw [Shaping.tell_v4 sh hdest, Shaping.set_paths, Function.update_self] at hq
      exact Real.update hown (h conf List.mem_cons_self) hdest (hsh d) hq
    · rw [Shaping.tell_other fun conf hconf hd => hm ⟨conf, hconf, hd⟩] at hq
      exact hsh d q hq

theorem told_of_opens {app : Node} {log : List Effect} {dest : IpAddr} {e : Effect} (he : e ∈ log)
    (hopen : e.opens app dest) :
    ∃ conf, .tcUpdate conf ∈ toldTo app log ∧ conf.dest = dest ∧ Complete conf := by
  cases e with
  | toReporter a m =>
    cases m with
    | tcUpdate conf => exact ⟨conf, mem_toldTo.mpr ⟨a, he, hopen.1⟩, hopen.2.1, hopen.2.2⟩
    | _ => exact hopen.elim
  | _ => exact hopen.elim

theorem isSome_of_opens {app : Node} {log : List Effect} {dest : BitVec 32} {e : Effect} (he : e ∈ log)
    (hopen : e.opens app (.v4 dest)) : ((enforced app log).paths dest).isSome = true := by
  obtain ⟨conf, hin, hdest, hcomplete⟩ := told_of_opens he hopen
  exact Shaping.tells_isSome hin hdest hcomplete

/-! ## What an event tells -/

section Event

variable {it : Iter} {core : EmulCore} {s s' : Loop} {node app : Node} {status : AppStatus}

theorem toldTo_hosts {α : Type} {m : Act Effect α} {Q : α → Prop}
    (h : Does m (fun e => e.told app = none) Q) : toldTo app m.log = [] := toldTo_eq_nil h.log

theorem toldTo_onJoin (h : (onJoin it core s node status).result = .ok s') :
    toldTo app (onJoin it core s node status).log = toldTo app (tellJoin it core node status).log := by
  obtain ⟨_, -, h, hlog⟩ := Act.of_bind_eq_ok h
  rw [show (onJoin it core s node status).log = _ from hlog, toldTo_append]
  cases status <;> simp [toldTo]

theorem toldTo_reporter (m : EmulMessage) :
    toldTo app [.toReporter node m] = if Vertex.id node = Vertex.id app then [m] else [] := by
  unfold toldTo Effect.told
  split <;> rename_i h <;> simp [h]

theorem toldTo_onQuit {ar : Arith} (h : (onQuit it ar core s node).result = .ok s') :
    toldTo app (onQuit it ar core s node).log =
      if Vertex.id node = Vertex.id app then [.tcDisconnect] else [] := by
  obtain ⟨r, -, h, hlog⟩ := Act.of_bind_eq_ok h
  obtain ⟨_, -, h, hlog₁⟩ := Act.of_bind_eq_ok h
  rw [onQuit, hlog, hlog₁, log_emit, log_pure, List.append_nil, toldTo_append, toldTo_reporter,
    toldTo_hosts (removeAllFlowsFrom_does (fun _ _ _ => rfl) it ar core _ _ node), List.nil_append]

theorem toldTo_onCrash {ar : Arith} (h : (onCrash it ar core s node).result = .ok s') :
    toldTo app (onCrash it ar core s node).log =
      if Vertex.id node = Vertex.id app then [.tcDisconnect] else [] := by
  obtain ⟨r, -, h, hlog⟩ := Act.of_bind_eq_ok h
  obtain ⟨_, -, h, hlog₁⟩ := Act.of_bind_eq_ok h
  obtain ⟨_, -, h, hlog₂⟩ := Act.of_bind_eq_ok h
  obtain ⟨_, -, h, hlog₃⟩ := Act.of_bind_eq_ok h
  obtain ⟨_, -, h, hlog₄⟩ := Act.of_bind_eq_ok h
  obtain ⟨_, -, h, hlog₅⟩ := Act.of_bind_eq_ok h
  rw [onCrash, hlog, hlog₁, hlog₂, hlog₃, hlog₄, hlog₅, log_emit, toldTo_append, toldTo_append,
    toldTo_append, toldTo_reporter,
    toldTo_hosts (removeAllFlowsFrom_does (fun _ _ _ => rfl) it ar core _ _ node),
    toldTo_hosts (stopAppIfNecessary_does node fun _ => rfl)]
  simp [toldTo, Effect.told]

end Event

theorem onFlowUpdate_tells {it : Iter} {ar : Arith} {core : EmulCore} (hc : CoreInv core.graph core)
    {s s' : Loop} {conf : FlowConf} (he : (onFlowUpdate it ar core s conf).result = .ok s') {app : Node}
    {m : EmulMessage} (hm : m ∈ toldTo app (onFlowUpdate it ar core s conf).log) :
    ∃ flow props, About core conf flow props ∧ m = .tcUpdate (whole conf.dest props) ∧
      Vertex.id flow.source = Vertex.id app := by
  rcases onFlowUpdate_cases he with ⟨-, -, hlog⟩ | ⟨flow, props, ha, -, -, -, hlog⟩
  · rw [hlog] at hm
    cases hm
  · rw [hlog] at hm
    have hdest := hc.located _ (KeySet.mem_of_get? ha.destination)
    exact ⟨flow, props, ha, announceFlow_tells it s.myApps conf hdest m hm⟩

theorem tellJoin_tells {it : Iter} {core : EmulCore} {node app : Node} (hnode : IsNode core.graph node)
    (happ : IsNode core.graph app) {status : AppStatus} {m : EmulMessage}
    (hm : m ∈ toldTo app (tellJoin it core node status).log) : node = app ∧
      ((status = .stopped ∧ m = .tcReconnect) ∨ (status = .notInit ∧ ∃ n dest props,
        m = .tcUpdate (whole dest props) ∧ Located core.graph n dest ∧
          core.graph.propertiesBetween app n = .ok (some props))) := by
  cases status with
  | notInit =>
    obtain ⟨hid, n, dest, props, rfl, hl, hp⟩ := initPaths_tells it m hm
    obtain rfl := hnode.eq_of_vertex happ hid
    exact ⟨rfl, Or.inr ⟨rfl, n, dest, props, rfl, hl, hp⟩⟩
  | stopped =>
    rw [tellJoin, log_emit, toldTo_reporter] at hm
    split at hm
    · next hid => exact ⟨hnode.eq_of_vertex happ hid, Or.inl ⟨rfl, List.mem_singleton.mp hm⟩⟩
    · cases hm
  | running => cases hm
  | crashed => cases hm

/-! ## Between two messages -/

/-- All that the messages ask of the app is to join. -/
structure Joined (messages : List EmulMessage) (app : Node) : Prop where
  first : firstAction messages app.id = some .join
  only : ∀ event, .event event ∈ messages → event.appId = app.id → event.action = .join

/-- What the reporter of an app was told, but for the shares of the flows. -/
structure Kept (core : EmulCore) (messages : List EmulMessage) (s : Loop) (app : Node) (sh : Shaping) :
    Prop where
  real : ∀ dest p, sh.paths dest = some p → Real core.graph app dest p
  connected : ∀ status, (app, status) ∈ s.myApps.elems →
    (sh.connected = true ↔ status = .notInit ∨ status = .running)
  free : Joined messages app → ∀ n dest props, Located core.graph n (.v4 dest) →
    core.graph.propertiesBetween app n = .ok (some props) →
    s.activeFlows.contains (Vertex.id app, Vertex.id n) = false →
      ∃ p, sh.paths dest = some p ∧ p.bandwidth = props.bandwidth

def Shared (core : EmulCore) (s : Loop) (app : Node) (sh : Shaping) : Prop :=
  ∀ f ∈ s.activeFlows.elems, f.source = app → ∀ dest, Located core.graph f.destination (.v4 dest) →
    ∃ p, sh.paths dest = some p ∧ p.bandwidth = f.authorizedBandwidth

section Handled

variable {it : Iter} {core : EmulCore} {messages : List EmulMessage} {s s' : Loop} {log : List Effect}
  {app : Node} {sh : Shaping}

theorem handle_meant (hc : CoreInv core.graph core) (hknown : ∀ p ∈ s.myApps.elems, IsNode core.graph p.1)
    (happ : IsNode core.graph app) {m : EmulMessage} (he : (handle it .wrapping core s m).result = .ok s')
    {told : EmulMessage} (htold : told ∈ toldTo app (handle it .wrapping core s m).log) :
    Meant core.graph app told := by
  cases m with
  | flowUpdate conf =>
    obtain ⟨flow, props, ha, rfl, hid⟩ := onFlowUpdate_tells hc he htold
    have hsrc := (hc.located _ (KeySet.mem_of_get? ha.source)).isNode
    obtain rfl := hsrc.eq_of_vertex happ hid
    exact Or.inr (Or.inr ⟨_, _, _, rfl, hc.located _ (KeySet.mem_of_get? ha.destination), ha.path⟩)
  | event event =>
    have htold' : told ∈ toldTo app (onEvent it .wrapping core s event).log := htold
    have he' : (onEvent it .wrapping core s event).result = .ok s' := he
    rcases onEvent_cases he' with ⟨-, hlog, -⟩ | ⟨node, status, hin, -, ⟨-, heq⟩ | ⟨-, heq⟩ | ⟨-, heq⟩⟩
    · rw [hlog] at htold'
      cases htold'
    · rw [heq] at htold' he'
      rw [toldTo_onJoin he'] at htold'
      obtain ⟨rfl, ⟨-, rfl⟩ | ⟨-, h⟩⟩ := tellJoin_tells (hknown _ hin) happ htold'
      · exact Or.inr (Or.inl rfl)
      · exact Or.inr (Or.inr h)
    · rw [heq] at htold' he'
      rw [toldTo_onQuit he'] at htold'
      split at htold'
      · exact Or.inl (List.mem_singleton.mp htold')
      · cases htold'
    · rw [heq] at htold' he'
      rw [toldTo_onCrash he'] at htold'
      split at htold'
      · exact Or.inl (List.mem_singleton.mp htold')
      · cases htold'
  | _ => cases htold

theorem Meant.fits {g : Network Node} {conf : TCConf} (h : Meant g app (.tcUpdate conf)) :
    Fits g app conf := by
  rcases h with h | h | ⟨n, dest, props, h, hl, hp⟩
  · cases h
  · cases h
  · cases h
    exact fits_whole hl hp

theorem connected_handled (hc : CoreInv core.graph core)
    (hknown : ∀ p ∈ s.myApps.elems, IsNode core.graph p.1) (happ : IsNode core.graph app)
    (h : ∀ status, (app, status) ∈ s.myApps.elems →
      (sh.connected = true ↔ status = .notInit ∨ status = .running)) {m : EmulMessage}
    (he : (handle it .wrapping core s m).result = .ok s') {status : AppStatus}
    (hstatus : (app, status) ∈ s'.myApps.elems) :
    ((toldTo app (handle it .wrapping core s m).log).foldl Shaping.tell sh).connected = true ↔
      status = .notInit ∨ status = .running := by
  -- A reporter that is told of paths alone stays connected, or not.
  have hpaths : (∀ told ∈ toldTo app (handle it .wrapping core s m).log, ∃ conf, told = .tcUpdate conf) →
      (app, status) ∈ s.myApps.elems →
        (((toldTo app (handle it .wrapping core s m).log).foldl Shaping.tell sh).connected = true ↔
          status = .notInit ∨ status = .running) := by
    intro htold hin
    rw [Shaping.tells_connected fun m' hm' => ?_]
    · exact h status hin
    · obtain ⟨conf, rfl⟩ := htold m' hm'
      exact ⟨by simp, by simp⟩
  cases m with
  | flowUpdate conf =>
    have hsame : s'.myApps = s.myApps := by
      rcases onFlowUpdate_cases he with ⟨rfl, -⟩ | ⟨_, _, -, hsame, -⟩
      · rfl
      · exact hsame
    refine hpaths (fun told htold => ?_) (hsame ▸ hstatus)
    obtain ⟨flow, props, -, rfl, -⟩ := onFlowUpdate_tells hc he htold
    exact ⟨_, rfl⟩
  | event event =>
    have he' : (onEvent it .wrapping core s event).result = .ok s' := he
    have hdisconnect : ∀ {node : Node} {old st : AppStatus}, (node, old) ∈ s.myApps.elems →
        s'.myApps = s.myApps.put node st → st ≠ .notInit ∧ st ≠ .running →
        toldTo app (onEvent it .wrapping core s event).log =
          (if Vertex.id node = Vertex.id app then [.tcDisconnect] else []) →
        (((toldTo app (onEvent it .wrapping core s event).log).foldl Shaping.tell sh).connected = true ↔
          status = .notInit ∨ status = .running) := by
      intro node old st hin happs hst htold
      rw [happs] at hstatus
      rw [htold]
      rcases mem_put_status hin hstatus with heq | ⟨hold, hne⟩
      · cases heq
        rw [if_pos rfl]
        simp [Shaping.tell, hst]
      · rw [if_neg (Ne.symm hne)]
        exact h status hold
    rcases onEvent_cases he' with ⟨rfl, hlog, -⟩ | ⟨node, old, hin, -, ⟨-, heq⟩ | ⟨-, heq⟩ | ⟨-, heq⟩⟩
    · refine hpaths (fun told htold => ?_) hstatus
      rw [show (handle it .wrapping core s' (.event event)).log = [] from hlog] at htold
      cases htold
    · rw [heq] at he'
      show ((toldTo app (onEvent it .wrapping core s event).log).foldl Shaping.tell sh).connected = true ↔ _
      have hpaths' := hpaths
      rw [show (handle it .wrapping core s (.event event)) = onEvent it .wrapping core s event from rfl,
        heq, toldTo_onJoin he'] at hpaths'
      rw [heq, toldTo_onJoin he']
      obtain ⟨_, -, hjoin, -⟩ := Act.of_bind_eq_ok he'
      by_cases hid : Vertex.id node = Vertex.id app
      · obtain rfl := (hknown _ hin).eq_of_vertex happ hid
        have hput : ∀ {st : AppStatus}, (node, status) ∈ (s.myApps.put node st).elems → status = st := by
          intro st hmem
          rcases mem_put_status hin hmem with heq | ⟨-, hne⟩
          · exact congrArg Prod.snd heq
          · exact absurd rfl hne
        cases old with
        | notInit =>
          cases hjoin
          rw [Shaping.tells_connected fun m' hm' => ?_]
          · rw [hput hstatus]
            simpa using h _ hin
          · obtain ⟨-, ⟨hst, -⟩ | ⟨-, n, dest, props, rfl, -⟩⟩ := tellJoin_tells happ happ hm'
            · cases hst
            · exact ⟨by simp, by simp⟩
        | stopped =>
          cases hjoin
          rw [hput hstatus, tellJoin, log_emit, toldTo_reporter, if_pos rfl]
          simp [Shaping.tell]
        | running =>
          cases hjoin
          exact h status hstatus
        | crashed =>
          cases hjoin
          exact h status hstatus
      · refine hpaths' (fun told htold => ?_) ?_
        · exact absurd (congrArg Vertex.id (tellJoin_tells (hknown _ hin) happ htold).1) hid
        · have hput : ∀ {st : AppStatus}, (app, status) ∈ (s.myApps.put node st).elems →
              (app, status) ∈ s.myApps.elems := by
            intro st hmem
            rcases mem_put_status hin hmem with heq | ⟨hold, -⟩
            · exact absurd (congrArg (Vertex.id ∘ Prod.fst) heq).symm hid
            · exact hold
          cases old with
          | notInit | stopped =>
            cases hjoin
            exact hput hstatus
          | running | crashed =>
            cases hjoin
            exact hstatus
    · rw [heq] at he'
      exact hdisconnect hin (onQuit_cases he').2 (by decide) (by rw [heq]; exact toldTo_onQuit he')
    · rw [heq] at he'
      exact hdisconnect hin (onCrash_cases he').2 (by decide) (by rw [heq]; exact toldTo_onCrash he')
  | _ =>
    cases he
    exact h status hstatus

theorem first_join {m : EmulMessage} (hj : Joined (messages ++ [m]) app) (hn : ¬ Joined messages app) :
    firstAction messages app.id = none ∧
      ∃ event, m = .event event ∧ event.appId = app.id ∧ event.action = .join := by
  have hfirst : firstAction messages app.id ≠ some .join := fun hfirst =>
    hn ⟨hfirst, fun event hin => hj.only event (List.mem_append_left _ hin)⟩
  by_cases hm : ∃ event, m = .event event
  · obtain ⟨event, rfl⟩ := hm
    have hafter := hj.first
    rw [firstAction_append_event] at hafter
    cases hold : firstAction messages app.id with
    | some action =>
      rw [hold] at hafter hfirst
      exact absurd hafter hfirst
    | none =>
      rw [hold, Option.none_or, Option.ite_none_right_eq_some] at hafter
      exact ⟨rfl, event, rfl, hafter.1, Option.some.inj hafter.2⟩
  · have hafter := hj.first
    rw [firstAction_append_other messages (fun event heq => hm ⟨event, heq⟩)] at hafter
    exact absurd hafter hfirst

theorem first_join_tells (hg : core.graph.Wf) (happs : AppsInv core messages s.myApps log)
    (happ : IsNode core.graph app) (hhere : RunsHere core app) {event : EmulationEvent}
    (hfirst : firstAction messages app.id = none) (hid : event.appId = app.id)
    (hact : event.action = .join) (he : (onEvent it .wrapping core s event).result = .ok s') {n : Node}
    {dest : IpAddr} {props : Network.Properties} (hl : Located core.graph n dest)
    (hp : core.graph.propertiesBetween app n = .ok (some props)) :
    ∃ conf, .tcUpdate conf ∈ toldTo app (onEvent it .wrapping core s event).log ∧ conf.dest = dest := by
  obtain ⟨p, hin, hk⟩ := List.mem_map.mp (KeySet.contains_iff.mp (happs.mine app happ.1 hhere))
  obtain rfl : p.1 = app := IsNode.eq_of_vertex (happs.known p hin) happ hk
  rcases onEvent_cases he with ⟨-, -, hnone⟩ | ⟨node, status, hin', hid', hcases⟩
  · exact absurd hid (hnone p hin)
  obtain rfl : node = p.1 := eq_of_nodeId (happs.known _ hin') happ (hid'.symm.trans hid)
  rcases hcases with ⟨-, heq⟩ | ⟨hact', -⟩ | ⟨hact', -⟩
  · rw [heq] at he ⊢
    have hstatus : status = .notInit := (happs.status _ hin').mpr hfirst
    rw [toldTo_onJoin he]
    obtain ⟨⟨⟩, htell, -, -⟩ := Act.of_bind_eq_ok he
    rw [hstatus] at htell ⊢
    have hne : Vertex.id n ≠ Vertex.id p.1 := fun heq =>
      Network.route_ne_nil hg hp (hg.route_self heq.symm)
    obtain ⟨e, hein, hopen⟩ := initPaths_opens hl hne hp htell
    obtain ⟨conf, hconf, hdest, -⟩ := @told_of_opens _ (initPaths it core p.1).log _ _ hein hopen
    exact ⟨conf, hconf, hdest⟩
  · rw [hact] at hact'
    cases hact'
  · rw [hact] at hact'
    cases hact'

theorem ended_tells (hc : CoreInv core.graph core) (hg : core.graph.Wf)
    (hs : core.graph.pathStrategy = .shortestPath) (hflows : FlowsInv core (s.activeFlows, s.bwGraph))
    (hknown : ∀ p ∈ s.myApps.elems, IsNode core.graph p.1) (happ : IsNode core.graph app)
    (hhere : RunsHere core app) {m : EmulMessage}
    (hj : ∀ event, m = .event event → event.appId = app.id → event.action = .join)
    (he : (handle it .wrapping core s m).result = .ok s') {n : Node} {dest : IpAddr}
    (hl : Located core.graph n dest)
    (hbefore : s.activeFlows.contains (Vertex.id app, Vertex.id n) = true)
    (hafter : s'.activeFlows.contains (Vertex.id app, Vertex.id n) = false) :
    ∃ conf, .tcUpdate conf ∈ toldTo app (handle it .wrapping core s m).log ∧ conf.dest = dest := by
  have hsame : s'.activeFlows ≠ s.activeFlows := by
    intro heq
    rw [heq, hbefore] at hafter
    cases hafter
  cases m with
  | flowUpdate conf =>
    rcases onFlowUpdate_cases he with ⟨rfl, -⟩ | ⟨flow, props, ha, -, happly, hann, hlog⟩
    · exact absurd rfl hsame
    have hkeys := ((applyFlow_inv it hg hs hflows ha).of_eq happly).2 (Vertex.id app, Vertex.id n)
    rw [hafter, hbefore] at hkeys
    split at hkeys <;> rename_i hused
    · have hkey : (Vertex.id app, Vertex.id n) = flow.key := by simpa using hkeys
      have hsrc := hc.located _ (KeySet.mem_of_get? ha.source)
      have hdest := hc.located _ (KeySet.mem_of_get? ha.destination)
      obtain rfl := happ.eq_of_vertex hsrc.isNode (congrArg Prod.fst hkey)
      obtain rfl := hl.isNode.eq_of_vertex hdest.isNode (congrArg Prod.snd hkey)
      obtain ⟨e, hein, hopen⟩ := announceFlow_opens hused hhere hl hann
      rw [← hlog] at hein
      obtain ⟨conf', hconf, hd, -⟩ := told_of_opens hein hopen
      exact ⟨conf', hconf, hd⟩
    · simp at hkeys
  | event event =>
    have he' : (onEvent it .wrapping core s event).result = .ok s' := he
    have hdepart : ∀ {node : Node} {status : AppStatus}, (node, status) ∈ s.myApps.elems →
        event.appId = node.id → event.action ≠ .join →
        (removeAllFlowsFrom it .wrapping core s.activeFlows s.bwGraph node).result =
          .ok (s'.activeFlows, s'.bwGraph) → False := by
      intro node status hin hid hact hremove
      have hkeys := ((removeAllFlowsFrom_spec it hc hg hflows node).of_eq hremove).2
        (Vertex.id app, Vertex.id n)
      rw [hafter, hbefore] at hkeys
      refine absurd (hkeys.mpr ⟨rfl, fun f hf hsrc _ hk => ?_⟩) (by simp)
      have heq := (hknown _ hin).eq_of_vertex happ (hsrc.symm.trans (congrArg Prod.fst hk))
      exact hact (hj event rfl (hid.trans (congrArg Node.id heq)))
    rcases onEvent_cases he' with ⟨rfl, -⟩ | ⟨node, status, hin, hid, ⟨-, heq⟩ | ⟨hact, heq⟩ | ⟨hact, heq⟩⟩
    · exact absurd rfl hsame
    · rw [heq] at he'
      rcases onJoin_cases he' with rfl | ⟨-, rfl⟩ <;> exact absurd rfl hsame
    · rw [heq] at he'
      exact (hdepart hin hid (by rw [hact]; decide) (onQuit_cases he').1).elim
    · rw [heq] at he'
      exact (hdepart hin hid (by rw [hact]; decide) (onCrash_cases he').1).elim
  | _ =>
    cases he
    exact absurd rfl hsame

/-- What a message tells keeps what holds of the reporter of an app. -/
theorem Kept.handled (hc : CoreInv core.graph core) (hg : core.graph.Wf)
    (hs : core.graph.pathStrategy = .shortestPath) (hown : OwnAddress core.graph)
    (hflows : FlowsInv core (s.activeFlows, s.bwGraph)) (happs : AppsInv core messages s.myApps log)
    (happ : IsNode core.graph app) (hhere : RunsHere core app) (h : Kept core messages s app sh)
    {m : EmulMessage} (he : (handle it .wrapping core s m).result = .ok s') :
    Kept core (messages ++ [m]) s' app
      ((toldTo app (handle it .wrapping core s m).log).foldl Shaping.tell sh) := by
  have hmeant : ∀ told ∈ toldTo app (handle it .wrapping core s m).log, Meant core.graph app told :=
    fun told htold => handle_meant hc happs.known happ he htold
  refine ⟨fun dest p hp => ?_, fun status hin => ?_, fun hj n dest props hl hp hafter => ?_⟩
  · exact tells_real hown (fun conf hin => (hmeant _ hin).fits) h.real hp
  · exact connected_handled hc happs.known happ h.connected he hin
  · refine Shaping.tells_bandwidth (fun conf hin hdest => ?_) ?_
    · rcases hmeant _ hin with hmeans | hmeans | ⟨n', dest', props', hconf, hl', hp'⟩
      · cases hmeans
      · cases hmeans
      · cases hconf
        obtain rfl : dest' = .v4 dest := hdest
        obtain rfl := hown _ _ _ hl hl'
        obtain rfl := Option.some.inj (Except.ok.inj (hp.symm.trans hp'))
        exact ⟨rfl, Or.inl ⟨rfl, rfl, rfl⟩⟩
    · by_cases hjoined : Joined messages app
      · cases hbefore : s.activeFlows.contains (Vertex.id app, Vertex.id n) with
        | false => exact Or.inr (h.free hjoined n dest props hl hp hbefore)
        | true =>
          refine Or.inl (ended_tells hc hg hs hflows happs.known happ hhere ?_ he hl hbefore hafter)
          rintro event rfl
          exact hj.only event (by simp)
      · obtain ⟨hfirst, event, rfl, hid, hact⟩ := first_join hj hjoined
        exact Or.inl (first_join_tells hg happs happ hhere hfirst hid hact he hl hp)

/-! ## The refresh -/

theorem refresh_tells (hc : CoreInv core.graph core) (hserved : ∀ f ∈ s.activeFlows.elems, Served core f)
    {told : EmulMessage} (htold : told ∈ toldTo app (refresh it core s).log) :
    ∃ f ∈ s.activeFlows.elems, ∃ dest, Located core.graph f.destination dest ∧
      Vertex.id f.source = Vertex.id app ∧
      told = .tcUpdate ((TCConf.default dest).bandwidthKbs f.authorizedBandwidth) := by
  refine toldTo_of_does (P := fun told => ∃ f ∈ s.activeFlows.elems, ∃ dest,
    Located core.graph f.destination dest ∧ Vertex.id f.source = Vertex.id app ∧
      told = .tcUpdate ((TCConf.default dest).bandwidthKbs f.authorizedBandwidth))
    (refresh_does it core s ?_) told htold
  intro f hf a destApp ip hid _ hdestApp hip message hmessage
  obtain ⟨haid, rfl⟩ := told_toReporter hmessage
  obtain ⟨d, hd⟩ := (hserved f hf).destination
  exact ⟨f, hf, ip, (hc.located _ hd).isNode.located hdestApp hip, hid.symm.trans haid, rfl⟩

theorem mem_refresh (h : (refresh it core s).result = .ok ⟨⟩) {f : Flow Node}
    (hf : f ∈ s.activeFlows.elems) (hhere : RunsHere core f.source) {dest : IpAddr}
    (hdest : Located core.graph f.destination dest) :
    .tcUpdate ((TCConf.default dest).bandwidthKbs f.authorizedBandwidth) ∈
      toldTo f.source (refresh it core s).log := by
  obtain ⟨src, hsrc, hruns⟩ := hhere
  obtain ⟨destApp, hdestApp, hip⟩ := hdest.asApp
  have hmem : f ∈ it.order s.activeFlows.elems := it.mem_order.mpr hf
  obtain ⟨_, hone⟩ := ok_of_forM h hmem
  rw [mem_toldTo]
  obtain ⟨_, hsrc', hone, hlog⟩ := Act.of_bind_eq_ok hone
  cases Except.ok.inj (hsrc.symm.trans hsrc')
  obtain ⟨here, hhere, hone, hlog₁⟩ := Act.of_bind_eq_ok hone
  cases Except.ok.inj (hruns.symm.trans hhere)
  rw [if_pos rfl] at hone hlog₁
  obtain ⟨_, hd, hone, hlog₂⟩ := Act.of_bind_eq_ok hone
  cases Except.ok.inj (hdestApp.symm.trans hd)
  obtain ⟨_, hi, hone, hlog₃⟩ := Act.of_bind_eq_ok hone
  cases Except.ok.inj (hip.symm.trans hi)
  obtain ⟨reporter, hreporter, hone, hlog₄⟩ := Act.of_bind_eq_ok hone
  refine ⟨reporter, mem_log_forM h hmem ?_, id_reporterOf hreporter⟩
  rw [hlog, hlog₁, hlog₂, hlog₃, hlog₄]
  simp

theorem mem_active (hserved : ∀ f ∈ s.activeFlows.elems, Served core f)
    (hc : CoreInv core.graph core) {f : Flow Node} (hf : f ∈ s.activeFlows.elems) :
    IsNode core.graph f.source ∧ IsNode core.graph f.destination := by
  obtain ⟨_, hsrc⟩ := (hserved f hf).source
  obtain ⟨_, hdest⟩ := (hserved f hf).destination
  exact ⟨(hc.located _ hsrc).isNode, (hc.located _ hdest).isNode⟩

/-- The refresh gives every active flow its share, and changes nothing else. -/
theorem Kept.refreshed (hc : CoreInv core.graph core) (hown : OwnAddress core.graph)
    (hserved : ∀ f ∈ s.activeFlows.elems, Served core f)
    (hrated : ∀ f ∈ s.activeFlows.elems, Rated core.graph f) (happ : IsNode core.graph app)
    (hhere : RunsHere core app) (h : Kept core messages s app sh)
    (hopened : ∀ f ∈ s.activeFlows.elems, f.source = app → ∀ dest,
      Located core.graph f.destination (.v4 dest) → (sh.paths dest).isSome = true)
    (he : (refresh it core s).result = .ok ⟨⟩) :
    Kept core messages s app ((toldTo app (refresh it core s).log).foldl Shaping.tell sh) ∧
      Shared core s app ((toldTo app (refresh it core s).log).foldl Shaping.tell sh) := by
  have htells : ∀ conf, .tcUpdate conf ∈ toldTo app (refresh it core s).log →
      ∃ f ∈ s.activeFlows.elems, f.source = app ∧ Located core.graph f.destination conf.dest ∧
        conf = (TCConf.default conf.dest).bandwidthKbs f.authorizedBandwidth := by
    intro conf hin
    obtain ⟨f, hf, dest, hl, hid, hconf⟩ := refresh_tells hc hserved hin
    cases hconf
    exact ⟨f, hf, (mem_active hserved hc hf).1.eq_of_vertex happ hid, hl, rfl⟩
  refine ⟨⟨fun dest p hp => ?_, fun status hin => ?_, fun hj n dest props hl hp hinactive => ?_⟩,
    fun f hf hsrc dest hdest => ?_⟩
  · refine tells_real hown (fun conf hin => ?_) h.real hp
    obtain ⟨f, hf, rfl, hl, hconf⟩ := htells conf hin
    obtain ⟨hle, props, hpath, hmax⟩ := hrated f hf
    refine ⟨f.destination, props, hl, hpath, ?_, ?_, ?_⟩ <;> rw [hconf] <;> rintro _ ⟨⟩
    exact hmax ▸ hle
  · rw [Shaping.tells_connected fun m hm => ?_]
    · exact h.connected status hin
    · obtain ⟨f, -, dest, -, -, rfl⟩ := refresh_tells hc hserved hm
      exact ⟨by simp, by simp⟩
  · rw [Shaping.tells_other fun conf hin hdest => ?_]
    · exact h.free hj n dest props hl hp hinactive
    · obtain ⟨f, hf, rfl, hl', -⟩ := htells conf hin
      rw [hdest] at hl'
      obtain rfl := hown _ _ _ hl hl'
      have hactive := KeySet.contains_key hf
      rw [show f.key = (Vertex.id f.source, Vertex.id f.destination) from rfl, hinactive] at hactive
      cases hactive
  · refine Shaping.tells_bandwidth (fun conf hin hd => ?_) (Or.inl ?_)
    · obtain ⟨f', hf', hsrc', hl', hconf⟩ := htells conf hin
      rw [hd] at hl'
      have hkey : f'.key = f.key := by
        rw [Flow.key, Flow.key, hsrc', hsrc, hown _ _ _ hl' hdest]
      rw [hconf, s.activeFlows.eq_of_key_eq hf' hf hkey]
      exact ⟨rfl, Or.inr (hopened f hf hsrc dest hdest)⟩
    · subst hsrc
      exact ⟨_, mem_refresh he hf hhere hdest, rfl⟩

end Handled

/-! ## Runs -/

/-- What holds of a core between two messages, and of the reporters of its apps. -/
structure EnforceInv (core : EmulCore) (messages : List EmulMessage) (s : Loop) (log : List Effect) :
    Prop where
  opens : OpenInv core messages s log
  rated : ∀ f ∈ s.activeFlows.elems, Rated core.graph f
  kept : ∀ app, IsNode core.graph app → RunsHere core app →
    Kept core messages s app (enforced app log) ∧ Shared core s app (enforced app log)

theorem EnforceInv.round {it : Iter} {core : EmulCore} (hc : CoreInv core.graph core)
    (hg : core.graph.Wf) (hs : core.graph.pathStrategy = .shortestPath) (hown : OwnAddress core.graph)
    {messages : List EmulMessage} {s s' : Loop} {log : List Effect} (h : EnforceInv core messages s log)
    {m : EmulMessage} (hopens : OpensFirst core messages m)
    (he : (handle it .wrapping core s m).result = .ok s')
    (hr : (refresh it core s').result = .ok ⟨⟩)
    (hround : OpenInv core (messages ++ [m]) s'
      (log ++ ((handle it .wrapping core s m).log ++ (refresh it core s').log))) :
    EnforceInv core (messages ++ [m]) s'
      (log ++ ((handle it .wrapping core s m).log ++ (refresh it core s').log)) := by
  have hmid := h.opens.handled hc hg hs hopens he
  have hrated := handle_rated hg hs h.opens.flows h.rated he
  refine ⟨hround, hrated, fun app happ hhere => ?_⟩
  have hkept := (h.kept app happ hhere).1.handled hc hg hs hown h.opens.flows h.opens.apps happ hhere he
  rw [← enforced_append] at hkept
  rw [← List.append_assoc, enforced_append]
  refine hkept.refreshed hc hown hmid.flows.served hrated happ hhere (fun f hf hsrc dest hl => ?_) hr
  subst hsrc
  obtain ⟨e, hein, hopen⟩ := hmid.inUse f hf hhere _ hl
  exact isSome_of_opens hein hopen

theorem Init.enforceInv {g : Network Node} (hg : g.Wf) {core : EmulCore} {c : Config} (h : Init g core c)
    {s : Loop} (hs : c.phase.loop = some s) : EnforceInv core [] s c.log := by
  have hopen := (h.openInv hg).2.2 s hs
  cases h with
  | mk it hnew happs =>
    cases hs
    refine ⟨hopen, by simp [start], fun app _ _ => ?_⟩
    have htold : ∀ m ∈ toldTo app (initEmulation it core).log, ∃ conf, m = .tcInit conf := by
      refine toldTo_of_does (initEmulation_does it core fun node conf m hm => ?_)
      exact ⟨conf, (told_toReporter hm).2⟩
    have hpaths : (enforced app (initEmulation it core).log).paths = Shaping.start.paths := by
      funext dest
      refine Shaping.tells_other fun conf hin _ => ?_
      obtain ⟨conf', h⟩ := htold _ hin
      cases h
    refine ⟨⟨fun dest p hp => ?_, fun status hin => ?_, fun hj => ?_⟩, by simp [Shared, start]⟩
    · rw [hpaths] at hp
      cases hp
    · obtain rfl : status = .notInit := ((initEmulation_apps happs).1 _ hin).1
      dsimp only
      rw [enforced, Shaping.tells_connected fun m hm => ?_]
      · simp [Shaping.start]
      · obtain ⟨conf, rfl⟩ := htold m hm
        exact ⟨by simp, by simp⟩
    · exact absurd hj.first (by simp [firstAction])

theorem Course.enforceInv {g : Network Node} (hg : g.Wf) (hs : g.pathStrategy = .shortestPath)
    (hown : OwnAddress g) {core : EmulCore} {messages : List EmulMessage} {c : Config}
    (h : Course .wrapping g core (OpensFirst core) messages c) {s : Loop} (hloop : c.phase.loop = some s) :
    EnforceInv core messages s c.log := by
  induction h generalizing s with
  | init hinit => exact hinit.enforceInv hg hloop
  | @message messages m c c' hcourse hok hstep ih =>
    have hc := (hcourse.openInv hg hs).1
    obtain ⟨-, -, hopen⟩ := (hcourse.message hok hstep).openInv hg hs
    have hgraph := hc.graph
    subst hgraph
    obtain ⟨s₀, it, m, hphase, rfl, he, hr, hlog⟩ := hstep.refreshed hloop
    have hround := hopen s hloop
    rw [hlog] at hround ⊢
    exact (ih (by rw [hphase]; rfl)).round hc hg hs hown hok he hr hround

/-- Between two messages of a run whose paths are opened first, the traffic control of each local
app is told what the core means. Every active flow gets its share; a path has the latency and the
loss of the topology and at most its bandwidth; an app whose events are joins has every other path
in full; and an app is connected until it quits or crashes. -/
theorem enforced_as_meant {g : Network Node} (hb : g.Built) (hs : g.pathStrategy = .shortestPath)
    (hown : OwnAddress g) {core : EmulCore} {messages : List EmulMessage} {c : Config}
    (h : Course .wrapping g core (OpensFirst core) messages c) {s : Loop} (hloop : c.phase.loop = some s)
    {app : Node} (happ : IsNode g app) (hhere : RunsHere core app) :
    (∀ f ∈ s.activeFlows.elems, f.source = app → ∀ dest, Located g f.destination (.v4 dest) →
      ∃ p, (enforced app c.log).paths dest = some p ∧ p.bandwidth = f.authorizedBandwidth) ∧
    (∀ dest p, (enforced app c.log).paths dest = some p → ∃ n props, Located g n (.v4 dest) ∧
      g.propertiesBetween app n = .ok (some props) ∧ p.bandwidth ≤ props.bandwidth ∧
      p.latency = props.latencyJitter.1 ∧ p.jitter = props.latencyJitter.2 ∧ p.drop = props.drop) ∧
    (Joined messages app → ∀ n dest props, Located g n (.v4 dest) →
      g.propertiesBetween app n = .ok (some props) →
      s.activeFlows.contains (Vertex.id app, Vertex.id n) = false →
        ∃ p, (enforced app c.log).paths dest = some p ∧ p.bandwidth = props.bandwidth) ∧
    ∀ status, (app, status) ∈ s.myApps.elems →
      ((enforced app c.log).connected = true ↔ status = .notInit ∨ status = .running) := by
  have hinv := h.enforceInv hb.wf hs hown hloop
  have hgraph := (h.openInv hb.wf hs).1.graph
  subst hgraph
  obtain ⟨hkept, hshared⟩ := hinv.kept app happ hhere
  exact ⟨hshared, hkept.real, hkept.free, hkept.connected⟩

theorem enforced_as_meant_share : Returns (demoRun (demoNet 1) (demoHost 0)
    [demoEvent 0 .join, demoFlow (some 60)]).result fun p => ∃ f ∈ p.2.activeFlows.elems,
      f.authorizedBandwidth = 100 ∧ ∃ path, (enforced f.source (demoRun (demoNet 1) (demoHost 0)
        [demoEvent 0 .join, demoFlow (some 60)]).log).paths 101 = some path ∧ path.bandwidth = 100 := by
  obtain ⟨⟨core, s⟩, hrun, hsource, hmyself, hflow⟩ : Returns (demoRun (demoNet 1) (demoHost 0)
      [demoEvent 0 .join, demoFlow (some 60)]).result fun p =>
        (p.1.ipToApp.get? (.v4 100)).map (fun q => q.2.id) = some 0 ∧ p.1.myself = demoHost 0 ∧
          ∃ f ∈ p.2.activeFlows.elems, f.source = demoApp 0 (demoHost 0) ∧
            f.destination = demoApp 1 (demoHost 1) ∧ f.authorizedBandwidth = 100 := by decide +kernel
  obtain ⟨f, hf, hsrc, hdest, hauth⟩ := hflow
  have hcourse : Course .wrapping (demoNet 1) core (OpensFirst core)
      [demoEvent 0 .join, demoFlow (some 60)] ⟨.running s, (demoRun (demoNet 1) (demoHost 0)
        [demoEvent 0 .join, demoFlow (some 60)]).log⟩ := by
    refine demoRun_course (fun before m after hms => ?_) hrun
    rintro conf flow props rfl ha - -
    rcases before with _ | ⟨b, _ | ⟨b', before⟩⟩
    · cases hms
    · cases hms
      rw [ha.source] at hsource
      have hid : flow.source.id = 0 := Option.some.inj hsource
      left
      rw [hid]
      rfl
    · cases before <;> cases hms
  refine ⟨(core, s), hrun, f, hf, hauth, ?_⟩
  have hnode : IsNode (demoNet 1) f.source := by
    rw [hsrc]
    exact ⟨by decide +kernel, rfl⟩
  have hshare := (enforced_as_meant (demoNet_built 1 (Or.inr rfl)) rfl demoNet_own hcourse
    (s := s) rfl hnode (by rw [hsrc]; exact ⟨_, rfl, by rw [runsOn_of_hostOpt rfl, hmyself]; rfl⟩)).1
  rw [← hauth]
  refine hshare f hf rfl 101 ?_
  rw [hdest]
  exact ⟨by decide +kernel, 1, _, rfl, rfl⟩

end Emulcore

end Kollaps
