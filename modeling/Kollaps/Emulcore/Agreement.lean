import Kollaps.Emulcore.Runs

/-!
# Agreement of the cores

One core for each host, and the messages on their way between them. Every message goes out on a
connection of its own, so two messages of one core can arrive in either order.
-/

namespace Kollaps

open Run Act

namespace Emulcore

structure World where
  loop : ClusterNodeInfo → Loop
  inFlight : List (ClusterNodeInfo × FlowConf)

/-- A message about a flow to the core of another host. -/
def Effect.sent : Effect → Option (ClusterNodeInfo × FlowConf)
  | .toHost host _ (.flowUpdate conf) => some (host, conf)
  | _ => none

def sent (log : List Effect) : List (ClusterNodeInfo × FlowConf) := log.filterMap Effect.sent

inductive Event where
  | measure (host : ClusterNodeInfo) (conf : FlowConf)
  | deliver (host : ClusterNodeInfo) (conf : FlowConf)
deriving DecidableEq

def RunsAt (g : Network Node) (ip : IpAddr) (host : ClusterNodeInfo) : Prop :=
  ∃ id app, Located g (.app id app) ip ∧ app.hostOpt = some host

/-- The cores of one emulation, before any message. -/
def Started (g : Network Node) (core : ClusterNodeInfo → EmulCore) (w : World) : Prop :=
  w.inFlight = [] ∧ ∃ uuid leader, ∀ host, IsHost g host → ∃ it apps,
    new it uuid g host leader = .ok (core host) ∧
    (initEmulation it (core host)).result = .ok apps ∧ w.loop host = start (core host) apps

inductive Move (g : Network Node) (core : ClusterNodeInfo → EmulCore) :
    Event → World → World → Prop where
  | measure {w : World} {host : ClusterNodeInfo} {conf : FlowConf} {s' : Loop} (it : Iter) :
      RunsAt g conf.src host →
      (flowRound it .wrapping (core host) (w.loop host) (.flowUpdate conf)).result = .ok (.inl s') →
      Move g core (.measure host conf) w
        ⟨Function.update w.loop host s', w.inFlight ++
          sent (flowRound it .wrapping (core host) (w.loop host) (.flowUpdate conf)).log⟩
  | deliver {w : World} {host : ClusterNodeInfo} {conf : FlowConf} {s' : Loop} (it : Iter) :
      (host, conf) ∈ w.inFlight →
      (flowRound it .wrapping (core host) (w.loop host) (.flowUpdate conf)).result = .ok (.inl s') →
      Move g core (.deliver host conf) w
        ⟨Function.update w.loop host s', w.inFlight.erase (host, conf) ++
          sent (flowRound it .wrapping (core host) (w.loop host) (.flowUpdate conf)).log⟩

inductive Trace (g : Network Node) (core : ClusterNodeInfo → EmulCore) : List Event → World → Prop where
  | start {w : World} : Started g core w → Trace g core [] w
  | move {es : List Event} {e : Event} {w w' : World} :
      Trace g core es w → Move g core e w w' → Trace g core (es ++ [e]) w'

def OwnAddress (g : Network Node) : Prop := ∀ a b ip, Located g a ip → Located g b ip → a = b

/-! ## What the messages ask for -/

def measured (es : List Event) : List FlowConf := es.filterMap fun
  | .measure _ conf => some conf
  | .deliver _ _ => none

def delivered (host : ClusterNodeInfo) (es : List Event) : List FlowConf := es.filterMap fun
  | .measure _ _ => none
  | .deliver h conf => if h = host then some conf else none

def handled (host : ClusterNodeInfo) (es : List Event) : List FlowConf := es.filterMap fun
  | .measure h conf => if h = host then some conf else none
  | .deliver h conf => if h = host then some conf else none

def about (src dest : IpAddr) (conf : FlowConf) : Bool := decide (conf.src = src ∧ conf.dest = dest)

/-- The message is about the flow between two apps. -/
def Between (g : Network Node) (conf : FlowConf) (a b : Node) (props : Network.Properties) : Prop :=
  Located g a conf.src ∧ Located g b conf.dest ∧ g.propertiesBetween a b = .ok (some props)

def Uses (g : Network Node) (conf : FlowConf) : Prop :=
  ∃ a b props, Between g conf a b props ∧ (newFlow a b props conf.throughput).usedBandwidth ≠ 0

/-- The last of the messages about the pair asks for some bandwidth. -/
def Asks (g : Network Node) (confs : List FlowConf) (src dest : IpAddr) : Prop :=
  ∃ conf, (confs.filter (about src dest)).getLast? = some conf ∧ Uses g conf

/-- All cores have the same pairs in `active_flows`. -/
def Agree (g : Network Node) (w : World) : Prop :=
  ∀ h h', IsHost g h → IsHost g h' → ∀ k,
    (w.loop h).activeFlows.contains k = (w.loop h').activeFlows.contains k

theorem asks_append (g : Network Node) (confs : List FlowConf) (conf : FlowConf) (src dest : IpAddr) :
    Asks g (confs ++ [conf]) src dest ↔
      if conf.src = src ∧ conf.dest = dest then Uses g conf else Asks g confs src dest := by
  unfold Asks
  rw [List.filter_append]
  split <;> rename_i h
  · simp [about, h]
  · simp [about, h]

theorem asks_congr {g : Network Node} {l l' : List FlowConf} {src dest : IpAddr}
    (h : l.filter (about src dest) = l'.filter (about src dest)) :
    Asks g l src dest ↔ Asks g l' src dest := by
  unfold Asks
  rw [h]

theorem RunsAt.unique {g : Network Node} (hown : OwnAddress g) {ip : IpAddr} {h h' : ClusterNodeInfo}
    (hh : RunsAt g ip h) (hh' : RunsAt g ip h') : h = h' := by
  obtain ⟨id, app, hl, hopt⟩ := hh
  obtain ⟨id', app', hl', hopt'⟩ := hh'
  cases hown _ _ _ hl hl'
  exact Option.some.inj (hopt.symm.trans hopt')

theorem RunsAt.isHost {g : Network Node} {ip : IpAddr} {h : ClusterNodeInfo} (hh : RunsAt g ip h) :
    IsHost g h := by
  obtain ⟨id, app, hl, hopt⟩ := hh
  exact ⟨id, app, hl.1, hopt⟩

theorem CoreInv.get?_ip {g : Network Node} (hown : OwnAddress g) {core : EmulCore} (hc : CoreInv g core)
    {n : Node} {ip : IpAddr} (hl : Located g n ip) : core.ipToApp.get? ip = some (ip, n) := by
  obtain ⟨p, hp⟩ := Option.isSome_iff_exists.mp (hc.complete n ip hl)
  have hk : p.1 = ip := KeySet.key_of_get? hp
  have hp' : Located g p.2 ip := hk ▸ hc.located p (KeySet.mem_of_get? hp)
  rw [hp, hown _ _ _ hl hp', ← hk]

theorem CoreInv.about {g : Network Node} {core : EmulCore} (hc : CoreInv g core) {conf : FlowConf}
    {flow : Flow Node} {props : Network.Properties} (h : About core conf flow props) :
    Between g conf flow.source flow.destination props :=
  ⟨hc.located _ (KeySet.mem_of_get? h.source), hc.located _ (KeySet.mem_of_get? h.destination),
    hc.graph ▸ h.path⟩

theorem CoreInv.about_of_between {g : Network Node} (hown : OwnAddress g) {core : EmulCore}
    (hc : CoreInv g core) {conf : FlowConf} {a b : Node} {props : Network.Properties}
    (h : Between g conf a b props) : About core conf (newFlow a b props conf.throughput) props :=
  ⟨hc.get?_ip hown h.1, hc.get?_ip hown h.2.1, by rw [hc.graph]; exact h.2.2, rfl⟩

theorem Between.unique {g : Network Node} (hown : OwnAddress g) {conf : FlowConf} {a b a' b' : Node}
    {props props' : Network.Properties} (h : Between g conf a b props)
    (h' : Between g conf a' b' props') : a = a' ∧ b = b' ∧ props = props' := by
  obtain ⟨ha, hb, hp⟩ := h
  obtain ⟨ha', hb', hp'⟩ := h'
  cases hown _ _ _ ha ha'
  cases hown _ _ _ hb hb'
  exact ⟨rfl, rfl, Option.some.inj (Except.ok.inj (hp.symm.trans hp'))⟩

theorem uses_iff {g : Network Node} (hown : OwnAddress g) {conf : FlowConf} {a b : Node}
    {props : Network.Properties} (h : Between g conf a b props) :
    Uses g conf ↔ (newFlow a b props conf.throughput).usedBandwidth ≠ 0 := by
  constructor
  · rintro ⟨a', b', props', h', hused⟩
    obtain ⟨rfl, rfl, rfl⟩ := h.unique hown h'
    exact hused
  · exact fun hused => ⟨a, b, props, h, hused⟩

/-! ## One message at one core -/

structure HostInv (g : Network Node) (core : EmulCore) (s : Loop) : Prop where
  known : CoreInv g core
  flows : FlowsInv core (s.activeFlows, s.bwGraph)
  apps : ∀ id app, .app id app ∈ g.mapper.elems.map Prod.fst → app.hostOpt = some core.myself →
    s.myApps.contains (Vertex.id (.app id app)) = true
  awake : s.stop = false

theorem refresh_sent (it : Iter) (core : EmulCore) (s : Loop) : sent (refresh it core s).log = [] := by
  have hdoes : Does (refresh it core s) (fun e => e.sent = none) fun _ => True :=
    refresh_does it core s fun _ _ _ _ _ _ _ _ _ => rfl
  exact List.filterMap_eq_nil_iff.mpr hdoes.log

theorem broadcastFlow_sent (it : Iter) (core : EmulCore) (conf : FlowConf) :
    sent (broadcastFlow it core conf).log =
      (it.order core.otherHosts.elems).map fun host => (host, conf) := by
  unfold broadcastFlow sent
  rw [log_forM_emit, List.filterMap_map]
  exact congrFun List.filterMap_eq_map _

/-- The core of the source tells every other host, and the other cores tell no one. -/
theorem announceFlow_sent {it : Iter} {core : EmulCore} {myApps : AppMap} {flow : Flow Node}
    {props : Network.Properties} {conf : FlowConf} {id : Nat} {app : Application}
    {host : ClusterNodeInfo} (hsrc : flow.source = .app id app) (hopt : app.hostOpt = some host)
    (h : (announceFlow it core myApps flow props conf).result = .ok ()) :
    sent (announceFlow it core myApps flow props conf).log =
      if host = core.myself then (it.order core.otherHosts.elems).map fun o => (o, conf) else [] := by
  unfold announceFlow at h ⊢
  obtain ⟨app', happ, h, hlog⟩ := Act.of_bind_eq_ok h
  obtain rfl : app = app' := by
    rw [hsrc] at happ
    exact Except.ok.inj happ
  obtain ⟨here, hhere, h, hlog'⟩ := Act.of_bind_eq_ok h
  obtain rfl : here = decide (host = core.myself) := by
    rw [result_lift, runsOn_of_hostOpt hopt] at hhere
    exact (Except.ok.inj hhere).symm
  rw [hlog, hlog', log_lift, log_lift, List.nil_append, List.nil_append]
  by_cases hme : host = core.myself
  · simp only [hme, decide_true, if_true] at h ⊢
    split at h <;> rename_i hused
    · rw [if_pos hused]
      obtain ⟨_, _, h, hlog₁⟩ := Act.of_bind_eq_ok h
      obtain ⟨_, _, h, hlog₂⟩ := Act.of_bind_eq_ok h
      obtain ⟨_, _, h, hlog₃⟩ := Act.of_bind_eq_ok h
      obtain ⟨_, _, h, hlog₄⟩ := Act.of_bind_eq_ok h
      rw [hlog₁, hlog₂, hlog₃, hlog₄]
      simp only [log_lift, log_emit, List.nil_append, sent, List.cons_append, List.filterMap_cons]
      exact broadcastFlow_sent it core conf
    · rw [if_neg hused]
      exact broadcastFlow_sent it core conf
  · simp only [hme, decide_false, if_false] at h ⊢
    rfl

theorem flowRound_update {it : Iter} {g : Network Node} (hg : g.Wf)
    (hs : g.pathStrategy = .shortestPath) (hown : OwnAddress g) {core : EmulCore} {s s' : Loop}
    (h : HostInv g core s) {conf : FlowConf}
    (he : (flowRound it .wrapping core s (.flowUpdate conf)).result = .ok (.inl s')) :
    HostInv g core s' ∧
    (∀ a b src dest, Located g a src → Located g b dest →
      (s'.activeFlows.contains (Vertex.id a, Vertex.id b) = true ↔
        if conf.src = src ∧ conf.dest = dest then Uses g conf
        else s.activeFlows.contains (Vertex.id a, Vertex.id b) = true)) ∧
    ((∃ a b props, Between g conf a b props ∧ ∃ host, RunsAt g conf.src host ∧
        sent (flowRound it .wrapping core s (.flowUpdate conf)).log =
          if host = core.myself then (it.order core.otherHosts.elems).map fun o => (o, conf) else []) ∨
      ((∀ a b, Located g a conf.src → ¬ Located g b conf.dest) ∧
        sent (flowRound it .wrapping core s (.flowUpdate conf)).log = [])) := by
  have hc := h.known
  have hg' : core.graph.Wf := hc.graph ▸ hg
  have hs' : core.graph.pathStrategy = .shortestPath := hc.graph ▸ hs
  obtain ⟨s₁, hs₁, hlog, hr⟩ := flowRound_cases he
  obtain ⟨hstop, rfl⟩ : s₁.stop = false ∧ s₁ = s' := by
    cases hstop : s₁.stop with
    | true => rw [hstop] at hr; cases hr
    | false => rw [hstop] at hr; cases hr; exact ⟨rfl, rfl⟩
  rw [hlog]
  simp only [sent, List.filterMap_append]
  rw [show List.filterMap Effect.sent (refresh it core s₁).log = [] from refresh_sent it core s₁,
    List.append_nil]
  rcases onFlowUpdate_cases hs₁ with ⟨rfl, hnone, hnil⟩ | ⟨flow, props, ha, happs, happly, hann, hlog'⟩
  · -- An address that is not known: nothing is done.
    have hunknown : ∀ a b, Located g a conf.src → ¬ Located g b conf.dest := by
      intro a b hl hl'
      rcases hnone with hn | hn
      · rw [hc.get?_ip hown hl] at hn; cases hn
      · rw [hc.get?_ip hown hl'] at hn; cases hn
    refine ⟨h, fun a b src dest hl hl' => ?_, Or.inr ⟨hunknown, ?_⟩⟩
    · rw [if_neg]
      rintro ⟨rfl, rfl⟩
      exact hunknown a b hl hl'
    · exact congrArg sent hnil
  · have hb := hc.about ha
    obtain ⟨hflows, hkeys⟩ := (applyFlow_inv it hg' hs' h.flows ha).of_eq happly
    refine ⟨⟨hc, hflows, fun id app => by rw [happs]; exact h.apps id app, hstop⟩,
      fun a b src dest hl hl' => ?_, Or.inl ⟨_, _, _, hb, ?_⟩⟩
    · have huses := uses_iff hown hb
      rw [← ha.eq] at huses
      rw [hkeys]
      by_cases hsame : conf.src = src ∧ conf.dest = dest
      · obtain ⟨rfl, rfl⟩ := hsame
        obtain rfl : a = flow.source := hown _ _ _ hl hb.1
        obtain rfl : b = flow.destination := hown _ _ _ hl' hb.2.1
        have hk : (Vertex.id flow.source, Vertex.id flow.destination) = flow.key := rfl
        rw [if_pos (show conf.src = conf.src ∧ conf.dest = conf.dest from ⟨rfl, rfl⟩), huses, hk]
        split <;> rename_i hused
        · simp [hused]
        · simp [hused]
      · have hk : (Vertex.id a, Vertex.id b) ≠ flow.key := by
          intro hk
          apply hsame
          have ha' := hl.eq_of_id hb.1 (congrArg Prod.fst hk)
          have hb' := hl'.eq_of_id hb.2.1 (congrArg Prod.snd hk)
          subst ha' hb'
          exact ⟨hb.1.unique hl, hb.2.1.unique hl'⟩
        rw [if_neg hsame]
        split <;> simp [hk]
    · obtain ⟨-, id, app, hsrc, -⟩ := id hb.1
      obtain ⟨host, hopt⟩ := hc.placed id app (hsrc ▸ hb.1.1)
      refine ⟨host, ⟨id, app, hsrc ▸ hb.1, hopt⟩, ?_⟩
      rw [show (handle it .wrapping core s (.flowUpdate conf)).log =
        (announceFlow it core s.myApps flow props conf).log from hlog']
      exact announceFlow_sent hsrc hopt hann

theorem start_hostInv {it : Iter} {g : Network Node} (hg : g.Wf) {uuid : Uuid}
    {host leader : ClusterNodeInfo} {core : EmulCore} {apps : AppMap} (hhost : IsHost g host)
    (hnew : new it uuid g host leader = .ok core) (happs : (initEmulation it core).result = .ok apps) :
    HostInv g core (start core apps) ∧ core.myself = host := by
  obtain ⟨hc, hme⟩ := new_inv hnew
  obtain ⟨hinit, hall⟩ := initEmulation_apps happs
  have happsIn : ∀ id app, .app id app ∈ g.mapper.elems.map Prod.fst →
      app.hostOpt = some core.myself → apps.contains (Vertex.id (.app id app)) = true := by
    intro id app hmem hopt
    refine hall _ (by rw [hc.graph]; exact hmem) ?_
    have hruns : app.runsOn core.myself = .ok true := by
      rw [runsOn_of_hostOpt hopt, decide_eq_true rfl]
    exact hruns
  refine ⟨⟨hc, FlowsInv.start (hc.graph ▸ hg), happsIn, ?_⟩, hme⟩
  -- The host has an app, and it has not crashed.
  obtain ⟨id, app, hmem, hopt⟩ := hhost
  obtain ⟨p, hp⟩ := Option.isSome_iff_exists.mp (happsIn id app hmem (by rw [hme]; exact hopt))
  have hp' : p ∈ apps.elems := KeySet.mem_of_get? hp
  simp only [Loop.stop, start, List.all_eq_false, decide_eq_true_eq]
  exact ⟨p, hp', by rw [(hinit p hp').1]; decide⟩

theorem HostInv.reporterOf {g : Network Node} {core : EmulCore} {s : Loop} (h : HostInv g core s)
    {id : Nat} {app : Application} (hmem : .app id app ∈ g.mapper.elems.map Prod.fst)
    (hopt : app.hostOpt = some core.myself) :
    Returns (reporterOf s.myApps (.app id app)) fun _ => True := by
  obtain ⟨p, hp⟩ := Option.isSome_iff_exists.mp (h.apps id app hmem hopt)
  refine ⟨p.1, ?_, trivial⟩
  unfold Emulcore.reporterOf
  rw [show s.myApps.get? (Vertex.id (.app id app)) = some p from hp]
  rfl

theorem HostInv.runsHere {g : Network Node} {core : EmulCore} {s : Loop} (h : HostInv g core s)
    {node : Node} {ip : IpAddr} (hl : Located g node ip) :
    ∃ app here, node.asApp = .ok app ∧ app.runsOn core.myself = .ok here ∧
      (here = true → Returns (Emulcore.reporterOf s.myApps node) fun _ => True) := by
  obtain ⟨hmem, id, app, rfl, -⟩ := hl
  obtain ⟨host, hopt⟩ := h.known.placed id app hmem
  refine ⟨app, decide (host = core.myself), rfl, runsOn_of_hostOpt hopt core.myself, fun hhere => ?_⟩
  exact h.reporterOf hmem (by rw [hopt, of_decide_eq_true hhere])

theorem refresh_returns (it : Iter) {g : Network Node} {core : EmulCore} {s : Loop}
    (h : HostInv g core s) : Returns (refresh it core s).result fun _ => True := by
  refine returns_forM fun flow hflow => ?_
  have hserved := h.flows.served flow (it.mem_order.mp hflow)
  obtain ⟨src, hsrc⟩ := hserved.source
  obtain ⟨dest, hdest⟩ := hserved.destination
  obtain ⟨app, here, happ, hhere, hreporter⟩ := h.runsHere (h.known.located _ hsrc)
  obtain ⟨appDest, happDest, hipDest⟩ := (h.known.located _ hdest).asApp
  dsimp only at happ hreporter happDest
  refine returns_bind (m := liftM _) (P := fun a => a = app) ⟨_, happ, rfl⟩ ?_
  rintro _ rfl
  refine returns_bind (m := liftM _) (P := fun b => b = here) ⟨_, hhere, rfl⟩ ?_
  rintro _ rfl
  split <;> rename_i hme
  · refine returns_bind (m := liftM _) ⟨_, happDest, (rfl : appDest = _)⟩ ?_
    rintro _ rfl
    refine returns_bind (m := liftM _) (P := fun _ => True) ⟨_, hipDest, trivial⟩ fun _ _ => ?_
    exact returns_bind (m := liftM _) (P := fun _ => True) (hreporter hme) fun _ _ => ⟨(), rfl, trivial⟩
  · exact ⟨_, rfl, trivial⟩

theorem announceFlow_returns (it : Iter) {g : Network Node} {core : EmulCore} {s : Loop}
    (h : HostInv g core s) (flow : Flow Node) {props : Network.Properties} {conf : FlowConf}
    (hb : Between g conf flow.source flow.destination props) :
    Returns (announceFlow it core s.myApps flow props conf).result fun _ => True := by
  obtain ⟨app, here, happ, hhere, hreporter⟩ := h.runsHere hb.1
  obtain ⟨appDest, happDest, hipDest⟩ := hb.2.1.asApp
  unfold announceFlow
  refine returns_bind (m := liftM _) (P := fun a => a = app) ⟨_, happ, rfl⟩ ?_
  rintro _ rfl
  refine returns_bind (m := liftM _) (P := fun b => b = here) ⟨_, hhere, rfl⟩ ?_
  rintro _ rfl
  split <;> rename_i hme
  · split
    · refine returns_bind (m := liftM _) ⟨_, happDest, (rfl : appDest = _)⟩ ?_
      rintro _ rfl
      refine returns_bind (m := liftM _) (P := fun _ => True) ⟨_, hipDest, trivial⟩ fun _ _ => ?_
      refine returns_bind (m := liftM _) (P := fun _ => True) (hreporter hme) fun _ _ => ?_
      exact returns_bind (m := emit _) (P := fun _ => True) ⟨(), rfl, trivial⟩ fun _ _ =>
        broadcastFlow_returns it core conf
    · exact broadcastFlow_returns it core conf
  · exact ⟨_, rfl, trivial⟩

theorem flowRound_returns (it : Iter) {g : Network Node} (hg : g.Wf)
    (hs : g.pathStrategy = .shortestPath) (hown : OwnAddress g) {core : EmulCore} {s : Loop}
    (h : HostInv g core s) {conf : FlowConf} {a b : Node} {props : Network.Properties}
    (hb : Between g conf a b props) :
    ∃ s', (flowRound it .wrapping core s (.flowUpdate conf)).result = .ok (.inl s') := by
  have hc := h.known
  have ha := hc.about_of_between hown hb
  obtain ⟨⟨flows, bw⟩, happly, hinv, -⟩ :=
    applyFlow_inv it (hc.graph ▸ hg) (hc.graph ▸ hs) h.flows ha
  obtain ⟨⟨⟩, hann, -⟩ := announceFlow_returns it h (newFlow a b props conf.throughput) hb
  have hhandle : (handle it .wrapping core s (.flowUpdate conf)).result =
      .ok { s with activeFlows := flows, bwGraph := bw } := by
    show (onFlowUpdate it .wrapping core s conf).result = _
    unfold onFlowUpdate
    rw [hc.get?_ip hown hb.1, hc.get?_ip hown hb.2.1]
    dsimp only
    rw [bind_of_ok (m := liftM _) (show core.graph.propertiesBetween a b = _ by rw [hc.graph]; exact hb.2.2)]
    dsimp only
    rw [bind_of_ok (m := liftM _) happly]
    dsimp only
    rw [bind_of_ok hann]
    rfl
  have hnext : HostInv g core { s with activeFlows := flows, bwGraph := bw } :=
    ⟨hc, hinv, h.apps, h.awake⟩
  obtain ⟨_, hrefresh, -⟩ := refresh_returns it hnext
  refine ⟨{ s with activeFlows := flows, bwGraph := bw }, ?_⟩
  unfold flowRound
  rw [bind_of_ok hhandle, bind_of_ok hrefresh]
  dsimp only
  rw [hnext.awake]
  rfl

/-! ## All cores -/

/-- The messages on their way to a host. -/
def toward (host : ClusterNodeInfo) (l : List (ClusterNodeInfo × FlowConf)) : List FlowConf :=
  l.filterMap fun p => if p.1 = host then some p.2 else none

/-- A flow is measured where its source runs, and the others hear of it. -/
def Placed (g : Network Node) : Event → Prop
  | .measure host conf => RunsAt g conf.src host
  | .deliver host conf => ∃ source, RunsAt g conf.src source ∧ source ≠ host

structure WorldInv (g : Network Node) (core : ClusterNodeInfo → EmulCore) (es : List Event)
    (w : World) : Prop where
  host : ∀ h, IsHost g h → HostInv g (core h) (w.loop h) ∧ (core h).myself = h
  active : ∀ h, IsHost g h → ∀ a b src dest, Located g a src → Located g b dest →
    ((w.loop h).activeFlows.contains (Vertex.id a, Vertex.id b) = true ↔
      Asks g (handled h es) src dest)
  inFlight : ∀ p ∈ w.inFlight, IsHost g p.1 ∧ (∃ a b props, Between g p.2 a b props) ∧
    ∃ source, RunsAt g p.2.src source ∧ source ≠ p.1
  placed : ∀ e ∈ es, Placed g e
  balance : ∀ src dest source other b, RunsAt g src source → Located g b dest → IsHost g other →
    source ≠ other → ((delivered other es ++ toward other w.inFlight).filter (about src dest)).Perm
      ((measured es).filter (about src dest))

theorem started_inv {g : Network Node} (hg : g.Wf) {core : ClusterNodeInfo → EmulCore} {w : World}
    (h : Started g core w) : WorldInv g core [] w := by
  obtain ⟨hnil, uuid, leader, hcores⟩ := h
  refine ⟨fun host hhost => ?_, fun host hhost a b src dest _ _ => ?_, by simp [hnil], by simp, ?_⟩
  · obtain ⟨it, apps, hnew, happs, hloop⟩ := hcores host hhost
    rw [hloop]
    exact start_hostInv hg hhost hnew happs
  · obtain ⟨it, apps, hnew, happs, hloop⟩ := hcores host hhost
    rw [hloop]
    simp [start, KeySet.contains, Asks, handled]
  · simp [hnil, delivered, toward, measured]

theorem toward_broadcast (it : Iter) {g : Network Node} {core : EmulCore} (hc : CoreInv g core)
    {other : ClusterNodeInfo} (hhost : IsHost g other) (hne : other ≠ core.myself) (conf : FlowConf) :
    toward other ((it.order core.otherHosts.elems).map fun o => (o, conf)) = [conf] := by
  have hmem : other ∈ it.order core.otherHosts.elems :=
    it.mem_order.mpr ((hc.others other).mpr ⟨hhost, hne⟩)
  have hnd : (it.order core.otherHosts.elems).Nodup :=
    (it.perm _).nodup_iff.mpr core.otherHosts.elems_nodup
  unfold toward
  rw [List.filterMap_map]
  show List.filterMap (fun o => if o = other then some conf else none) _ = _
  generalize it.order core.otherHosts.elems = l at hmem hnd
  induction l with
  | nil => simp at hmem
  | cons o l ih =>
    rw [List.nodup_cons] at hnd
    by_cases ho : o = other
    · have hrest : l.filterMap (fun o => if o = other then some conf else none) = [] := by
        rw [List.filterMap_eq_nil_iff]
        intro x hx
        rw [if_neg]
        rintro rfl
        exact hnd.1 (ho ▸ hx)
      simp [ho, hrest]
    · rw [List.filterMap_cons, if_neg ho]
      exact ih ((List.mem_cons.mp hmem).resolve_left (Ne.symm ho)) hnd.2

/-- What the handling of one message by the core of one host keeps. The rest is about what was in
flight, what is now, and the lists of events. -/
theorem round_inv {it : Iter} {g : Network Node} (hg : g.Wf) (hs : g.pathStrategy = .shortestPath)
    (hown : OwnAddress g) {core : ClusterNodeInfo → EmulCore} {es : List Event} {w : World}
    (h : WorldInv g core es w) {e : Event} {host : ClusterNodeInfo} {conf : FlowConf} {s' : Loop}
    (hhost : IsHost g host) (hhandled : ∀ h', handled h' [e] = if host = h' then [conf] else [])
    (he : (flowRound it .wrapping (core host) (w.loop host) (.flowUpdate conf)).result = .ok (.inl s')) :
    (∀ h, IsHost g h → HostInv g (core h) (Function.update w.loop host s' h) ∧ (core h).myself = h) ∧
    ∀ h, IsHost g h → ∀ a b src dest, Located g a src → Located g b dest →
      ((Function.update w.loop host s' h).activeFlows.contains (Vertex.id a, Vertex.id b) = true ↔
        Asks g (handled h (es ++ [e])) src dest) := by
  obtain ⟨hinv, hkeys, -⟩ := flowRound_update hg hs hown (h.host host hhost).1 he
  constructor
  · intro h' hh'
    by_cases hsame : h' = host
    · subst hsame
      rw [Function.update_self]
      exact ⟨hinv, (h.host _ hh').2⟩
    · rw [Function.update_of_ne hsame]
      exact h.host h' hh'
  · intro h' hh' a b src dest hl hl'
    have happend : handled h' (es ++ [e]) = handled h' es ++ handled h' [e] := List.filterMap_append
    rw [happend, hhandled]
    by_cases hsame : h' = host
    · subst hsame
      rw [Function.update_self, if_pos rfl, asks_append, hkeys a b src dest hl hl',
        h.active _ hh' a b src dest hl hl']
    · rw [Function.update_of_ne hsame, if_neg (Ne.symm hsame), List.append_nil]
      exact h.active h' hh' a b src dest hl hl'

theorem toward_append (host : ClusterNodeInfo) (l l' : List (ClusterNodeInfo × FlowConf)) :
    toward host (l ++ l') = toward host l ++ toward host l' := List.filterMap_append

theorem measure_sent {it : Iter} {g : Network Node} (hg : g.Wf) (hs : g.pathStrategy = .shortestPath)
    (hown : OwnAddress g) {core : EmulCore} {s s' : Loop} (h : HostInv g core s) {conf : FlowConf}
    (hruns : RunsAt g conf.src core.myself)
    (he : (flowRound it .wrapping core s (.flowUpdate conf)).result = .ok (.inl s')) :
    ((∃ a b props, Between g conf a b props) ∧ sent (flowRound it .wrapping core s (.flowUpdate conf)).log =
      (it.order core.otherHosts.elems).map fun o => (o, conf)) ∨
    ((∀ b, ¬ Located g b conf.dest) ∧ sent (flowRound it .wrapping core s (.flowUpdate conf)).log = []) := by
  obtain ⟨-, -, ⟨a, b, props, hb, source, hsource, hlog⟩ | ⟨hunknown, hlog⟩⟩ :=
    flowRound_update hg hs hown h he
  · rw [if_pos (hsource.unique hown hruns)] at hlog
    exact Or.inl ⟨⟨a, b, props, hb⟩, hlog⟩
  · obtain ⟨id, app, hl, -⟩ := hruns
    exact Or.inr ⟨fun b => hunknown _ b hl, hlog⟩

theorem eq_of_mem_toward {hosts : List ClusterNodeInfo} {other : ClusterNodeInfo} {conf c : FlowConf}
    (hc : c ∈ toward other (hosts.map fun o => (o, conf))) : c = conf := by
  obtain ⟨p, hp, hpc⟩ := List.mem_filterMap.mp hc
  obtain ⟨o, -, rfl⟩ := List.mem_map.mp hp
  split at hpc <;> cases hpc
  rfl

theorem measure_inv {it : Iter} {g : Network Node} (hg : g.Wf) (hs : g.pathStrategy = .shortestPath)
    (hown : OwnAddress g) {core : ClusterNodeInfo → EmulCore} {es : List Event} {w : World}
    (h : WorldInv g core es w) {host : ClusterNodeInfo} {conf : FlowConf} {s' : Loop}
    (hruns : RunsAt g conf.src host)
    (he : (flowRound it .wrapping (core host) (w.loop host) (.flowUpdate conf)).result = .ok (.inl s')) :
    WorldInv g core (es ++ [.measure host conf])
      ⟨Function.update w.loop host s', w.inFlight ++
        sent (flowRound it .wrapping (core host) (w.loop host) (.flowUpdate conf)).log⟩ := by
  have hhost := hruns.isHost
  obtain ⟨hinv, hme⟩ := h.host host hhost
  obtain ⟨hloops, hactive⟩ := round_inv hg hs hown h (e := .measure host conf) hhost
    (fun h' => by by_cases hh : host = h' <;> simp [handled, hh]) he
  have hsent := measure_sent hg hs hown hinv (by rwa [hme]) he
  refine ⟨hloops, hactive, ?_, ?_, ?_⟩
  · intro p hp
    rcases List.mem_append.mp hp with hp | hp
    · exact h.inFlight p hp
    · rcases hsent with ⟨hb, hlog⟩ | ⟨-, hlog⟩
      · rw [hlog, List.mem_map] at hp
        obtain ⟨o, ho, rfl⟩ := hp
        obtain ⟨hhost', hne⟩ := (hinv.known.others o).mp (it.mem_order.mp ho)
        exact ⟨hhost', hb, host, hruns, by rw [← hme]; exact hne.symm⟩
      · rw [hlog] at hp
        cases hp
  · intro e he'
    rcases List.mem_append.mp he' with he' | he'
    · exact h.placed e he'
    · rw [List.mem_singleton.mp he']
      exact hruns
  · intro src dest source other b hsource hl hother hne
    have hdel : delivered other (es ++ [.measure host conf]) = delivered other es := by
      simp [delivered]
    have hmeas : measured (es ++ [.measure host conf]) = measured es ++ [conf] := by
      simp [measured]
    have hnew : (toward other (sent
        (flowRound it .wrapping (core host) (w.loop host) (.flowUpdate conf)).log)).filter (about src dest) =
          [conf].filter (about src dest) := by
      by_cases habout : conf.src = src ∧ conf.dest = dest
      · -- The other host is told exactly once.
        obtain ⟨rfl, rfl⟩ := habout
        obtain rfl : source = host := hsource.unique hown hruns
        rcases hsent with ⟨-, hlog⟩ | ⟨hunknown, -⟩
        · rw [hlog, toward_broadcast it hinv.known hother (by rw [hme]; exact hne.symm)]
        · exact absurd hl (hunknown b)
      · -- Nothing that is sent is about this pair.
        have hlast : [conf].filter (about src dest) = [] := by
          simpa [about] using habout
        rw [hlast, List.filter_eq_nil_iff]
        intro c hc
        rcases hsent with ⟨-, hlog⟩ | ⟨-, hlog⟩
        · rw [hlog] at hc
          rw [eq_of_mem_toward hc]
          simpa [about] using habout
        · rw [hlog] at hc
          cases hc
    rw [hdel, hmeas, toward_append, ← List.append_assoc, List.filter_append,
      List.filter_append (measured es) [conf], hnew]
    exact (h.balance src dest source other b hsource hl hother hne).append_right _

theorem deliver_sent {it : Iter} {g : Network Node} (hg : g.Wf) (hs : g.pathStrategy = .shortestPath)
    (hown : OwnAddress g) {core : ClusterNodeInfo → EmulCore} {es : List Event} {w : World}
    (h : WorldInv g core es w) {host : ClusterNodeInfo} {conf : FlowConf} {s' : Loop}
    (hin : (host, conf) ∈ w.inFlight)
    (he : (flowRound it .wrapping (core host) (w.loop host) (.flowUpdate conf)).result = .ok (.inl s')) :
    sent (flowRound it .wrapping (core host) (w.loop host) (.flowUpdate conf)).log = [] := by
  obtain ⟨hhost, -, source, hsource, hne⟩ := h.inFlight _ hin
  obtain ⟨hinv, hme⟩ := h.host host hhost
  obtain ⟨-, -, ⟨_, _, _, -, source', hsource', hlog⟩ | ⟨-, hlog⟩⟩ := flowRound_update hg hs hown hinv he
  · rw [hlog, if_neg]
    rw [hme, hsource'.unique hown hsource]
    exact hne
  · exact hlog

theorem deliver_inv {it : Iter} {g : Network Node} (hg : g.Wf) (hs : g.pathStrategy = .shortestPath)
    (hown : OwnAddress g) {core : ClusterNodeInfo → EmulCore} {es : List Event} {w : World}
    (h : WorldInv g core es w) {host : ClusterNodeInfo} {conf : FlowConf} {s' : Loop}
    (hin : (host, conf) ∈ w.inFlight)
    (he : (flowRound it .wrapping (core host) (w.loop host) (.flowUpdate conf)).result = .ok (.inl s')) :
    WorldInv g core (es ++ [.deliver host conf])
      ⟨Function.update w.loop host s', w.inFlight.erase (host, conf) ++
        sent (flowRound it .wrapping (core host) (w.loop host) (.flowUpdate conf)).log⟩ := by
  obtain ⟨hhost, ⟨a, b, props, hb⟩, source, hsource, hne⟩ := h.inFlight _ hin
  dsimp only at hhost hb hsource hne
  obtain ⟨hloops, hactive⟩ := round_inv hg hs hown h (e := .deliver host conf) hhost
    (fun h' => by by_cases hh : host = h' <;> simp [handled, hh]) he
  have hquiet := deliver_sent hg hs hown h hin he
  rw [hquiet, List.append_nil]
  refine ⟨hloops, hactive, fun p hp => h.inFlight p (List.mem_of_mem_erase hp), ?_, ?_⟩
  · intro e he'
    rcases List.mem_append.mp he' with he' | he'
    · exact h.placed e he'
    · rw [List.mem_singleton.mp he']
      exact ⟨source, hsource, hne⟩
  · intro src dest source' other b' hsource' hl hother hne'
    have hmeas : measured (es ++ [.deliver host conf]) = measured es := by
      simp [measured]
    rw [hmeas]
    refine List.Perm.trans (List.Perm.filter _ ?_)
      (h.balance src dest source' other b' hsource' hl hother hne')
    have hflight : (toward other w.inFlight).Perm
        (toward other ((host, conf) :: w.inFlight.erase (host, conf))) :=
      (List.perm_cons_erase hin).filterMap _
    by_cases hsame : host = other
    · have hdel : delivered other (es ++ [.deliver host conf]) = delivered other es ++ [conf] := by
        simp [delivered, hsame]
      have hfirst : toward other ((host, conf) :: w.inFlight.erase (host, conf)) =
          conf :: toward other (w.inFlight.erase (host, conf)) := by
        simp [toward, hsame]
      rw [hdel, List.append_assoc, List.singleton_append]
      exact (hfirst ▸ hflight).symm.append_left _
    · have hdel : delivered other (es ++ [.deliver host conf]) = delivered other es := by
        simp [delivered, hsame]
      have hfirst : toward other ((host, conf) :: w.inFlight.erase (host, conf)) =
          toward other (w.inFlight.erase (host, conf)) := by
        simp [toward, hsame]
      rw [hdel]
      exact (hfirst ▸ hflight).symm.append_left _

theorem Trace.inv {g : Network Node} (hg : g.Wf) (hs : g.pathStrategy = .shortestPath)
    (hown : OwnAddress g) {core : ClusterNodeInfo → EmulCore} {es : List Event} {w : World}
    (h : Trace g core es w) : WorldInv g core es w := by
  -- A step adds one event at the end.
  induction h with
  | start hstart => exact started_inv hg hstart
  | move _ hmove ih =>
    cases hmove with
    | measure it hruns he => exact measure_inv hg hs hown ih hruns he
    | deliver it hin he => exact deliver_inv hg hs hown ih hin he

/-- Whatever is on its way can arrive: its core handles it. -/
theorem Trace.delivers {g : Network Node} (hb : g.Built) (hs : g.pathStrategy = .shortestPath)
    (hown : OwnAddress g) {core : ClusterNodeInfo → EmulCore} {es : List Event} {w : World}
    (h : Trace g core es w) {host : ClusterNodeInfo} {conf : FlowConf}
    (hin : (host, conf) ∈ w.inFlight) :
    ∃ w', Move g core (.deliver host conf) w w' ∧ w'.inFlight = w.inFlight.erase (host, conf) := by
  have hinv := h.inv hb.wf hs hown
  obtain ⟨hhost, ⟨a, b, props, hbetween⟩, -⟩ := hinv.inFlight _ hin
  obtain ⟨s', he⟩ := flowRound_returns .inOrder hb.wf hs hown (hinv.host host hhost).1 hbetween
  refine ⟨_, .deliver .inOrder hin he, ?_⟩
  dsimp only
  rw [deliver_sent hb.wf hs hown hinv hin he, List.append_nil]

/-! ## When nothing is on its way -/

theorem WorldInv.handled_source {g : Network Node} (hown : OwnAddress g)
    {core : ClusterNodeInfo → EmulCore} {es : List Event} {w : World} (h : WorldInv g core es w)
    {src : IpAddr} {source : ClusterNodeInfo} (hsource : RunsAt g src source) (dest : IpAddr) :
    (handled source es).filter (about src dest) = (measured es).filter (about src dest) := by
  unfold handled measured
  rw [List.filter_filterMap, List.filter_filterMap]
  refine List.filterMap_congr fun e he => ?_
  have hplaced := h.placed e he
  cases e with
  | measure host conf =>
    by_cases habout : conf.src = src ∧ conf.dest = dest
    · obtain ⟨rfl, rfl⟩ := habout
      rw [show host = source from RunsAt.unique hown hplaced hsource]
      simp
    · by_cases hh : host = source <;> simp [hh, about, habout, Option.filter]
  | deliver host conf =>
    by_cases habout : conf.src = src ∧ conf.dest = dest
    · obtain ⟨rfl, rfl⟩ := habout
      obtain ⟨source', hsource', hne⟩ := hplaced
      rw [RunsAt.unique hown hsource' hsource] at hne
      simp [Ne.symm hne]
    · by_cases hh : host = source <;> simp [hh, about, habout, Option.filter]

theorem WorldInv.handled_other {g : Network Node} (hown : OwnAddress g)
    {core : ClusterNodeInfo → EmulCore} {es : List Event} {w : World} (h : WorldInv g core es w)
    {src : IpAddr} {source other : ClusterNodeInfo} (hsource : RunsAt g src source)
    (hne : source ≠ other) (dest : IpAddr) :
    (handled other es).filter (about src dest) = (delivered other es).filter (about src dest) := by
  unfold handled delivered
  rw [List.filter_filterMap, List.filter_filterMap]
  refine List.filterMap_congr fun e he => ?_
  have hplaced := h.placed e he
  cases e with
  | measure host conf =>
    by_cases habout : conf.src = src ∧ conf.dest = dest
    · obtain ⟨rfl, rfl⟩ := habout
      rw [show host = source from RunsAt.unique hown hplaced hsource]
      simp [hne]
    · by_cases hh : host = other <;> simp [hh, about, habout, Option.filter]
  | deliver host conf => rfl

/-- What a core has of a pair, when every other host was last told what was last measured. -/
theorem WorldInv.contains_iff {g : Network Node} (hown : OwnAddress g)
    {core : ClusterNodeInfo → EmulCore} {es : List Event} {w : World} (h : WorldInv g core es w)
    {a b : Node} {src dest : IpAddr} (ha : Located g a src) (hb : Located g b dest)
    {source : ClusterNodeInfo} (hsource : RunsAt g src source) {host : ClusterNodeInfo}
    (hhost : IsHost g host) :
    (w.loop host).activeFlows.contains (Vertex.id a, Vertex.id b) = true ↔
      if host = source then Asks g (measured es) src dest else Asks g (delivered host es) src dest := by
  rw [h.active host hhost a b src dest ha hb]
  split <;> rename_i hsame
  · subst hsame
    exact asks_congr (h.handled_source hown hsource dest)
  · exact asks_congr (h.handled_other hown hsource (Ne.symm hsame) dest)

theorem HostInv.ends {g : Network Node} {core : EmulCore} {s : Loop} (h : HostInv g core s)
    {k : Vertex.Id Node × Vertex.Id Node} (hk : s.activeFlows.contains k = true) :
    ∃ a b src dest source, k = (Vertex.id a, Vertex.id b) ∧ Located g a src ∧ Located g b dest ∧
      RunsAt g src source := by
  obtain ⟨f, hf, rfl⟩ := List.mem_map.mp (KeySet.contains_iff.mp hk)
  have hserved := h.flows.served f hf
  obtain ⟨src, hsrc⟩ := hserved.source
  obtain ⟨dest, hdest⟩ := hserved.destination
  have hl := h.known.located _ hsrc
  obtain ⟨hmem, id, app, heq, -⟩ := id hl
  dsimp only at hmem heq
  rw [heq] at hmem
  obtain ⟨source, hopt⟩ := h.known.placed id app hmem
  exact ⟨f.source, f.destination, src, dest, source, rfl, hl, h.known.located _ hdest, id, app,
    heq ▸ hl, hopt⟩

/-- The cores have the same flows when the others were last told what was last measured. -/
theorem WorldInv.agree_iff {g : Network Node} (hown : OwnAddress g) {core : ClusterNodeInfo → EmulCore}
    {es : List Event} {w : World} (hinv : WorldInv g core es w) :
    Agree g w ↔ ∀ src dest source other b, RunsAt g src source → Located g b dest → IsHost g other →
      source ≠ other → (Asks g (delivered other es) src dest ↔ Asks g (measured es) src dest) := by
  constructor
  · intro hagree src dest source other b hsource hl hother hne
    obtain ⟨id, app, ha, -⟩ := id hsource
    have h₁ := hinv.contains_iff hown ha hl hsource hsource.isHost
    have h₂ := hinv.contains_iff hown ha hl hsource hother
    rw [if_pos rfl] at h₁
    rw [if_neg (Ne.symm hne)] at h₂
    rw [← h₁, ← h₂, hagree source other hsource.isHost hother]
  · intro hlast
    -- What one core has, any other has.
    have hsub : ∀ h h', IsHost g h → IsHost g h' → ∀ k, (w.loop h).activeFlows.contains k = true →
        (w.loop h').activeFlows.contains k = true := by
      intro host host' hhost hhost' k hk
      obtain ⟨a, b, src, dest, source, rfl, ha, hb', hsource⟩ := (hinv.host host hhost).1.ends hk
      have hmeasured : ∀ o, IsHost g o → ((w.loop o).activeFlows.contains (Vertex.id a, Vertex.id b) = true ↔
          Asks g (measured es) src dest) := by
        intro o ho
        rw [hinv.contains_iff hown ha hb' hsource ho]
        split <;> rename_i hsame
        · rfl
        · exact hlast src dest source o b hsource hb' ho (Ne.symm hsame)
      exact (hmeasured host' hhost').mpr ((hmeasured host hhost).mp hk)
    intro host host' hhost hhost' k
    rw [Bool.eq_iff_iff]
    exact ⟨hsub host host' hhost hhost' k, hsub host' host hhost' hhost k⟩

/-- What is on its way can be delivered. When nothing is, every other host has been told what was
measured, each message once, and the cores agree exactly when each was last told of each flow what was
last measured of it. -/
theorem agreement {g : Network Node} (hb : g.Built) (hs : g.pathStrategy = .shortestPath)
    (hown : OwnAddress g) {core : ClusterNodeInfo → EmulCore} {es : List Event} {w : World}
    (h : Trace g core es w) :
    (∀ host conf, (host, conf) ∈ w.inFlight → ∃ w', Move g core (.deliver host conf) w w' ∧
      w'.inFlight = w.inFlight.erase (host, conf)) ∧
    (w.inFlight = [] →
      (∀ src dest source other b, RunsAt g src source → Located g b dest → IsHost g other →
        source ≠ other → ((delivered other es).filter (about src dest)).Perm
          ((measured es).filter (about src dest))) ∧
      (Agree g w ↔ ∀ src dest source other b, RunsAt g src source → Located g b dest → IsHost g other →
        source ≠ other → (Asks g (delivered other es) src dest ↔ Asks g (measured es) src dest))) := by
  have hinv := h.inv hb.wf hs hown
  refine ⟨fun _ _ => h.delivers hb hs hown, fun hquiet =>
    ⟨fun src dest source other b hsource hl hother hne => ?_, hinv.agree_iff hown⟩⟩
  have hbalance := hinv.balance src dest source other b hsource hl hother hne
  rw [hquiet] at hbalance
  simpa [toward] using hbalance

/-! ## Two hosts -/

def receive (core : ClusterNodeInfo → EmulCore) (w : World) (host : ClusterNodeInfo) (conf : FlowConf)
    (rest : List (ClusterNodeInfo × FlowConf)) : Run World :=
  match (flowRound .inOrder .wrapping (core host) (w.loop host) (.flowUpdate conf)).result with
  | .ok (.inl s') => .ok ⟨Function.update w.loop host s',
      rest ++ sent (flowRound .inOrder .wrapping (core host) (w.loop host) (.flowUpdate conf)).log⟩
  | _ => .error .assertion

def perform (core : ClusterNodeInfo → EmulCore) (w : World) : Event → Run World
  | .measure host conf => receive core w host conf w.inFlight
  | .deliver host conf =>
    if (host, conf) ∈ w.inFlight then receive core w host conf (w.inFlight.erase (host, conf))
    else .error .assertion

theorem perform_trace {g : Network Node} {core : ClusterNodeInfo → EmulCore} {es es' : List Event}
    {w w' : World} (h : Trace g core es w)
    (hruns : ∀ host conf, .measure host conf ∈ es' → RunsAt g conf.src host)
    (he : es'.foldlM (perform core) w = .ok w') : Trace g core (es ++ es') w' := by
  induction es' generalizing es w with
  | nil =>
    cases he
    simpa using h
  | cons e es' ih =>
    rw [List.foldlM_cons] at he
    obtain ⟨w₁, hw₁, he⟩ := of_bind_eq_ok he
    have hmove : Move g core e w w₁ := by
      cases e with
      | measure host conf =>
        simp only [perform, receive] at hw₁
        split at hw₁ <;> cases hw₁
        rename_i s' hs'
        exact .measure .inOrder (hruns host conf (by simp)) hs'
      | deliver host conf =>
        simp only [perform, receive] at hw₁
        split at hw₁ <;> rename_i hin
        · split at hw₁ <;> cases hw₁
          rename_i s' hs'
          exact .deliver .inOrder hin hs'
        · cases hw₁
    have := ih (h.move hmove) (fun host conf hin => hruns host conf (List.mem_cons_of_mem _ hin)) he
    simpa using this

def demoCore (n : Nat) : Run (EmulCore × Loop) := do
  let core ← new .inOrder ⟨0⟩ (demoNet 1) (demoHost n) (demoHost 0)
  let apps ← (initEmulation .inOrder core).result
  pure (core, start core apps)

def demoWorld (es : List Event) : Run ((ClusterNodeInfo → EmulCore) × World) := do
  let (core₀, s₀) ← demoCore 0
  let (core₁, s₁) ← demoCore 1
  let core := fun host => if host = demoHost 0 then core₀ else core₁
  let w ← es.foldlM (perform core) ⟨fun host => if host = demoHost 0 then s₀ else s₁, []⟩
  pure (core, w)

theorem demoNet_located {n : Node} {ip : IpAddr} (h : Located (demoNet 1) n ip) :
    (n = demoApp 0 (demoHost 0) ∧ ip = .v4 100) ∨ (n = demoApp 1 (demoHost 1) ∧ ip = .v4 101) := by
  obtain ⟨hmem, id, app, rfl, hip⟩ := h
  have hmem' : Node.app id app = demoApp 1 (demoHost 1) ∨ Node.app id app = demoApp 0 (demoHost 0) := by
    simpa [demoNet] using hmem
  rcases hmem' with heq | heq
  · cases heq
    exact Or.inr ⟨rfl, (Option.some.inj hip).symm⟩
  · cases heq
    exact Or.inl ⟨rfl, (Option.some.inj hip).symm⟩

theorem demoNet_own : OwnAddress (demoNet 1) := by
  intro a b ip ha hb
  rcases demoNet_located ha with ⟨rfl, rfl⟩ | ⟨rfl, rfl⟩ <;>
    rcases demoNet_located hb with ⟨rfl, hip⟩ | ⟨rfl, hip⟩
  · rfl
  · exact absurd hip (by decide)
  · exact absurd hip (by decide)
  · rfl

theorem demoNet_runsAt {ip : IpAddr} {host : ClusterNodeInfo} (h : RunsAt (demoNet 1) ip host) :
    (ip = .v4 100 ∧ host = demoHost 0) ∨ (ip = .v4 101 ∧ host = demoHost 1) := by
  obtain ⟨id, app, hl, hopt⟩ := h
  rcases demoNet_located hl with ⟨heq, rfl⟩ | ⟨heq, rfl⟩
  · cases heq
    exact Or.inl ⟨rfl, (Option.some.inj hopt).symm⟩
  · cases heq
    exact Or.inr ⟨rfl, (Option.some.inj hopt).symm⟩

theorem demoNet_host {host : ClusterNodeInfo} (h : IsHost (demoNet 1) host) :
    host = demoHost 0 ∨ host = demoHost 1 := by
  obtain ⟨id, app, hmem, hopt⟩ := h
  have hmem' : Node.app id app = demoApp 1 (demoHost 1) ∨ Node.app id app = demoApp 0 (demoHost 0) := by
    simpa [demoNet] using hmem
  rcases hmem' with heq | heq
  · cases heq
    exact Or.inr (Option.some.inj hopt).symm
  · cases heq
    exact Or.inl (Option.some.inj hopt).symm

theorem demoNet_source : RunsAt (demoNet 1) (.v4 100) (demoHost 0) :=
  ⟨0, _, ⟨show demoApp 0 (demoHost 0) ∈ _ by decide +kernel, 0, _, rfl, rfl⟩, rfl⟩

theorem demoWorld_trace {es : List Event} {core : ClusterNodeInfo → EmulCore} {w : World}
    (hfirst : (es.all fun
      | .measure host conf => decide (host = demoHost 0 ∧ conf.src = .v4 100)
      | .deliver _ _ => true) = true)
    (h : demoWorld es = .ok (core, w)) : Trace (demoNet 1) core es w := by
  have hruns : ∀ host conf, .measure host conf ∈ es → RunsAt (demoNet 1) conf.src host := by
    intro host conf hin
    obtain ⟨rfl, hsrc⟩ := of_decide_eq_true (List.all_eq_true.mp hfirst _ hin)
    rw [hsrc]
    exact demoNet_source
  obtain ⟨⟨core₀, s₀⟩, h₀, h⟩ := of_bind_eq_ok h
  obtain ⟨⟨core₁, s₁⟩, h₁, h⟩ := of_bind_eq_ok h
  obtain ⟨w', hw', h⟩ := of_bind_eq_ok h
  cases h
  refine perform_trace (.start ⟨rfl, ⟨0⟩, demoHost 0, fun host hhost => ?_⟩) hruns hw'
  obtain ⟨c₀, hnew₀, h₀⟩ := of_bind_eq_ok h₀
  obtain ⟨apps₀, happs₀, h₀⟩ := of_bind_eq_ok h₀
  obtain ⟨c₁, hnew₁, h₁⟩ := of_bind_eq_ok h₁
  obtain ⟨apps₁, happs₁, h₁⟩ := of_bind_eq_ok h₁
  cases h₀
  cases h₁
  refine ⟨.inOrder, ?_⟩
  rcases demoNet_host hhost with rfl | rfl
  · exact ⟨apps₀, by simpa using hnew₀, by simpa using happs₀, by simp⟩
  · have hne : demoHost 1 ≠ demoHost 0 := by decide
    exact ⟨apps₁, by simpa [hne] using hnew₁, by simpa [hne] using happs₁, by simp [hne]⟩

def demoUse : FlowConf := ⟨.v4 100, .v4 101, some 60⟩
def demoEnd : FlowConf := ⟨.v4 100, .v4 101, none⟩

theorem agreement_in_order : ∃ core es w, Trace (demoNet 1) core es w ∧ w.inFlight = [] ∧
    delivered (demoHost 1) es = [demoUse, demoEnd] ∧ Agree (demoNet 1) w := by
  obtain ⟨⟨core, w⟩, hrun, hquiet⟩ : Returns (demoWorld [.measure (demoHost 0) demoUse,
      .measure (demoHost 0) demoEnd, .deliver (demoHost 1) demoUse, .deliver (demoHost 1) demoEnd])
        fun p => p.2.inFlight = [] := by decide +kernel
  have htrace := demoWorld_trace (by decide) hrun
  refine ⟨core, _, w, htrace, hquiet, by decide, ((agreement (demoNet_built 1 (Or.inr rfl)) rfl
    demoNet_own htrace).2 hquiet).2.mpr fun src dest source other b hsource _ hother hne => ?_⟩
  apply asks_congr
  rcases demoNet_runsAt hsource with ⟨rfl, rfl⟩ | ⟨rfl, rfl⟩
  · obtain rfl := (demoNet_host hother).resolve_left (Ne.symm hne)
    rfl
  · obtain rfl := (demoNet_host hother).resolve_right (Ne.symm hne)
    rfl

/-- Two messages that arrive the other way round leave the flow at one host only. -/
theorem cores_disagree : ((demoNet 1).Built ∧ (demoNet 1).pathStrategy = .shortestPath ∧
    OwnAddress (demoNet 1)) ∧
    ∃ core es w, Trace (demoNet 1) core es w ∧ w.inFlight = [] ∧ ¬ Agree (demoNet 1) w := by
  refine ⟨⟨demoNet_built 1 (Or.inr rfl), rfl, demoNet_own⟩, ?_⟩
  obtain ⟨⟨core, w⟩, hrun, hquiet, hdiffer⟩ : Returns (demoWorld [.measure (demoHost 0) demoUse,
      .measure (demoHost 0) demoEnd, .deliver (demoHost 1) demoEnd, .deliver (demoHost 1) demoUse])
        fun p => p.2.inFlight = [] ∧
          (p.2.loop (demoHost 0)).activeFlows.contains ((true, 0), (true, 1)) ≠
            (p.2.loop (demoHost 1)).activeFlows.contains ((true, 0), (true, 1)) := by decide +kernel
  refine ⟨core, _, w, demoWorld_trace (by decide) hrun, hquiet,
    fun hagree => hdiffer ?_⟩
  exact hagree _ _ demoNet_source.isHost
    ⟨1, _, show demoApp 1 (demoHost 1) ∈ _ by decide +kernel, rfl⟩ _

end Emulcore

end Kollaps
