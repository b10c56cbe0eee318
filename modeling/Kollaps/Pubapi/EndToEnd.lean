import Kollaps.Emulcore.Enforcement
import Kollaps.Pubapi.Deployment
import Kollaps.Xmlgraphparser.Meaning

/-!
# From a document to the traffic control

A document says how its services are joined. The leader parses it and places it, the cores of the
hosts handle their messages, and the traffic control of each app is held to what the document says.
-/

namespace Kollaps

open Run Act

/-! ## Queries of the network that is sent -/

namespace Network

variable {T : Type} [Vertex T] {g g' : Network T}

theorem propertiesBetween_congr (hlinks : g'.links = g.links) (hs : g'.pathStrategy = g.pathStrategy)
    {a b a' b' : T} (hm : g'.mapTwo a' b' = g.mapTwo a b) :
    g'.propertiesBetween a' b' = g.propertiesBetween a b := by
  obtain ⟨links, mapper, pathStrategy⟩ := g
  obtain ⟨links', mapper', pathStrategy'⟩ := g'
  cases hlinks
  cases hs
  unfold propertiesBetween
  rw [hm]
  rfl

theorem propertiesBetween_foldl_editVertex (vs : List T) {a b a' b' : T}
    (ha : Vertex.id a' = Vertex.id a) (hb : Vertex.id b' = Vertex.id b) :
    (vs.foldl editVertex g).propertiesBetween a' b' = g.propertiesBetween a b := by
  refine propertiesBetween_congr (foldl_editVertex_links vs g) (foldl_editVertex_pathStrategy vs g) ?_
  rw [mapTwo, mapTwo, foldl_editVertex_map, foldl_editVertex_map, g.map_congr ha, g.map_congr hb]

end Network

namespace Pubapi

open Emulcore Reporter Xmlgraphparser

/-! ## The apps of the services -/

/-- The app of a service: it has its name and its address. -/
def Stands (service : XmlNode) (n : Node) : Prop :=
  ∃ i a, n = .app i a ∧ service.attr "name" = some a.name ∧ a.ipApp = addressOf service

theorem Stands.named {service : XmlNode} {n : Node} (h : Stands service n) :
    ∃ x, service.attr "name" = some x := by
  obtain ⟨i, a, -, hname, -⟩ := h
  exact ⟨a.name, hname⟩

theorem Stands.name_eq {service service' : XmlNode} {n : Node} (h : Stands service n)
    (h' : Stands service' n) : service.attr "name" = service'.attr "name" := by
  obtain ⟨i, a, rfl, hname, -⟩ := h
  obtain ⟨j, a', hn, hname', -⟩ := h'
  cases hn
  exact hname.trans hname'.symm

theorem Stands.address {service : XmlNode} {n : Node} {g : Network Node} {ip : IpAddr}
    (h : Stands service n) (hn : Located g n ip) : addressOf service = some ip := by
  obtain ⟨i, a, rfl, -, hip⟩ := h
  obtain ⟨-, j, a', ha, hip'⟩ := hn
  cases ha
  exact hip.symm.trans hip'

theorem Stands.located {service : XmlNode} {n : Node} {g : Network Node} {ip : IpAddr}
    (h : Stands service n) (hn : IsNode g n) (hip : addressOf service = some ip) : Located g n ip := by
  obtain ⟨i, a, rfl, -, ha⟩ := h
  exact ⟨hn.1, i, a, rfl, ha.trans hip⟩

/-- The network that is sent has the apps of the services and the queries of the document. -/
structure Carries (libs : XmlLibraries) (b : Blocks) (g : Network Node) : Prop where
  app : ∀ n, IsNode g n → ∃ service ∈ b.serviceElements, Stands service n
  service : ∀ service ∈ b.serviceElements, ∃ n, IsNode g n ∧ Stands service n
  named : ∀ m n service peer, IsNode g m → IsNode g n → Stands service m → Stands peer n →
    service.attr "name" = peer.attr "name" → m = n
  paths : ∀ m n service peer x y, IsNode g m → IsNode g n → Stands service m → Stands peer n →
    service.attr "name" = some x → peer.attr "name" = some y → x ≠ y →
    Returns (g.propertiesBetween m n) fun o => (o = none ↔ ¬ b.graph.Reachable x y) ∧
      ∀ props, o = some props → b.PathHas libs x y props

section

variable {libs : XmlLibraries} {ar : Arith} {it it' : Iter} {text : String} {uuid : Uuid}
  {net net' : Network Node} {events : List EmulationEvent} {b : Blocks} {o o' : Orchestrator}
  {hosts : List ClusterNodeInfo} {ps qs : List (String × Node)}

/-- An app keeps its vertex, its name and its address when it is placed. -/
theorem placed_entry (hnew : o.newEmulation ar it' net uuid = .ok (o', some (net', hosts)))
    (hp : Preserved libs uuid b ps qs net events) {n : Node} (hn : IsNode net' n) :
    ∃ service ∈ b.serviceElements, ∃ x u, (x, u) ∈ ps ∧ service.attr "name" = some x ∧
      Vertex.id n = Vertex.id u ∧ Stands service n := by
  obtain ⟨apps, -, -, places, -, happs, hlen, hnet, -⟩ := Orchestrator.newEmulation_handed hnew
  have hin : n ∈ Orchestrator.handed apps places :=
    (Orchestrator.mem_handed_app happs hlen n).mpr (hnet ▸ hn)
  obtain ⟨k, hk⟩ := List.mem_iff_getElem?.mp hin
  obtain ⟨u, host, hu, -, rfl⟩ := Orchestrator.handed_eq_some.mp hk
  have hmem := List.mem_of_getElem? hu
  rw [happs, List.mem_filter, (hp.vertices it').mem_iff, List.map_append, List.mem_append] at hmem
  obtain ⟨hmem, happ⟩ := hmem
  rcases hmem with hmem | hmem
  · obtain ⟨⟨x, u'⟩, hx, rfl⟩ := List.mem_map.mp hmem
    obtain ⟨service, hservice, i, kind, hname, -, hu'⟩ := exists_of_mem_right hp.services hx
    dsimp only at hu' hname
    subst hu'
    exact ⟨service, hservice, x, _, hx, hname, Node.id_placedAt _ _ _, i, _, rfl, hname, rfl⟩
  · obtain ⟨q, hq, rfl⟩ := List.mem_map.mp hmem
    obtain ⟨bridge, -, -, i, hi⟩ := exists_of_mem_right hp.bridges hq
    rw [hi] at happ
    cases happ

theorem entry_placed (hnew : o.newEmulation ar it' net uuid = .ok (o', some (net', hosts)))
    (hp : Preserved libs uuid b ps qs net events) {service : XmlNode}
    (hservice : service ∈ b.serviceElements) : ∃ n, IsNode net' n ∧ Stands service n := by
  obtain ⟨apps, -, -, places, -, happs, hlen, hnet, -⟩ := Orchestrator.newEmulation_handed hnew
  obtain ⟨⟨x, u⟩, hx, i, kind, hname, -, hu⟩ := exists_of_mem_left hp.services hservice
  dsimp only at hu hname
  subst hu
  have hmem : .app i (Application.build (addressOf service) none x kind) ∈ apps := by
    rw [happs, List.mem_filter, (hp.vertices it').mem_iff, List.map_append, List.mem_append]
    exact ⟨Or.inl (List.mem_map_of_mem hx), rfl⟩
  obtain ⟨k, hk, hkin⟩ := List.getElem_of_mem hmem
  have hv : (Orchestrator.handed apps places)[k]? = some (apps[k].placedAt places[k] k) :=
    Orchestrator.handed_eq_some.mpr ⟨_, _, List.getElem?_eq_getElem hk,
      List.getElem?_eq_getElem (by omega), rfl⟩
  refine ⟨_, hnet ▸ (Orchestrator.mem_handed_app happs hlen _).mp (List.mem_of_getElem? hv), ?_⟩
  rw [hkin]
  exact ⟨i, _, rfl, hname, rfl⟩

theorem placed_carries (hparse : parseTopology libs it text uuid = .ok (net, events))
    (hb : parseDocument libs text = .ok b) (hd : Distinguished b)
    (hnew : o.newEmulation ar it' net uuid = .ok (o', some (net', hosts))) : Carries libs b net' := by
  obtain ⟨ps, qs, hp⟩ := parseTopology_preserved hparse hb hd.names
  obtain ⟨apps, -, -, places, -, happs, hlen, hnet, -⟩ := Orchestrator.newEmulation_handed hnew
  have hentry : ∀ n service x, IsNode net' n → Stands service n → service.attr "name" = some x →
      ∃ u, (x, u) ∈ ps ∧ Vertex.id n = Vertex.id u := by
    intro n service x hn hservice hx
    obtain ⟨service', -, x', u, hu, hx', hnu, hn'⟩ := placed_entry hnew hp hn
    obtain rfl : x = x' := Option.some.inj (hx.symm.trans ((hservice.name_eq hn').trans hx'))
    exact ⟨u, hu, hnu⟩
  refine ⟨fun n hn => ?_, fun service hservice => entry_placed hnew hp hservice, ?_, ?_⟩
  · obtain ⟨service, hservice, -, -, -, -, -, hstands⟩ := placed_entry hnew hp hn
    exact ⟨service, hservice, hstands⟩
  · intro m n service peer hm hn hservice hpeer hname
    obtain ⟨x, hx⟩ := hservice.named
    obtain ⟨u, hu, hmu⟩ := hentry m service x hm hservice hx
    obtain ⟨v, hv, hnv⟩ := hentry n peer x hn hpeer (hname ▸ hx)
    have huv : (x, u) = (x, v) :=
      List.inj_on_of_nodup_map hp.names (List.mem_append_left _ hu) (List.mem_append_left _ hv) rfl
    cases huv
    exact hm.eq_of_vertex hn (hmu.trans hnv.symm)
  · intro m n service peer x y hm hn hservice hpeer hx hy hxy
    obtain ⟨u, hu, hmu⟩ := hentry m service x hm hservice hx
    obtain ⟨v, hv, hnv⟩ := hentry n peer y hn hpeer hy
    rw [hnet, Network.propertiesBetween_foldl_editVertex _ hmu hnv]
    exact hp.paths x u y v (List.mem_append_left _ hu) (List.mem_append_left _ hv) hxy

end

/-! ## What the apps are held to -/

/-- The traffic control of the app of the service `x` does what the document says. -/
structure Held (libs : XmlLibraries) (b : Blocks) (g : Network Node) (messages : List EmulMessage)
    (s : Loop) (app : Node) (x : String) (sh : Shaping) : Prop where
  /-- A path leads to a service, over links of the document, with no more than their bandwidth. -/
  real : ∀ dest p, sh.paths dest = some p → ∃ peer ∈ b.serviceElements, ∃ y props,
    peer.attr "name" = some y ∧ addressOf peer = some (.v4 dest) ∧ b.PathHas libs x y props ∧
      p.bandwidth ≤ props.bandwidth ∧ p.latency = props.latencyJitter.1 ∧
      p.jitter = props.latencyJitter.2 ∧ p.drop = props.drop
  /-- After the app has joined, it has every path that it does not send on, in full. -/
  full : Joined messages app → ∀ peer ∈ b.serviceElements, ∀ n y dest, IsNode g n → Stands peer n →
    peer.attr "name" = some y → addressOf peer = some (.v4 dest) → x ≠ y → b.graph.Reachable x y →
    s.activeFlows.contains (Vertex.id app, Vertex.id n) = false →
      ∃ props, b.PathHas libs x y props ∧ sh.paths dest = some
        { bandwidth := props.bandwidth, latency := props.latencyJitter.1
          jitter := props.latencyJitter.2, drop := props.drop }
  shares : ∀ f ∈ s.activeFlows.elems, f.source = app → ∀ peer ∈ b.serviceElements, ∀ dest,
    IsNode g f.destination → Stands peer f.destination → addressOf peer = some (.v4 dest) →
      ∃ p, sh.paths dest = some p ∧ p.bandwidth = f.authorizedBandwidth

theorem Carries.held {libs : XmlLibraries} {b : Blocks} {g : Network Node} (hc : Carries libs b g)
    (hg : g.Wf) (hs : g.pathStrategy = .shortestPath) (hown : OwnAddress g) {core : EmulCore}
    {messages : List EmulMessage} {c : Config} {s : Loop}
    (h : Course .wrapping g core (OpensFirst core) messages c) (hloop : c.phase.loop = some s)
    {app : Node} (happ : IsNode g app) (hhere : RunsHere core app) {service : XmlNode} {x : String}
    (hstands : Stands service app) (hx : service.attr "name" = some x) :
    Held libs b g messages s app x (enforced app c.log) := by
  have hinv := h.enforceInv hg hs hown hloop
  have hgraph := (h.openInv hg hs).1.graph
  subst hgraph
  obtain ⟨hkept, hshared⟩ := hinv.kept app happ hhere
  have hother : ∀ n props y, core.graph.propertiesBetween app n = .ok (some props) →
      IsNode core.graph n → ∀ peer, Stands peer n → peer.attr "name" = some y →
        b.PathHas libs x y props := by
    intro n props y hprops hn peer hpeer hy
    -- A query from an app to itself finds nothing.
    have hxy : x ≠ y := by
      rintro rfl
      cases hc.named app n service peer happ hn hstands hpeer (hx.trans hy.symm)
      exact Network.route_ne_nil hg hprops (hg.route_self rfl)
    exact ((hc.paths app n service peer x y happ hn hstands hpeer hx hy hxy).of_eq hprops).2 props rfl
  refine ⟨fun dest p hp => ?_, ?_, ?_⟩
  · obtain ⟨n, props, hn, hprops, hband, hrest⟩ := hkept.real dest p hp
    obtain ⟨peer, hpeer, hpn⟩ := hc.app n hn.isNode
    obtain ⟨y, hy⟩ := hpn.named
    exact ⟨peer, hpeer, y, props, hy, hpn.address hn, hother n props y hprops hn.isNode peer hpn hy,
      hband, hrest⟩
  · intro hjoined peer hpeer n y dest hn hpn hy hdest hxy hreach hidle
    obtain ⟨o, ho, hnone, hsome⟩ := hc.paths app n service peer x y happ hn hstands hpn hx hy hxy
    cases o with
    | none => exact absurd hreach (hnone.mp rfl)
    | some props =>
      have hlocated := hpn.located hn hdest
      obtain ⟨p, hp, hband⟩ := hkept.free hjoined n dest props hlocated ho hidle
      obtain ⟨n', props', hn', hprops', -, hlatency, hjitter, hdrop⟩ := hkept.real dest p hp
      obtain rfl := hown n n' _ hlocated hn'
      cases ho.symm.trans hprops'
      refine ⟨props, hsome props rfl, hp.trans (congrArg some ?_)⟩
      cases p
      simp only at hband hlatency hjitter hdrop
      rw [hband, hlatency, hjitter, hdrop]
  · intro f hf hsource peer hpeer dest hn hpn hdest
    exact hshared f hf hsource dest (hpn.located hn hdest)

/-- Wherever the core of a host of an accepted topology is in its run, the traffic control of each
of its apps does what the document says, if this tells its nodes apart. -/
theorem document_enforced {libs : XmlLibraries} {env : Env} {m : OManager} {uuid : Uuid} {top : String}
    (hparser : env.parseTopology = parseTopology libs env.it)
    (haccept : .reply (some .accepted) ∈ (m.onNewTopology env uuid top).log) :
    ∃ (b : Blocks) (emul : Emulation) (hosts : List ClusterNodeInfo), parseDocument libs top = .ok b ∧
      (m.onNewTopology env uuid top).log =
        hosts.map (fun n => .send n (.experimentNew m.myInfoOmanager emul)) ++ [.reply (some .accepted)] ∧
      (Distinguished b →
        (∀ service ∈ b.serviceElements, ∃ n, IsNode emul.graph n ∧ Stands service n) ∧
        ∀ core messages c s, Course .wrapping emul.graph core (OpensFirst core) messages c →
          c.phase.loop = some s → ∀ app, IsNode emul.graph app → RunsHere core app →
            ∃ service ∈ b.serviceElements, ∃ x, Stands service app ∧ service.attr "name" = some x ∧
              Held libs b emul.graph messages s app x (enforced app c.log)) := by
  obtain ⟨network, events, o, network', hosts, hparse, hplace, hlog⟩ := accepted_placed haccept
  rw [hparser] at hparse
  obtain ⟨b, -, -, hb, -⟩ := parseTopology_ok hparse
  refine ⟨b, ⟨uuid, network', events⟩, hosts, hb, hlog, fun hd => ?_⟩
  have hcarries := placed_carries hparse hb hd hplace
  have hdeployed := placed_deployed hparse hb hd hplace
  refine ⟨hcarries.service, fun core messages c s hcourse hloop app happ hhere => ?_⟩
  obtain ⟨service, hservice, hstands⟩ := hcarries.app app happ
  obtain ⟨x, hx⟩ := hstands.named
  exact ⟨service, hservice, x, hstands, hx, hcarries.held hdeployed.built.1.wf hdeployed.built.2
    hdeployed.own hcourse hloop happ hhere hstands hx⟩

def container (name ip : String) : XmlNode :=
  .element "service" [("kind", "container"), ("image", "iperf"), ("command", "run"), ("name", name),
    ("ip", ip)] []

def switched : List XmlNode :=
  [.element "experiment" [("boot", "kollaps")]
    [.element "services" [] [container "a" "10.0.0.1", container "b" "10.0.0.2"],
      .element "bridges" [] [.element "bridge" [("name", "s")] []],
      .element "links" []
        [.element "link" [("origin", "a"), ("dest", "s"), ("bandwidth", "10Mbps"), ("latency", "5")] [],
          .element "link" [("origin", "s"), ("dest", "b"), ("bandwidth", "10Mbps"), ("latency", "7")] []]]]

def switchedEnv : Env :=
  { demoEnv 0 [] with parseTopology := parseTopology (oneDocument switched) .inOrder }

def sentTo : Effect → Option (ClusterNodeInfo × Emulation)
  | .send n (.experimentNew _ emul) => some (n, emul)
  | _ => none

def joins : List EmulMessage := [demoEvent 0 .join, demoEvent 1 .join]

theorem joins_opensFirst (core : EmulCore) (before : List EmulMessage) (m : EmulMessage)
    (after : List EmulMessage) (h : joins = before ++ m :: after) : OpensFirst core before m := by
  rintro conf flow props rfl
  have hin : EmulMessage.flowUpdate conf ∈ joins := by simp [h]
  simp [joins, demoEvent] at hin

theorem document_enforced_switched : ∃ (b : Blocks) (emul : Emulation) (host : ClusterNodeInfo)
    (core : EmulCore) (s : Loop) (app : Node) (x : String),
    parseDocument (oneDocument switched) (documentText switched) = .ok b ∧
    (demoRun emul.graph host joins).result = .ok (core, s) ∧ IsNode emul.graph app ∧ Joined joins app ∧
    Held (oneDocument switched) b emul.graph joins s app x
      (enforced app (demoRun emul.graph host joins).log) := by
  obtain ⟨m, -, haccept, ⟨host, emul⟩, hfirst, ⟨core, s⟩, hrun, ⟨app, i⟩, happ, hisApp, hid, hhosts⟩ :
      Returns linkedManager fun m =>
        (m.onNewTopology switchedEnv ⟨0⟩ (documentText switched)).log.any isAcceptance = true ∧
        ∃ p ∈ ((m.onNewTopology switchedEnv ⟨0⟩ (documentText switched)).log.filterMap sentTo).head?,
          Returns (demoRun p.2.graph p.1 joins).result fun q =>
            ∃ v ∈ p.2.graph.mapper.elems, v.1.isApp = true ∧ v.1.id = 1 ∧
              Returns (q.1.hosts v.1) (· = true) := by
    decide +kernel
  obtain ⟨b, emul', hosts, hb, hlog, henforced⟩ :=
    @document_enforced (oneDocument switched) switchedEnv m ⟨0⟩ _ rfl (accepted_of_any haccept)
  obtain rfl : emul = emul' := by
    obtain ⟨e, he, hsent⟩ := List.mem_filterMap.mp (List.mem_of_mem_head? hfirst)
    rw [hlog] at he
    rcases List.mem_append.mp he with he | he
    · obtain ⟨n, -, rfl⟩ := List.mem_map.mp he
      exact (congrArg Prod.snd (Option.some.inj hsent)).symm
    · cases List.mem_singleton.mp he
      cases hsent
  obtain ⟨b', hb', hnames, haddressed, haddresses, hscheduled⟩ :
      Returns (parseDocument (oneDocument switched) (documentText switched)) fun b =>
        ((b.serviceElements ++ b.bridgeElements).map fun x => x.attr "name").Nodup ∧
        (∀ s ∈ b.serviceElements, s.hasAttribute "ip" = true) ∧
        (b.serviceElements.map addressOf).Nodup ∧ b.schedules = [] := by
    decide +kernel
  cases hb.symm.trans hb'
  have hscheduled' : ∀ e ∈ b.schedules, e.attr "name" ∈ b.serviceElements.map fun s => s.attr "name" := by
    rw [hscheduled]
    exact List.forall_mem_nil _
  have happ : IsNode emul.graph app := ⟨List.mem_map_of_mem happ, hisApp⟩
  have hhere : RunsHere core app := by
    obtain ⟨_, hhosts, rfl⟩ := hhosts
    cases app with
    | bridge j => cases hisApp
    | app j a => exact ⟨a, rfl, hhosts⟩
  have hjoined : Joined joins app := by
    refine ⟨by rw [hid]; decide, ?_⟩
    simp [joins, demoEvent]
  obtain ⟨-, -, x, -, -, hheld⟩ := (henforced ⟨hnames, haddressed, haddresses, hscheduled'⟩).2 core joins _ s
    (demoRun_course (joins_opensFirst core) hrun) rfl app happ hhere
  exact ⟨b, emul, host, core, s, app, x, hb, hrun, happ, hjoined, hheld⟩

end Pubapi

end Kollaps
