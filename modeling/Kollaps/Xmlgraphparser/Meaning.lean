import Kollaps.Lib.Alike
import Kollaps.Netgraph.Properties
import Kollaps.Xmlgraphparser.Identity

/-!
# What an accepted topology means

A document declares nodes by name and joins names by links. The network that the parser builds
has the same nodes, and its paths are those of the document.
-/

namespace Kollaps

open Run

namespace Xmlgraphparser

/-! ## The meaning of a document -/

/-- The names that a link joins, in either order. -/
def ends (link : XmlNode) : Sym2 (Option String) := s(link.attr "origin", link.attr "dest")

/-- What an `f32` reads of an attribute, zero when there is none. -/
def number (link : XmlNode) (name : String) : F32 := ((link.attr name).bind (Text.float .binary32)).getD 0

def speed (libs : XmlLibraries) (link : XmlNode) : Nat :=
  ((link.attr "bandwidth").bind fun text => (parseBandwidth libs text).toOption).elim 0
    (·.asUnsigned u32Max)

def written (libs : XmlLibraries) (link : XmlNode) : Network.Properties :=
  { bandwidth := speed libs link
    drop := number link "drop"
    latencyJitter := (number link "latency", number link "jitter") }

/-- Of the links between two names, the last one counts. -/
def linkBetween (links : List XmlNode) (e : Sym2 String) : Option XmlNode :=
  links.reverse.find? fun link => ends link = e.map some

/-- What a service stands for: its name, and an app with some id, its address and its kind. -/
def DeclaresApp (emulId : Uuid) (service : XmlNode) (p : String × Node) : Prop :=
  ∃ i kind, service.attr "name" = some p.1 ∧ serviceKind emulId i service = .ok kind ∧
    p.2 = .app i (Application.build (addressOf service) none p.1 kind)

/-- What a schedule stands for. -/
def Happens (nodes : List (String × Node)) (schedule : XmlNode) (e : EmulationEvent) : Prop :=
  ∃ name node text, schedule.attr "name" = some name ∧ (name, node) ∈ nodes ∧ e.appId = node.id ∧
    eventTime schedule = .ok e.time ∧ schedule.attr "action" = some text ∧ eventAction text = .ok e.action

namespace Blocks

def linkElements (b : Blocks) : List XmlNode := (b.links.map XmlNode.elements).getD []

/-- The names, where two are joined when there is a link between them. -/
def graph (b : Blocks) : SimpleGraph String where
  Adj x y := x ≠ y ∧ ∃ link ∈ b.linkElements, ends link = s(some x, some y)
  symm := ⟨fun x y h => ⟨h.1.symm, by simpa only [Sym2.eq_swap (a := some y)] using h.2⟩⟩
  loopless := ⟨fun _ h => h.1 rfl⟩

def linkAt (libs : XmlLibraries) (b : Blocks) (e : Sym2 String) : Network.Properties :=
  ((linkBetween b.linkElements e).map (written libs)).getD .zero

/-- The properties of a path with as few links as there can be. They are added up from its end. -/
def PathHas (libs : XmlLibraries) (b : Blocks) (x y : String) (props : Network.Properties) : Prop :=
  ∃ p : b.graph.Walk y x, p.length = b.graph.dist y x ∧
    props = Network.Properties.sum (p.edges.map (b.linkAt libs))

end Blocks

/-! ## Nodes -/

theorem parseService_declares (emulId : Uuid) :
    Numbers (fun x p => ServiceEntry x p ∧ DeclaresApp emulId x p) (parseService emulId) := by
  intro s service s' h
  unfold parseService at h
  split at h
  · cases h
  · obtain ⟨kind, hkind, h⟩ := of_bind_eq_ok h
    obtain ⟨name, hname, h⟩ := of_bind_eq_ok h
    obtain ⟨ip, hip, h⟩ := of_bind_eq_ok h
    cases h
    obtain ⟨rfl, hhas⟩ := serviceIp_ok hip
    have hname := serviceName_ok hname
    exact ⟨(name, .app s.2 (Application.build (addressOf service) none name kind)),
      ⟨⟨hname, hhas, s.2, _, rfl, rfl⟩, s.2, kind, hname, hkind, rfl⟩, rfl, rfl⟩

theorem parseNodes_declares {b : Blocks} {emulId : Uuid} {nodes : NodeMap}
    (h : parseNodes b emulId = .ok nodes) :
    ∃ ps qs, Entries b nodes ps qs ∧ List.Forall₂ (DeclaresApp emulId) b.serviceElements ps := by
  obtain ⟨services, bridges, links, dynamic⟩ := b
  cases services with
  | none => cases h
  | some services =>
    obtain ⟨nodes₁, h₁, h⟩ := of_bind_eq_ok h
    obtain ⟨s, hs, h₁⟩ := of_bind_eq_ok h₁
    cases h₁
    obtain ⟨ps, hps, hpids, hnodes⟩ := (parseService_declares emulId).foldlM hs
    have hids : ps.map (fun p => p.2.id) = List.range ps.length := by
      rw [List.range_eq_range', ← hps.length_eq]
      exact hpids
    have hentries := hps.imp fun _ _ hp => hp.1
    have happs := hps.imp fun _ _ hp => hp.2
    cases bridges with
    | none =>
      cases h
      refine ⟨ps, [], ⟨hentries, List.Forall₂.nil, ?_, hids, rfl⟩, happs⟩
      rw [List.append_nil]
      exact hnodes
    | some bridges =>
      obtain ⟨qs, hqs, hqids, rfl⟩ := parseBridges_ok h
      refine ⟨ps, qs, ⟨hentries, hqs, ?_, hids, hnodes ▸ hqids⟩, happs⟩
      rw [hnodes, putAll, putAll, putAll, List.foldl_append]

/-! ## Links -/

theorem floatAttribute_ok {link : XmlNode} {name : String} {value : F32}
    (h : floatAttribute link name = .ok value) : value = number link name := by
  unfold floatAttribute at h
  unfold number
  split at h <;> rename_i hattr
  · rw [hattr, Option.bind_some, unwrap_eq_ok.mp h]
    rfl
  · cases h
    rw [hattr]
    rfl

/-- A round adds the link that is written between the nodes of its names. -/
theorem parseLink_written {libs : XmlLibraries} {nodes : NodeMap} {g g' : Network Node} {link : XmlNode}
    (h : parseLink libs nodes g link = .ok g') :
    ∃ x y u v, link.attr "origin" = some x ∧ link.attr "dest" = some y ∧ nodes.lookup x = some u ∧
      nodes.lookup y = some v ∧ (written libs link).bandwidth ≤ u32Max ∧
      g.addEdgeWithProps u v (written libs link).bandwidth (written libs link).latencyJitter
        (written libs link).drop = .ok g' := by
  unfold parseLink at h
  split at h
  · cases h
  · split at h
    · rename_i x y text hx hy htext
      obtain ⟨u, hu, h⟩ := of_bind_eq_ok h
      obtain ⟨v, hv, h⟩ := of_bind_eq_ok h
      obtain ⟨jitter, hjitter, h⟩ := of_bind_eq_ok h
      obtain ⟨latency, hlatency, h⟩ := of_bind_eq_ok h
      obtain ⟨drop, hdrop, h⟩ := of_bind_eq_ok h
      obtain ⟨bandwidth, hbandwidth, h⟩ := of_bind_eq_ok h
      have hspeed : speed libs link = bandwidth.asUnsigned u32Max := by
        rw [speed, htext, Option.bind_some, hbandwidth]
        rfl
      rw [floatAttribute_ok hjitter, floatAttribute_ok hlatency, floatAttribute_ok hdrop, ← hspeed] at h
      refine ⟨x, y, u, v, hx, hy, unwrap_eq_ok.mp hu, unwrap_eq_ok.mp hv, ?_, h⟩
      exact hspeed.trans_le (bandwidth.asUnsigned_le u32Max)
    · cases h

theorem linkBetween_snoc (links : List XmlNode) (link : XmlNode) (e : Sym2 String) :
    linkBetween (links ++ [link]) e =
      if ends link = e.map some then some link else linkBetween links e := by
  rw [linkBetween, List.reverse_append, List.reverse_singleton, List.singleton_append, List.find?_cons]
  split <;> rename_i h
  · rw [if_pos (of_decide_eq_true h)]
  · rw [if_neg (of_decide_eq_false h), linkBetween]

theorem linkBetween_isSome {links : List XmlNode} {e : Sym2 String} :
    (linkBetween links e).isSome = true ↔ ∃ link ∈ links, ends link = e.map some := by
  simp [linkBetween]

/-! ## Names and indices -/

def At (net : Network Node) (nodes : List (String × Node)) (i : Nat) (x : String) : Prop :=
  ∃ u, (x, u) ∈ nodes ∧ net.map u = some i

structure Numbered (net : Network Node) (nodes : List (String × Node)) : Prop where
  wf : net.Wf
  names : (nodes.map Prod.fst).Nodup
  ids : (nodes.map fun p => p.2.id).Nodup
  vertices : (net.mapper.elems.map Prod.fst).Perm (nodes.map Prod.snd)

namespace Numbered

variable {net : Network Node} {nodes : List (String × Node)}

theorem exists_at (h : Numbered net nodes) {x : String} {u : Node} (hu : (x, u) ∈ nodes) :
    ∃ i, i < net.links.n ∧ net.map u = some i := by
  have hmem : u ∈ net.mapper.elems.map Prod.fst :=
    h.vertices.mem_iff.mpr (List.mem_map.mpr ⟨_, hu, rfl⟩)
  obtain ⟨p, hp, rfl⟩ := List.mem_map.mp hmem
  have hmap := Network.map_eq_some.mpr ⟨p, hp, rfl, rfl⟩
  exact ⟨p.2, h.wf.map_lt _ _ hmap, hmap⟩

theorem at_of_map (h : Numbered net nodes) {u : Node} {i : Nat} (hi : net.map u = some i) :
    ∃ x, At net nodes i x := by
  obtain ⟨p, hp, -, rfl⟩ := Network.map_eq_some.mp hi
  have hmem : p.1 ∈ nodes.map Prod.snd := h.vertices.mem_iff.mp (List.mem_map_of_mem hp)
  obtain ⟨q, hq, hqp⟩ := List.mem_map.mp hmem
  exact ⟨q.1, p.1, hqp ▸ hq, Network.map_eq_some.mpr ⟨p, hp, rfl, rfl⟩⟩

theorem node_unique (h : Numbered net nodes) {x : String} {u v : Node} (hu : (x, u) ∈ nodes)
    (hv : (x, v) ∈ nodes) : u = v :=
  congrArg Prod.snd (List.inj_on_of_nodup_map h.names hu hv rfl)

theorem biUnique (h : Numbered net nodes) : Relator.BiUnique (At net nodes) := by
  constructor
  · rintro i x j ⟨u, hu, hi⟩ ⟨v, hv, hj⟩
    rw [h.node_unique hu hv, hj] at hi
    exact (Option.some.inj hi).symm
  · rintro i x y ⟨u, hu, hi⟩ ⟨v, hv, hj⟩
    have hid : u.id = v.id := congrArg Prod.snd (h.wf.map_inj u v i hi hj)
    exact congrArg Prod.fst (List.inj_on_of_nodup_map h.ids hu hv hid)

theorem ends_iff (h : Numbered net nodes) {i j i' j' : Nat} {x y x' y' : String}
    (hi : At net nodes i x) (hj : At net nodes j y) (hi' : At net nodes i' x') (hj' : At net nodes j' y') :
    s(i, j) = s(i', j') ↔ s(x, y) = s(x', y') := by
  have hiff : ∀ {i i' x x'}, At net nodes i x → At net nodes i' x' → (i = i' ↔ x = x') := by
    intro i i' x x' hi hi'
    constructor
    · rintro rfl
      exact h.biUnique.2 hi hi'
    · rintro rfl
      exact h.biUnique.1 hi hi'
  rw [Sym2.eq_iff, Sym2.eq_iff, hiff hi hi', hiff hj hj', hiff hi hj', hiff hj hi']

end Numbered

/-! ## All links -/

/-- The network after some of the links. -/
structure Linked (libs : XmlLibraries) (nodes : List (String × Node)) (net : Network Node)
    (done : List XmlNode) (g : Network Node) : Prop where
  mapper : g.mapper = net.mapper
  strategy : g.pathStrategy = net.pathStrategy
  size : g.links.n = net.links.n
  wf : g.Wf
  entry : ∀ i j x y, At net nodes i x → At net nodes j y →
    (g.links.entry i j).map Link.properties = (linkBetween done s(x, y)).map (written libs)
  declared : ∀ link ∈ done, ∃ i j x y, At net nodes i x ∧ At net nodes j y ∧
    ends link = s(some x, some y)

variable {libs : XmlLibraries} {map : NodeMap} {nodes : List (String × Node)} {net : Network Node}

theorem Linked.step (hnet : Numbered net nodes) (hmap : ∀ x u, map.lookup x = some u → (x, u) ∈ nodes)
    {done : List XmlNode} {link : XmlNode} {g g' : Network Node} (hg : Linked libs nodes net done g)
    (h : parseLink libs map g link = .ok g') : Linked libs nodes net (done ++ [link]) g' := by
  obtain ⟨x, y, u, v, hx, hy, hu, hv, hband, hadd⟩ := parseLink_written h
  obtain ⟨i, -, hi⟩ := hnet.exists_at (hmap x u hu)
  obtain ⟨j, -, hj⟩ := hnet.exists_at (hmap y v hv)
  have hx' : At net nodes i x := ⟨u, hmap x u hu, hi⟩
  have hy' : At net nodes j y := ⟨v, hmap y v hv, hj⟩
  have hends : ends link = s(some x, some y) := by rw [ends, hx, hy]
  have hmapTwo : g.mapTwo u v = some (i, j) := by
    rw [Network.mapTwo_eq_some, Network.map, Network.map, hg.mapper]
    exact ⟨hi, hj⟩
  obtain ⟨hstrategy, hsize, hentry⟩ := Network.addEdgeWithProps_entry hg.wf.shaped hmapTwo hadd
  refine ⟨(addEdgeWithProps_mapper hadd).trans hg.mapper, hstrategy.trans hg.strategy,
    hsize.trans hg.size, Network.addEdgeWithProps_wf hg.wf hband hadd, ?_, ?_⟩
  · rintro i' j' x' y' hi' hj'
    have hlt : ∀ {k z}, At net nodes k z → k < g.links.n := by
      rintro k z ⟨w, -, hw⟩
      exact hg.size ▸ hnet.wf.map_lt w k hw
    have hpairs : s(i', j') = s(i, j) ↔ ends link = s(x', y').map some := by
      rw [hnet.ends_iff hi' hj' hx' hy', hends, Sym2.map_mk, eq_comm, Sym2.eq_iff,
        Sym2.eq_iff]
      simp only [Option.some.injEq]
    rw [hentry i' j' (hlt hi') (hlt hj'), linkBetween_snoc]
    simp only [hpairs]
    split
    · rfl
    · exact hg.entry i' j' x' y' hi' hj'
  · intro l hl
    rcases List.mem_append.mp hl with hl | hl
    · exact hg.declared l hl
    · cases List.mem_singleton.mp hl
      exact ⟨i, j, x, y, hx', hy', hends⟩

theorem new_linked {vertices : List Node} (hnew : Network.new vertices .shortestPath = .ok net)
    (hnet : Numbered net nodes) : Linked libs nodes net [] net := by
  refine ⟨rfl, rfl, rfl, hnet.wf, fun i j x y hi hj => ?_, fun _ hl => by cases hl⟩
  obtain ⟨u, -, hi⟩ := hi
  obtain ⟨v, -, hj⟩ := hj
  rw [Network.new_entry hnew (hnet.wf.map_lt u i hi) (hnet.wf.map_lt v j hj)]
  rfl

theorem parseLinks_linked {vertices : List Node} {links : XmlNode} {g : Network Node}
    (hnew : Network.new vertices .shortestPath = .ok net) (hnet : Numbered net nodes)
    (hmap : ∀ x u, map.lookup x = some u → (x, u) ∈ nodes)
    (h : parseLinks libs links map net = .ok g) : Linked libs nodes net links.elements g :=
  foldlM_ok_done (Linked libs nodes net) (new_linked hnew hnet)
    (fun _ _ _ _ _ _ hg hlink => hg.step hnet hmap hlink) h

namespace Linked

variable {g : Network Node} {b : Blocks}

/-- The graph of the network looks like that of the document. -/
theorem alike (hg : Linked libs nodes net b.linkElements g) (hnet : Numbered net nodes) :
    Alike g.graph b.graph fun i x => At net nodes i x := by
  refine ⟨⟨fun i x j hi hj => Fin.ext (hnet.biUnique.1 hi hj), fun i x y => @hnet.biUnique.2 i x y⟩,
    ?_, ?_⟩
  · intro i x j hi hadj
    obtain ⟨⟨l, hl⟩, hij⟩ := Network.adj_iff.mp (Network.graph_adj.mp hadj)
    obtain ⟨hends, hsource, hdestination⟩ := hg.wf.ends i j l i.isLt j.isLt hl
    have hj : ∃ u, g.map u = some j.val := by
      rcases Sym2.eq_iff.mp hends with ⟨-, hj⟩ | ⟨hj, -⟩
      · exact ⟨_, hj ▸ hdestination⟩
      · exact ⟨_, hj ▸ hsource⟩
    obtain ⟨u, hu⟩ := hj
    rw [Network.map, hg.mapper] at hu
    obtain ⟨y, hy⟩ := hnet.at_of_map hu
    have hentry := hg.entry i j x y hi hy
    rw [hl] at hentry
    have hsome : (linkBetween b.linkElements s(x, y)).isSome = true := by
      rw [← Option.isSome_map (f := written libs), ← hentry]
      rfl
    refine ⟨y, hy, fun hxy => hij ?_, linkBetween_isSome.mp hsome⟩
    exact hnet.biUnique.1 hi (hxy ▸ hy)
  · rintro i x y hi ⟨hxy, hlink⟩
    obtain ⟨link, hmem, hends⟩ := hlink
    obtain ⟨i', j', x', y', hi', hj', hends'⟩ := hg.declared link hmem
    have hy : ∃ j, At net nodes j y := by
      rw [hends] at hends'
      rcases Sym2.eq_iff.mp hends' with ⟨-, hy⟩ | ⟨-, hy⟩
      · exact ⟨j', Option.some.inj hy ▸ hj'⟩
      · exact ⟨i', Option.some.inj hy ▸ hi'⟩
    obtain ⟨j, hj⟩ := hy
    obtain ⟨v, hv, hvj⟩ := hj
    have hlt : j < g.links.n := hg.size ▸ hnet.wf.map_lt v j hvj
    have hentry := hg.entry i j x y hi ⟨v, hv, hvj⟩
    have hsome : (linkBetween b.linkElements s(x, y)).isSome = true :=
      linkBetween_isSome.mpr ⟨link, hmem, hends⟩
    refine ⟨⟨j, hlt⟩, ⟨v, hv, hvj⟩, Network.graph_adj.mpr (Network.adj_iff.mpr ⟨?_, fun hij => hxy ?_⟩)⟩
    · rw [← Option.isSome_iff_exists, ← Option.isSome_map (f := Link.properties), hentry,
        Option.isSome_map]
      exact hsome
    · exact hnet.biUnique.2 hi ⟨v, hv, hij ▸ hvj⟩

theorem linkOn (hg : Linked libs nodes net b.linkElements g) {e : Sym2 (Fin g.links.n)}
    {f : Sym2 String} {l : Link Node} (hl : g.LinkOn e l)
    (hef : EdgesMatch (fun (i : Fin g.links.n) x => At net nodes i x) e f) :
    l.properties = b.linkAt libs f := by
  obtain ⟨i, j, rfl, hentry⟩ := hl
  obtain ⟨i', j', x, y, he, rfl, hi, hj⟩ := hef
  have hwritten := hg.entry i' j' x y hi hj
  have hcell : g.links.entry i' j' = g.links.entry i j := by
    exact g.entry_congr (congrArg (Sym2.map Fin.val) he).symm
  rw [hcell, hentry] at hwritten
  rw [Blocks.linkAt, ← hwritten]
  rfl

theorem values (hg : Linked libs nodes net b.linkElements g) {es : List (Sym2 (Fin g.links.n))}
    {fs : List (Sym2 String)} {ls : List (Link Node)} (hls : List.Forall₂ g.LinkOn es ls)
    (hfs : List.Forall₂ (EdgesMatch fun (i : Fin g.links.n) x => At net nodes i x) es fs) :
    ls.map Link.properties = fs.map (b.linkAt libs) := by
  induction hls generalizing fs with
  | nil =>
    cases hfs
    rfl
  | cons hl _ ih =>
    cases hfs with
    | cons hf hfs => rw [List.map_cons, List.map_cons, hg.linkOn hl hf, ih hfs]

end Linked

/-! ## Schedules -/

theorem parseEvent_happens (hmap : ∀ x u, map.lookup x = some u → (x, u) ∈ nodes)
    {result result' : List EmulationEvent} {schedule : XmlNode}
    (h : parseEvent map result schedule = .ok result') :
    ∃ e, Happens nodes schedule e ∧ result' = result ++ [e] := by
  unfold parseEvent at h
  split at h
  · cases h
  · obtain ⟨time, htime, h⟩ := of_bind_eq_ok h
    split at h
    · cases h
    · obtain ⟨name, hname, h⟩ := of_bind_eq_ok h
      obtain ⟨text, htext, h⟩ := of_bind_eq_ok h
      obtain ⟨action, haction, h⟩ := of_bind_eq_ok h
      split at h <;> rename_i hnode
      · cases h
      · cases h
        exact ⟨_, ⟨name, _, text, unwrap_eq_ok.mp hname, hmap name _ hnode, rfl, htime,
          unwrap_eq_ok.mp htext, haction⟩, rfl⟩

theorem parseSchedule_happens (hmap : ∀ x u, map.lookup x = some u → (x, u) ∈ nodes) {b : Blocks}
    {events : List EmulationEvent} (h : parseSchedule map b.dynamic = .ok events) :
    List.Forall₂ (Happens nodes) b.schedules events := by
  unfold parseSchedule at h
  unfold Blocks.schedules
  split at h <;> rename_i hdynamic
  · cases h
    rw [hdynamic]
    exact List.Forall₂.nil
  · rw [hdynamic]
    refine foldlM_ok_done (fun done acc => List.Forall₂ (Happens nodes) done acc) List.Forall₂.nil ?_ h
    intro pre x post s s' _ hs hstep
    obtain ⟨e, he, rfl⟩ := parseEvent_happens hmap hstep
    exact List.rel_append hs (List.Forall₂.cons he List.Forall₂.nil)

/-! ## The whole topology -/

/-- The network and the events are those of the document. -/
structure Preserved (libs : XmlLibraries) (emulId : Uuid) (b : Blocks) (ps qs : List (String × Node))
    (net : Network Node) (events : List EmulationEvent) : Prop where
  services : List.Forall₂ (DeclaresApp emulId) b.serviceElements ps
  bridges : List.Forall₂ BridgeEntry b.bridgeElements qs
  names : ((ps ++ qs).map Prod.fst).Nodup
  ids : (ps ++ qs).map (fun p => p.2.id) = List.range (ps ++ qs).length
  vertices : ∀ it, (net.vertices it).Perm ((ps ++ qs).map Prod.snd)
  events : List.Forall₂ (Happens (ps ++ qs)) b.schedules events
  links : ∀ x u y v, (x, u) ∈ ps ++ qs → (y, v) ∈ ps ++ qs → ∃ i j, net.mapTwo u v = some (i, j) ∧
    Returns (net.links.index i j) fun l =>
      l.map Link.properties = (linkBetween b.linkElements s(x, y)).map (written libs)
  /-- A query finds a shortest path of the document and adds up its links. -/
  paths : ∀ x u y v, (x, u) ∈ ps ++ qs → (y, v) ∈ ps ++ qs → x ≠ y →
    Returns (net.propertiesBetween u v) fun o => (o = none ↔ ¬ b.graph.Reachable x y) ∧
      ∀ props, o = some props → b.PathHas libs x y props

theorem Linked.index {g : Network Node} {b : Blocks} (hg : Linked libs nodes net b.linkElements g)
    (hnet : Numbered net nodes) {x y : String} {u v : Node} (hu : (x, u) ∈ nodes) (hv : (y, v) ∈ nodes) :
    ∃ i j, g.mapTwo u v = some (i, j) ∧ Returns (g.links.index i j) fun l =>
      l.map Link.properties = (linkBetween b.linkElements s(x, y)).map (written libs) := by
  obtain ⟨i, hlti, hi⟩ := hnet.exists_at hu
  obtain ⟨j, hltj, hj⟩ := hnet.exists_at hv
  have hmapTwo : g.mapTwo u v = some (i, j) := by
    rw [Network.mapTwo_eq_some, Network.map, Network.map, hg.mapper]
    exact ⟨hi, hj⟩
  refine ⟨i, j, hmapTwo, _, g.links.index_eq (hg.size ▸ hlti) (hg.size ▸ hltj), ?_⟩
  exact hg.entry i j x y ⟨u, hu, hi⟩ ⟨v, hv, hj⟩

theorem Linked.paths {g : Network Node} {b : Blocks} (hg : Linked libs nodes net b.linkElements g)
    (hnet : Numbered net nodes) (hs : net.pathStrategy = .shortestPath) {x y : String} {u v : Node}
    (hu : (x, u) ∈ nodes) (hv : (y, v) ∈ nodes) (hxy : x ≠ y) :
    Returns (g.propertiesBetween u v) fun o => (o = none ↔ ¬ b.graph.Reachable x y) ∧
      ∀ props, o = some props → b.PathHas libs x y props := by
  obtain ⟨i, j, hmapTwo, -⟩ := hg.index hnet hu hv
  obtain ⟨hi, hj⟩ := hg.wf.shaped.mapTwo_lt hmapTwo
  obtain ⟨hmapu, hmapv⟩ := Network.mapTwo_eq_some.mp hmapTwo
  rw [Network.map, hg.mapper] at hmapu hmapv
  have hx : At net nodes i x := ⟨u, hu, hmapu⟩
  have hy : At net nodes j y := ⟨v, hv, hmapv⟩
  have hij : (⟨i, hi⟩ : Fin g.links.n) ≠ ⟨j, hj⟩ := by
    intro he
    exact hxy (hnet.biUnique.2 hx ((Fin.mk.inj he) ▸ hy))
  have halike := hg.alike hnet
  refine (g.propertiesBetween_along (hg.strategy.trans hs) hmapTwo hij).mono fun o ho => ?_
  obtain ⟨hnone, hsome⟩ := ho
  have hreach := halike.reachable_iff (a := ⟨j, hj⟩) (b := ⟨i, hi⟩) hy hx
  refine ⟨by rw [hnone, hreach, SimpleGraph.reachable_comm], fun props hprops => ?_⟩
  obtain ⟨p, hlength, ls, hls, rfl⟩ := hsome props hprops
  obtain ⟨q, hq, hedges⟩ := halike.walk (a := ⟨j, hj⟩) (b := ⟨i, hi⟩) hy hx p
  refine ⟨q, ?_, ?_⟩
  · rw [hq, hlength]
    exact (halike.dist_eq (a := ⟨j, hj⟩) (b := ⟨i, hi⟩) hy hx ⟨p⟩).symm
  · rw [hg.values hls hedges]

theorem parseTopology_preserved {it : Iter} {text : String} {emulId : Uuid} {events : List EmulationEvent}
    {b : Blocks} (h : parseTopology libs it text emulId = .ok (net, events))
    (hb : parseDocument libs text = .ok b)
    (hnames : ((b.serviceElements ++ b.bridgeElements).map fun x => x.attr "name").Nodup) :
    ∃ ps qs, Preserved libs emulId b ps qs net events := by
  obtain ⟨b', hb', h⟩ := of_bind_eq_ok h
  cases hb.symm.trans hb'
  obtain ⟨map, hmap, h⟩ := of_bind_eq_ok h
  obtain ⟨net₀, hnew, h⟩ := of_bind_eq_ok h
  obtain ⟨ps, qs, hentries, hdeclares⟩ := parseNodes_declares hmap
  rw [hentries.names_nodup_iff] at hnames
  have hids := hentries.ids hnames
  have hvertices := hentries.vertices_perm hnew hnames
  have hnet : Numbered net₀ (ps ++ qs) :=
    ⟨Network.new_wf hnew, hnames, hids ▸ List.nodup_range, hvertices⟩
  have hlookup : ∀ x u, map.lookup x = some u → (x, u) ∈ ps ++ qs :=
    fun _ _ hxu => (hentries.lookup_iff hnames).mp hxu
  split at h <;> rename_i hlinks
  · cases h
  · obtain ⟨g, hg, h⟩ := of_bind_eq_ok h
    obtain ⟨schedule, hschedule, h⟩ := of_bind_eq_ok h
    cases h
    have hlinked : Linked libs (ps ++ qs) net₀ b.linkElements net := by
      rw [Blocks.linkElements, hlinks]
      exact parseLinks_linked hnew hnet hlookup hg
    have hstrategy : net₀.pathStrategy = .shortestPath := by
      obtain ⟨links, -, hnew⟩ := of_bind_eq_ok hnew
      cases hnew
      rfl
    refine ⟨ps, qs, hdeclares, hentries.bridges, hnames, hids, fun it' => ?_,
      parseSchedule_happens hlookup hschedule, ?_, ?_⟩
    · rw [Network.vertices, hlinked.mapper]
      exact ((it'.perm _).map Prod.fst).trans hvertices
    · exact fun x u y v hu hv => hlinked.index hnet hu hv
    · exact fun x u y v hu hv hxy => hlinked.paths hnet hstrategy hu hv hxy

/-- The parser keeps the meaning of every document that it accepts, if the names differ. -/
theorem topology_preserved {libs : XmlLibraries} {it : Iter} {text : String} {emulId : Uuid}
    {net : Network Node} {events : List EmulationEvent}
    (h : parseTopology libs it text emulId = .ok (net, events)) :
    ∃ b, parseDocument libs text = .ok b ∧
      (((b.serviceElements ++ b.bridgeElements).map fun x => x.attr "name").Nodup →
        ∃ ps qs, Preserved libs emulId b ps qs net events) := by
  obtain ⟨b, -, -, hb, -⟩ := parseTopology_ok h
  exact ⟨b, hb, parseTopology_preserved h hb⟩

theorem topology_preserved_two :
    ∃ r, parseDemo twoServices = .ok r ∧
      ∃ b, parseDocument (oneDocument twoServices) (documentText twoServices) = .ok b ∧
        ∃ ps qs, Preserved (oneDocument twoServices) ⟨0⟩ b ps qs r.1 r.2 := by
  have hok : Returns (parseDemo twoServices) fun _ => True := by
    decide +kernel
  have hdoc : Returns (parseDocument (oneDocument twoServices) (documentText twoServices)) fun b =>
      ((b.serviceElements ++ b.bridgeElements).map fun x => x.attr "name").Nodup := by
    decide +kernel
  obtain ⟨r, hr, -⟩ := hok
  obtain ⟨b, hb, hpreserved⟩ := topology_preserved hr
  exact ⟨r, hr, b, hb, hpreserved (hdoc.of_eq hb)⟩

end Xmlgraphparser

end Kollaps
