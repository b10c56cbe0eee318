import Kollaps.Xmlgraphparser.Bandwidth

/-!
# What identifies the nodes of an accepted topology

The cores look up events by the id of a vertex and flows by the address of an application.
The parser numbers what a document declares, but keeps it by name.
-/

namespace Kollaps

open Run

namespace Xmlgraphparser

namespace Blocks

def serviceElements (b : Blocks) : List XmlNode := (b.services.map XmlNode.elements).getD []

def bridgeElements (b : Blocks) : List XmlNode := (b.bridges.map XmlNode.elements).getD []

def schedules (b : Blocks) : List XmlNode := (b.dynamic.map XmlNode.elements).getD []

end Blocks

def addressOf (service : XmlNode) : Option IpAddr := (service.attr "ip").bind Text.ipAddr

theorem exists_of_mem_left {α β : Type} {R : α → β → Prop} {xs : List α} {ys : List β}
    (h : List.Forall₂ R xs ys) {x : α} (hx : x ∈ xs) : ∃ y ∈ ys, R x y := by
  induction h with
  | nil => cases hx
  | cons hr _ ih =>
    rcases List.mem_cons.mp hx with rfl | hx
    · exact ⟨_, List.mem_cons_self, hr⟩
    · obtain ⟨y, hy, hxy⟩ := ih hx
      exact ⟨y, List.mem_cons_of_mem _ hy, hxy⟩

theorem exists_of_mem_right {α β : Type} {R : α → β → Prop} {xs : List α} {ys : List β}
    (h : List.Forall₂ R xs ys) {y : β} (hy : y ∈ ys) : ∃ x ∈ xs, R x y :=
  exists_of_mem_left h.flip hy

/-! ## One declared node -/

def ServiceEntry (service : XmlNode) (p : String × Node) : Prop :=
  service.attr "name" = some p.1 ∧ (service.hasAttribute "ip" = true ↔ addressOf service ≠ none) ∧
    ∃ i a, p.2 = .app i a ∧ a.ipApp = addressOf service

def BridgeEntry (bridge : XmlNode) (p : String × Node) : Prop :=
  bridge.attr "name" = some p.1 ∧ ∃ i, p.2 = .bridge i

theorem serviceName_ok {service : XmlNode} {name : String} (h : serviceName service = .ok name) :
    service.attr "name" = some name := by
  unfold serviceName at h
  split at h
  · cases h
    assumption
  · cases h

theorem serviceIp_ok {service : XmlNode} {ip : Option IpAddr} (h : serviceIp service = .ok ip) :
    ip = addressOf service ∧ (service.hasAttribute "ip" = true ↔ addressOf service ≠ none) := by
  unfold serviceIp at h
  rw [addressOf, XmlNode.hasAttribute]
  split at h <;> rename_i text hip
  · rw [hip, Option.bind_some]
    cases hip' : Text.ipAddr text with
    | none =>
      rw [hip'] at h
      cases h
    | some a =>
      rw [hip'] at h
      cases h
      simp
  · cases h
    simp [hip]

/-- A round puts one entry with the next id. -/
def Numbers (entry : XmlNode → String × Node → Prop)
    (step : NodeMap × Nat → XmlNode → Run (NodeMap × Nat)) : Prop :=
  ∀ s x s', step s x = .ok s' →
    ∃ p : String × Node, entry x p ∧ p.2.id = s.2 ∧ s' = (s.1.put p.1 p.2, s.2 + 1)

theorem parseService_numbers (emulId : Uuid) : Numbers ServiceEntry (parseService emulId) := by
  intro s service s' h
  unfold parseService at h
  split at h
  · cases h
  · obtain ⟨kind, -, h⟩ := of_bind_eq_ok h
    obtain ⟨name, hname, h⟩ := of_bind_eq_ok h
    obtain ⟨ip, hip, h⟩ := of_bind_eq_ok h
    cases h
    exact ⟨(name, .app s.2 (Application.build ip none name kind)),
      ⟨serviceName_ok hname, (serviceIp_ok hip).2, s.2, _, rfl, (serviceIp_ok hip).1⟩, rfl, rfl⟩

theorem parseBridge_numbers : Numbers BridgeEntry parseBridge := by
  intro s bridge s' h
  unfold parseBridge at h
  split at h
  · cases h
  · split at h <;> rename_i hname
    · cases h
    · cases h
      exact ⟨(_, .bridge s.2), ⟨hname, s.2, rfl⟩, rfl, rfl⟩

def putAll (nodes : NodeMap) (ps : List (String × Node)) : NodeMap :=
  ps.foldl (fun m p => m.put p.1 p.2) nodes

/-- The ids count on from the first free one, whatever the map did with the names. -/
theorem Numbers.foldlM {entry : XmlNode → String × Node → Prop}
    {step : NodeMap × Nat → XmlNode → Run (NodeMap × Nat)} (hstep : Numbers entry step)
    {xs : List XmlNode} {s s' : NodeMap × Nat} (h : xs.foldlM step s = .ok s') :
    ∃ ps, List.Forall₂ entry xs ps ∧ ps.map (fun p => p.2.id) = List.range' s.2 xs.length ∧
      s'.1 = putAll s.1 ps := by
  induction xs generalizing s with
  | nil =>
    cases h
    exact ⟨[], List.Forall₂.nil, rfl, rfl⟩
  | cons x xs ih =>
    rw [List.foldlM_cons] at h
    obtain ⟨s₁, h₁, h⟩ := of_bind_eq_ok h
    obtain ⟨p, hp, hid, rfl⟩ := hstep s x s₁ h₁
    obtain ⟨ps, hps, hids, hs'⟩ := ih h
    refine ⟨p :: ps, List.Forall₂.cons hp hps, ?_, hs'⟩
    rw [List.map_cons, List.length_cons, List.range'_succ, hid, hids]

/-! ## All declared nodes -/

/-- The entries of the services and of the bridges, in the order of the document. -/
structure Entries (b : Blocks) (nodes : NodeMap) (ps qs : List (String × Node)) : Prop where
  services : List.Forall₂ ServiceEntry b.serviceElements ps
  bridges : List.Forall₂ BridgeEntry b.bridgeElements qs
  nodes : nodes = putAll KeySet.empty (ps ++ qs)
  serviceIds : ps.map (fun p => p.2.id) = List.range ps.length
  /-- The bridges count on from the size of the map. -/
  bridgeIds : qs.map (fun p => p.2.id) = List.range' (putAll KeySet.empty ps).len qs.length

theorem parseServices_ok {services : XmlNode} {emulId : Uuid} {nodes nodes' : NodeMap}
    (h : parseServices services emulId nodes = .ok nodes') :
    ∃ ps, List.Forall₂ ServiceEntry services.elements ps ∧
      ps.map (fun p => p.2.id) = List.range' nodes.len ps.length ∧ nodes' = putAll nodes ps := by
  obtain ⟨s, hs, h⟩ := of_bind_eq_ok h
  cases h
  obtain ⟨ps, hps, hids, hnodes⟩ := (parseService_numbers emulId).foldlM hs
  exact ⟨ps, hps, hps.length_eq ▸ hids, hnodes⟩

theorem parseBridges_ok {bridges : XmlNode} {nodes nodes' : NodeMap}
    (h : parseBridges bridges nodes = .ok nodes') :
    ∃ ps, List.Forall₂ BridgeEntry bridges.elements ps ∧
      ps.map (fun p => p.2.id) = List.range' nodes.len ps.length ∧ nodes' = putAll nodes ps := by
  obtain ⟨s, hs, h⟩ := of_bind_eq_ok h
  cases h
  obtain ⟨ps, hps, hids, hnodes⟩ := parseBridge_numbers.foldlM hs
  exact ⟨ps, hps, hps.length_eq ▸ hids, hnodes⟩

theorem parseNodes_ok {b : Blocks} {emulId : Uuid} {nodes : NodeMap}
    (h : parseNodes b emulId = .ok nodes) : ∃ ps qs, Entries b nodes ps qs := by
  obtain ⟨services, bridges, links, dynamic⟩ := b
  cases services with
  | none => cases h
  | some services =>
    obtain ⟨nodes₁, h₁, h⟩ := of_bind_eq_ok h
    obtain ⟨ps, hps, hpids, rfl⟩ := parseServices_ok h₁
    have hids : ps.map (fun p => p.2.id) = List.range ps.length := by
      rw [List.range_eq_range']
      exact hpids
    cases bridges with
    | none =>
      cases h
      exact ⟨ps, [], hps, List.Forall₂.nil, by rw [List.append_nil], hids, rfl⟩
    | some bridges =>
      obtain ⟨qs, hqs, hqids, rfl⟩ := parseBridges_ok h
      exact ⟨ps, qs, hps, hqs, by rw [putAll, putAll, putAll, List.foldl_append], hids, hqids⟩

/-! ## Distinct names -/

namespace Entries

variable {b : Blocks} {nodes : NodeMap} {ps qs : List (String × Node)}

theorem names (h : Entries b nodes ps qs) :
    (b.serviceElements ++ b.bridgeElements).map (fun x => x.attr "name") =
      (ps ++ qs).map fun p => some p.1 := by
  have hS : b.serviceElements.map (fun x => x.attr "name") = ps.map fun p => some p.1 :=
    List.forall₂_eq_eq_eq ▸ List.forall₂_map_left_iff.mpr (List.forall₂_map_right_iff.mpr
      (h.services.imp fun _ _ hp => hp.1))
  have hB : b.bridgeElements.map (fun x => x.attr "name") = qs.map fun p => some p.1 :=
    List.forall₂_eq_eq_eq ▸ List.forall₂_map_left_iff.mpr (List.forall₂_map_right_iff.mpr
      (h.bridges.imp fun _ _ hp => hp.1))
  rw [List.map_append, List.map_append, hS, hB]

theorem length_eq (h : Entries b nodes ps qs) :
    b.serviceElements.length + b.bridgeElements.length = (ps ++ qs).length := by
  rw [List.length_append, h.services.length_eq, h.bridges.length_eq]

theorem names_nodup_iff (h : Entries b nodes ps qs) :
    ((b.serviceElements ++ b.bridgeElements).map fun x => x.attr "name").Nodup ↔
      ((ps ++ qs).map Prod.fst).Nodup := by
  have hmap : (ps ++ qs).map (fun p => some p.1) = ((ps ++ qs).map Prod.fst).map some := by
    rw [List.map_map]
    rfl
  rw [h.names, hmap]
  exact List.nodup_map_iff (Option.some_injective _)

theorem nodes_perm (h : Entries b nodes ps qs) (hnames : ((ps ++ qs).map Prod.fst).Nodup) :
    nodes.elems.Perm (ps ++ qs) := by
  have hperm := KeySet.elems_foldl_put id (l := ps ++ qs) (m := KeySet.empty)
    (by simpa [KeySet.keys] using hnames)
  rw [KeySet.elems_empty, List.append_nil] at hperm
  exact h.nodes ▸ hperm

theorem ids (h : Entries b nodes ps qs) (hnames : ((ps ++ qs).map Prod.fst).Nodup) :
    (ps ++ qs).map (fun p => p.2.id) = List.range (ps ++ qs).length := by
  have hps : (ps.map Prod.fst).Nodup := by
    rw [List.map_append] at hnames
    exact hnames.of_append_left
  have hperm := KeySet.elems_foldl_put id (l := ps) (m := KeySet.empty)
    (by simpa [KeySet.keys] using hps)
  have hlen : (putAll KeySet.empty ps).len = ps.length := by
    rw [KeySet.len, putAll, hperm.length_eq, KeySet.elems_empty, List.append_nil]
  rw [List.map_append, h.serviceIds, h.bridgeIds, hlen, List.length_append, List.range_add]
  rw [List.range'_eq_map_range]

end Entries

/-! ## The vertices of the network -/

theorem addEdgeWithProps_mapper {g g' : Network Node} {source destination : Node} {bandwidth : Nat}
    {latencyJitter : F32 × F32} {drop : F32}
    (h : g.addEdgeWithProps source destination bandwidth latencyJitter drop = .ok g') :
    g'.mapper = g.mapper := by
  unfold Network.addEdgeWithProps at h
  split at h
  · obtain ⟨links, -, h⟩ := of_bind_eq_ok h
    cases h
    rfl
  · cases h
    rfl

theorem parseLink_ok {libs : XmlLibraries} {nodes : NodeMap} {g g' : Network Node} {link : XmlNode}
    (h : parseLink libs nodes g link = .ok g') :
    ∃ source destination bandwidth latencyJitter drop, bandwidth ≤ u32Max ∧
      g.addEdgeWithProps source destination bandwidth latencyJitter drop = .ok g' := by
  unfold parseLink at h
  split at h
  · cases h
  · split at h
    · obtain ⟨source, -, h⟩ := of_bind_eq_ok h
      obtain ⟨destination, -, h⟩ := of_bind_eq_ok h
      obtain ⟨jitter, -, h⟩ := of_bind_eq_ok h
      obtain ⟨latency, -, h⟩ := of_bind_eq_ok h
      obtain ⟨drop, -, h⟩ := of_bind_eq_ok h
      obtain ⟨bandwidth, -, h⟩ := of_bind_eq_ok h
      exact ⟨source, destination, _, _, _, bandwidth.asUnsigned_le u32Max, h⟩
    · cases h

theorem parseLink_mapper {libs : XmlLibraries} {nodes : NodeMap} {g g' : Network Node} {link : XmlNode}
    (h : parseLink libs nodes g link = .ok g') : g'.mapper = g.mapper := by
  obtain ⟨source, destination, bandwidth, latencyJitter, drop, -, hadd⟩ := parseLink_ok h
  exact addEdgeWithProps_mapper hadd

theorem parseLinks_mapper {libs : XmlLibraries} {links : XmlNode} {nodes : NodeMap} {g g' : Network Node}
    (h : parseLinks libs links nodes g = .ok g') : g'.mapper = g.mapper :=
  foldlM_ok_inv (fun s => s.mapper = g.mapper) rfl
    (fun _ _ _ _ hs hlink => (parseLink_mapper hlink).trans hs) h

/-- The network keeps a vertex for each declared node at most. -/
theorem new_mapper {vertices : List Node} {strategy : PathStrategy} {g : Network Node}
    (h : Network.new vertices strategy = .ok g) :
    g.mapper = vertices.zipIdx.foldl (fun acc p => acc.put p.1 p.2) KeySet.empty := by
  obtain ⟨links, -, h⟩ := of_bind_eq_ok h
  cases h
  rfl

theorem new_len_le {vertices : List Node} {strategy : PathStrategy} {g : Network Node}
    (h : Network.new vertices strategy = .ok g) : g.mapper.len ≤ vertices.length := by
  rw [new_mapper h, ← List.length_zipIdx (l := vertices)]
  exact KeySet.len_foldl_put_le _

theorem new_perm {vertices : List Node} {strategy : PathStrategy} {g : Network Node}
    (h : Network.new vertices strategy = .ok g) (hids : (vertices.map Node.id).Nodup) :
    (g.mapper.elems.map Prod.fst).Perm vertices := by
  have hkeys : (vertices.zipIdx.map fun p => Vertex.id p.1).Nodup := by
    have hfst : vertices.zipIdx.map (fun p => Vertex.id p.1) = vertices.map Vertex.id := by
      rw [← congrArg (List.map Vertex.id) (List.zipIdx_map_fst 0 vertices), List.map_map]
      rfl
    rw [hfst]
    refine List.Nodup.of_map (fun k : Bool × Nat => k.2) ?_
    rw [List.map_map]
    exact hids
  have hperm := KeySet.elems_foldl_put Vertex.id (l := vertices.zipIdx) (m := KeySet.empty)
    (by simpa [KeySet.keys] using hkeys)
  rw [KeySet.elems_empty, List.append_nil, ← new_mapper h] at hperm
  have hfst := hperm.map Prod.fst
  rwa [List.zipIdx_map_fst] at hfst

/-! ## The schedule -/

/-- An event is for the node that its name stands for, of whatever kind. -/
def Scheduled (nodes : NodeMap) (schedule : XmlNode) (e : EmulationEvent) : Prop :=
  ∃ name node, schedule.attr "name" = some name ∧ nodes.lookup name = some node ∧ e.appId = node.id

theorem parseEvent_ok {nodes : NodeMap} {result result' : List EmulationEvent} {schedule : XmlNode}
    (h : parseEvent nodes result schedule = .ok result') :
    ∃ e, Scheduled nodes schedule e ∧ result' = result ++ [e] := by
  unfold parseEvent at h
  split at h
  · cases h
  · obtain ⟨time, -, h⟩ := of_bind_eq_ok h
    split at h
    · cases h
    · obtain ⟨name, hname, h⟩ := of_bind_eq_ok h
      obtain ⟨text, -, h⟩ := of_bind_eq_ok h
      obtain ⟨action, -, h⟩ := of_bind_eq_ok h
      split at h <;> rename_i hnode
      · cases h
      · cases h
        exact ⟨_, ⟨name, _, unwrap_eq_ok.mp hname, hnode, rfl⟩, rfl⟩

theorem parseSchedule_ok {nodes : NodeMap} {b : Blocks} {events : List EmulationEvent}
    (h : parseSchedule nodes b.dynamic = .ok events) :
    List.Forall₂ (Scheduled nodes) b.schedules events := by
  unfold parseSchedule at h
  unfold Blocks.schedules
  split at h <;> rename_i hdynamic
  · cases h
    rw [hdynamic]
    exact List.Forall₂.nil
  · rw [hdynamic]
    refine foldlM_ok_done (fun done acc => List.Forall₂ (Scheduled nodes) done acc) List.Forall₂.nil ?_ h
    intro pre x post s s' _ hs hstep
    obtain ⟨e, he, rfl⟩ := parseEvent_ok hstep
    exact List.rel_append hs (List.Forall₂.cons he List.Forall₂.nil)

/-! ## What the document must say -/

def applications (vertices : List Node) : List Application :=
  vertices.filterMap fun n =>
    match n with
    | .app _ a => some a
    | .bridge _ => none

/-- Every declared node is there, under an id and an address of its own, and the events are for
applications. -/
structure WellIdentified (b : Blocks) (vertices : List Node) (events : List EmulationEvent) : Prop where
  all : vertices.length = b.serviceElements.length + b.bridgeElements.length
  ids : (vertices.map Node.id).Nodup
  addressed : ∀ a ∈ applications vertices, a.ipApp ≠ none
  addresses : ((applications vertices).map Application.ipApp).Nodup
  events : ∀ e ∈ events, ∃ a, Node.app e.appId a ∈ vertices

/-- What the parser does not check. -/
structure Distinguished (b : Blocks) : Prop where
  names : ((b.serviceElements ++ b.bridgeElements).map fun x => x.attr "name").Nodup
  addressed : ∀ s ∈ b.serviceElements, s.hasAttribute "ip" = true
  addresses : (b.serviceElements.map addressOf).Nodup
  scheduled : ∀ e ∈ b.schedules, e.attr "name" ∈ b.serviceElements.map fun s => s.attr "name"

namespace Entries

variable {b : Blocks} {nodes : NodeMap} {ps qs : List (String × Node)}

theorem applications_eq (h : Entries b nodes ps qs) :
    (applications ((ps ++ qs).map Prod.snd)).map Application.ipApp = b.serviceElements.map addressOf := by
  have hS : ∀ {xs : List XmlNode} {ps : List (String × Node)}, List.Forall₂ ServiceEntry xs ps →
      (applications (ps.map Prod.snd)).map Application.ipApp = xs.map addressOf := by
    intro xs ps hps
    induction hps with
    | nil => rfl
    | cons hp _ ih =>
      obtain ⟨-, -, i, a, ha, hip⟩ := hp
      rw [List.map_cons, List.map_cons, ha, ← hip, ← ih]
      rfl
  have hB : ∀ {xs : List XmlNode} {qs : List (String × Node)}, List.Forall₂ BridgeEntry xs qs →
      applications (qs.map Prod.snd) = [] := by
    intro xs qs hqs
    induction hqs with
    | nil => rfl
    | cons hq _ ih =>
      obtain ⟨-, i, hi⟩ := hq
      rw [List.map_cons, hi, ← ih]
      rfl
  rw [List.map_append, applications, List.filterMap_append, ← applications, ← applications,
    hB h.bridges, List.append_nil, hS h.services]

theorem addressed_iff (h : Entries b nodes ps qs) :
    (∀ s ∈ b.serviceElements, s.hasAttribute "ip" = true) ↔
      none ∉ (applications ((ps ++ qs).map Prod.snd)).map Application.ipApp := by
  rw [h.applications_eq, List.mem_map, not_exists]
  have hip : ∀ s ∈ b.serviceElements, s.hasAttribute "ip" = true ↔ addressOf s ≠ none := by
    intro s hs
    obtain ⟨p, -, hp⟩ := exists_of_mem_left h.services hs
    exact hp.2.1
  constructor
  · rintro hall s ⟨hs, hnone⟩
    exact (hip s hs).mp (hall s hs) hnone
  · intro hall s hs
    exact (hip s hs).mpr fun hnone => hall s ⟨hs, hnone⟩

theorem lookup_iff (h : Entries b nodes ps qs) (hnames : ((ps ++ qs).map Prod.fst).Nodup)
    {name : String} {node : Node} : nodes.lookup name = some node ↔ (name, node) ∈ ps ++ qs := by
  rw [KeySet.lookup_eq_some, (h.nodes_perm hnames).mem_iff]

theorem isApp_iff (h : Entries b nodes ps qs) (hnames : ((ps ++ qs).map Prod.fst).Nodup)
    {p : String × Node} (hp : p ∈ ps ++ qs) :
    p.2.isApp = true ↔ some p.1 ∈ b.serviceElements.map fun s => s.attr "name" := by
  rw [List.mem_map]
  constructor
  · intro happ
    rcases List.mem_append.mp hp with hp | hp
    · obtain ⟨s, hs, hsp⟩ := exists_of_mem_right h.services hp
      exact ⟨s, hs, hsp.1⟩
    · obtain ⟨x, -, -, i, hi⟩ := exists_of_mem_right h.bridges hp
      rw [hi] at happ
      cases happ
  · rintro ⟨s, hs, hname⟩
    obtain ⟨q, hq, hsq, -, i, a, ha, -⟩ := exists_of_mem_left h.services hs
    have hpq : p = q := by
      refine List.inj_on_of_nodup_map hnames hp (List.mem_append_left _ hq) ?_
      rw [hname] at hsq
      exact Option.some.inj hsq
    rw [hpq, ha]
    rfl

theorem scheduled_iff (h : Entries b nodes ps qs) (hnames : ((ps ++ qs).map Prod.fst).Nodup)
    {schedule : XmlNode} {e : EmulationEvent} (he : Scheduled nodes schedule e) :
    (∃ a, Node.app e.appId a ∈ (ps ++ qs).map Prod.snd) ↔
      schedule.attr "name" ∈ b.serviceElements.map fun s => s.attr "name" := by
  obtain ⟨name, node, hname, hlookup, hid⟩ := he
  have hmem := (h.lookup_iff hnames).mp hlookup
  rw [hname, ← h.isApp_iff hnames hmem]
  constructor
  · rintro ⟨a, ha⟩
    obtain ⟨p, hp, hpa⟩ := List.mem_map.mp ha
    have hnd : ((ps ++ qs).map fun p => p.2.id).Nodup := h.ids hnames ▸ List.nodup_range
    have hpn : p = (name, node) := by
      refine List.inj_on_of_nodup_map hnd hp hmem ?_
      show p.2.id = node.id
      rw [hpa, ← hid]
      rfl
    rw [← hpn, hpa]
    rfl
  · intro happ
    cases node with
    | bridge i => cases happ
    | app i a => exact ⟨a, List.mem_map.mpr ⟨_, hmem, by rw [hid]; rfl⟩⟩

end Entries

/-! ## Accepted documents -/

namespace Entries

variable {b : Blocks} {nodes : NodeMap} {ps qs : List (String × Node)} {it : Iter} {net : Network Node}

theorem names_of_len (h : Entries b nodes ps qs)
    (hnet : Network.new ((it.order nodes.elems).map Prod.snd) .shortestPath = .ok net)
    (hlen : net.mapper.len = (ps ++ qs).length) : ((ps ++ qs).map Prod.fst).Nodup := by
  have hle := new_len_le hnet
  rw [List.length_map, it.length_order, hlen, h.nodes] at hle
  exact KeySet.nodup_of_len_foldl_put id hle

theorem vertices_perm (h : Entries b nodes ps qs)
    (hnet : Network.new ((it.order nodes.elems).map Prod.snd) .shortestPath = .ok net)
    (hnames : ((ps ++ qs).map Prod.fst).Nodup) :
    (net.mapper.elems.map Prod.fst).Perm ((ps ++ qs).map Prod.snd) := by
  have hnodes : ((it.order nodes.elems).map Prod.snd).Perm ((ps ++ qs).map Prod.snd) :=
    ((it.perm _).trans (h.nodes_perm hnames)).map Prod.snd
  refine (new_perm hnet ?_).trans hnodes
  rw [(hnodes.map Node.id).nodup_iff, List.map_map]
  exact h.ids hnames ▸ List.nodup_range

theorem wellIdentified_iff (h : Entries b nodes ps qs) (hnames : ((ps ++ qs).map Prod.fst).Nodup)
    {events : List EmulationEvent} (hevents : List.Forall₂ (Scheduled nodes) b.schedules events)
    {vertices : List Node} (hperm : vertices.Perm ((ps ++ qs).map Prod.snd)) :
    WellIdentified b vertices events ↔ Distinguished b := by
  have happs : ((applications vertices).map Application.ipApp).Perm (b.serviceElements.map addressOf) :=
    h.applications_eq ▸ (hperm.filterMap _).map _
  have haddressed : (∀ a ∈ applications vertices, a.ipApp ≠ none) ↔
      ∀ s ∈ b.serviceElements, s.hasAttribute "ip" = true := by
    rw [h.addressed_iff, h.applications_eq, ← happs.mem_iff]
    simp
  have hscheduled : (∀ e ∈ events, ∃ a, Node.app e.appId a ∈ vertices) ↔
      ∀ e ∈ b.schedules, e.attr "name" ∈ b.serviceElements.map fun s => s.attr "name" := by
    simp only [hperm.mem_iff]
    constructor
    · intro hall schedule hs
      obtain ⟨e, he, hse⟩ := exists_of_mem_left hevents hs
      exact (h.scheduled_iff hnames hse).mp (hall e he)
    · intro hall e he
      obtain ⟨schedule, hs, hse⟩ := exists_of_mem_right hevents he
      exact (h.scheduled_iff hnames hse).mpr (hall schedule hs)
  constructor
  · intro hw
    exact
      { names := h.names_nodup_iff.mpr hnames
        addressed := haddressed.mp hw.addressed
        addresses := happs.nodup_iff.mp hw.addresses
        scheduled := hscheduled.mp hw.events }
  · intro hd
    exact
      { all := by rw [hperm.length_eq, List.length_map, h.length_eq]
        ids := by
          rw [(hperm.map Node.id).nodup_iff, List.map_map]
          exact h.ids hnames ▸ List.nodup_range
        addressed := haddressed.mpr hd.addressed
        addresses := happs.nodup_iff.mpr hd.addresses
        events := hscheduled.mpr hd.scheduled }

end Entries

theorem parseTopology_ok {libs : XmlLibraries} {it : Iter} {text : String} {emulId : Uuid}
    {net : Network Node} {events : List EmulationEvent}
    (h : parseTopology libs it text emulId = .ok (net, events)) :
    ∃ b nodes net₀, parseDocument libs text = .ok b ∧ parseNodes b emulId = .ok nodes ∧
      Network.new ((it.order nodes.elems).map Prod.snd) .shortestPath = .ok net₀ ∧
      net.mapper = net₀.mapper ∧ List.Forall₂ (Scheduled nodes) b.schedules events := by
  obtain ⟨b, hb, h⟩ := of_bind_eq_ok h
  obtain ⟨nodes, hnodes, h⟩ := of_bind_eq_ok h
  obtain ⟨net₀, hnet, h⟩ := of_bind_eq_ok h
  split at h
  · cases h
  · obtain ⟨net₁, hlinks, h⟩ := of_bind_eq_ok h
    obtain ⟨schedule, hschedule, h⟩ := of_bind_eq_ok h
    cases h
    exact ⟨b, nodes, net₀, hb, hnodes, hnet, parseLinks_mapper hlinks, parseSchedule_ok hschedule⟩

/-- The topology of an accepted document is well identified when the document tells its nodes
apart: by name, the services by their addresses too, and schedules services only. -/
theorem accepted_wellIdentified {libs : XmlLibraries} {it : Iter} {text : String} {emulId : Uuid}
    {net : Network Node} {events : List EmulationEvent}
    (h : parseTopology libs it text emulId = .ok (net, events)) (it' : Iter) :
    ∃ b, parseDocument libs text = .ok b ∧
      (WellIdentified b (net.vertices it') events ↔ Distinguished b) := by
  obtain ⟨b, nodes, net₀, hb, hnodes, hnet, hmapper, hevents⟩ := parseTopology_ok h
  obtain ⟨ps, qs, he⟩ := parseNodes_ok hnodes
  refine ⟨b, hb, ?_⟩
  have hvertices : (net.vertices it').Perm (net₀.mapper.elems.map Prod.fst) :=
    hmapper ▸ (it'.perm _).map Prod.fst
  by_cases hnames : ((ps ++ qs).map Prod.fst).Nodup
  · exact he.wellIdentified_iff hnames hevents (hvertices.trans (he.vertices_perm hnet hnames))
  · refine iff_of_false (fun hw => hnames ?_) fun hd => hnames (he.names_nodup_iff.mp hd.names)
    refine he.names_of_len hnet ?_
    rw [← he.length_eq, ← hw.all, hvertices.length_eq, List.length_map]
    rfl

/-! ## Two documents -/

def attributeText (a : String × String) : String := s!" {a.1}=\"{a.2}\""

mutual

def nodeText : XmlNode → String
  | .element tag attributes children =>
    "<" ++ tag ++ String.join (attributes.map attributeText) ++ ">" ++ documentText children ++ "</"
      ++ tag ++ ">"
  | .other => "\n"

/-- What is written in the file of a document. -/
def documentText : List XmlNode → String
  | [] => ""
  | x :: xs => nodeText x ++ documentText xs

end

def oneDocument (doc : List XmlNode) : XmlLibraries :=
  { parse := fun text => if text = documentText doc then some doc else none
    captures := searchCaptures }

theorem oneDocument_parse (doc : List XmlNode) : (oneDocument doc).parse (documentText doc) = some doc :=
  if_pos rfl

def parseDemo (doc : List XmlNode) : Run (Network Node × List EmulationEvent) :=
  parseTopology (oneDocument doc) .inOrder (documentText doc) ⟨0⟩

def service (name ip : String) : XmlNode :=
  .element "service" [("kind", "baremetal"), ("name", name), ("ip", ip)] []

/-- An experiment with the services, a switch `s` and a link, whose service `a` crashes. -/
def experiment (services : List XmlNode) : List XmlNode :=
  [.element "experiment" [("boot", "kollaps")]
    [.element "services" [] services,
      .element "bridges" [] [.element "bridge" [("name", "s")] []],
      .element "links" [] [.element "link" [("origin", "a"), ("dest", "s"), ("bandwidth", "10Mbps")] []],
      .element "dynamic" []
        [.element "schedule" [("name", "a"), ("time", "5"), ("action", "crash")] []]]]

def twoServices : List XmlNode := experiment [service "a" "10.0.0.1", service "b" "10.0.0.2"]

def sameName : List XmlNode := experiment [service "a" "10.0.0.1", service "a" "10.0.0.2"]

theorem accepted_wellIdentified_two :
    ∃ r, parseDemo twoServices = .ok r ∧
      ∃ b, parseDocument (oneDocument twoServices) (documentText twoServices) = .ok b ∧
        (WellIdentified b (r.1.vertices .inOrder) r.2 ↔ Distinguished b) := by
  have hok : Returns (parseDemo twoServices) fun _ => True := by
    decide +kernel
  obtain ⟨r, hr, -⟩ := hok
  exact ⟨r, hr, accepted_wellIdentified hr .inOrder⟩

/-- Two services of one name leave one, and the switch takes its id. -/
theorem same_name_same_id :
    ∃ r, parseDemo sameName = .ok r ∧
      ∃ b, parseDocument (oneDocument sameName) (documentText sameName) = .ok b ∧
        ¬ WellIdentified b (r.1.vertices .inOrder) r.2 := by
  have hids : Returns (parseDemo sameName) fun r =>
      ¬ ((r.1.vertices .inOrder).map Node.id).Nodup := by
    decide +kernel
  have hdoc : Returns (parseDocument (oneDocument sameName) (documentText sameName)) fun _ => True := by
    decide +kernel
  obtain ⟨r, hr, hids⟩ := hids
  obtain ⟨b, hb, -⟩ := hdoc
  exact ⟨r, hr, b, hb, fun hw => hids hw.ids⟩

end Xmlgraphparser

end Kollaps
