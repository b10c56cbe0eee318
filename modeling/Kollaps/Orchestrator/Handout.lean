import Kollaps.Orchestrator.Runs

/-!
# What a new emulation hands out

The matrix, the apps, their placement and the edits of the network all follow one order of the
apps, that in which the mapper gave them. So the index that an app carries is its row in the
matrix that is kept.
-/

namespace Kollaps

open Run

namespace Node

/-- An app with its host and its index. -/
def placedAt (n : Node) (host : ClusterNodeInfo) (index : Nat) : Node :=
  match n with
  | .app id a => .app id { a with hostOpt := some host, indexOpt := some index }
  | .bridge id => .bridge id

variable {n : Node}

@[simp] theorem id_placedAt (n : Node) (host : ClusterNodeInfo) (index : Nat) :
    Vertex.id (n.placedAt host index) = Vertex.id n := by
  cases n <;> rfl

@[simp] theorem isApp_placedAt (n : Node) (host : ClusterNodeInfo) (index : Nat) :
    (n.placedAt host index).isApp = n.isApp := by
  cases n <;> rfl

theorem setPlace_eq (h : n.isApp = true) (host : ClusterNodeInfo) (index : Nat) :
    n.setPlace host index = .ok (n.placedAt host index) := by
  cases n with
  | app id a => rfl
  | bridge id => cases h

end Node

namespace Orchestrator

variable {ar : Arith} {it : Iter} {o o' : Orchestrator} {id : Uuid} {p : List Nat}
  {apps : List Node} {places : List ClusterNodeInfo}

/-! ## The edits -/

def handed (apps : List Node) (places : List ClusterNodeInfo) : List Node :=
  (apps.zip places).mapIdx fun i q => q.1.placedAt q.2 i

theorem handed_eq_some {i : Nat} {v : Node} : (handed apps places)[i]? = some v ↔
    ∃ app host, apps[i]? = some app ∧ places[i]? = some host ∧ app.placedAt host i = v := by
  rw [handed, List.getElem?_mapIdx, Option.map_eq_some_iff]
  simp only [List.getElem?_zip_eq_some, Prod.exists]
  exact ⟨fun ⟨app, host, h, hv⟩ => ⟨app, host, h.1, h.2, hv⟩,
    fun ⟨app, host, h, h', hv⟩ => ⟨app, host, ⟨h, h'⟩, hv⟩⟩

theorem length_handed (hlen : apps.length = places.length) : (handed apps places).length = apps.length := by
  rw [handed, List.length_mapIdx, List.length_zip, hlen, Nat.min_self]

theorem ids_handed (hlen : apps.length = places.length) :
    (handed apps places).map Vertex.id = apps.map Vertex.id := by
  refine List.ext_getElem (by simp [length_handed hlen]) fun i hi _ => ?_
  simp [handed]

theorem isApp_handed (happs : ∀ v ∈ apps, v.isApp = true) : ∀ v ∈ handed apps places, v.isApp = true := by
  intro v hv
  obtain ⟨i, hi⟩ := List.mem_iff_getElem?.mp hv
  obtain ⟨app, host, happ, -, rfl⟩ := handed_eq_some.mp hi
  rw [Node.isApp_placedAt]
  exact happs app (List.mem_of_getElem? happ)

theorem placeApps_returns (hplaces : o.Places p places) (happs : ∀ v ∈ apps, v.isApp = true)
    (hlen : apps.length = places.length) (network : Network Node) :
    Returns (forRange apps.length (o, network, apps, KeySet.empty) (placeApp id p)) fun s =>
      s.2.1 = (handed apps places).foldl Network.editVertex network := by
  have hhanded := length_handed hlen
  refine (Returns.forRange (fun i s => s.1.hostMapping = o.hostMapping ∧
    s.2.1 = ((handed apps places).take i).foldl Network.editVertex network ∧
    s.2.2.1 = (handed apps places).take i ++ apps.drop i) ⟨rfl, rfl, rfl⟩ ?_).mono fun s hs => ?_
  · rintro i ⟨o₁, network₁, nodes₁, affected₁⟩ hi ⟨hmap, hnetwork, hnodes⟩
    simp only at hmap hnetwork hnodes
    have hip : i < p.length := by rw [hplaces.length_eq]; omega
    have hplace : o.hostMapping[p[i]]? = some places[i] := hplaces.get hip (by omega)
    have hnext : (handed apps places)[i]? = some (apps[i].placedAt places[i] i) :=
      handed_eq_some.mpr ⟨_, _, List.getElem?_eq_getElem hi, List.getElem?_eq_getElem (by omega), rfl⟩
    have htake : ((handed apps places).take i).length = i := by
      rw [List.length_take]
      omega
    have hnode : nodes₁[i]? = some apps[i] := by
      rw [hnodes, List.getElem?_append_right (by omega), htake, Nat.sub_self, List.getElem?_drop,
        Nat.add_zero, List.getElem?_eq_getElem hi]
    have hlt := (List.getElem?_eq_some_iff.mp hnode).1
    unfold placeApp
    simp only [get_eq hip, bind_ok, get_eq_ok.mpr (hmap ▸ hplace), get_eq_ok.mpr hnode,
      Node.setPlace_eq (happs _ (List.getElem_mem hi)), set_eq hlt]
    rw [returns_pure]
    refine ⟨hmap, ?_, ?_⟩
    · rw [List.take_add_one, hnext, List.foldl_append, ← hnetwork]
      rfl
    · rw [List.take_add_one, hnext, hnodes, List.drop_eq_getElem_cons hi,
        List.set_append_right _ _ (by omega),
        htake, Nat.sub_self, List.set_cons_zero]
      simp
  · rw [hs.2.1, ← hhanded, List.take_length]

/-! ## What is handed out -/

def InPlace (o : Orchestrator) (p : List Nat) (apps : List Node) : Prop :=
  ∀ (i : Nat) v, apps[i]? = some v → ∃ vertex a host place, v = Node.app vertex a ∧ a.indexOpt = some i ∧
    p[i]? = some host ∧ o.hostMapping[host]? = some place ∧ a.hostOpt = some place

/-- The matrix has the bandwidth between the apps with two indices, and this is what a stop of one of
them gives back between their hosts. -/
def Charged (network : Network Node) (matrix : SymMatrix Nat) (p : List Nat) (apps : List Node) : Prop :=
  ∀ i j a b, i < j → apps[i]? = some a → apps[j]? = some b → ∃ w host other,
    network.bandwidthBetween a b = .ok (some w) ∧ p[i]? = some host ∧ p[j]? = some other ∧
    matrix.index i j = .ok w ∧ matrix.index j i = .ok w ∧
    ∀ ar r, release ar matrix p i j r = r.addAt ar host other w ∧
      release ar matrix p j i r = r.addAt ar other host w

/-- The answer to a new emulation, beside what is kept of it: the apps in the order of their indices. -/
structure HandsOut (o : Orchestrator) (network network' : Network Node) (hosts : List ClusterNodeInfo)
    (matrix : SymMatrix Nat) (p : List Nat) (apps : List Node) : Prop where
  vertices : ∀ v, network'.map v = network.map v
  links : network'.links = network.links
  pathStrategy : network'.pathStrategy = network.pathStrategy
  all : apps.Perm ((network'.mapper.elems.map Prod.fst).filter Node.isApp)
  length : apps.length = matrix.n ∧ p.length = matrix.n
  inPlace : InPlace o p apps
  hosts : hosts.Nodup ∧ ∀ x, x ∈ hosts ↔ ∃ host ∈ p, o.hostMapping[host]? = some x
  charged : Charged network matrix p apps

theorem Places.mem_iff (h : o.Places p places) (x : ClusterNodeInfo) :
    x ∈ places ↔ ∃ host ∈ p, o.hostMapping[host]? = some x := by
  constructor
  · intro hx
    obtain ⟨i, hi, rfl⟩ := List.getElem_of_mem hx
    have hip : i < p.length := by rw [h.length_eq]; exact hi
    exact ⟨p[i], List.getElem_mem hip, h.get hip hi⟩
  · rintro ⟨host, hhost, hx⟩
    obtain ⟨i, hi, rfl⟩ := List.getElem_of_mem hhost
    have hip : i < places.length := by rw [← h.length_eq]; exact hi
    have hplace : places[i] = x := Option.some.inj ((h.get hi hip).symm.trans hx)
    exact hplace ▸ List.getElem_mem hip

/-- The vertices of the edited network that are apps are the edited ones. -/
theorem apps_handed {network : Network Node} (happs : apps = (network.vertices it).filter Node.isApp)
    (hlen : apps.length = places.length) : (handed apps places).Perm
      ((((handed apps places).foldl Network.editVertex network).mapper.elems.map Prod.fst).filter
        Node.isApp) := by
  have hids : ((handed apps places).map Vertex.id).Nodup := by
    rw [ids_handed hlen, happs]
    exact (Network.nodup_vertices it network).sublist (List.filter_sublist.map _)
  have hkeys := ((handed apps places).foldl Network.editVertex network).mapper.nodup
  have hvertices : ((((handed apps places).foldl Network.editVertex network).mapper.elems).map
      Prod.fst).Nodup := by
    refine List.Nodup.of_map Vertex.id ?_
    rwa [List.map_map]
  have hisApp : ∀ v ∈ handed apps places, v.isApp = true :=
    isApp_handed fun v hv => (List.mem_filter.mp (happs ▸ hv)).2
  refine (List.perm_ext_iff_of_nodup (List.Nodup.of_map Vertex.id hids) (hvertices.filter _)).mpr fun v => ?_
  rw [List.mem_filter, Network.mem_foldl_editVertex hids]
  have hsame : ∀ v : Node, (∃ u ∈ handed apps places, Vertex.id u = Vertex.id v) ↔
      ∃ u ∈ apps, Vertex.id u = Vertex.id v := fun v => by
    rw [← List.mem_map, ← List.mem_map, ids_handed hlen]
  constructor
  · intro hv
    obtain ⟨u, hu, hid⟩ := (hsame v).mp ⟨v, hv, rfl⟩
    obtain ⟨i, hi⟩ := Network.map_of_mem_vertices (List.mem_filter.mp (happs ▸ hu)).1
    exact ⟨Or.inl ⟨hv, i, (network.map_congr hid.symm).trans hi⟩, hisApp v hv⟩
  · rintro ⟨⟨hv, -⟩ | ⟨hv, hother⟩, happ⟩
    · exact hv
    · -- An app that no edit was about would be one of the apps.
      have hmem : v ∈ apps := happs ▸ List.mem_filter.mpr ⟨Network.mem_vertices.mpr hv, happ⟩
      obtain ⟨u, hu, hid⟩ := (hsame v).mpr ⟨v, hmem, rfl⟩
      exact absurd hid (hother u hu)

theorem inPlace_handed (hplaces : o.Places p places) (happs : ∀ v ∈ apps, v.isApp = true) :
    InPlace o p (handed apps places) := by
  intro i v hv
  obtain ⟨app, place, happ, hplace, rfl⟩ := handed_eq_some.mp hv
  obtain ⟨hi, rfl⟩ := List.getElem?_eq_some_iff.mp hplace
  have hip : i < p.length := by rw [hplaces.length_eq]; exact hi
  have hisApp := happs app (List.mem_of_getElem? happ)
  cases app with
  | bridge id => cases hisApp
  | app id a => exact ⟨id, _, p[i], places[i], rfl, rfl, List.getElem?_eq_getElem hip,
    hplaces.get hip hi, rfl⟩

theorem charged_handed {network : Network Node} {matrix : SymMatrix Nat}
    (hmatrix : network.bandwidthMatrix it Node.isApp = .ok (matrix, apps)) (hlen : p.length = matrix.n) :
    Charged network matrix p (handed apps places) := by
  obtain ⟨-, hn, hentry⟩ := Network.bandwidthMatrix_ok hmatrix
  intro i j a b hlt ha hb
  obtain ⟨app, place, happ, -, rfl⟩ := handed_eq_some.mp ha
  obtain ⟨app', place', happ', -, rfl⟩ := handed_eq_some.mp hb
  have hj : j < matrix.n := hn ▸ (List.getElem?_eq_some_iff.mp happ').1
  have hi : i < matrix.n := by omega
  have hip := List.getElem?_eq_getElem (show i < p.length by omega)
  have hjp := List.getElem?_eq_getElem (show j < p.length by omega)
  refine ⟨matrix.entry i j, p[i], p[j], ?_, hip, hjp, matrix.index_eq hi hj, ?_, fun ar r => ⟨?_, ?_⟩⟩
  · rw [network.bandwidthBetween_congr (Node.id_placedAt app place i) (Node.id_placedAt app' place' j)]
    exact hentry i j app app' hlt happ happ'
  · rw [matrix.index_eq hj hi, matrix.entry_comm]
  · rw [release_eq hlen hi hj (by omega)]
    simp [cellOf, hip, hjp]
  · rw [release_eq hlen hj hi (by omega)]
    simp [cellOf, hip, hjp, matrix.entry_comm]

/-- What a new emulation hands out is what is kept of it: the same vertices and links, the apps with
indices of their own and the hosts of their places, each of these hosts once, and under the index of
an app the bandwidth that it asks for. -/
theorem handed_out {network network' : Network Node} {hosts : List ClusterNodeInfo}
    (h : o.newEmulation ar it network id = .ok (o', some (network', hosts))) :
    ∃ matrix p apps, o'.emulations.lookup id = some (matrix, p) ∧
      HandsOut o network network' hosts matrix p apps := by
  obtain ⟨matrix, apps, p, places, hmatrix, hplaced, ⟨hnodup, hmem⟩, s, hs, rfl⟩ := newEmulation_placed h
  obtain ⟨happs, hn, -⟩ := Network.bandwidthMatrix_ok hmatrix
  have hplaces := hplaced.located
  have hlen : apps.length = places.length := by
    rw [← hn, ← hplaced.found.length, hplaces.length_eq]
  have hisApp : ∀ v ∈ apps, v.isApp = true := fun v hv => (List.mem_filter.mp (happs ▸ hv)).2
  rw [SymMatrix.size, hn] at hs
  have hnetwork := (placeApps_returns hplaces hisApp hlen network).of_eq hs
  refine ⟨matrix, p, handed apps places, ?_, ?_⟩
  · rw [hplaced.emulations, KeySet.lookup_put, if_pos rfl]
  · rw [hnetwork]
    exact
      { vertices := network.foldl_editVertex_map _
        links := network.foldl_editVertex_links _
        pathStrategy := network.foldl_editVertex_pathStrategy _
        all := apps_handed happs hlen
        length := ⟨(length_handed hlen).trans hn.symm, hplaced.found.length⟩
        inPlace := inPlace_handed hplaces hisApp
        hosts := ⟨hnodup, fun x => (hmem x).trans (hplaces.mem_iff x)⟩
        charged := charged_handed hmatrix hplaced.found.length }

theorem handed_out_demo : ∃ (o : Orchestrator) (network network' : Network Node)
    (hosts : List ClusterNodeInfo),
    hosts.length = 2 ∧ ∃ matrix p apps, HandsOut o network network' hosts matrix p apps := by
  obtain ⟨graph, -, o, -, network, -, ⟨o', answer⟩, hnew, hsome⟩ :
      Returns (demoCluster [0, 1] 1000) fun graph =>
        Returns (Orchestrator.new .inOrder graph 9092 1) fun o =>
          Returns (demoTopology 2 100) fun network =>
            Returns (o.newEmulation .checked .inOrder network ⟨1⟩) fun r =>
              r.2.map (fun answer => answer.2.length) = some 2 := by
    decide +kernel
  obtain ⟨⟨network', hosts⟩, rfl, hlen⟩ := Option.map_eq_some_iff.mp hsome
  obtain ⟨matrix, p, apps, -, h⟩ := handed_out hnew
  exact ⟨o, network, network', hosts, hlen, matrix, p, apps, h⟩

end Orchestrator

end Kollaps
