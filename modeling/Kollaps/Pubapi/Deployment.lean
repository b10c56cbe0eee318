import Kollaps.Emulcore.Agreement
import Kollaps.Emulcore.Statuses
import Kollaps.Orchestrator.Refusal
import Kollaps.Orchestrator.Handout
import Kollaps.Pubapi.Rejection
import Kollaps.Xmlgraphparser.Checks
import Kollaps.Xmlgraphparser.Identity

/-!
# From a topology to its cores

The leader parses a topology, places its services and sends the emulation to the hosts of the
placement. Each of these builds a core from what it gets.
-/

namespace Kollaps

open Run Act

/-! ## The network that is sent -/

namespace Orchestrator

variable {ar : Arith} {it : Iter} {o o' : Orchestrator} {id : Uuid} {network network' : Network Node}
  {hosts places : List ClusterNodeInfo} {apps : List Node}

theorem newEmulation_handed (h : o.newEmulation ar it network id = .ok (o', some (network', hosts))) :
    ∃ apps matrix p places, (o'.emulations.lookup id = some (matrix, p) ∧ o'.Places p places) ∧
      apps = (network.vertices it).filter Node.isApp ∧ apps.length = places.length ∧
      network' = (handed apps places).foldl Network.editVertex network ∧
      hosts.Nodup ∧ ∀ x, x ∈ hosts ↔ x ∈ places := by
  obtain ⟨matrix, apps, p, places, hmatrix, hplaced, hhosts, s, hs, rfl⟩ := newEmulation_placed h
  have hstored : o'.emulations.lookup id = some (matrix, p) := by
    rw [hplaced.emulations, KeySet.lookup_put, if_pos rfl]
  have hlocated : o'.Places p places :=
    hplaced.located.congr fun i node hi => by rwa [hplaced.cluster.hostMapping]
  obtain ⟨happs, hn, -⟩ := Network.bandwidthMatrix_ok hmatrix
  have hlen : apps.length = places.length := by
    rw [← hn, ← hplaced.found.length, hplaced.located.length_eq]
  have hisApp : ∀ v ∈ apps, v.isApp = true := fun v hv => (List.mem_filter.mp (happs ▸ hv)).2
  rw [SymMatrix.size, hn] at hs
  exact ⟨apps, matrix, p, places, ⟨hstored, hlocated⟩, happs, hlen,
    (placeApps_returns hplaced.located hisApp hlen network).of_eq hs, hhosts⟩

theorem mem_handed_app (happs : apps = (network.vertices it).filter Node.isApp)
    (hlen : apps.length = places.length) (v : Node) :
    v ∈ handed apps places ↔
      v ∈ ((handed apps places).foldl Network.editVertex network).mapper.elems.map Prod.fst ∧
        v.isApp = true := by
  rw [(apps_handed happs hlen).mem_iff, List.mem_filter]

end Orchestrator

namespace Xmlgraphparser

theorem applications_filter (vertices : List Node) :
    applications (vertices.filter Node.isApp) = applications vertices := by
  unfold applications
  rw [List.filterMap_filter]
  refine List.filterMap_congr fun n _ => ?_
  cases n <;> rfl

theorem mem_applications {vertices : List Node} {a : Application} :
    a ∈ applications vertices ↔ ∃ i, Node.app i a ∈ vertices := by
  unfold applications
  rw [List.mem_filterMap]
  constructor
  · rintro ⟨n, hn, ha⟩
    cases n with
    | app i a' =>
      cases ha
      exact ⟨i, hn⟩
    | bridge i => cases ha
  · rintro ⟨i, hi⟩
    exact ⟨_, hi, rfl⟩

def address : Node → Option (Option IpAddr)
  | .app _ a => some a.ipApp
  | .bridge _ => none

theorem map_applications (vertices : List Node) :
    (applications vertices).map Application.ipApp = vertices.filterMap address := by
  unfold applications
  rw [List.map_filterMap]
  refine List.filterMap_congr fun n _ => ?_
  cases n <;> rfl

theorem applications_handed {apps : List Node} {places : List ClusterNodeInfo}
    (hlen : apps.length = places.length) :
    (applications (Orchestrator.handed apps places)).map Application.ipApp =
      (applications apps).map Application.ipApp := by
  have hplaced : ∀ q : (Node × ClusterNodeInfo) × Nat,
      (address ∘ fun q : (Node × ClusterNodeInfo) × Nat => q.1.1.placedAt q.1.2 q.2) q = address q.1.1 := by
    rintro ⟨⟨n, host⟩, i⟩
    cases n <;> rfl
  rw [map_applications, map_applications, Orchestrator.handed, List.mapIdx_eq_zipIdx_map,
    List.filterMap_map, List.filterMap_congr fun q _ => hplaced q]
  have hfst : apps = ((apps.zip places).zipIdx.map Prod.fst).map Prod.fst := by
    rw [List.zipIdx_map_fst, List.map_fst_zip (by omega)]
  conv_rhs => rw [hfst, List.map_map, List.filterMap_map]
  rfl

/-! ## What the parser reads -/

variable {libs : XmlLibraries} {it : Iter} {text : String} {emulId : Uuid} {net : Network Node}
  {events : List EmulationEvent} {b : Blocks}

theorem addEdgeWithProps_pathStrategy {g g' : Network Node} {source destination : Node} {bandwidth : Nat}
    {latencyJitter : F32 × F32} {drop : F32}
    (h : g.addEdgeWithProps source destination bandwidth latencyJitter drop = .ok g') :
    g'.pathStrategy = g.pathStrategy := by
  unfold Network.addEdgeWithProps at h
  split at h
  · obtain ⟨links, -, h⟩ := of_bind_eq_ok h
    cases h
    rfl
  · cases h
    rfl

theorem parseTopology_shortest (h : parseTopology libs it text emulId = .ok (net, events)) :
    net.pathStrategy = .shortestPath := by
  obtain ⟨b, -, h⟩ := of_bind_eq_ok h
  obtain ⟨nodes, -, h⟩ := of_bind_eq_ok h
  obtain ⟨net₀, hnet, h⟩ := of_bind_eq_ok h
  split at h
  · cases h
  · obtain ⟨net₁, hlinks, h⟩ := of_bind_eq_ok h
    obtain ⟨schedule, -, h⟩ := of_bind_eq_ok h
    cases h
    refine foldlM_ok_inv (fun g : Network Node => g.pathStrategy = .shortestPath) ?_ ?_ hlinks
    · obtain ⟨links, -, h⟩ := of_bind_eq_ok hnet
      cases h
      rfl
    · intro _ _ g g' hg hlink
      obtain ⟨source, destination, bandwidth, latencyJitter, drop, -, hadd⟩ := parseLink_ok hlink
      exact (addEdgeWithProps_pathStrategy hadd).trans hg

theorem parseTopology_identified (h : parseTopology libs it text emulId = .ok (net, events))
    (hb : parseDocument libs text = .ok b) (hd : Distinguished b) :
    WellIdentified b (net.mapper.elems.map Prod.fst) events ∧
      ((applications (net.mapper.elems.map Prod.fst)).map Application.ipApp).Perm
        (b.serviceElements.map addressOf) := by
  obtain ⟨b', nodes, net₀, hb', hnodes, hnet, hmapper, hevents⟩ := parseTopology_ok h
  cases hb.symm.trans hb'
  obtain ⟨ps, qs, he⟩ := parseNodes_ok hnodes
  have hnames := he.names_nodup_iff.mp hd.names
  have hperm := he.vertices_perm hnet hnames
  rw [hmapper]
  refine ⟨(he.wellIdentified_iff hnames hevents hperm).mpr hd, ?_⟩
  rw [← he.applications_eq]
  exact (hperm.filterMap _).map _

end Xmlgraphparser

/-! ## What the hosts build -/

namespace Pubapi

open Emulcore Xmlgraphparser

/-- The emulation has an app for each service. Each host that gets it can build its core, runs some of
the apps and knows the other hosts, and each app runs on one of them. -/
structure Deployed (b : Blocks) (emul : Emulation) (hosts : List ClusterNodeInfo) : Prop where
  built : emul.graph.Built ∧ emul.graph.pathStrategy = .shortestPath
  services : ((applications (emul.graph.mapper.elems.map Prod.fst)).map Application.ipApp).Perm
    (b.serviceElements.map addressOf)
  own : OwnAddress emul.graph
  placed : ∀ host, host ∈ hosts ↔ IsHost emul.graph host
  cores : ∀ host ∈ hosts, ∀ it leader, Returns (new it emul.uuid emul.graph host leader) fun core =>
    (∃ n, Hosted core n) ∧ ∀ x, x ∈ core.otherHosts.elems ↔ x ∈ hosts ∧ x ≠ host
  once : ∀ n, IsNode emul.graph n → ∃! host, host ∈ hosts ∧ ∀ it leader core,
    new it emul.uuid emul.graph host leader = .ok core → Hosted core n
  events : ∀ e ∈ emul.events, ∃! n, IsNode emul.graph n ∧ n.id = e.appId

theorem new_returns {g : Network Node}
    (happs : ∀ i a, Node.app i a ∈ g.mapper.elems.map Prod.fst →
      (∃ host, a.hostOpt = some host) ∧ ∃ ip, a.ipApp = some ip)
    (it : Iter) (uuid : Uuid) (host leader : ClusterNodeInfo) :
    Returns (new it uuid g host leader) fun _ => True := by
  have hall : ∀ n ∈ (g.vertices it).filter Node.isApp, ∃ i a, n = .app i a ∧
      (∃ host, a.hostOpt = some host) ∧ ∃ ip, a.ipApp = some ip := by
    intro n hn
    obtain ⟨hn, happ⟩ := mem_apps.mp hn
    cases n with
    | bridge i => cases happ
    | app i a => exact ⟨i, a, rfl, happs i a hn⟩
  unfold new parseEmulation
  refine Returns.bind (P := fun _ => True) ?_ fun _ _ => (returns_pure _ _).mpr trivial
  refine Returns.bind (P := fun _ => True) ?_ fun _ _ => ?_
  · refine Returns.foldlM_inv (fun _ => True) trivial fun n hn acc _ => ?_
    obtain ⟨i, a, rfl, ⟨host', hopt⟩, -⟩ := hall n hn
    rw [show (Node.app i a).asApp = .ok a from rfl, bind_ok, runsOn_of_hostOpt hopt, bind_ok]
    split
    · exact ⟨_, rfl, trivial⟩
    · rw [show a.host = .ok host' by rw [Application.host, hopt, unwrap_some], bind_ok]
      exact ⟨_, rfl, trivial⟩
  · refine Returns.bind (P := fun _ => True) ?_ fun _ _ => (returns_pure _ _).mpr trivial
    refine Returns.foldlM_inv (fun _ => True) trivial fun n hn acc _ => ?_
    obtain ⟨i, a, rfl, -, ip, hip⟩ := hall n hn
    rw [show (Node.app i a).asApp = .ok a from rfl, bind_ok,
      show a.ipAddr = .ok ip by rw [Application.ipAddr, hip, unwrap_some], bind_ok]
    exact ⟨_, rfl, trivial⟩

theorem hosts_app {core : EmulCore} {i : Nat} {a : Application} {host : ClusterNodeInfo}
    (hopt : a.hostOpt = some host) : core.hosts (.app i a) = .ok (decide (host = core.myself)) := by
  rw [← runsOn_of_hostOpt hopt]
  rfl

theorem ownAddress_of_nodup {g : Network Node}
    (h : ((applications (g.mapper.elems.map Prod.fst)).map Application.ipApp).Nodup) : OwnAddress g := by
  rw [map_applications] at h
  have hpairs := List.pairwise_filterMap.mp h
  have hsymm : Std.Symm fun x y : Node => ∀ b ∈ address x, ∀ b' ∈ address y, b ≠ b' :=
    ⟨fun _ _ hxy b hb b' hb' => (hxy b' hb' b hb).symm⟩
  rintro x y ip ⟨hx, i, a, rfl, ha⟩ ⟨hy, j, a', rfl, ha'⟩
  by_contra hne
  exact hpairs.forall hx hy hne (some ip) (by simp [address, ha]) (some ip) (by simp [address, ha']) rfl

theorem editVertices_built (vs : List Node) {g : Network Node} (h : g.Built) :
    (vs.foldl Network.editVertex g).Built := by
  induction vs generalizing g with
  | nil => exact h
  | cons v vs ih => exact ih (h.editVertex v)

section Placed

variable {ar : Arith} {it : Iter} {uuid : Uuid} {net net' : Network Node} {o o' : Orchestrator}
  {hosts : List ClusterNodeInfo}

/-- The hosts that get the emulation are those of its apps. -/
theorem placed_hosts (hnew : o.newEmulation ar it net uuid = .ok (o', some (net', hosts))) :
    (∀ i a, Node.app i a ∈ net'.mapper.elems.map Prod.fst → ∃ host ∈ hosts, a.hostOpt = some host) ∧
      ∀ host, host ∈ hosts ↔ IsHost net' host := by
  obtain ⟨apps, -, -, places, -, happs, hlen, hnet, -, hmem⟩ := Orchestrator.newEmulation_handed hnew
  have hhanded := Orchestrator.mem_handed_app happs hlen
  rw [← hnet] at hhanded
  have hplaced : ∀ i a, Node.app i a ∈ net'.mapper.elems.map Prod.fst →
      ∃ host ∈ hosts, a.hostOpt = some host := by
    intro i a hin
    obtain ⟨k, hk⟩ := List.mem_iff_getElem?.mp ((hhanded _).mpr ⟨hin, rfl⟩)
    obtain ⟨app, host, -, hhost, hv⟩ := Orchestrator.handed_eq_some.mp hk
    refine ⟨host, (hmem host).mpr (List.mem_of_getElem? hhost), ?_⟩
    cases app with
    | bridge j => cases hv
    | app j a' =>
      cases hv
      rfl
  refine ⟨hplaced, fun host => ⟨fun hin => ?_, ?_⟩⟩
  · obtain ⟨k, hk, hkin⟩ := List.getElem_of_mem ((hmem host).mp hin)
    have happ := List.getElem?_eq_getElem (show k < apps.length by omega)
    have hv : (Orchestrator.handed apps places)[k]? = some (apps[k].placedAt host k) :=
      Orchestrator.handed_eq_some.mpr ⟨_, host, happ, by rw [List.getElem?_eq_getElem hk, hkin], rfl⟩
    obtain ⟨hin', hisApp⟩ := (hhanded _).mp (List.mem_of_getElem? hv)
    cases hn : apps[k] with
    | bridge j =>
      rw [hn] at hisApp
      cases hisApp
    | app j a =>
      rw [hn] at hin'
      exact ⟨j, _, hin', rfl⟩
  · rintro ⟨i, a, hin, hopt⟩
    obtain ⟨host', hin', hopt'⟩ := hplaced i a hin
    rwa [← Option.some.inj (hopt.symm.trans hopt')] at hin'

theorem placed_addresses (hnew : o.newEmulation ar it net uuid = .ok (o', some (net', hosts))) :
    ((applications (net'.mapper.elems.map Prod.fst)).map Application.ipApp).Perm
      ((applications (net.mapper.elems.map Prod.fst)).map Application.ipApp) := by
  obtain ⟨apps, -, -, places, -, happs, hlen, hnet, -⟩ := Orchestrator.newEmulation_handed hnew
  have hperm := Orchestrator.apps_handed happs hlen
  rw [← hnet] at hperm
  rw [← applications_filter]
  refine ((hperm.symm.filterMap _).map _).trans ?_
  show ((applications _).map Application.ipApp).Perm _
  rw [applications_handed hlen, happs, applications_filter]
  exact List.Perm.map _ (List.Perm.filterMap _ ((it.perm _).map _))

theorem placed_app (hnew : o.newEmulation ar it net uuid = .ok (o', some (net', hosts))) {i : Nat}
    {a : Application} (hin : Node.app i a ∈ net.mapper.elems.map Prod.fst) :
    ∃ n, IsNode net' n ∧ n.id = i := by
  obtain ⟨apps, -, -, places, -, happs, hlen, hnet, -⟩ := Orchestrator.newEmulation_handed hnew
  have hhanded := Orchestrator.mem_handed_app happs hlen
  rw [← hnet] at hhanded
  obtain ⟨k, hk, hkin⟩ := List.getElem_of_mem (show Node.app i a ∈ apps from happs ▸ mem_apps.mpr ⟨hin, rfl⟩)
  have hv : (Orchestrator.handed apps places)[k]? = some ((Node.app i a).placedAt places[k] k) :=
    Orchestrator.handed_eq_some.mpr ⟨_, _, by rw [List.getElem?_eq_getElem hk, hkin],
      List.getElem?_eq_getElem (by omega), rfl⟩
  exact ⟨_, (hhanded _).mp (List.mem_of_getElem? hv), rfl⟩

theorem placed_deployed {libs : XmlLibraries} {it' : Iter} {text : String} {events : List EmulationEvent}
    {b : Blocks} (hparse : parseTopology libs it' text uuid = .ok (net, events))
    (hb : parseDocument libs text = .ok b) (hd : Distinguished b)
    (hnew : o.newEmulation ar it net uuid = .ok (o', some (net', hosts))) :
    Deployed b ⟨uuid, net', events⟩ hosts := by
  obtain ⟨hwell, hread⟩ := parseTopology_identified hparse hb hd
  obtain ⟨hplaced, hhosts⟩ := placed_hosts hnew
  have hservices := (placed_addresses hnew).trans hread
  have haddressed : ∀ i a, Node.app i a ∈ net'.mapper.elems.map Prod.fst → ∃ ip, a.ipApp = some ip := by
    intro i a hin
    have ha := (placed_addresses hnew).mem_iff.mp (List.mem_map_of_mem (mem_applications.mpr ⟨i, hin⟩))
    obtain ⟨a', ha', heq⟩ := List.mem_map.mp ha
    exact Option.ne_none_iff_exists'.mp (heq ▸ hwell.addressed a' ha')
  have hreturns := new_returns fun i a hin =>
    ⟨(hplaced i a hin).imp fun _ h => h.2, haddressed i a hin⟩
  refine ⟨⟨?_, ?_⟩, hservices, ownAddress_of_nodup (hservices.nodup_iff.mpr hd.addresses), hhosts,
    ?_, ?_, ?_⟩
  · obtain ⟨apps, -, -, places, -, -, -, rfl, -⟩ := Orchestrator.newEmulation_handed hnew
    exact editVertices_built _ (parseTopology_built hparse)
  · obtain ⟨apps, -, -, places, -, -, -, rfl, -⟩ := Orchestrator.newEmulation_handed hnew
    exact (Network.foldl_editVertex_pathStrategy _ _).trans (parseTopology_shortest hparse)
  · intro host hin it leader
    obtain ⟨core, hcore, -⟩ := hreturns it uuid host leader
    obtain ⟨hc, hmyself⟩ := new_inv hcore
    refine ⟨core, hcore, ?_, fun x => ?_⟩
    · obtain ⟨i, a, hin', hopt⟩ := (hhosts host).mp hin
      refine ⟨.app i a, hc.graph ▸ hin', ?_⟩
      rw [hosts_app hopt, hmyself, decide_eq_true rfl]
    · rw [hc.others, hmyself, hhosts]
  · rintro n ⟨hin, hisApp⟩
    cases n with
    | bridge i => cases hisApp
    | app i a =>
      obtain ⟨host, hhost, hopt⟩ := hplaced i a hin
      refine ⟨host, ⟨hhost, fun it leader core hcore => ?_⟩, fun other ⟨hother, hruns⟩ => ?_⟩
      · obtain ⟨hc, hmyself⟩ := new_inv hcore
        refine ⟨hc.graph ▸ hin, ?_⟩
        rw [hosts_app hopt, hmyself, decide_eq_true rfl]
      · obtain ⟨core, hcore, -⟩ := hreturns .inOrder uuid other other
        have hhere := (hruns .inOrder other core hcore).2
        rw [hosts_app hopt, (new_inv hcore).2] at hhere
        exact (of_decide_eq_true (Except.ok.inj hhere)).symm
  · intro e he
    obtain ⟨a, ha⟩ := hwell.events e he
    obtain ⟨n, hn, hid⟩ := placed_app hnew ha
    exact ⟨n, ⟨hn, hid⟩, fun n' ⟨hn', hid'⟩ => eq_of_nodeId hn' hn (hid'.trans hid.symm)⟩

end Placed

/-! ## What the leader does -/

theorem sendAll_reached {env : Env} (m : OManager) (emul : Emulation) {nodes : List ClusterNodeInfo}
    (h : nodes.all env.reaches = true) (sent : List ClusterNodeInfo) :
    OManager.sendAll env m emul sent nodes =
      ⟨nodes.map fun n => .send n (.experimentNew m.myInfoOmanager emul), .ok true⟩ := by
  induction nodes generalizing sent with
  | nil => rfl
  | cons n rest ih =>
    rw [List.all_cons, Bool.and_eq_true] at h
    unfold OManager.sendAll
    rw [OManager.sendTo_eq, h.1, Act.bind_of_ok rfl, if_pos rfl, ih h.2]
    rfl

theorem sendAll_sends (env : Env) (m : OManager) (emul : Emulation) (nodes sent : List ClusterNodeInfo) :
    ∀ e ∈ (OManager.sendAll env m emul sent nodes).log, ∀ answer, e ≠ .reply answer := by
  induction nodes generalizing sent with
  | nil => exact List.forall_mem_nil _
  | cons n rest ih =>
    unfold OManager.sendAll
    rw [OManager.sendTo_eq]
    refine forall_log_bind ?_ fun reached _ => ?_
    · split <;> simp
    · split
      · exact ih _
      · dsimp only
        split
        · refine forall_log_bind ?_ fun _ _ => List.forall_mem_nil _
          rw [OManager.forM_sendTo fun n => n]
          rintro e he answer rfl
          simp at he
        · exact List.forall_mem_nil _

theorem reject_not_accepted (reason : TopologyRejectReason) (m : OManager) :
    .reply (some .accepted) ∉ (do OManager.reject reason; pure m : Act Effect OManager).log := by
  show _ ∉ [Effect.reply (some (.rejected reason))]
  simp

/-- An accepted topology has been placed, and every host of the placement was reached. -/
theorem accepted_placed {env : Env} {m : OManager} {uuid : Uuid} {top : String}
    (haccept : .reply (some .accepted) ∈ (m.onNewTopology env uuid top).log) :
    ∃ network events o network' hosts, env.parseTopology top uuid = .ok (network, events) ∧
      m.orchestrator.newEmulation env.ar env.it network uuid = .ok (o, some (network', hosts)) ∧
      (m.onNewTopology env uuid top).log =
        hosts.map (fun n => .send n (.experimentNew m.myInfoOmanager ⟨uuid, network', events⟩)) ++
          [.reply (some .accepted)] := by
  unfold OManager.onNewTopology at haccept ⊢
  cases hparse : env.parseTopology top uuid with
  | error e =>
    rw [hparse] at haccept
    cases e with
    | err reason => exact absurd haccept (reject_not_accepted _ _)
    | _ => cases haccept
  | ok r =>
    obtain ⟨network, events⟩ := r
    rw [hparse] at haccept
    dsimp only at haccept ⊢
    cases hplace : m.orchestrator.newEmulation env.ar env.it network uuid with
    | error e =>
      rw [hplace] at haccept
      cases e with
      | err reason => exact absurd haccept (reject_not_accepted _ _)
      | _ => cases haccept
    | ok r =>
      obtain ⟨o, _ | ⟨network', hosts⟩⟩ := r
      · rw [hplace] at haccept
        exact absurd haccept (reject_not_accepted _ _)
      · refine ⟨network, events, o, network', hosts, rfl, hplace, ?_⟩
        rw [hplace] at haccept
        unfold OManager.onPlacement OManager.sendNewEmulation at haccept ⊢
        dsimp only at haccept ⊢
        cases hreached : hosts.all env.reaches with
        | true =>
          rw [sendAll_reached _ _ hreached, Act.bind_of_ok rfl]
          rfl
        | false =>
          obtain ⟨log, hsent, -⟩ := OManager.sendAll_spec env { m with
            orchestrator := o
            emulationsAndTheirNodes := m.emulationsAndTheirNodes.put uuid
              (hosts.foldl (fun acc n => acc.put n false) KeySet.empty) } ⟨uuid, network', events⟩ hosts []
          have hsends := sendAll_sends env { m with
            orchestrator := o
            emulationsAndTheirNodes := m.emulationsAndTheirNodes.put uuid
              (hosts.foldl (fun acc n => acc.put n false) KeySet.empty) } ⟨uuid, network', events⟩ hosts []
          rw [hsent] at hsends
          rw [hsent, hreached, Act.bind_of_ok rfl] at haccept
          rcases List.mem_append.mp haccept with hin | hin
          · exact absurd rfl (hsends _ hin _)
          · exact absurd hin (reject_not_accepted _ _)

/-- A topology that is accepted is placed, and goes to the hosts of its placement, once to each. They
deploy it when the document tells its nodes apart. -/
theorem accepted_deployed {libs : XmlLibraries} {env : Env} {m : OManager} {uuid : Uuid} {top : String}
    (hparser : env.parseTopology = parseTopology libs env.it)
    (haccept : .reply (some .accepted) ∈ (m.onNewTopology env uuid top).log) :
    ∃ b network o emul hosts, parseDocument libs top = .ok b ∧
      parseTopology libs env.it top uuid = .ok (network, emul.events) ∧
      m.orchestrator.newEmulation env.ar env.it network uuid = .ok (o, some (emul.graph, hosts)) ∧
      emul.uuid = uuid ∧ hosts.Nodup ∧
      (m.onNewTopology env uuid top).log =
        hosts.map (fun n => .send n (.experimentNew m.myInfoOmanager emul)) ++ [.reply (some .accepted)] ∧
      (Distinguished b → Deployed b emul hosts) := by
  obtain ⟨network, events, o, network', hosts, hparse, hplace, hlog⟩ := accepted_placed haccept
  rw [hparser] at hparse
  obtain ⟨b, nodes, net₀, hb, -⟩ := parseTopology_ok hparse
  obtain ⟨-, -, -, -, -, -, -, -, hnodup, -⟩ := Orchestrator.newEmulation_handed hplace
  exact ⟨b, network, o, ⟨uuid, network', events⟩, hosts, hb, hparse, hplace, rfl, hnodup, hlog,
    fun hd => placed_deployed hparse hb hd hplace⟩

def linkedEnv : Env :=
  { demoEnv 0 [] with parseTopology := parseTopology (oneDocument Orchestrator.linkedServices) .inOrder }

def linkedText : String := documentText Orchestrator.linkedServices

/-- The leader of three hosts that take one app each. -/
def linkedManager : Run OManager := do
  OManager.build .inOrder (demoHost 0 9090) 9091 9092 (← demoCluster 3 20000) 1

def isAcceptance : Effect → Bool
  | .reply (some .accepted) => true
  | _ => false

theorem accepted_of_any {log : List Effect} (h : log.any isAcceptance = true) :
    .reply (some .accepted) ∈ log := by
  obtain ⟨e, he, hacc⟩ := List.any_eq_true.mp h
  cases e with
  | send n message => cases hacc
  | reply answer =>
    cases answer with
    | none => cases hacc
    | some message =>
      cases message with
      | accepted => exact he
      | _ => cases hacc

theorem accepted_deployed_linked : Returns linkedManager fun m => ∃ b emul hosts,
    (m.onNewTopology linkedEnv ⟨0⟩ linkedText).log =
      hosts.map (fun n => .send n (.experimentNew m.myInfoOmanager emul)) ++ [.reply (some .accepted)] ∧
    Deployed b emul hosts ∧ b.serviceElements.length = 2 ∧ hosts.length = 2 := by
  obtain ⟨m, hm, haccept, hlen⟩ : Returns linkedManager fun m =>
      (m.onNewTopology linkedEnv ⟨0⟩ linkedText).log.any isAcceptance = true ∧
        (m.onNewTopology linkedEnv ⟨0⟩ linkedText).log.length = 3 := by
    decide +kernel
  obtain ⟨b, -, -, emul, hosts, hb, -, -, -, -, hlog, hdeployed⟩ :=
    @accepted_deployed (oneDocument Orchestrator.linkedServices) linkedEnv m ⟨0⟩ linkedText rfl
      (accepted_of_any haccept)
  obtain ⟨b', hb', hservices, hnames, haddressed, haddresses, hscheduled⟩ :
      Returns (parseDocument (oneDocument Orchestrator.linkedServices) linkedText) fun b =>
        b.serviceElements.length = 2 ∧
        ((b.serviceElements ++ b.bridgeElements).map fun x => x.attr "name").Nodup ∧
        (∀ s ∈ b.serviceElements, s.hasAttribute "ip" = true) ∧
        (b.serviceElements.map addressOf).Nodup ∧ b.schedules = [] := by
    decide +kernel
  cases hb.symm.trans hb'
  refine ⟨m, hm, b, emul, hosts, hlog, hdeployed ⟨hnames, haddressed, haddresses, ?_⟩, hservices, ?_⟩
  · rw [hscheduled]
    exact List.forall_mem_nil _
  · rw [hlog, List.length_append, List.length_map] at hlen
    exact Nat.succ_injective hlen

end Pubapi

end Kollaps
