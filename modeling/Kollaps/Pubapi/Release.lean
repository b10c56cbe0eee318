import Kollaps.Emulcore.Lifecycle
import Kollaps.Orchestrator.Changes
import Kollaps.Pubapi.Deployment
import Kollaps.Pubapi.Survival

/-!
# The leader follows the crashes

Each host tells the leader when one of its apps crashes, and the leader gives back what the app had.
The messages of the hosts come in any order, and other calls come between them.
-/

namespace Kollaps

open Run Act

namespace Emulcore

/-! ## What a core reports -/

@[ext]
structure Report where
  emulId : Uuid
  host : ClusterNodeInfo
  index : Nat
deriving DecidableEq

def Effect.report : Effect → Option Report
  | .cleanStop _ _ emulId host index => some ⟨emulId, host, index⟩
  | _ => none

def reportOf (core : EmulCore) : Node → Option Report
  | .app _ a => a.indexOpt.map (⟨core.emulId, core.myself, ·⟩)
  | .bridge _ => none

/-- The reports of the apps of a core that have not arrived. -/
def awaited (core : EmulCore) (apps : AppMap) (arrivals : List Report) : List Report :=
  ((nodesOf apps).filterMap (reportOf core)).filter (· ∉ arrivals)

theorem stopAppIfNecessary_report (node : Node) :
    (stopAppIfNecessary node).log.filterMap Effect.report = [] := by
  cases node with
  | bridge id => rfl
  | app id app =>
    obtain ⟨ip, host, name, kind, index⟩ := app
    cases kind with
    | bareMetal => rfl
    | container config =>
      obtain ⟨name, id, imageCommand⟩ := config
      cases imageCommand <;> rfl

theorem reports_atCrash (core : EmulCore) : AtCrash core Effect.report (reportOf core) := by
  refine atCrash_of (fun _ _ => rfl) (fun _ _ _ => rfl) fun node index hnode hindex => ?_
  rw [List.filterMap_append, stopAppIfNecessary_report, List.nil_append]
  cases node with
  | bridge id => cases hnode.2
  | app id app =>
    have hopt : app.indexOpt = some index := unwrap_eq_ok.mp hindex
    show _ = (app.indexOpt.map _).toList
    rw [hopt]
    rfl

theorem Course.coreInv {ar : Arith} {g : Network Node} {core : EmulCore}
    {ok : List EmulMessage → EmulMessage → Prop} {messages : List EmulMessage} {c : Config}
    (h : Course ar g core ok messages c) : CoreInv g core := by
  induction h with
  | init hinit =>
    cases hinit with
    | mk it hnew happs => exact (new_inv hnew).1
  | message _ _ _ ih => exact ih

theorem living_eq_nil {core : EmulCore} {messages : List EmulMessage} {apps : AppMap}
    (h : StatusInv core messages apps) :
    living apps = [] ↔ ∀ n, Hosted core n → statusAfter messages n = .crashed := by
  rw [List.eq_nil_iff_forall_not_mem]
  refine forall_congr' fun n => ?_
  unfold living
  rw [mem_nodesOf, ← h.nodes]
  simp only [KeySet.elems_filter, List.mem_filter, decide_eq_true_eq, not_exists, not_and, not_not]
  constructor
  · intro hall hn
    obtain ⟨status, hin⟩ := mem_nodesOf.mp hn
    exact (h.status _ hin).symm.trans (hall status hin)
  · intro hcrashed status hin
    exact (h.status _ hin).trans (hcrashed (mem_nodesOf.mpr ⟨status, hin⟩))

end Emulcore

namespace Pubapi

open Emulcore Orchestrator

/-! ## The cores of an emulation -/

/-- The cores of the hosts that got an emulation, each somewhere in a run that has not failed and in
which no event follows the crash of its app. -/
structure Cores (ar : Arith) (id : Uuid) (graph : Network Node) (hosts : List ClusterNodeInfo) where
  core : ClusterNodeInfo → EmulCore
  messages : ClusterNodeInfo → List EmulMessage
  config : ClusterNodeInfo → Config
  loop : ClusterNodeInfo → Loop
  emulId : ∀ host ∈ hosts, (core host).emulId = id
  myself : ∀ host ∈ hosts, (core host).myself = host
  course : ∀ host ∈ hosts, Course ar graph (core host) (fun _ _ => True) (messages host) (config host)
  running : ∀ host ∈ hosts, (config host).phase.loop = some (loop host)
  final : ∀ host ∈ hosts, FinalCrash (messages host)

def Cores.sent {ar : Arith} {id : Uuid} {graph : Network Node} {hosts : List ClusterNodeInfo}
    (cores : Cores ar id graph hosts) : List Report :=
  hosts.flatMap fun host => (cores.config host).log.filterMap Effect.report

/-- The leader handles reports, in this order, and calls about other emulations between them. -/
inductive Leads (ar : Arith) (id : Uuid) (w₀ : Orchestrator.World) :
    List Report → Orchestrator.World → Prop
  | start : Leads ar id w₀ [] w₀
  | other {arrivals : List Report} {w w' : Orchestrator.World} (h : Leads ar id w₀ arrivals w)
      (hs : Orchestrator.Step ar w w') (hsame : w'.deployed.lookup id = w.deployed.lookup id) :
      Leads ar id w₀ arrivals w'
  | report {arrivals : List Report} {w : Orchestrator.World} {env : Env} {m m' : OManager} {r : Report}
      {d : Deployment} (h : Leads ar id w₀ arrivals w) (har : env.ar = ar)
      (hm : m.orchestrator = w.orchestrator)
      (hd : w.deployed.lookup r.emulId = some d)
      (hr : (m.onCleanStop env r.emulId r.host r.index).result = .ok m') :
      Leads ar id w₀ (arrivals ++ [r]) ⟨m'.orchestrator, w.deployed.put r.emulId (d.stop r.index)⟩

section Placed

variable {ar ar' : Arith} {it : Iter} {id : Uuid} {network graph : Network Node}
  {hosts : List ClusterNodeInfo}
  {apps : List Node} {places : List ClusterNodeInfo} (cores : Cores ar id graph hosts)
  {host : ClusterNodeInfo} {n : Node} {r : Report}

theorem Cores.hosted_of_handed (happs : apps = (network.vertices it).filter Node.isApp)
    (hlen : apps.length = places.length)
    (hgraph : graph = (handed apps places).foldl Network.editVertex network) (hhost : host ∈ hosts) {i : Nat}
    (hi : (handed apps places)[i]? = some n) (hx : places[i]? = some host) :
    Hosted (cores.core host) n ∧ reportOf (cores.core host) n = some ⟨id, host, i⟩ := by
  have hhanded := mem_handed_app happs hlen
  rw [← hgraph] at hhanded
  obtain ⟨hnode, hisApp⟩ := (hhanded n).mp (List.mem_of_getElem? hi)
  obtain ⟨app, x, -, hx', rfl⟩ := handed_eq_some.mp hi
  obtain rfl : x = host := Option.some.inj (hx'.symm.trans hx)
  cases app with
  | bridge j => cases hisApp
  | app j a =>
    refine ⟨⟨?_, ?_⟩, ?_⟩
    · rwa [(cores.course _ hhost).coreInv.graph]
    · show (cores.core x).hosts (.app j { a with hostOpt := some x, indexOpt := some i }) = _
      rw [hosts_app rfl, cores.myself _ hhost, decide_eq_true rfl]
    · show some (Report.mk _ _ i) = _
      rw [cores.emulId _ hhost, cores.myself _ hhost]

theorem Cores.handed_of_hosted (happs : apps = (network.vertices it).filter Node.isApp)
    (hlen : apps.length = places.length)
    (hgraph : graph = (handed apps places).foldl Network.editVertex network) (hhost : host ∈ hosts)
    (hn : Hosted (cores.core host) n) :
    ∃ i : Nat, (handed apps places)[i]? = some n ∧ places[i]? = some host := by
  have hhanded := mem_handed_app happs hlen
  rw [← hgraph] at hhanded
  have hnode := hn.isNode
  rw [(cores.course host hhost).coreInv.graph] at hnode
  obtain ⟨i, hi⟩ := List.mem_iff_getElem?.mp ((hhanded n).mpr hnode)
  refine ⟨i, hi, ?_⟩
  obtain ⟨app, x, -, hx, rfl⟩ := handed_eq_some.mp hi
  cases app with
  | bridge j => cases hnode.2
  | app j a =>
    have hhere : (cores.core host).hosts (.app j { a with hostOpt := some x, indexOpt := some i }) =
      .ok true := hn.2
    rw [hosts_app rfl, cores.myself host hhost] at hhere
    rwa [← of_decide_eq_true (Except.ok.inj hhere)]

structure PlacedOn (places : List ClusterNodeInfo) (cores : Cores ar id graph hosts) : Prop where
  nodup : hosts.Nodup
  mem : ∀ host, host ∈ hosts ↔ host ∈ places
  reports : ∀ host ∈ hosts, ∀ r, (∃ n, Hosted (cores.core host) n ∧ reportOf (cores.core host) n = some r) ↔
    r.emulId = id ∧ r.host = host ∧ places[r.index]? = some host
  once : ∀ host ∈ hosts, ∀ n n' r, Hosted (cores.core host) n → Hosted (cores.core host) n' →
    reportOf (cores.core host) n = some r → reportOf (cores.core host) n' = some r → n = n'
  reported : ∀ host ∈ hosts, ∀ n, Hosted (cores.core host) n → (reportOf (cores.core host) n).isSome = true

theorem Cores.placedOn {o o' : Orchestrator} {matrix : SymMatrix Nat} {p : List Nat}
    (hnew : o.newEmulation ar' it network id = .ok (o', some (graph, hosts)))
    (hstored : o'.emulations.lookup id = some (matrix, p)) (hplaces : o'.Places p places) :
    PlacedOn places cores := by
  obtain ⟨apps, matrix', p', places', ⟨hstored', hplaces'⟩, happs, hlen, hgraph, hnodup, hmem⟩ :=
    newEmulation_handed hnew
  cases hstored.symm.trans hstored'
  obtain rfl := hplaces.unique hplaces'
  have hhosted : ∀ host ∈ hosts, ∀ n (i : Nat), (handed apps places)[i]? = some n → places[i]? = some host →
      Hosted (cores.core host) n ∧ reportOf (cores.core host) n = some ⟨id, host, i⟩ :=
    fun _ hhost _ _ => cores.hosted_of_handed happs hlen hgraph hhost
  have hhanded : ∀ host ∈ hosts, ∀ n, Hosted (cores.core host) n →
      ∃ i : Nat, (handed apps places)[i]? = some n ∧ places[i]? = some host :=
    fun _ hhost _ => cores.handed_of_hosted happs hlen hgraph hhost
  refine ⟨hnodup, hmem, fun host hhost r => ?_, fun host hhost n n' r hn hn' hr hr' => ?_,
    fun host hhost n hn => ?_⟩
  · constructor
    · rintro ⟨n, hn, hr⟩
      obtain ⟨i, hi, hx⟩ := hhanded host hhost n hn
      cases hr.symm.trans (hhosted host hhost n i hi hx).2
      exact ⟨rfl, rfl, hx⟩
    · rintro ⟨hid, hx, hi⟩
      have hlt : r.index < places.length := (List.getElem?_eq_some_iff.mp hi).1
      have hv : (handed apps places)[r.index]? = some (apps[r.index].placedAt host r.index) :=
        handed_eq_some.mpr ⟨_, host, List.getElem?_eq_getElem (by omega), hi, rfl⟩
      obtain ⟨hn, hr⟩ := hhosted host hhost _ _ hv hi
      refine ⟨_, hn, hr.trans ?_⟩
      rw [← hid, ← hx]
  · obtain ⟨i, hi, hx⟩ := hhanded host hhost n hn
    obtain ⟨j, hj, hx'⟩ := hhanded host hhost n' hn'
    cases hr.symm.trans (hhosted host hhost n i hi hx).2
    cases hr'.symm.trans (hhosted host hhost n' j hj hx').2
    exact Option.some.inj (hi.symm.trans hj)
  · obtain ⟨i, hi, hx⟩ := hhanded host hhost n hn
    rw [(hhosted host hhost n i hi hx).2]
    rfl

namespace PlacedOn

variable {cores} (h : PlacedOn places cores)

theorem mem_reports (h : PlacedOn places cores) (hhost : host ∈ hosts) :
    r ∈ (nodesOf (cores.loop host).myApps).filterMap (reportOf (cores.core host)) ↔
      r.emulId = id ∧ r.host = host ∧ places[r.index]? = some host := by
  rw [← h.reports host hhost, List.mem_filterMap]
  have hstatus := (cores.course host hhost).statusInv (cores.running host hhost)
  exact exists_congr fun _ => and_congr_left fun _ => hstatus.nodes _

theorem filterMap_nodup {ns : List Node} (h : PlacedOn places cores) (hhost : host ∈ hosts) (hns : ns.Nodup)
    (hsub : ∀ n ∈ ns, n ∈ nodesOf (cores.loop host).myApps) :
    (ns.filterMap (reportOf (cores.core host))).Nodup := by
  have hstatus := (cores.course host hhost).statusInv (cores.running host hhost)
  refine List.pairwise_filterMap.mpr (hns.imp_of_mem fun {a b} ha hb hne r hr r' hr' heq => hne ?_)
  subst heq
  exact h.once host hhost a b r ((hstatus.nodes a).mp (hsub a ha)) ((hstatus.nodes b).mp (hsub b hb)) hr hr'

theorem crashed_sub (cores : Cores ar id graph hosts) :
    ∀ n ∈ crashed (cores.loop host).myApps, n ∈ nodesOf (cores.loop host).myApps := fun _ hn =>
  (nodesOf_perm _).mem_iff.mpr (List.mem_append_left _ hn)

theorem sent_perm (cores : Cores ar id graph hosts) (hhost : host ∈ hosts) :
    ((cores.config host).log.filterMap Effect.report).Perm
      ((crashed (cores.loop host).myApps).filterMap (reportOf (cores.core host))) :=
  ((cores.course host hhost).pickInv (reports_atCrash _) (cores.running host hhost)).once
    (cores.final host hhost)

theorem mem_sent (h : PlacedOn places cores) (hr : r ∈ cores.sent) :
    r.emulId = id ∧ r.host ∈ hosts ∧ places[r.index]? = some r.host := by
  obtain ⟨host, hhost, hr⟩ := List.mem_flatMap.mp hr
  obtain ⟨n, hn, hr⟩ := List.mem_filterMap.mp ((sent_perm cores hhost).mem_iff.mp hr)
  obtain ⟨hid, rfl, hx⟩ := (h.mem_reports hhost).mp (List.mem_filterMap.mpr ⟨n, crashed_sub cores n hn, hr⟩)
  exact ⟨hid, hhost, hx⟩

theorem sent_nodup (h : PlacedOn places cores) : cores.sent.Nodup := by
  refine List.nodup_flatMap.mpr ⟨fun host hhost => ?_, ?_⟩
  · exact (sent_perm cores hhost).nodup_iff.mpr
      (h.filterMap_nodup hhost (nodesOf_nodup _) (crashed_sub cores))
  · refine h.nodup.imp_of_mem fun {x y} hx hy hne => List.disjoint_left.mpr fun r hr hr' => hne ?_
    have hone : ∀ host ∈ hosts, r ∈ (cores.config host).log.filterMap Effect.report → r.host = host := by
      intro host hhost hr
      obtain ⟨n, hn, hr⟩ := List.mem_filterMap.mp ((sent_perm cores hhost).mem_iff.mp hr)
      exact ((h.mem_reports hhost).mp (List.mem_filterMap.mpr ⟨n, crashed_sub cores n hn, hr⟩)).2.1
    exact (hone x hx hr).symm.trans (hone y hy hr')

theorem awaited_all (h : PlacedOn places cores) (hhost : host ∈ hosts) {arrivals : List Report}
    (harrived : arrivals.Perm cores.sent) :
    (awaited (cores.core host) (cores.loop host).myApps arrivals).length =
      (living (cores.loop host).myApps).length := by
  have hstatus := (cores.course host hhost).statusInv (cores.running host hhost)
  have hperm := ((nodesOf_perm (cores.loop host).myApps).filterMap (reportOf (cores.core host))).symm
  rw [List.filterMap_append] at hperm
  have hnodup := hperm.nodup_iff.mpr (h.filterMap_nodup hhost (nodesOf_nodup _) fun _ hn => hn)
  have hdisjoint := (List.nodup_append.mp hnodup).2.2
  have hcrashed : ((crashed (cores.loop host).myApps).filterMap (reportOf (cores.core host))).filter
      (· ∉ arrivals) = [] := by
    refine List.filter_eq_nil_iff.mpr fun r hr => ?_
    have hin : r ∈ cores.sent := List.mem_flatMap.mpr ⟨host, hhost, (sent_perm cores hhost).mem_iff.mpr hr⟩
    simpa using harrived.mem_iff.mpr hin
  have hliving : ((living (cores.loop host).myApps).filterMap (reportOf (cores.core host))).filter
      (· ∉ arrivals) = (living (cores.loop host).myApps).filterMap (reportOf (cores.core host)) := by
    refine List.filter_eq_self.mpr fun r hr => decide_eq_true fun hin => ?_
    obtain ⟨host', hhost', hin⟩ := List.mem_flatMap.mp (harrived.mem_iff.mp hin)
    have hin := (sent_perm cores hhost').mem_iff.mp hin
    obtain ⟨n, hn, hn'⟩ := List.mem_filterMap.mp hin
    have hx' := ((h.mem_reports hhost').mp (List.mem_filterMap.mpr ⟨n, crashed_sub cores n hn, hn'⟩)).2.1
    have hx := ((h.mem_reports hhost).mp (hperm.mem_iff.mp (List.mem_append_right _ hr))).2.1
    obtain rfl := hx'.symm.trans hx
    exact hdisjoint r hin r hr rfl
  unfold awaited
  rw [← (hperm.filter _).length_eq, List.filter_append, hcrashed, hliving, List.nil_append]
  have hsome : ∀ n ∈ living (cores.loop host).myApps, (reportOf (cores.core host) n).isSome =
    true := fun n hn =>
    h.reported host hhost n ((hstatus.nodes n).mp ((nodesOf_perm _).mem_iff.mpr (List.mem_append_right _ hn)))
  rw [List.length_filterMap_eq_countP]
  exact List.countP_eq_length.mpr hsome

theorem mem_awaited (h : PlacedOn places cores) (hhost : host ∈ hosts) {arrivals : List Report} :
    r ∈ awaited (cores.core host) (cores.loop host).myApps arrivals ↔
      (r.emulId = id ∧ r.host = host ∧ places[r.index]? = some host) ∧ r ∉ arrivals := by
  unfold awaited
  rw [List.mem_filter, decide_eq_true_eq, h.mem_reports hhost]

/-- What runs on a host, for the leader, are the apps whose reports it awaits. -/
theorem running_card (h : PlacedOn places cores) (hhost : host ∈ hosts) {arrivals : List Report}
    (hknown : ∀ r ∈ arrivals, r.emulId = id ∧ places[r.index]? = some r.host) :
    ((⟨places, (arrivals.map Report.index).reverse⟩ : Deployment).running host).card =
      (awaited (cores.core host) (cores.loop host).myApps arrivals).length := by
  have hnodup : (awaited (cores.core host) (cores.loop host).myApps arrivals).Nodup :=
    (h.filterMap_nodup hhost (nodesOf_nodup _) fun _ hn => hn).filter _
  have hindices : ((awaited (cores.core host) (cores.loop host).myApps arrivals).map Report.index).Nodup := by
    refine hnodup.map_on fun r hr r' hr' hindex => ?_
    obtain ⟨⟨hid, hx, -⟩, -⟩ := (h.mem_awaited hhost).mp hr
    obtain ⟨⟨hid', hx', -⟩, -⟩ := (h.mem_awaited hhost).mp hr'
    exact Report.ext (hid.trans hid'.symm) (hx.trans hx'.symm) hindex
  rw [← List.length_map (f := Report.index), ← List.toFinset_card_of_nodup hindices]
  congr 1
  ext i
  rw [Deployment.mem_running, List.mem_toFinset, List.mem_map, List.mem_reverse]
  constructor
  · rintro ⟨hi, hfirst⟩
    refine ⟨⟨id, host, i⟩, (h.mem_awaited hhost).mpr ⟨⟨rfl, rfl, hi⟩, fun hin => hfirst ?_⟩, rfl⟩
    exact List.mem_map_of_mem (f := Report.index) hin
  · rintro ⟨r, hr, rfl⟩
    obtain ⟨⟨hid, hx, hi⟩, hnew⟩ := (h.mem_awaited hhost).mp hr
    refine ⟨hi, fun hin => hnew ?_⟩
    obtain ⟨r', hr', hindex⟩ := List.mem_map.mp hin
    obtain ⟨hid', hx'⟩ := hknown r' hr'
    rw [hindex, hi] at hx'
    rwa [← Report.ext (hid'.trans hid.symm) ((Option.some.inj hx').symm.trans hx.symm) hindex]

end PlacedOn

end Placed

/-! ## What the leader holds -/

theorem nodup_of_subperm {arrivals sent : List Report} (h : arrivals.Subperm sent) (hsent : sent.Nodup) :
    arrivals.Nodup := by
  obtain ⟨l, hperm, hsub⟩ := h
  exact hperm.nodup_iff.mp (hsent.sublist hsub)

section Leads

variable {ar : Arith} {id : Uuid} {w₀ w : Orchestrator.World} {places : List ClusterNodeInfo}
  {arrivals : List Report}

theorem registered_of_running {d : Deployment} (hw : Reached ar w) (hd : w.deployed.lookup id = some d)
    {host : ClusterNodeInfo} {i : Nat} (hi : d.places[i]? = some host) (hfirst : i ∉ d.stopped) :
    w.orchestrator.loadOf host id ≠ none ∧ w.orchestrator.emulations.lookup id ≠ none := by
  have hrep := hw.represented
  have hrunning : w.running host id = d.running host := by
    unfold Orchestrator.World.running
    rw [hd]
  have hload : w.orchestrator.loadOf host id ≠ none := by
    rw [hrep.load, hrunning]
    exact Deployment.load_ne_none (Deployment.mem_running.mpr ⟨hi, hfirst⟩)
  obtain ⟨l, hl⟩ := Option.ne_none_iff_exists'.mp hload
  exact ⟨hload, hrep.wf.accounted.attributed _ _ (hrep.wf.accounted.loaded _ _ l hl).2⟩

/-- Reports that differ are of different apps. -/
theorem index_fresh {r : Report} (hnodup : (arrivals ++ [r]).Nodup)
    (hknown : ∀ r' ∈ arrivals ++ [r], r'.emulId = id ∧ places[r'.index]? = some r'.host) :
    r.index ∉ arrivals.map Report.index := by
  obtain ⟨-, -, hnew⟩ := List.nodup_append.mp hnodup
  obtain ⟨hid, hx⟩ := hknown r (by simp)
  rw [List.mem_map]
  rintro ⟨r', hr', hindex⟩
  obtain ⟨hid', hx'⟩ := hknown r' (List.mem_append_left _ hr')
  rw [hindex, hx] at hx'
  exact hnew r' hr' r (by simp) (Report.ext (hid'.trans hid.symm) (Option.some.inj hx').symm hindex)

theorem Leads.tables (h : Leads ar id w₀ arrivals w) (hw₀ : Reached ar w₀)
    (hd : w₀.deployed.lookup id = some ⟨places, []⟩) (hnodup : arrivals.Nodup)
    (hknown : ∀ r ∈ arrivals, r.emulId = id ∧ places[r.index]? = some r.host) :
    Reached ar w ∧ w.deployed.lookup id = some ⟨places, (arrivals.map Report.index).reverse⟩ := by
  induction h with
  | start => exact ⟨hw₀, hd⟩
  | other _ hs hsame ih =>
    obtain ⟨hw, hlookup⟩ := ih hnodup hknown
    exact ⟨hw.step hs, hsame.trans hlookup⟩
  | @report arrivals w env m m' r d _ har hm hd' hr ih =>
    obtain ⟨hw, hlookup⟩ :=
      ih (List.nodup_append.mp hnodup).1 fun r' hr' => hknown r' (List.mem_append_left _ hr')
    obtain ⟨hid, hx⟩ := hknown r (by simp)
    rw [hid] at hd' hr ⊢
    cases hd'.symm.trans hlookup
    have hfirst : r.index ∉ (arrivals.map Report.index).reverse := by
      rw [List.mem_reverse]
      exact index_fresh hnodup hknown
    have hregistered := (registered_of_running hw hd' hx hfirst).2
    subst har
    rcases OManager.onCleanStop_ok hr with ⟨hnone, -⟩ | ⟨o, ho, rfl⟩
    · rw [hm] at hnone
      exact absurd hnone hregistered
    · rw [hm] at ho
      refine ⟨hw.step (.appStopped hd' hx hfirst ho), ?_⟩
      rw [KeySet.lookup_put, if_pos rfl, List.map_append, List.reverse_append]
      rfl

theorem Leads.next {env : Env} {m : OManager} {r : Report} (hw : Reached ar w)
    (hd : w.deployed.lookup id = some ⟨places, (arrivals.map Report.index).reverse⟩)
    (hx : places[r.index]? = some r.host) (hfirst : r.index ∉ arrivals.map Report.index)
    (har : env.ar = ar) (hm : m.orchestrator = w.orchestrator) :
    Returns (m.onCleanStop env id r.host r.index).result (fun _ => True) ↔
      (ar = .checked → w.orchestrator.Fits id r.index) := by
  have hrep := hw.represented
  obtain ⟨hload, hregistered⟩ := registered_of_running hw hd hx (by simpa using hfirst)
  obtain ⟨⟨matrix, p⟩, hemul⟩ := Option.ne_none_iff_exists'.mp hregistered
  obtain ⟨d, hd', hlocated⟩ := hrep.located id matrix p hemul
  cases hd.symm.trans hd'
  obtain ⟨hlen, hp⟩ := hrep.wf.inRange id matrix p hemul
  have hlt : r.index < places.length := (List.getElem?_eq_some_iff.mp hx).1
  have hnode : w.orchestrator.currentLoad.lookup r.host ≠ none := fun hnone => hload (by
    rw [loadOf, hnone]
    rfl)
  have hsize : w.orchestrator.residualGraph.n = w.orchestrator.hostMapping.length := hrep.wf.rows.size
  rw [← Orchestrator.stopAppEmulationOn_returns hrep.wf.accounted hemul hlen (fun h hh => hsize ▸ hp h hh)
    (by rw [← hlen, hlocated.length_eq]; exact hlt) hnode, ← har, ← hm]
  constructor
  · rintro ⟨m', hm', -⟩
    rcases OManager.onCleanStop_ok hm' with ⟨hnone, -⟩ | ⟨o, ho, -⟩
    · rw [hm, hemul] at hnone
      cases hnone
    · exact ⟨o, ho, trivial⟩
  · rintro ⟨o, ho, -⟩
    refine ⟨{ m with orchestrator := o }, ?_, trivial⟩
    unfold OManager.onCleanStop
    rw [ho]
    rfl

end Leads

/-- Whatever the order in which the reports of the hosts arrive, and whatever else the leader does
meanwhile, the load of a host is the number of its apps whose crash the leader has not heard of. When
every report has arrived the emulation is forgotten exactly if the loop of every host is over. -/
theorem leader_follows_crashes {ar ar' : Arith} {it : Iter} {id : Uuid} {network graph : Network Node}
    {hosts places : List ClusterNodeInfo} {w w' : Orchestrator.World} {o : Orchestrator}
    {matrix : SymMatrix Nat}
    {p : List Nat} {arrivals : List Report} (hw : Reached ar w)
    (hfresh : w.orchestrator.emulations.lookup id = none) (happ : ∃ v ∈ network.vertices it, v.isApp = true)
    (hnew : w.orchestrator.newEmulation ar it network id = .ok (o, some (graph, hosts)))
    (hstored : o.emulations.lookup id = some (matrix, p)) (hplaces : o.Places p places)
    (cores : Cores ar' id graph hosts)
    (hleads : Leads ar id ⟨o, w.deployed.put id ⟨places, []⟩⟩ arrivals w')
    (harrived : arrivals.Subperm cores.sent) :
    (∀ host ∈ hosts, (w'.orchestrator.loadOf host id).getD 0 =
      (awaited (cores.core host) (cores.loop host).myApps arrivals).length) ∧
    (arrivals.Perm cores.sent →
      (∀ host ∈ hosts, (w'.orchestrator.loadOf host id).getD 0 = (living (cores.loop host).myApps).length) ∧
      (w'.orchestrator.emulations.lookup id = none ↔
        ∀ host ∈ hosts, (cores.config host).phase = .done (cores.loop host))) ∧
    ∀ r, (arrivals ++ [r]).Subperm cores.sent → ∀ (env : Env) (m : OManager), env.ar = ar →
      m.orchestrator = w'.orchestrator →
      (Returns (m.onCleanStop env r.emulId r.host r.index).result (fun _ => True) ↔
        (ar = .checked → w'.orchestrator.Fits r.emulId r.index)) := by
  have hon : PlacedOn places cores := cores.placedOn hnew hstored hplaces
  have hknown : ∀ r ∈ arrivals, r.emulId = id ∧ places[r.index]? = some r.host := fun r hr =>
    have ⟨hid, _, hx⟩ := hon.mem_sent (harrived.subset hr)
    ⟨hid, hx⟩
  have hdeployed : (w.deployed.put id ⟨places, []⟩).lookup id = some ⟨places, []⟩ := by
    rw [KeySet.lookup_put, if_pos rfl]
  obtain ⟨hw', hd⟩ := hleads.tables (hw.step (.placed hfresh happ hnew hstored hplaces)) hdeployed
    (nodup_of_subperm harrived hon.sent_nodup) hknown
  have hrep := hw'.represented
  have hrunning : ∀ host, w'.running host id =
      (⟨places, (arrivals.map Report.index).reverse⟩ : Deployment).running host := by
    intro host
    unfold Orchestrator.World.running
    rw [hd]
  have hload : ∀ host ∈ hosts, (w'.orchestrator.loadOf host id).getD 0 =
      (awaited (cores.core host) (cores.loop host).myApps arrivals).length := by
    intro host hhost
    rw [hrep.load, hrunning, hon.running_card hhost hknown]
    split <;> simp [*]
  refine ⟨hload, fun hall => ?_, fun r hr env m har hm => ?_⟩
  · have hliving : ∀ host ∈ hosts,
        (w'.orchestrator.loadOf host id).getD 0 = (living (cores.loop host).myApps).length :=
          fun host hhost =>
      (hload host hhost).trans (hon.awaited_all hhost hall)
    refine ⟨hliving, ?_, ?_⟩
    · intro hnone host hhost
      have hstatus := (cores.course host hhost).statusInv (cores.running host hhost)
      have hzero := hliving host hhost
      rw [(hrep.wf.accounted.idle hnone host).1] at hzero
      have hcrashed := (living_eq_nil hstatus).mp (List.length_eq_zero_iff.mp hzero.symm)
      refine ((cores.course host hhost).done_iff (cores.running host hhost)).mpr ⟨fun hnil => ?_, hcrashed⟩
      obtain ⟨i, hi⟩ := List.mem_iff_getElem?.mp ((hon.mem host).mp hhost)
      obtain ⟨n, hn, -⟩ := (hon.reports host hhost ⟨id, host, i⟩).mpr ⟨rfl, rfl, hi⟩
      have := hcrashed n hn
      rw [hnil] at this
      cases this
    · intro hdone
      by_contra hne
      obtain ⟨host, hattributed⟩ := hrep.wf.registered id hne
      obtain ⟨l, hl⟩ := Option.ne_none_iff_exists'.mp (hrep.wf.counted host id hattributed)
      have hpos := (hrep.wf.accounted.loaded host id l hl).1
      have hhost : host ∈ hosts := by
        by_contra hnot
        have hidle : (w'.running host id).card = 0 := by
          rw [hrunning]
          refine Finset.card_eq_zero.mpr (Finset.eq_empty_of_forall_notMem fun i hi => hnot ?_)
          exact (hon.mem host).mpr (List.mem_of_getElem? (Deployment.mem_running.mp hi).1)
        rw [hrep.load, if_pos hidle] at hl
        cases hl
      have hstatus := (cores.course host hhost).statusInv (cores.running host hhost)
      have hcrashed :=
        (((cores.course host hhost).done_iff (cores.running host hhost)).mp (hdone host hhost)).2
      have hzero := hliving host hhost
      rw [hl, (living_eq_nil hstatus).mpr hcrashed] at hzero
      have : l = 0 := hzero
      omega
  · have hnodup := nodup_of_subperm hr hon.sent_nodup
    have hknown' : ∀ r' ∈ arrivals ++ [r], r'.emulId = id ∧ places[r'.index]? = some r'.host := fun r' hr' =>
      have ⟨hid, _, hx⟩ := hon.mem_sent (hr.subset hr')
      ⟨hid, hx⟩
    obtain ⟨hid, hx⟩ := hknown' r (by simp)
    rw [hid]
    exact Leads.next hw' hd hx (index_fresh hnodup hknown') har hm

def DemoCrash (graph : Network Node) : Prop :=
  Returns (demoRun graph (demoHost 1 9092) []).result fun c =>
    c.1.emulId = ⟨0⟩ ∧ c.1.myself = demoHost 1 9092 ∧
    Returns (flowRound .inOrder .wrapping c.1 c.2 (demoEvent 0 .crash)).result fun s =>
      s.isRight = true ∧ ((demoRun graph (demoHost 1 9092) []).log ++
        (flowRound .inOrder .wrapping c.1 c.2 (demoEvent 0 .crash)).log).filterMap Effect.report =
          [⟨⟨0⟩, demoHost 1 9092, 1⟩]

def DemoQuiet (graph : Network Node) : Prop :=
  Returns (demoRun graph (demoHost 0 9092) []).result fun c =>
    c.1.emulId = ⟨0⟩ ∧ c.1.myself = demoHost 0 9092 ∧
    (demoRun graph (demoHost 0 9092) []).log.filterMap Effect.report = []

instance (graph : Network Node) : Decidable (DemoCrash graph) := by
  unfold DemoCrash
  infer_instance

instance (graph : Network Node) : Decidable (DemoQuiet graph) := by
  unfold DemoQuiet
  infer_instance

theorem finalCrash_nil : FinalCrash [] := by
  intro appId before after h
  simp [actionsOf] at h

theorem finalCrash_demo : FinalCrash [demoEvent 0 .crash] := by
  intro appId before after h
  by_cases hid : (0 : Nat) = appId
  · subst hid
    obtain ⟨-, hafter⟩ := List.append_eq_singleton_iff.mp h.symm |>.resolve_right (by simp)
    simpa using hafter
  · have hnone : actionsOf [demoEvent 0 .crash] appId = [] := by simp [actionsOf, demoEvent, hid]
    simp [hnone] at h

theorem forall_both {P : ClusterNodeInfo → Prop} (h : P (demoHost 1 9092)) (h' : P (demoHost 0 9092)) :
    ∀ host ∈ [demoHost 1 9092, demoHost 0 9092], P host := by
  simpa using ⟨h, h'⟩

theorem leader_follows_crashes_demo : ∃ (w w' : Orchestrator.World) (graph : Network Node)
    (hosts : List ClusterNodeInfo) (cores : Cores .wrapping ⟨0⟩ graph hosts) (r : Report),
    Leads .wrapping ⟨0⟩ w [r] w' ∧ cores.sent = [r] ∧ hosts.length = 2 ∧
    ∀ host ∈ hosts, (w'.orchestrator.loadOf host ⟨0⟩).getD 0 =
      (awaited (cores.core host) (cores.loop host).myApps [r]).length := by
  obtain ⟨g, -, hips, o₀, ho₀, hfresh, happ, ⟨o, placed⟩, hnew, ⟨graph, hosts⟩, hplaced, hhosts,
      ⟨⟨c₀, s₀⟩, h₀, hid₀, hme₀, r₀, hr₀, hright, hreports₀⟩, ⟨c₁, s₁⟩, h₁, hid₁, hme₁, hreports₁⟩ :
      Returns (Orchestrator.demoCluster [0, 1] 1000) fun g => DistinctIps g ∧
        Returns (Orchestrator.new .inOrder g 9092 1) fun o₀ => o₀.emulations.lookup ⟨0⟩ = none ∧
          (∃ v ∈ (demoNet 1).vertices .inOrder, v.isApp = true) ∧
          Returns (o₀.newEmulation .wrapping .inOrder (demoNet 1) ⟨0⟩) fun a => Returns (unwrap a.2) fun x =>
            x.2 = [demoHost 1 9092, demoHost 0 9092] ∧ DemoCrash x.1 ∧ DemoQuiet x.1 := by
    decide +kernel
  cases hhosts
  obtain rfl := unwrap_eq_ok.mp hplaced
  rcases r₀ with s | s₀'
  · cases hright
  have hcourse₀ := (@demoRun_course _ _ _ (fun _ _ => True) _ _ (fun _ _ _ _ => trivial) h₀).message trivial
    (.stop .inOrder rfl hr₀)
  have hcourse₁ := @demoRun_course _ _ _ (fun _ _ => True) _ _ (fun _ _ _ _ => trivial) h₁
  have hne : demoHost 0 9092 ≠ demoHost 1 9092 := by decide
  let cores : Cores .wrapping ⟨0⟩ graph [demoHost 1 9092, demoHost 0 9092] :=
    { core := fun host => if host = demoHost 1 9092 then c₀ else c₁
      messages := fun host => if host = demoHost 1 9092 then [demoEvent 0 .crash] else []
      config := fun host => if host = demoHost 1 9092 then
          ⟨.done s₀', (demoRun graph (demoHost 1 9092) []).log ++
            (flowRound .inOrder .wrapping c₀ s₀ (demoEvent 0 .crash)).log⟩
        else ⟨.running s₁, (demoRun graph (demoHost 0 9092) []).log⟩
      loop := fun host => if host = demoHost 1 9092 then s₀' else s₁
      emulId := forall_both hid₀ hid₁
      myself := forall_both hme₀ hme₁
      course := forall_both hcourse₀ hcourse₁
      running := forall_both rfl rfl
      final := forall_both finalCrash_demo finalCrash_nil }
  have hsent : cores.sent = [⟨⟨0⟩, demoHost 1 9092, 1⟩] := by
    show List.filterMap _ _ ++ (List.filterMap _ _ ++ []) = _
    rw [List.append_nil]
    exact congrArg₂ (· ++ ·) hreports₀ hreports₁
  have hreached : Reached .wrapping ⟨o₀, KeySet.empty⟩ := .new hips ho₀
  obtain ⟨-, matrix, p, places, ⟨hstored, hplaces⟩, -⟩ := newEmulation_handed hnew
  have hall := fun arrivals w' hleads harrived => @leader_follows_crashes _ _ _ _ _ _ _ _ _ w' _ _ _ arrivals
    hreached hfresh happ hnew hstored hplaces cores hleads harrived
  have hdeployed := KeySet.lookup_put (KeySet.empty : UuidMap Deployment) (⟨0⟩ : Uuid) ⟨places, []⟩ ⟨0⟩
  rw [if_pos rfl] at hdeployed
  -- The report is handled, as the first.
  obtain ⟨m', hm', -⟩ := ((hall [] _ .start (List.nil_subperm)).2.2 ⟨⟨0⟩, demoHost 1 9092, 1⟩
    (by rw [hsent]; exact List.Subperm.refl _) { demoEnv 0 [] with ar := .wrapping }
    ⟨demoHost 0 9091, demoHost 0 9092, o, KeySet.empty⟩ rfl rfl).mpr Arith.noConfusion
  have hleads : Leads .wrapping ⟨0⟩ ⟨o, (KeySet.empty : UuidMap Deployment).put ⟨0⟩ ⟨places, []⟩⟩
      [⟨⟨0⟩, demoHost 1 9092, 1⟩] _ := .report (r := ⟨⟨0⟩, demoHost 1 9092, 1⟩) .start rfl rfl hdeployed hm'
  refine ⟨_, _, graph, _, cores, _, hleads, hsent, rfl, (hall _ _ hleads ?_).1⟩
  rw [hsent]

end Pubapi

end Kollaps
