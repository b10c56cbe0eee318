import Kollaps.Netgraph.Demand
import Kollaps.Orchestrator.Tables

/-!
# Runs of the orchestrator

A world is the orchestrator, and for each emulation where its apps were placed and which of them
have stopped since. The tables of the orchestrator say the same.
-/

namespace Kollaps

open Run

namespace Orchestrator

/-- The hosts of the apps of an emulation, in the order of their indices, and those apps that have
stopped. -/
structure Deployment where
  places : List ClusterNodeInfo
  stopped : List Nat
deriving DecidableEq

namespace Deployment

def running (d : Deployment) (host : ClusterNodeInfo) : Finset Nat :=
  (Finset.range d.places.length).filter fun app => d.places[app]? = some host ∧ app ∉ d.stopped

def stop (d : Deployment) (app : Nat) : Deployment := { d with stopped := app :: d.stopped }

theorem mem_running {d : Deployment} {host : ClusterNodeInfo} {app : Nat} :
    app ∈ d.running host ↔ d.places[app]? = some host ∧ app ∉ d.stopped := by
  simp only [running, Finset.mem_filter, Finset.mem_range, and_iff_right_iff_imp]
  rintro ⟨h, -⟩
  exact (List.getElem?_eq_some_iff.mp h).1

theorem running_stop (d : Deployment) (app : Nat) (host : ClusterNodeInfo) :
    (d.stop app).running host = (d.running host).erase app := by
  ext i
  rw [mem_running, Finset.mem_erase, mem_running]
  simp only [stop, List.mem_cons, not_or]
  tauto

theorem card_running_new (places : List ClusterNodeInfo) (host : ClusterNodeInfo) :
    ((⟨places, []⟩ : Deployment).running host).card = places.count host := by
  induction places using List.reverseRecOn with
  | nil => rfl
  | append_singleton places place ih =>
    have hsame : (⟨places ++ [place], []⟩ : Deployment).running host =
        if place = host then insert places.length ((⟨places, []⟩ : Deployment).running host)
        else (⟨places, []⟩ : Deployment).running host := by
      ext i
      have hi : i ∈ (⟨places ++ [place], []⟩ : Deployment).running host ↔
          i ∈ (⟨places, []⟩ : Deployment).running host ∨ (i = places.length ∧ place = host) := by
        simp only [mem_running, List.not_mem_nil, not_false_eq_true, and_true]
        rcases Nat.lt_trichotomy i places.length with hlt | rfl | hgt
        · rw [List.getElem?_append_left hlt]
          have hne : i ≠ places.length := by omega
          simp [hne]
        · simp
        · have hne : i ≠ places.length := by omega
          rw [List.getElem?_eq_none (by simp; omega), List.getElem?_eq_none (by omega)]
          simp [hne]
      rw [hi]
      split <;> rename_i hp
      · rw [Finset.mem_insert]
        simp [hp, or_comm]
      · simp [hp]
    rw [hsame, List.count_append, ← ih]
    split <;> rename_i hp
    · rw [Finset.card_insert_of_notMem (by simp [mem_running])]
      simp [hp]
    · simp [hp]

end Deployment

/-! ## Loads count what runs -/

def Deployment.load (d : Deployment) (host : ClusterNodeInfo) : Option Nat :=
  if (d.running host).card = 0 then none else some (d.running host).card

theorem Deployment.load_ne_none {d : Deployment} {host : ClusterNodeInfo} {app : Nat}
    (h : app ∈ d.running host) : d.load host ≠ none := by
  have hpos : 0 < (d.running host).card := Finset.card_pos.mpr ⟨app, h⟩
  rw [load, if_neg (by omega)]
  exact Option.some_ne_none _

theorem Placed.load_new {ar : Arith} {it : Iter} {o o' : Orchestrator} {id : Uuid} {matrix : SymMatrix Nat}
    {p : List Nat} {places : List ClusterNodeInfo} (h : Placed ar it o id matrix p places o')
    {host : ClusterNodeInfo} (hidle : o.loadOf host id = none) :
    o'.loadOf host id = (⟨places, []⟩ : Deployment).load host := by
  rw [h.loadOf, hidle, Deployment.load, Deployment.card_running_new, Option.getD_none, Nat.zero_add]
  by_cases hx : host ∈ places
  · have hcount : 0 < places.count host := List.count_pos_iff.mpr hx
    rw [if_pos ⟨rfl, hx⟩, if_neg (by omega)]
  · rw [if_neg fun h => hx h.2, if_pos (List.count_eq_zero.mpr hx)]

theorem AppStopped.load_less {ar : Arith} {o o' : Orchestrator} {id : Uuid} {matrix : SymMatrix Nat}
    {p : List Nat} {node : ClusterNodeInfo} {app : Nat} (h : AppStopped ar o id node app matrix p o')
    {d : Deployment} (hnode : d.places[app]? = some node) (hfirst : app ∉ d.stopped)
    {host : ClusterNodeInfo} (hload : o.loadOf host id = d.load host) :
    o'.loadOf host id = (d.stop app).load host := by
  rw [h.loadOf, hload, Deployment.load, Deployment.load, Deployment.running_stop]
  by_cases hx : host = node
  · subst hx
    have hmem : app ∈ d.running host := Deployment.mem_running.mpr ⟨hnode, hfirst⟩
    have hpos : 0 < (d.running host).card := Finset.card_pos.mpr ⟨app, hmem⟩
    rw [if_pos ⟨rfl, rfl⟩, if_neg (by omega), Finset.card_erase_of_mem hmem, Option.bind_some]
    by_cases hone : (d.running host).card = 1
    · rw [if_pos hone, if_pos (by omega)]
    · rw [if_neg hone, if_neg (by omega)]
  · have hmem : app ∉ d.running host := fun hmem => by
      rw [Deployment.mem_running, hnode] at hmem
      exact hx (Option.some.inj hmem.1).symm
    rw [if_neg fun h => hx h.1, Finset.erase_eq_of_notMem hmem]

structure World where
  orchestrator : Orchestrator
  deployed : UuidMap Deployment

def World.running (w : World) (host : ClusterNodeInfo) (id : Uuid) : Finset Nat :=
  match w.deployed.lookup id with
  | some d => d.running host
  | none => ∅

/-- One call. An app stops once, with its own host and index. A call that gives an `Err` changes nothing. -/
inductive Step (ar : Arith) : World → World → Prop
  | placed {w : World} {it : Iter} {network network' : Network Node} {id : Uuid} {o : Orchestrator}
      {nodes places : List ClusterNodeInfo} {matrix : SymMatrix Nat} {p : List Nat}
      (hfresh : w.orchestrator.emulations.lookup id = none)
      (happ : ∃ v ∈ network.vertices it, v.isApp = true)
      (h : w.orchestrator.newEmulation ar it network id = .ok (o, some (network', nodes)))
      (hstored : o.emulations.lookup id = some (matrix, p)) (hplaces : o.Places p places) :
      Step ar w ⟨o, w.deployed.put id ⟨places, []⟩⟩
  | refused {w : World} {it : Iter} {network : Network Node} {id : Uuid} {o : Orchestrator}
      (h : w.orchestrator.newEmulation ar it network id = .ok (o, none)) : Step ar w ⟨o, w.deployed⟩
  | stopped {w : World} {id : Uuid} {o : Orchestrator}
      (h : w.orchestrator.stopEmulation ar id = .ok o) : Step ar w ⟨o, w.deployed.remove id⟩
  | appStopped {w : World} {id : Uuid} {d : Deployment} {app : Nat} {node : ClusterNodeInfo}
    {o : Orchestrator}
      (hd : w.deployed.lookup id = some d) (hnode : d.places[app]? = some node) (hfirst : app ∉ d.stopped)
      (h : w.orchestrator.stopAppEmulationOn ar id node app = .ok o) :
      Step ar w ⟨o, w.deployed.put id (d.stop app)⟩
  | removed {w : World} {it : Iter} {node : ClusterNodeInfo} {uuids : List Uuid} {o : Orchestrator}
      (h : w.orchestrator.removeClusterNode ar it node = .ok (o, uuids)) :
      Step ar w ⟨o, uuids.foldl KeySet.remove w.deployed⟩
  | updated {w : World} {it : Iter} {cgraph : Cgraph.CGraph ClusterNodeInfo} {uuids : List Uuid}
      {o : Orchestrator} (hips : DistinctIps cgraph)
      (h : w.orchestrator.updateWithCgraph ar it cgraph = .ok (o, uuids)) :
      Step ar w ⟨o, uuids.foldl KeySet.remove w.deployed⟩

inductive Reached (ar : Arith) : World → Prop
  | new {it : Iter} {cgraph : Cgraph.CGraph ClusterNodeInfo} {port maxLoad : Nat} {o : Orchestrator}
      (hips : DistinctIps cgraph) (h : Orchestrator.new it cgraph port maxLoad = .ok o) :
      Reached ar ⟨o, KeySet.empty⟩
  | step {w w' : World} (h : Reached ar w) (hs : Step ar w w') : Reached ar w'

/-- The tables say what was placed and what has stopped. -/
structure Represented (w : World) : Prop where
  wf : w.orchestrator.Wf
  load : ∀ h u, w.orchestrator.loadOf h u =
    if (w.running h u).card = 0 then none else some (w.running h u).card
  located : ∀ u matrix p, w.orchestrator.emulations.lookup u = some (matrix, p) →
    ∃ d, w.deployed.lookup u = some d ∧ w.orchestrator.Places p d.places

variable {ar : Arith} {w w' : World}

theorem running_put (deployed : UuidMap Deployment) (o : Orchestrator) (id u : Uuid) (d : Deployment)
    (h : ClusterNodeInfo) : (⟨o, deployed.put id d⟩ : World).running h u =
      if u = id then d.running h else (⟨o, deployed⟩ : World).running h u := by
  unfold World.running
  simp only [KeySet.lookup_put]
  by_cases hu : u = id <;> simp [hu]

theorem running_removed (deployed : UuidMap Deployment) (o : Orchestrator) (uuids : List Uuid) (u : Uuid)
    (h : ClusterNodeInfo) : (⟨o, uuids.foldl KeySet.remove deployed⟩ : World).running h u =
      if u ∈ uuids then ∅ else (⟨o, deployed⟩ : World).running h u := by
  unfold World.running
  simp only [KeySet.lookup_foldl_remove]
  by_cases hu : u ∈ uuids <;> simp [hu]

/-! ## Each call -/

theorem Places.congr {o o' : Orchestrator} {p : List Nat} {places : List ClusterNodeInfo}
    (h : o.Places p places)
    (hsub : ∀ (i : Nat) node, o.hostMapping[i]? = some node → o'.hostMapping[i]? = some node) :
    o'.Places p places := List.Forall₂.imp (fun i node hi => hsub i node hi) h

theorem Places.unique {o : Orchestrator} {p : List Nat} {places places' : List ClusterNodeInfo}
    (h : o.Places p places) (h' : o.Places p places') : places = places' := by
  unfold Places at h h'
  induction h generalizing places' with
  | nil =>
    cases h'
    rfl
  | cons hx _ ih =>
    cases h' with
    | cons hx' h' => rw [ih h', Option.some.inj (hx.symm.trans hx')]

theorem newEmulation_stored {it : Iter} {o o' : Orchestrator} {network : Network Node} {id : Uuid}
    {r : Network Node × List ClusterNodeInfo} {matrix : SymMatrix Nat} {p : List Nat}
    {places : List ClusterNodeInfo} (h : o.newEmulation ar it network id = .ok (o', some r))
    (hstored : o'.emulations.lookup id = some (matrix, p)) (hplaces : o'.Places p places) :
    (∃ apps, network.bandwidthMatrix it Node.isApp = .ok (matrix, apps)) ∧
      Placed ar it o id matrix p places o' := by
  obtain ⟨matrix', apps, p', places', hmatrix, hplaced, -⟩ := newEmulation_placed h
  rw [hplaced.emulations, KeySet.lookup_put, if_pos rfl] at hstored
  cases hstored
  have hold : o.Places p places := hplaces.congr fun i node hi => by rwa [hplaced.cluster.hostMapping] at hi
  obtain rfl := hold.unique hplaced.located
  exact ⟨⟨apps, hmatrix⟩, hplaced⟩

theorem Represented.placed {it : Iter} {network network' : Network Node} {id : Uuid} {o : Orchestrator}
    {nodes places : List ClusterNodeInfo} {matrix : SymMatrix Nat} {p : List Nat} (hw : Represented w)
    (hfresh : w.orchestrator.emulations.lookup id = none) (happ : ∃ v ∈ network.vertices it, v.isApp = true)
    (h : w.orchestrator.newEmulation ar it network id = .ok (o, some (network', nodes)))
    (hstored : o.emulations.lookup id = some (matrix, p)) (hplaces : o.Places p places) :
    Represented ⟨o, w.deployed.put id ⟨places, []⟩⟩ := by
  obtain ⟨⟨apps, hmatrix⟩, hplaced⟩ := newEmulation_stored h hstored hplaces
  have hmap := hplaced.cluster.hostMapping
  have happs : 0 < matrix.n := by
    obtain ⟨v, hv, hisApp⟩ := happ
    obtain ⟨rfl, hn, -⟩ := Network.bandwidthMatrix_ok hmatrix
    exact hn ▸ List.length_pos_of_mem (List.mem_filter.mpr ⟨hv, hisApp⟩)
  refine ⟨hplaced.wf happs hw.wf, fun x u => ?_, fun u m q hlookup => ?_⟩
  · rw [running_put]
    show o.loadOf x u = _
    by_cases hu : u = id
    · subst hu
      rw [if_pos rfl]
      exact hplaced.load_new (hw.wf.accounted.idle hfresh x).1
    · rw [if_neg hu, hplaced.loadOf, if_neg fun h => hu h.1]
      exact hw.load x u
  · show ∃ d, (w.deployed.put id ⟨places, []⟩).lookup u = some d ∧ _
    have hlookup : o.emulations.lookup u = some (m, q) := hlookup
    rw [hplaced.emulations, KeySet.lookup_put] at hlookup
    rw [KeySet.lookup_put]
    split at hlookup <;> rename_i hu
    · cases hlookup
      exact ⟨_, if_pos hu, hplaces⟩
    · obtain ⟨d, hd, hlocated⟩ := hw.located u m q hlookup
      exact ⟨d, (if_neg hu).trans hd, hlocated.congr fun i node hi => by rwa [hmap]⟩

theorem Represented.stopped {id : Uuid} {o : Orchestrator} (hw : Represented w)
    (h : w.orchestrator.stopEmulation ar id = .ok o) : Represented ⟨o, w.deployed.remove id⟩ := by
  obtain ⟨matrix, p, hstopped⟩ := stopEmulation_ok h
  refine ⟨hstopped.wf hw.wf, fun x u => ?_, fun u m q hlookup => ?_⟩
  · have hrun := running_removed w.deployed o [id] u x
    simp only [List.foldl_cons, List.foldl_nil, List.mem_singleton] at hrun
    rw [hrun]
    show o.loadOf x u = _
    rw [hstopped.loadOf]
    by_cases hu : u = id
    · simp [hu]
    · rw [if_neg hu, if_neg hu]
      exact hw.load x u
  · show ∃ d, (w.deployed.remove id).lookup u = some d ∧ _
    have hlookup : o.emulations.lookup u = some (m, q) := hlookup
    rw [hstopped.emulations, KeySet.lookup_remove] at hlookup
    rw [KeySet.lookup_remove]
    split at hlookup <;> rename_i hu
    · cases hlookup
    · obtain ⟨d, hd, hlocated⟩ := hw.located u m q hlookup
      exact ⟨d, (if_neg hu).trans hd, hlocated.congr fun i node hi => by rwa [hstopped.cluster.hostMapping]⟩

theorem Represented.appStopped {id : Uuid} {d : Deployment} {app : Nat} {node : ClusterNodeInfo}
    {o : Orchestrator} (hw : Represented w) (hd : w.deployed.lookup id = some d)
    (hnode : d.places[app]? = some node) (hfirst : app ∉ d.stopped)
    (h : w.orchestrator.stopAppEmulationOn ar id node app = .ok o) :
    Represented ⟨o, w.deployed.put id (d.stop app)⟩ := by
  obtain ⟨matrix, p, hstopped⟩ := stopAppEmulationOn_ok h
  refine ⟨hstopped.wf hw.wf, fun x u => ?_, fun u m q hlookup => ?_⟩
  · rw [running_put]
    show o.loadOf x u = _
    have hload := hw.load x u
    by_cases hu : u = id
    · subst hu
      have hrunning : w.running x u = d.running x := by
        unfold World.running
        rw [hd]
      rw [hrunning] at hload
      rw [if_pos rfl]
      exact hstopped.load_less hnode hfirst hload
    · rw [if_neg hu, hstopped.loadOf, if_neg fun h => hu h.2]
      exact hload
  · show ∃ d', (w.deployed.put id (d.stop app)).lookup u = some d' ∧ _
    have hlookup : o.emulations.lookup u = some (m, q) := hlookup
    have hold : w.orchestrator.emulations.lookup u = some (m, q) := hstopped.lookup_of_lookup hlookup
    obtain ⟨d', hd', hlocated⟩ := hw.located u m q hold
    have hlocated' : o.Places q d'.places :=
      hlocated.congr fun i node hi => by rwa [hstopped.cluster.hostMapping]
    rw [KeySet.lookup_put]
    by_cases hu : u = id
    · subst hu
      rw [hd] at hd'
      cases hd'
      exact ⟨_, if_pos rfl, hlocated'⟩
    · exact ⟨d', (if_neg hu).trans hd', hlocated'⟩

theorem Represented.running_eq_empty (hw : Represented w) {u : Uuid}
    (hu : w.orchestrator.emulations.lookup u = none) (h : ClusterNodeInfo) : (w.running h u).card = 0 := by
  have hload := hw.load h u
  rw [(hw.wf.accounted.idle hu h).1] at hload
  split at hload
  · assumption
  · cases hload

theorem Represented.removed {it : Iter} {node : ClusterNodeInfo} {uuids : List Uuid} {o : Orchestrator}
    (hw : Represented w) (h : w.orchestrator.removeClusterNode ar it node = .ok (o, uuids)) :
    Represented ⟨o, uuids.foldl KeySet.remove w.deployed⟩ := by
  obtain ⟨i, o₁, hremoved⟩ := removeClusterNode_ok h
  have hgone := hremoved.hostRemoved hw.wf
  refine ⟨hgone.wf, fun x u => ?_, fun u m q hlookup => ?_⟩
  · rw [running_removed]
    show o.loadOf x u = _
    rw [(hgone.idle x u).1]
    by_cases hu : u ∈ uuids
    · simp [hu]
    · rw [if_neg hu]
      exact (if_pos (hw.running_eq_empty (not_not.mp fun hne => hu ((hgone.stopped u).mpr hne)) x)).symm
  · have hlookup : o.emulations.lookup u = some (m, q) := hlookup
    rw [hgone.empty] at hlookup
    cases hlookup

theorem Represented.updated {it : Iter} {cgraph : Cgraph.CGraph ClusterNodeInfo} {uuids : List Uuid}
    {o : Orchestrator} (hw : Represented w) (hips : DistinctIps cgraph)
    (h : w.orchestrator.updateWithCgraph ar it cgraph = .ok (o, uuids)) :
    Represented ⟨o, uuids.foldl KeySet.remove w.deployed⟩ := by
  obtain ⟨matrix, nodes, -, -, hupdated⟩ := updateWithCgraph_ok hips hw.wf h
  refine ⟨hupdated.wf, fun x u => ?_, fun u m q hlookup => ?_⟩
  · rw [running_removed]
    show o.loadOf x u = _
    rw [hupdated.loadOf]
    by_cases hu : u ∈ uuids
    · simp [hu]
    · rw [if_neg hu, if_neg hu]
      exact hw.load x u
  · show ∃ d, (uuids.foldl KeySet.remove w.deployed).lookup u = some d ∧ _
    have hlookup : o.emulations.lookup u = some (m, q) := hlookup
    rw [hupdated.forgets u] at hlookup
    rw [KeySet.lookup_foldl_remove]
    split at hlookup <;> rename_i hu
    · cases hlookup
    · obtain ⟨d, hd, hlocated⟩ := hw.located u m q hlookup
      refine ⟨d, (if_neg hu).trans hd, hlocated.congr fun i node hi => ?_⟩
      -- An emulation that goes on saw no host leave.
      have hleaving : w.orchestrator.leaving nodes = [] := not_not.mp fun hne =>
        hu ((hupdated.stopped u).mpr ⟨hne, by rw [hlookup]; exact Option.some_ne_none _⟩)
      have hstaying : w.orchestrator.staying nodes = w.orchestrator.hostMapping := by
        rw [leaving, List.filter_eq_nil_iff] at hleaving
        refine List.filter_eq_self.mpr fun n hn => ?_
        simpa using hleaving n hn
      show o.hostMapping[i]? = _
      rw [hupdated.hostMapping, hstaying, List.getElem?_append_left (List.getElem?_eq_some_iff.mp hi).1]
      exact hi

theorem Represented.step (hw : Represented w) (hs : Step ar w w') : Represented w' := by
  cases hs with
  | placed hfresh happ h hstored hplaces => exact hw.placed hfresh happ h hstored hplaces
  | refused h =>
    rw [newEmulation_none h]
    exact hw
  | stopped h => exact hw.stopped h
  | appStopped hd hnode hfirst h => exact hw.appStopped hd hnode hfirst h
  | removed h => exact hw.removed h
  | updated hips h => exact hw.updated hips h

theorem Reached.represented (h : Reached ar w) : Represented w := by
  induction h with
  | new hips h =>
    have hwf := new_wf hips h
    unfold Orchestrator.new at h
    obtain ⟨⟨residualGraph, hostMapping⟩, -, h⟩ := of_bind_eq_ok h
    cases h
    exact ⟨hwf, fun x u => rfl, fun u m q hlookup => by cases hlookup⟩
  | step _ hs ih => exact ih.step hs

/-! ## What holds in every state -/

/-- Every index points into the mapping, every load is the number of apps that still run, and no
host has more of them than it may have. -/
theorem tables_represented (h : Reached ar w) :
    w.orchestrator.residualGraph.size = w.orchestrator.hostMapping.length ∧
    w.orchestrator.hostMapping.Nodup ∧
    (∀ u matrix p, w.orchestrator.emulations.lookup u = some (matrix, p) →
      ∀ host ∈ p, host < w.orchestrator.hostMapping.length) ∧
    (∀ h u, w.orchestrator.loadOf h u =
      if (w.running h u).card = 0 then none else some (w.running h u).card) ∧
    (∀ h u, w.orchestrator.Attributed h u ↔ w.orchestrator.loadOf h u ≠ none) ∧
    (∀ u, w.orchestrator.emulations.lookup u ≠ none ↔ ∃ h, w.orchestrator.Attributed h u) ∧
    ∀ h, w.orchestrator.totalLoad h ≤ w.orchestrator.maxLoad := by
  have hr := h.represented
  have hwf := hr.wf
  refine ⟨hwf.rows.size, hwf.rows.nodup, fun u m p hu => (hwf.inRange u m p hu).2, hr.load,
    fun x u => ⟨hwf.counted x u, fun hne => ?_⟩,
    fun u => ⟨hwf.registered u, fun ⟨x, hx⟩ => hwf.accounted.attributed x u hx⟩, hwf.room⟩
  obtain ⟨l, hl⟩ := Option.ne_none_iff_exists'.mp hne
  exact (hwf.accounted.loaded x u l hl).2

/-- A placement that the search gives has room on every host and on every link, and can be taken. -/
theorem placement_sound {it : Iter} {matrix : SymMatrix Nat} {p : List Nat} (h : Reached .checked w)
    (hp : w.orchestrator.findIsomorphism .checked it matrix = .ok (some p)) :
    p.length = matrix.n ∧ (∀ host ∈ p, host < w.orchestrator.hostMapping.length) ∧
    (∀ host node, w.orchestrator.hostMapping[host]? = some node →
      w.orchestrator.totalLoad node + p.count host ≤ w.orchestrator.maxLoad) ∧
    (∀ host ∈ p, ∀ other ∈ p, host ≠ other →
      flow matrix (appsOn p host) (appsOn p other) ≤ w.orchestrator.residualGraph.entry host other) ∧
    Returns (forRange matrix.size w.orchestrator.residualGraph fun i residualGraph =>
      forRange i residualGraph (reserve .checked matrix p i)) fun _ => True := by
  have hwf := h.represented.wf
  have hfound := findIsomorphism_found hp
  refine ⟨hfound.length, fun host hhost => hwf.rows.size ▸ hfound.lt host hhost, fun host node hnode => ?_,
    fun host hhost other hother hne => hfound.flow_le (by simp) hhost hother hne, hfound.reserves⟩
  by_cases hhost : host ∈ p
  · obtain ⟨node', total, hchecked⟩ := hfound.checked hhost
    obtain rfl : node' = node := Option.some.inj (hchecked.mapped.symm.trans hnode)
    exact hchecked.room
  · rw [List.count_eq_zero.mpr hhost, Nat.add_zero]
    exact hwf.room node

/-! ## A cluster and a topology -/

def demoHost (n : Nat) : ClusterNodeInfo := ⟨.v4 n, 9092⟩

def demoCluster (hosts : List Nat) (speed : Nat) : Run (Cgraph.CGraph ClusterNodeInfo) := do
  let (g, _) ← hosts.foldlM (fun (g, nodes) i => do
    let (g, me) ← g.addNode Iter.inOrder speed (demoHost i)
    let g ← nodes.foldlM (fun (g : Cgraph.CGraph ClusterNodeInfo) other => do
      let (g, _) ← g.addLinkDirectTest me other speed
      pure g) g
    pure (g, me :: nodes)) (Cgraph.CGraph.new, [])
  pure g

def demoApp (id : Nat) : Node := .app id ⟨none, none, "app", .bareMetal, none⟩

def demoTopology (apps bandwidth : Nat) : Run (Network Node) := do
  let g ← Network.new ((List.range apps).map demoApp) .shortestPath
  (List.range apps).tail.foldlM (fun g i => g.addEdge (demoApp 0) (demoApp i) bandwidth) g

instance (g : Cgraph.CGraph ClusterNodeInfo) : Decidable (DistinctIps g) :=
  inferInstanceAs (Decidable (g.nodes.elems.map fun n => n.info.ipAddr).Nodup)

theorem Reached.placed {it : Iter} {network network' : Network Node} {id : Uuid} {o : Orchestrator}
    {nodes : List ClusterNodeInfo} (hw : Reached ar w) (hfresh : w.orchestrator.emulations.lookup id = none)
    (happ : ∃ v ∈ network.vertices it, v.isApp = true)
    (h : w.orchestrator.newEmulation ar it network id = .ok (o, some (network', nodes))) :
    ∃ places, Reached ar ⟨o, w.deployed.put id ⟨places, []⟩⟩ := by
  obtain ⟨matrix, apps, p, places, -, hplaced, -⟩ := newEmulation_placed h
  have hstored : o.emulations.lookup id = some (matrix, p) := by
    rw [hplaced.emulations, KeySet.lookup_put, if_pos rfl]
  exact ⟨places, hw.step (.placed hfresh happ h hstored
    (hplaced.located.congr fun i node hi => by rwa [hplaced.cluster.hostMapping]))⟩

theorem tables_represented_demo : ∃ w : World, Reached .checked w ∧
    w.orchestrator.emulations.lookup ⟨1⟩ ≠ none ∧
    (∃ h, w.orchestrator.Attributed h ⟨1⟩) ∧
    w.orchestrator.residualGraph.size = w.orchestrator.hostMapping.length := by
  obtain ⟨graph, -, hips, o, ho, network, -, happ, ⟨o', r⟩, hnew, hsome, hmem⟩ :
      Returns (demoCluster [0, 1] 1000) fun graph => DistinctIps graph ∧
        Returns (Orchestrator.new .inOrder graph 9092 4) fun o =>
          Returns (demoTopology 2 100) fun network => (∃ v ∈ network.vertices .inOrder, v.isApp = true) ∧
            Returns (o.newEmulation .checked .inOrder network ⟨1⟩) fun r =>
              r.2.isSome = true ∧ r.1.emulations.lookup ⟨1⟩ ≠ none := by
    decide +kernel
  obtain ⟨⟨network', nodes⟩, rfl⟩ := Option.isSome_iff_exists.mp hsome
  have hstart : Reached .checked ⟨o, KeySet.empty⟩ := .new hips ho
  have hfresh : o.emulations.lookup ⟨1⟩ = none := by
    unfold Orchestrator.new at ho
    obtain ⟨⟨residualGraph, hostMapping⟩, -, ho⟩ := of_bind_eq_ok ho
    cases ho
    rfl
  obtain ⟨places, hreached⟩ := hstart.placed hfresh happ hnew
  have htables := tables_represented hreached
  exact ⟨_, hreached, hmem, (htables.2.2.2.2.2.1 ⟨1⟩).mp hmem, htables.1⟩

theorem placement_sound_demo : ∃ (w : World) (matrix : SymMatrix Nat) (p : List Nat), Reached .checked w ∧
    w.orchestrator.findIsomorphism .checked .inOrder matrix = .ok (some p) ∧ p.length = 2 ∧
      p.length = matrix.n := by
  obtain ⟨graph, -, hips, o, ho, network, -, ⟨matrix, apps⟩, -, found, hfound, hlen⟩ :
      Returns (demoCluster [0, 1] 1000) fun graph => DistinctIps graph ∧
        Returns (Orchestrator.new .inOrder graph 9092 4) fun o =>
          Returns (demoTopology 2 100) fun network =>
            Returns (network.bandwidthMatrix .inOrder Node.isApp) fun r =>
              Returns (o.findIsomorphism .checked .inOrder r.1) fun found =>
                found.map List.length = some 2 := by
    decide +kernel
  obtain ⟨p, rfl, happs⟩ := Option.map_eq_some_iff.mp hlen
  exact ⟨⟨o, KeySet.empty⟩, matrix, p, .new hips ho, hfound, happs,
    (placement_sound (w := ⟨o, KeySet.empty⟩) (.new hips ho) hfound).1⟩

end Orchestrator

end Kollaps
