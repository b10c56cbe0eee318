import Kollaps.Orchestrator.Search

/-!
# What the calls change

The tables are read through the two questions that are asked of them: the load that an
emulation puts on a host, and whether the host is attributed the emulation.
-/

namespace Kollaps

open Run

namespace Orchestrator

def loadOf (o : Orchestrator) (host : ClusterNodeInfo) (id : Uuid) : Option Nat :=
  (o.currentLoad.lookup host).bind fun map => map.lookup id

def Attributed (o : Orchestrator) (host : ClusterNodeInfo) (id : Uuid) : Prop :=
  ∃ uuids, o.attributedEmul.lookup host = some uuids ∧ id ∈ uuids.elems

/-- The tables of two states agree, but for the residual graph. -/
structure SameCluster (o o' : Orchestrator) : Prop where
  hostMapping : o'.hostMapping = o.hostMapping
  maxLoad : o'.maxLoad = o.maxLoad
  emanagersPort : o'.emanagersPort = o.emanagersPort

variable {ar : Arith} {it : Iter} {o o' : Orchestrator} {id : Uuid}

/-! ## One app more -/

theorem assign_loadOf (host h : ClusterNodeInfo) (u : Uuid) :
    (o.assign id host).loadOf h u =
      if h = host ∧ u = id then some ((o.loadOf h u).getD 0 + 1) else o.loadOf h u := by
  unfold loadOf assign
  simp only [KeySet.lookup_put, KeySet.get?_eq_lookup]
  by_cases hh : h = host
  · subst hh
    cases hl : o.currentLoad.lookup h with
    | none => by_cases hu : u = id <;> simp [hu, KeySet.lookup_put]
    | some map =>
      cases hm : map.lookup id with
      | none => by_cases hu : u = id <;> simp [hu, hm, KeySet.lookup_put]
      | some load => by_cases hu : u = id <;> simp [hu, hm, KeySet.lookup_put]
  · simp [hh]

theorem assign_attributed (host h : ClusterNodeInfo) (u : Uuid) :
    (o.assign id host).Attributed h u ↔ o.Attributed h u ∨ (h = host ∧ u = id) := by
  unfold Attributed assign
  simp only [KeySet.lookup_put, KeySet.get?_eq_lookup]
  by_cases hh : h = host
  · subst hh
    cases hl : o.attributedEmul.lookup h with
    | none =>
      simp [KeySet.mem_insert_iff]
    | some uuids => simp [KeySet.mem_insert_iff]
  · simp [hh]

theorem assign_hosts (host h : ClusterNodeInfo) :
    (o.assign id host).currentLoad.lookup h ≠ none ↔ o.currentLoad.lookup h ≠ none ∨ h = host := by
  unfold assign
  simp only [KeySet.lookup_put]
  by_cases hh : h = host <;> simp [hh]

structure Assigned (id : Uuid) (places : List ClusterNodeInfo) (o o' : Orchestrator) : Prop where
  residualGraph : o'.residualGraph = o.residualGraph
  cluster : SameCluster o o'
  emulations : o'.emulations = o.emulations
  loadOf : ∀ h u, o'.loadOf h u =
    if u = id ∧ h ∈ places then some ((o.loadOf h u).getD 0 + places.count h) else o.loadOf h u
  attributed : ∀ h u, o'.Attributed h u ↔ o.Attributed h u ∨ (u = id ∧ h ∈ places)
  hosts : ∀ h, o'.currentLoad.lookup h ≠ none ↔ o.currentLoad.lookup h ≠ none ∨ h ∈ places

theorem assigned_foldl (id : Uuid) (places : List ClusterNodeInfo) (o : Orchestrator) :
    Assigned id places o (places.foldl (assign id) o) := by
  induction places generalizing o with
  | nil => exact ⟨rfl, ⟨rfl, rfl, rfl⟩, rfl, by simp, by simp, by simp⟩
  | cons host places ih =>
    have h := ih (o.assign id host)
    rw [List.foldl_cons]
    refine ⟨h.residualGraph, ⟨h.cluster.hostMapping, h.cluster.maxLoad, h.cluster.emanagersPort⟩,
      h.emulations, fun x u => ?_, fun x u => ?_, fun x => ?_⟩
    · rw [h.loadOf, assign_loadOf]
      by_cases hu : u = id <;> by_cases hx : x = host <;> by_cases hp : x ∈ places
      · simp [hu, hx, hx ▸ hp]
        omega
      · have hp' : host ∉ places := hx ▸ hp
        simp [hu, hx, hp', List.count_eq_zero_of_not_mem]
      · have hne : host ≠ x := Ne.symm hx
        simp [hu, hx, hp, hne]
      · simp [hu, hx, hp]
      all_goals simp [hu]
    · rw [h.attributed, assign_attributed, List.mem_cons]
      tauto
    · rw [h.hosts, assign_hosts, List.mem_cons]
      tauto

/-! ## A new emulation -/

def Places (o : Orchestrator) (p : List Nat) (places : List ClusterNodeInfo) : Prop :=
  List.Forall₂ (fun h place => o.hostMapping[h]? = some place) p places

theorem placeApp_ok {equivalence : List Nat} {i : Nat} {network network' : Network Node}
    {nodes nodes' : List Node} {affected affected' : KeySet fun n : ClusterNodeInfo => n}
    (h : placeApp id equivalence i (o, network, nodes, affected) = .ok (o', network', nodes', affected')) :
    ∃ e place, equivalence[i]? = some e ∧ o.hostMapping[e]? = some place ∧
      o' = o.assign id place ∧ affected' = affected.insert place := by
  unfold placeApp at h
  obtain ⟨e, he, h⟩ := of_bind_eq_ok h
  obtain ⟨place, hplace, h⟩ := of_bind_eq_ok h
  obtain ⟨node, -, h⟩ := of_bind_eq_ok h
  obtain ⟨node', -, h⟩ := of_bind_eq_ok h
  obtain ⟨nodes₁, -, h⟩ := of_bind_eq_ok h
  cases h
  exact ⟨e, place, get_eq_ok.mp he, get_eq_ok.mp hplace, rfl, rfl⟩

theorem placeApps_ok {equivalence : List Nat} {n : Nat} {network network' : Network Node}
    {nodes nodes' : List Node} {affected : KeySet fun n : ClusterNodeInfo => n}
    (hn : n ≤ equivalence.length)
    (h : forRange n (o, network, nodes, KeySet.empty) (placeApp id equivalence) =
      .ok (o', network', nodes', affected)) :
    ∃ places, o.Places (equivalence.take n) places ∧ o' = places.foldl (assign id) o ∧
      ∀ x, x ∈ affected.elems ↔ x ∈ places := by
  induction n generalizing o' network' nodes' affected with
  | zero =>
    cases h
    exact ⟨[], .nil, rfl, by simp⟩
  | succ n ih =>
    rw [forRange_succ] at h
    obtain ⟨⟨o₁, network₁, nodes₁, affected₁⟩, h₁, h⟩ := of_bind_eq_ok h
    obtain ⟨places, hplaces, rfl, hmem⟩ := ih (by omega) h₁
    obtain ⟨e, place, he, hplace, rfl, rfl⟩ := placeApp_ok h
    rw [(assigned_foldl id places o).cluster.hostMapping] at hplace
    refine ⟨places ++ [place], ?_, by rw [List.foldl_append]; rfl, fun x => ?_⟩
    · rw [List.take_add_one, he]
      exact List.rel_append hplaces (.cons hplace .nil)
    · rw [KeySet.mem_insert_iff, hmem, List.mem_append, List.mem_singleton]

theorem subAt_n {m m' : SymMatrix Nat} {i j d : Nat} (h : m.subAt ar i j d = .ok m') : m'.n = m.n := by
  unfold SymMatrix.subAt SymMatrix.setIndex at h
  obtain ⟨a, -, h⟩ := of_bind_eq_ok h
  obtain ⟨b, -, h⟩ := of_bind_eq_ok h
  split at h
  · cases h
    rfl
  · cases h

theorem addAt_n {m m' : SymMatrix Nat} {i j d : Nat} (h : m.addAt ar i j d = .ok m') : m'.n = m.n := by
  unfold SymMatrix.addAt SymMatrix.setIndex at h
  obtain ⟨a, -, h⟩ := of_bind_eq_ok h
  obtain ⟨b, -, h⟩ := of_bind_eq_ok h
  split at h
  · cases h
    rfl
  · cases h

theorem reserve_n {matrix r r' : SymMatrix Nat} {equivalence : List Nat} {i j : Nat}
    (h : reserve ar matrix equivalence i j r = .ok r') : r'.n = r.n := by
  unfold reserve at h
  obtain ⟨hi, -, h⟩ := of_bind_eq_ok h
  obtain ⟨hj, -, h⟩ := of_bind_eq_ok h
  split at h
  · cases h
    rfl
  · obtain ⟨d, -, h⟩ := of_bind_eq_ok h
    exact subAt_n h

theorem release_n {matrix r r' : SymMatrix Nat} {equivalence : List Nat} {i j : Nat}
    (h : release ar matrix equivalence i j r = .ok r') : r'.n = r.n := by
  unfold release at h
  split at h
  · cases h
    rfl
  · obtain ⟨hi, -, h⟩ := of_bind_eq_ok h
    obtain ⟨hj, -, h⟩ := of_bind_eq_ok h
    obtain ⟨d, -, h⟩ := of_bind_eq_ok h
    exact addAt_n h

/-- An emulation that was placed: its demands, its placement, and what was taken for it. -/
structure Placed (ar : Arith) (it : Iter) (o : Orchestrator) (id : Uuid) (matrix : SymMatrix Nat)
    (p : List Nat) (places : List ClusterNodeInfo) (o' : Orchestrator) : Prop where
  found : Found ar it o matrix p
  located : o.Places p places
  reserved : forRange matrix.size o.residualGraph (fun i residualGraph =>
    forRange i residualGraph (reserve ar matrix p i)) = .ok o'.residualGraph
  cluster : SameCluster o o'
  emulations : o'.emulations = o.emulations.put id (matrix, p)
  loadOf : ∀ h u, o'.loadOf h u =
    if u = id ∧ h ∈ places then some ((o.loadOf h u).getD 0 + places.count h) else o.loadOf h u
  attributed : ∀ h u, o'.Attributed h u ↔ o.Attributed h u ∨ (u = id ∧ h ∈ places)
  hosts : ∀ h, o'.currentLoad.lookup h ≠ none ↔ o.currentLoad.lookup h ≠ none ∨ h ∈ places

theorem newEmulation_placed {network network' : Network Node} {nodes : List ClusterNodeInfo}
    (h : o.newEmulation ar it network id = .ok (o', some (network', nodes))) :
    ∃ matrix apps p places, network.bandwidthMatrix it Node.isApp = .ok (matrix, apps) ∧
      Placed ar it o id matrix p places o' ∧ (nodes.Nodup ∧ ∀ x, x ∈ nodes ↔ x ∈ places) ∧
      ∃ s, forRange matrix.size (o, network, apps, KeySet.empty) (placeApp id p) = .ok s ∧
        network' = s.2.1 := by
  unfold newEmulation at h
  obtain ⟨⟨matrix, apps⟩, hmatrix, h⟩ := of_bind_eq_ok h
  obtain ⟨found, hfound, h⟩ := of_bind_eq_ok h
  cases found with
  | none => cases h
  | some p =>
    obtain ⟨⟨o₁, network₁, nodes₁, affected⟩, hplace, h⟩ := of_bind_eq_ok h
    obtain ⟨residualGraph, hreserve, h⟩ := of_bind_eq_ok h
    cases h
    have hfound := findIsomorphism_found hfound
    obtain ⟨places, hplaces, rfl, hmem⟩ := placeApps_ok hfound.length.ge hplace
    have hassigned := assigned_foldl id places o
    rw [hassigned.residualGraph] at hreserve
    refine ⟨matrix, apps, p, places, hmatrix, ⟨hfound, ?_, hreserve, ⟨hassigned.cluster.hostMapping,
      hassigned.cluster.maxLoad, hassigned.cluster.emanagersPort⟩, ?_, hassigned.loadOf,
      hassigned.attributed, hassigned.hosts⟩, ⟨(it.perm _).nodup_iff.mpr affected.elems_nodup,
      fun x => ?_⟩, _, hplace, rfl⟩
    · have hall : p.take matrix.n = p := List.take_of_length_le hfound.length.le
      rwa [hall] at hplaces
    · show KeySet.put _ _ _ = _
      rw [hassigned.emulations]
    · rw [it.mem_order, hmem]

theorem newEmulation_some {network network' : Network Node} {nodes : List ClusterNodeInfo}
    (h : o.newEmulation ar it network id = .ok (o', some (network', nodes))) :
    ∃ matrix p places, Placed ar it o id matrix p places o' ∧ nodes.Nodup ∧
      ∀ x, x ∈ nodes ↔ x ∈ places := by
  obtain ⟨matrix, apps, p, places, -, hplaced, hnodes, -⟩ := newEmulation_placed h
  exact ⟨matrix, p, places, hplaced, hnodes⟩

theorem newEmulation_none {ar : Arith} {it : Iter} {o o' : Orchestrator} {network : Network Node}
    {emulId : Uuid} (h : o.newEmulation ar it network emulId = .ok (o', none)) : o' = o := by
  unfold newEmulation at h
  obtain ⟨⟨matrix, nodes⟩, -, h⟩ := of_bind_eq_ok h
  obtain ⟨equivalence, -, h⟩ := of_bind_eq_ok h
  cases equivalence with
  | none =>
    cases h
    rfl
  | some equivalence =>
    obtain ⟨⟨o₁, network₁, nodes₁, affected⟩, -, h⟩ := of_bind_eq_ok h
    obtain ⟨residualGraph, -, h⟩ := of_bind_eq_ok h
    cases h

theorem newEmulation_loads {ar : Arith} {it : Iter} {o o' : Orchestrator}
    {network network' : Network Node} {emulId : Uuid} {nodes : List ClusterNodeInfo}
    (h : o.newEmulation ar it network emulId = .ok (o', some (network', nodes)))
    {n : ClusterNodeInfo} (hn : n ∈ nodes) : o'.currentLoad ≠ o.currentLoad := by
  obtain ⟨matrix, p, places, hplaced, -, hmem⟩ := newEmulation_some h
  intro hsame
  have hplace : n ∈ places := (hmem n).mp hn
  have hcount : 0 < places.count n := List.count_pos_iff.mpr hplace
  have hload := hplaced.loadOf n emulId
  rw [if_pos ⟨rfl, hplace⟩, loadOf, hsame, ← loadOf] at hload
  cases hold : o.loadOf n emulId with
  | none =>
    rw [hold] at hload
    cases hload
  | some l =>
    rw [hold] at hload
    simp only [Option.getD_some, Option.some.injEq] at hload
    omega

/-! ## Stopping -/

structure Unloaded (id : Uuid) (node : ClusterNodeInfo) (o o' : Orchestrator) : Prop where
  residualGraph : o'.residualGraph = o.residualGraph
  cluster : SameCluster o o'
  emulations : o'.emulations = o.emulations
  loadOf : ∀ h u, o'.loadOf h u =
    if h = node ∧ u = id then (o.loadOf h u).bind fun l => if l = 1 then none else some (l - 1)
    else o.loadOf h u
  attributed : ∀ h u, o'.Attributed h u ↔
    o.Attributed h u ∧ ¬ (h = node ∧ u = id ∧ o.loadOf node id = some 1)
  hosts : ∀ h, o'.currentLoad.lookup h ≠ none ↔ o.currentLoad.lookup h ≠ none

theorem loadOf_of_put {node : ClusterNodeInfo} {map : UuidMap Nat}
    (h : o'.currentLoad = o.currentLoad.put node map) (x : ClusterNodeInfo) (u : Uuid) :
    o'.loadOf x u = if x = node then map.lookup u else o.loadOf x u := by
  rw [loadOf, h, KeySet.lookup_put]
  split
  · rfl
  · rfl

theorem hosts_of_put {node : ClusterNodeInfo} {map map' : UuidMap Nat}
    (h : o'.currentLoad = o.currentLoad.put node map') (hnode : o.currentLoad.lookup node = some map)
    (x : ClusterNodeInfo) : o'.currentLoad.lookup x ≠ none ↔ o.currentLoad.lookup x ≠ none := by
  rw [h, KeySet.lookup_put]
  split <;> rename_i hx
  · rw [hx, hnode]
    simp
  · rfl

theorem unload_ok {node : ClusterNodeInfo} (h : o.unload id node = .ok o') : Unloaded id node o o' := by
  unfold unload at h
  obtain ⟨⟨k, map⟩, hmap, h⟩ := of_bind_eq_ok h
  rw [unwrap_eq_ok, KeySet.get?_eq_lookup, Option.map_eq_some_iff] at hmap
  obtain ⟨_, hnode, heq⟩ := hmap
  cases heq
  have hall : ∀ u, o.loadOf node u = map.lookup u := fun u => by
    rw [loadOf, hnode]
    rfl
  have hload := hall id
  simp only [KeySet.get?_eq_lookup] at h
  cases hid : map.lookup id with
  | none =>
    rw [hid] at h hload
    cases h
    refine ⟨rfl, ⟨rfl, rfl, rfl⟩, rfl, fun x u => ?_, fun x u => ?_, fun x => Iff.rfl⟩
    · split <;> rename_i hx
      · rw [hx.1, hx.2, hload]
        rfl
      · rfl
    · simp [hload]
  | some load =>
    rw [hid] at h hload
    simp only [Option.map_some] at h
    obtain ⟨load', hsub, hrest⟩ := of_bind_eq_ok h
    clear h
    obtain ⟨hpos, rfl⟩ := usizeSub_eq_ok.mp hsub
    split at hrest <;> rename_i hzero
    · -- The last app of the emulation on the host.
      obtain ⟨⟨k, uuids⟩, huuids, hlast⟩ := of_bind_eq_ok hrest
      rw [unwrap_eq_ok, Option.map_eq_some_iff] at huuids
      obtain ⟨_, hattr, heq⟩ := huuids
      cases heq
      cases hlast
      have hone : load = 1 := by omega
      subst hone
      refine ⟨rfl, ⟨rfl, rfl, rfl⟩, rfl, fun x u => ?_, fun x u => ?_, hosts_of_put rfl hnode⟩
      · rw [loadOf_of_put rfl x u, KeySet.lookup_remove]
        by_cases hx : x = node <;> by_cases hu : u = id <;> simp [hx, hu, hall, hid]
      · unfold Attributed
        rw [KeySet.lookup_put]
        by_cases hx : x = node
        · subst hx
          simp [hattr, hload, KeySet.remove]
        · simp [hx]
    · cases hrest
      have hne : load ≠ 1 := by omega
      refine ⟨rfl, ⟨rfl, rfl, rfl⟩, rfl, fun x u => ?_, fun x u => ?_, hosts_of_put rfl hnode⟩
      · rw [loadOf_of_put rfl x u, KeySet.lookup_put]
        by_cases hx : x = node <;> by_cases hu : u = id <;> simp [hx, hu, hall, hid, hne]
      · show o.Attributed x u ↔ _
        simp [hload, hne]

structure AppStopped (ar : Arith) (o : Orchestrator) (id : Uuid) (node : ClusterNodeInfo)
    (appIndex : Nat) (matrix : SymMatrix Nat) (p : List Nat) (o' : Orchestrator) : Prop where
  emulation : o.emulations.lookup id = some (matrix, p)
  released : forRange matrix.size o.residualGraph (fun i residualGraph =>
    if i = appIndex then pure residualGraph
    else release ar matrix p appIndex i residualGraph) = .ok o'.residualGraph
  cluster : SameCluster o o'
  loadOf : ∀ h u, o'.loadOf h u =
    if h = node ∧ u = id then (o.loadOf h u).bind fun l => if l = 1 then none else some (l - 1)
    else o.loadOf h u
  attributed : ∀ h u, o'.Attributed h u ↔
    o.Attributed h u ∧ ¬ (h = node ∧ u = id ∧ o.loadOf node id = some 1)
  hosts : ∀ h, o'.currentLoad.lookup h ≠ none ↔ o.currentLoad.lookup h ≠ none
  kept : (∃ h, o'.Attributed h id) → o'.emulations = o.emulations
  forgotten : (¬ ∃ h, o'.Attributed h id) → o'.emulations = o.emulations.remove id

theorem any_attributed : (o.attributedEmul.elems.any fun p => p.2.contains id) = true ↔
    ∃ h, o.Attributed h id := by
  rw [List.any_eq_true]
  constructor
  · rintro ⟨⟨h, uuids⟩, hmem, hcontains⟩
    have hid := KeySet.contains_iff.mp hcontains
    rw [KeySet.keys, List.map_id'] at hid
    exact ⟨h, uuids, KeySet.lookup_eq_some.mpr hmem, hid⟩
  · rintro ⟨h, uuids, hlookup, hid⟩
    refine ⟨(h, uuids), KeySet.lookup_eq_some.mp hlookup, KeySet.contains_iff.mpr ?_⟩
    rw [KeySet.keys, List.map_id']
    exact hid

theorem stopAppEmulationOn_ok {node : ClusterNodeInfo} {appIndex : Nat}
    (h : o.stopAppEmulationOn ar id node appIndex = .ok o') :
    ∃ matrix p, AppStopped ar o id node appIndex matrix p o' := by
  unfold stopAppEmulationOn at h
  rw [KeySet.get?_eq_lookup] at h
  cases hemul : o.emulations.lookup id with
  | none =>
    rw [hemul] at h
    cases h
  | some entry =>
    obtain ⟨matrix, p⟩ := entry
    rw [hemul] at h
    simp only [Option.map_some] at h
    obtain ⟨residualGraph, hreleased, h⟩ := of_bind_eq_ok h
    obtain ⟨o₁, hunload, h⟩ := of_bind_eq_ok h
    have hunloaded := unload_ok hunload
    refine ⟨matrix, p, ?_⟩
    split at h <;> rename_i hany <;> cases h
    · rw [any_attributed] at hany
      exact ⟨hemul, hreleased.trans (congrArg _ hunloaded.residualGraph.symm), ⟨hunloaded.cluster.hostMapping,
        hunloaded.cluster.maxLoad, hunloaded.cluster.emanagersPort⟩, hunloaded.loadOf,
        hunloaded.attributed, hunloaded.hosts, fun _ => hunloaded.emulations,
        fun hno => absurd hany hno⟩
    · rw [any_attributed] at hany
      refine ⟨hemul, hreleased.trans (congrArg _ hunloaded.residualGraph.symm),
        ⟨hunloaded.cluster.hostMapping,
        hunloaded.cluster.maxLoad, hunloaded.cluster.emanagersPort⟩, hunloaded.loadOf,
        hunloaded.attributed, hunloaded.hosts, fun hyes => absurd hyes hany, fun _ => ?_⟩
      show KeySet.remove _ _ = _
      rw [hunloaded.emulations]

structure Stopped (ar : Arith) (o : Orchestrator) (id : Uuid) (matrix : SymMatrix Nat) (p : List Nat)
    (o' : Orchestrator) : Prop where
  emulation : o.emulations.lookup id = some (matrix, p)
  released : forRange matrix.size o.residualGraph (fun i residualGraph =>
    forRange i residualGraph (release ar matrix p i)) = .ok o'.residualGraph
  cluster : SameCluster o o'
  loadOf : ∀ h u, o'.loadOf h u = if u = id then none else o.loadOf h u
  attributed : ∀ h u, o'.Attributed h u ↔ o.Attributed h u ∧ u ≠ id
  hosts : ∀ h, o'.currentLoad.lookup h ≠ none ↔ o.currentLoad.lookup h ≠ none
  emulations : o'.emulations = o.emulations.remove id

theorem stopEmulation_ok (h : o.stopEmulation ar id = .ok o') :
    ∃ matrix p, Stopped ar o id matrix p o' := by
  unfold stopEmulation at h
  rw [KeySet.get?_eq_lookup] at h
  cases hemul : o.emulations.lookup id with
  | none =>
    rw [hemul] at h
    cases h
  | some entry =>
    obtain ⟨matrix, p⟩ := entry
    rw [hemul] at h
    simp only [Option.map_some] at h
    obtain ⟨residualGraph, hreleased, h⟩ := of_bind_eq_ok h
    cases h
    refine ⟨matrix, p, hemul, hreleased, ⟨rfl, rfl, rfl⟩, fun x u => ?_, fun x u => ?_, fun x => ?_, rfl⟩
    · unfold loadOf
      rw [KeySet.lookup_mapValues]
      cases o.currentLoad.lookup x with
      | none => simp
      | some map => simp [KeySet.lookup_remove]
    · unfold Attributed
      rw [KeySet.lookup_mapValues]
      cases o.attributedEmul.lookup x with
      | none => simp
      | some uuids => simp [KeySet.remove]
    · rw [KeySet.lookup_mapValues]
      simp

/-! ## Changes of the cluster -/

/-- The ids of `uuids` are gone from a table, and no other one. -/
def Forgets {V : Type} (uuids : List Uuid) (table table' : UuidMap V) : Prop :=
  ∀ u, table'.lookup u = if u ∈ uuids then none else table.lookup u

theorem Forgets.refl {V : Type} (table : UuidMap V) : Forgets [] table table := fun u => by simp

theorem Forgets.trans {V : Type} {uuids uuids' : List Uuid} {table table' table'' : UuidMap V}
    (h : Forgets uuids table table') (h' : Forgets uuids' table' table'') :
    Forgets (uuids ++ uuids') table table'' := by
  intro u
  rw [h' u, h u]
  by_cases hu : u ∈ uuids <;> by_cases hu' : u ∈ uuids' <;> simp [hu, hu']

theorem release_noErr (matrix r : SymMatrix Nat) (equivalence : List Nat) (i j : Nat) :
    NoErr (release ar matrix equivalence i j r) := by
  unfold release SymMatrix.addAt SymMatrix.index SymMatrix.setIndex Arith.add
  split
  · exact NoErr.ok r
  · refine (NoErr.get _ _).bind fun hi => (NoErr.get _ _).bind fun hj => (NoErr.get _ _).bind fun d => ?_
    refine (NoErr.get _ _).bind fun a => NoErr.bind ?_ fun b => ?_
    · cases ar with
      | checked =>
        simp only
        split <;> simp [NoErr]
      | wrapping | exact => exact NoErr.ok _
    · split <;> simp [NoErr]

theorem stopEmulation_err {message : String} (h : o.stopEmulation ar id = .error (.err message)) :
    o.emulations.lookup id = none := by
  unfold stopEmulation at h
  rw [KeySet.get?_eq_lookup] at h
  cases hemul : o.emulations.lookup id with
  | none => rfl
  | some entry =>
    rw [hemul] at h
    exact absurd h ((NoErr.forRange fun i r => NoErr.forRange fun j r => release_noErr _ r _ i j).bind
      (fun _ => NoErr.ok _) message)

theorem unload_noErr (node : ClusterNodeInfo) : NoErr (o.unload id node) := by
  unfold unload
  refine (NoErr.unwrap _).bind fun r => ?_
  obtain ⟨k, map⟩ := r
  simp only
  cases map.get? id with
  | none => exact NoErr.ok _
  | some entry =>
    obtain ⟨u, load⟩ := entry
    refine NoErr.bind (NoErr.usizeSub _ _) fun load => ?_
    split
    · exact (NoErr.unwrap _).bind fun _ => NoErr.ok _
    · exact NoErr.ok _

theorem stopAppEmulationOn_err {node : ClusterNodeInfo} {appIndex : Nat} {message : String}
    (h : o.stopAppEmulationOn ar id node appIndex = .error (.err message)) :
    o.emulations.lookup id = none := by
  unfold stopAppEmulationOn at h
  rw [KeySet.get?_eq_lookup] at h
  cases hemul : o.emulations.lookup id with
  | none => rfl
  | some entry =>
    rw [hemul] at h
    refine absurd h (NoErr.bind (NoErr.forRange fun i r => ?_)
      (fun r => (unload_noErr node).bind fun o₁ => ?_) message)
    · split
      · exact NoErr.ok r
      · exact release_noErr _ r _ appIndex i
    · split <;> exact NoErr.ok _

theorem stopEach_inv {uuids : List Uuid} (I : List Uuid → Orchestrator → Prop) (hs : I [] o)
    (hstop : ∀ done u s s', I done s → (s.stopEmulation ar u = .ok s' ∨
      s.emulations.lookup u = none ∧ s' = s) → I (done ++ [u]) s')
    (h : uuids.foldlM (fun (o : Orchestrator) uuid =>
      match o.stopEmulation ar uuid with
      | .error (.err _) => pure o
      | r => r) o = .ok o') : I uuids o' := by
  refine foldlM_ok_done I hs (fun done u _ s s' _ hI h => hstop done u s s' hI ?_) h
  cases hstop : s.stopEmulation ar u with
  | error e =>
    rw [hstop] at h
    cases e with
    | err message =>
      cases h
      exact Or.inr ⟨stopEmulation_err hstop, rfl⟩
    | _ => cases h
  | ok s₁ =>
    rw [hstop] at h
    exact Or.inl h

theorem stopEach_forgets {uuids : List Uuid} (h : uuids.foldlM (fun (o : Orchestrator) uuid =>
      match o.stopEmulation ar uuid with
      | .error (.err _) => pure o
      | r => r) o = .ok o') : Forgets uuids o.emulations o'.emulations := by
  refine stopEach_inv (fun done s => Forgets done o.emulations s.emulations) (Forgets.refl _)
    (fun done u s s' hs h => hs.trans fun v => ?_) h
  simp only [List.mem_singleton]
  rcases h with h | ⟨hnone, rfl⟩
  · obtain ⟨matrix, p, hstopped⟩ := stopEmulation_ok h
    rw [hstopped.emulations, KeySet.lookup_remove]
  · split <;> rename_i hv
    · rw [hv, hnone]
    · rfl

/-- A node that was removed: the emulations `uuids` were stopped first, which gave `o₁`. -/
structure NodeRemoved (ar : Arith) (o : Orchestrator) (node : ClusterNodeInfo) (uuids : List Uuid)
    (i : Nat) (o₁ o' : Orchestrator) : Prop where
  index : o.hostMapping.findIdx? (fun n => n = { node with port := o.emanagersPort }) = some i
  concerned : ∀ u, u ∈ uuids ↔ ∃ h, o.Attributed h u
  stopped : uuids.foldlM (fun (o : Orchestrator) uuid =>
    match o.stopEmulation ar uuid with
    | .error (.err _) => pure o
    | r => r) o = .ok o₁
  residualGraph : o₁.residualGraph.removeId i = .ok o'.residualGraph
  hostMapping : o'.hostMapping = o₁.hostMapping.eraseIdx i
  attributedEmul : o'.attributedEmul = o₁.attributedEmul.remove { node with port := o.emanagersPort }
  emulations : o'.emulations = o₁.emulations
  currentLoad : o'.currentLoad = o₁.currentLoad
  maxLoad : o'.maxLoad = o₁.maxLoad
  emanagersPort : o'.emanagersPort = o₁.emanagersPort

theorem removeClusterNode_ok {node : ClusterNodeInfo} {uuids : List Uuid}
    (h : o.removeClusterNode ar it node = .ok (o', uuids)) :
    ∃ i o₁, NodeRemoved ar o node uuids i o₁ o' := by
  unfold removeClusterNode at h
  simp only at h
  split at h
  · cases h
  · rename_i i hindex
    obtain ⟨o₁, hstop, h⟩ := of_bind_eq_ok h
    obtain ⟨residualGraph, hresidual, h⟩ := of_bind_eq_ok h
    cases h
    refine ⟨i, o₁, hindex, fun u => ?_, hstop, hresidual, rfl, rfl, rfl, rfl, rfl, rfl⟩
    simp only [List.mem_flatMap, it.mem_order]
    constructor
    · rintro ⟨⟨h, uuids⟩, hmem, hu⟩
      exact ⟨h, uuids, KeySet.lookup_eq_some.mpr hmem, hu⟩
    · rintro ⟨h, uuids, hlookup, hu⟩
      exact ⟨(h, uuids), KeySet.lookup_eq_some.mp hlookup, hu⟩

theorem NodeRemoved.forgets {node : ClusterNodeInfo} {uuids : List Uuid} {i : Nat} {o₁ : Orchestrator}
    (h : NodeRemoved ar o node uuids i o₁ o') : Forgets uuids o.emulations o'.emulations := by
  rw [h.emulations]
  exact stopEach_forgets h.stopped

theorem addClusterNode_ok {matrix : SymMatrix Nat} {nodesToIndex : HostMap Nat}
    {node : ClusterNodeInfo} (h : addClusterNode matrix nodesToIndex o node = .ok o') :
    ∃ residualGraph, o' = { o with residualGraph, hostMapping := o.hostMapping ++ [node] } := by
  unfold addClusterNode at h
  obtain ⟨index, -, h⟩ := of_bind_eq_ok h
  obtain ⟨residualGraph, -, h⟩ := of_bind_eq_ok h
  cases h
  exact ⟨residualGraph, rfl⟩

theorem updateWithCgraph_inv {cgraph : Cgraph.CGraph ClusterNodeInfo} {uuids : List Uuid}
    (I : List Uuid → Orchestrator → Prop) (hs : I [] o)
    (hremove : ∀ done node s uuids i s₁ s', I done s → NodeRemoved ar s node uuids i s₁ s' →
      I (done ++ uuids) s')
    (hadd : ∀ done matrix nodesToIndex node s s', I done s →
      addClusterNode matrix nodesToIndex s node = .ok s' → I done s')
    (hsame : ∀ done done' s, (∀ u, u ∈ done ↔ u ∈ done') → I done s → I done' s)
    (h : o.updateWithCgraph ar it cgraph = .ok (o', uuids)) : I uuids o' := by
  unfold updateWithCgraph at h
  obtain ⟨⟨matrix, nodes⟩, -, h⟩ := of_bind_eq_ok h
  obtain ⟨⟨o₁, affected⟩, hremoved, h⟩ := of_bind_eq_ok h
  obtain ⟨o₂, hadded, h⟩ := of_bind_eq_ok h
  cases h
  have hinv : I affected.elems o₁ := by
    refine foldlM_ok_inv (fun (s : Orchestrator × UuidSet) => I s.2.elems s.1) hs
      (fun node _ s s' hs h => ?_) hremoved
    obtain ⟨o₀, done⟩ := s
    simp only at h hs
    cases hnode : o₀.removeClusterNode ar it node with
    | error e =>
      rw [hnode] at h
      cases e <;> cases h
    | ok r =>
      obtain ⟨o₃, uuids⟩ := r
      rw [hnode] at h
      cases h
      obtain ⟨i, s₁, hremove'⟩ := removeClusterNode_ok hnode
      refine hsame _ _ _ (fun u => ?_) (hremove _ _ _ _ _ _ _ hs hremove')
      rw [KeySet.mem_foldl_insert, List.mem_append]
  have hinv' : I affected.elems o' :=
    foldlM_ok_inv (I affected.elems) hinv (fun node _ s s' hs h => hadd _ _ _ node s s' hs h) hadded
  exact hsame _ _ _ (fun u => (it.mem_order).symm) hinv'

theorem updateWithCgraph_forgets {cgraph : Cgraph.CGraph ClusterNodeInfo} {uuids : List Uuid}
    (h : o.updateWithCgraph ar it cgraph = .ok (o', uuids)) :
    Forgets uuids o.emulations o'.emulations := by
  refine updateWithCgraph_inv (fun done s => Forgets done o.emulations s.emulations)
    (Forgets.refl _) (fun done node s uuids i s₁ s' hs h => hs.trans h.forgets)
    (fun done matrix nodesToIndex node s s' hs h => ?_) (fun done done' s hmem hs u => ?_) h
  · obtain ⟨residualGraph, rfl⟩ := addClusterNode_ok h
    exact hs
  · simp only [hs u, hmem]

end Orchestrator

end Kollaps
