import Kollaps.Orchestrator.Undoing

/-!
# Hosts that leave and hosts that come

A host that leaves takes every emulation with it. A host that comes is looked up by its number in
the new graph, where its row in the residual graph is asked for.
-/

namespace Kollaps

open Run

namespace Orchestrator

variable {ar : Arith} {it : Iter} {w : World} {o o' : Orchestrator} {node : ClusterNodeInfo}
  {uuids : List Uuid}

/-! ## A host that leaves -/

def inMapping (o : Orchestrator) (node : ClusterNodeInfo) : ClusterNodeInfo :=
  { node with port := o.emanagersPort }

/-- The emulation has an app on the host that has not stopped. -/
def World.Uses (w : World) (u : Uuid) (host : ClusterNodeInfo) : Prop := (w.running host u).Nonempty

/-- Only the emulations that use the host go. The others keep their entry, with a placement on the
same hosts, their loads, and what they took. -/
structure OnlyUsers (ar : Arith) (w : World) (host : ClusterNodeInfo) (uuids : List Uuid)
    (o' : Orchestrator) :
    Prop where
  gone : ∀ u, u ∈ uuids ↔ w.Uses u host
  entry : ∀ u matrix p, ¬ w.Uses u host → w.orchestrator.emulations.lookup u = some (matrix, p) →
    ∃ p', o'.emulations.lookup u = some (matrix, p') ∧
      ∀ places, w.orchestrator.Places p places → o'.Places p' places
  load : ∀ u, ¬ w.Uses u host → ∀ h, o'.loadOf h u = w.orchestrator.loadOf h u
  reservation : ∀ a ∈ o'.hostMapping, ∀ b ∈ o'.hostMapping, ar.Agrees (o'.left a b)
    (w.orchestrator.left a b + w.orchestrator.takenBy uuids (w.orchestrator.place a) (w.orchestrator.place b))

theorem Represented.registered_of_uses (hw : Represented w) {u : Uuid} {host : ClusterNodeInfo}
    (h : w.Uses u host) : w.orchestrator.emulations.lookup u ≠ none := by
  intro hnone
  have hempty := hw.running_eq_empty hnone host
  rw [Finset.card_eq_zero] at hempty
  exact Finset.nonempty_iff_ne_empty.mp h hempty

theorem Represented.uses_iff (hw : Represented w) {u : Uuid} {host : ClusterNodeInfo} :
    w.Uses u host ↔ w.orchestrator.loadOf host u ≠ none := by
  rw [hw.load, World.Uses, Finset.nonempty_iff_ne_empty, ne_eq, ← Finset.card_eq_zero]
  by_cases h : (w.running host u).card = 0 <;> simp [h]

/-- A removal stops every emulation, so it stops only those that use the host when all of them do. -/
theorem removal_frame_iff (hw : Reached ar w)
    (h : w.orchestrator.removeClusterNode ar it node = .ok (o', uuids)) :
    OnlyUsers ar w (w.orchestrator.inMapping node) uuids o' ↔
      ∀ u, w.orchestrator.emulations.lookup u ≠ none → w.Uses u (w.orchestrator.inMapping node) := by
  have hrep := hw.represented
  obtain ⟨i, o₁, hremoved⟩ := removeClusterNode_ok h
  have hgone := hremoved.hostRemoved hrep.wf
  constructor
  · intro honly u hu
    exact (honly.gone u).mp ((hgone.stopped u).mpr hu)
  · intro hall
    have hnone : ∀ u, ¬ w.Uses u (w.orchestrator.inMapping node) →
      w.orchestrator.emulations.lookup u = none :=
      fun u hu => not_not.mp fun hne => hu (hall u hne)
    refine ⟨fun u => ?_, fun u matrix p hu hlookup => ?_, fun u hu x => ?_, hgone.back⟩
    · rw [hgone.stopped]
      exact ⟨hall u, hrep.registered_of_uses⟩
    · rw [hnone u hu] at hlookup
      cases hlookup
    · rw [(hgone.idle x u).1, (hrep.wf.accounted.idle (hnone u hu) x).1]

theorem removal_frame_demo : ∃ (w : World) (uuids : List Uuid) (o' : Orchestrator), Reached .checked w ∧
    w.orchestrator.removeClusterNode .checked .inOrder (demoHost 1) = .ok (o', uuids) ∧
    OnlyUsers .checked w (w.orchestrator.inMapping (demoHost 1)) uuids o' := by
  obtain ⟨graph, -, hips, o, ho, hfresh, network, -, happ, ⟨o₁, r⟩, hnew, hsome, hused, ⟨o', uuids⟩,
    hremoved, -⟩ :
      Returns (demoCluster [0, 1] 1000) fun graph => DistinctIps graph ∧
        Returns (Orchestrator.new .inOrder graph 9092 1) fun o => o.emulations.lookup ⟨1⟩ = none ∧
          Returns (demoTopology 2 100) fun network => (∃ v ∈ network.vertices .inOrder, v.isApp = true) ∧
            Returns (o.newEmulation .checked .inOrder network ⟨1⟩) fun r => r.2.isSome = true ∧
              (∀ e ∈ r.1.emulations.elems, r.1.loadOf (r.1.inMapping (demoHost 1)) e.1 ≠ none) ∧
              Returns (r.1.removeClusterNode .checked .inOrder (demoHost 1)) fun _ => True := by
    decide +kernel
  obtain ⟨⟨network', nodes⟩, rfl⟩ := Option.isSome_iff_exists.mp hsome
  have hstart : Reached .checked ⟨o, KeySet.empty⟩ := .new hips ho
  obtain ⟨places, hreached⟩ := hstart.placed hfresh happ hnew
  refine ⟨_, uuids, o', hreached, hremoved, (removal_frame_iff hreached hremoved).mpr fun u hu => ?_⟩
  obtain ⟨e, he⟩ := Option.ne_none_iff_exists'.mp hu
  exact hreached.represented.uses_iff.mpr (hused (u, e) (KeySet.lookup_eq_some.mp he))

/-- Two hosts with one app on the first: the second host takes the emulation with it. -/
theorem removal_stops_all : ∃ (w : World) (uuids : List Uuid) (o' : Orchestrator), Reached .checked w ∧
    w.orchestrator.inMapping (demoHost 1) ∈ w.orchestrator.hostMapping ∧
    w.orchestrator.removeClusterNode .checked .inOrder (demoHost 1) = .ok (o', uuids) ∧
    ¬ w.Uses ⟨1⟩ (w.orchestrator.inMapping (demoHost 1)) ∧ ⟨1⟩ ∈ uuids ∧
    w.orchestrator.emulations.lookup ⟨1⟩ ≠ none ∧ o'.emulations.lookup ⟨1⟩ = none ∧
    ¬ OnlyUsers .checked w (w.orchestrator.inMapping (demoHost 1)) uuids o' := by
  obtain ⟨graph, -, hips, o, ho, hfresh, network, -, happ, ⟨o₁, r⟩, hnew, hsome, hunused,
    ⟨o', uuids⟩, hremoved,
      hgone⟩ :
      Returns (demoCluster [0, 1] 1000) fun graph => DistinctIps graph ∧
        Returns (Orchestrator.new .inOrder graph 9092 4) fun o => o.emulations.lookup ⟨1⟩ = none ∧
          Returns (demoTopology 1 100) fun network => (∃ v ∈ network.vertices .inOrder, v.isApp = true) ∧
            Returns (o.newEmulation .checked .inOrder network ⟨1⟩) fun r => r.2.isSome = true ∧
              r.1.loadOf (r.1.inMapping (demoHost 1)) ⟨1⟩ = none ∧
              Returns (r.1.removeClusterNode .checked .inOrder (demoHost 1)) fun r' => ⟨1⟩ ∈ r'.2 := by
    decide +kernel
  obtain ⟨⟨network', nodes⟩, rfl⟩ := Option.isSome_iff_exists.mp hsome
  have hstart : Reached .checked ⟨o, KeySet.empty⟩ := .new hips ho
  obtain ⟨places, hreached⟩ := hstart.placed hfresh happ hnew
  obtain ⟨i, o₂, hnode⟩ := removeClusterNode_ok hremoved
  have hall := hnode.hostRemoved hreached.represented.wf
  have hidle : ¬ (⟨o₁, KeySet.put KeySet.empty ⟨1⟩ ⟨places, []⟩⟩ : World).Uses ⟨1⟩
    (o₁.inMapping (demoHost 1)) :=
    fun huses => hreached.represented.uses_iff.mp huses hunused
  exact ⟨_, uuids, o', hreached, hall.known, hremoved, hidle, hgone, (hall.stopped ⟨1⟩).mp hgone,
    hall.empty ⟨1⟩,
    fun honly => hidle ((honly.gone ⟨1⟩).mp hgone)⟩

/-! ## Hosts that come -/

/-- The mapping after an update: the hosts that stay, then the new ones. -/
def mappingWith (o : Orchestrator) (nodes : List ClusterNodeInfo) : List ClusterNodeInfo :=
  o.staying nodes ++ o.coming nodes

/-- New hosts have the speeds of the graph, and hosts that stay have what they had with what the
stopped emulations gave back. -/
structure HostsMeasured (ar : Arith) (o : Orchestrator) (matrix : SymMatrix Nat)
    (nodes : List ClusterNodeInfo)
    (uuids : List Uuid) (o' : Orchestrator) : Prop where
  new : ∀ h ∈ o.coming nodes, ∀ a ∈ o.mappingWith nodes, a ≠ h →
    o'.left h a = speedBetween matrix nodes h a
  kept : ∀ a ∈ o.staying nodes, ∀ b ∈ o.staying nodes,
    ar.Agrees (o'.left a b) (o.left a b + o.takenBy uuids (o.place a) (o.place b))

/-- The row of `a` has the number that the graph gives to the new host `h`. -/
def Mistaken (o : Orchestrator) (nodes : List ClusterNodeInfo) (h a : ClusterNodeInfo) : Prop :=
  (o.mappingWith nodes).idxOf a < (o.mappingWith nodes).idxOf h ∧
    (o.mappingWith nodes).idxOf a = nodes.idxOf h

theorem speedBetween_comm (matrix : SymMatrix Nat) (nodes : List ClusterNodeInfo) (a b : ClusterNodeInfo) :
    speedBetween matrix nodes a b = speedBetween matrix nodes b a := matrix.entry_comm _ _

theorem coming_of_behind {nodes : List ClusterNodeInfo} {h a : ClusterNodeInfo} (hh : h ∈ o.coming nodes)
    (ha : a ∈ o.mappingWith nodes)
    (hlt : (o.mappingWith nodes).idxOf h < (o.mappingWith nodes).idxOf a) : a ∈ o.coming nodes := by
  refine (List.mem_append.mp ha).resolve_left fun hstay => ?_
  have hnot : h ∉ o.staying nodes := fun hin =>
    of_decide_eq_true (List.mem_filter.mp hh).2 (List.mem_filter.mp hin).1
  have hlow := List.idxOf_lt_length_of_mem hstay
  unfold mappingWith at hlt
  rw [List.idxOf_append_of_mem hstay, List.idxOf_append_of_notMem hnot] at hlt
  omega

/-- The new hosts enter with their speeds, unless the number of one of them in the graph is the row
of a host before it. Such an entry is the speed of the new host to itself. -/
theorem new_hosts_measured_iff {cgraph : Cgraph.CGraph ClusterNodeInfo} {matrix : SymMatrix Nat}
    {nodes : List ClusterNodeInfo} (hw : Reached ar w) (hips : DistinctIps cgraph)
    (hspeeds : (convertCgraphNodeinfo it w.orchestrator.emanagersPort cgraph).speeds it = .ok (matrix, nodes))
    (h : w.orchestrator.updateWithCgraph ar it cgraph = .ok (o', uuids)) :
    HostsMeasured ar w.orchestrator matrix nodes uuids o' ↔
      ∀ h ∈ w.orchestrator.coming nodes, ∀ a ∈ w.orchestrator.mappingWith nodes,
        w.orchestrator.Mistaken nodes h a → speedBetween matrix nodes h h =
          speedBetween matrix nodes h a := by
  obtain ⟨matrix', nodes', hspeeds', -, hupdated⟩ := updateWithCgraph_ok hips hw.represented.wf h
  obtain ⟨rfl, rfl⟩ := Prod.mk.inj (Except.ok.inj (hspeeds'.symm.trans hspeeds))
  have hmap : o'.hostMapping = w.orchestrator.mappingWith nodes' := hupdated.hostMapping
  have hplace : ∀ a, o'.place a = (w.orchestrator.mappingWith nodes').idxOf a := fun a => by rw [place, hmap]
  -- An entry of a new host, as the call has filled it in.
  have hfilled : ∀ x ∈ w.orchestrator.coming nodes', ∀ a ∈ w.orchestrator.mappingWith nodes',
      (w.orchestrator.mappingWith nodes').idxOf a < (w.orchestrator.mappingWith nodes').idxOf x →
      o'.left x a = speedBetween matrix' nodes' x
        (if (w.orchestrator.mappingWith nodes').idxOf a = nodes'.idxOf x then x else a) := by
    intro x hx a ha hlt
    rw [← hplace, ← hplace] at hlt
    rw [left_comm, hupdated.new x hx a (hmap ▸ ha) hlt, hplace]
  constructor
  · intro hmeasured x hx a ha hmistaken
    have hentry := hfilled x hx a ha hmistaken.1
    rw [if_pos hmistaken.2] at hentry
    rw [← hentry]
    refine hmeasured.new x hx a ha ?_
    rintro rfl
    exact Nat.lt_irrefl _ hmistaken.1
  · intro hnot
    have hbefore : ∀ x ∈ w.orchestrator.coming nodes', ∀ a ∈ w.orchestrator.mappingWith nodes',
        (w.orchestrator.mappingWith nodes').idxOf a < (w.orchestrator.mappingWith nodes').idxOf x →
        o'.left x a = speedBetween matrix' nodes' x a := by
      intro x hx a ha hlt
      rw [hfilled x hx a ha hlt]
      split <;> rename_i hsame
      · exact hnot x hx a ha ⟨hlt, hsame⟩
      · rfl
    refine ⟨fun x hx a ha hne => ?_, hupdated.back⟩
    have hxin : x ∈ w.orchestrator.mappingWith nodes' := List.mem_append_right _ hx
    rcases Nat.lt_trichotomy ((w.orchestrator.mappingWith nodes').idxOf a)
      ((w.orchestrator.mappingWith nodes').idxOf x) with hlt | heq | hgt
    · exact hbefore x hx a ha hlt
    · exact absurd ((List.idxOf_inj ha).mp heq) hne
    · rw [left_comm, speedBetween_comm]
      exact hbefore a (coming_of_behind hx ha hgt) x hxin hgt

theorem new_hosts_measured_demo : ∃ (w : World) (matrix : SymMatrix Nat) (nodes : List ClusterNodeInfo)
    (uuids : List Uuid) (o' : Orchestrator), Reached .checked w ∧ w.orchestrator.coming nodes ≠ [] ∧
    HostsMeasured .checked w.orchestrator matrix nodes uuids o' := by
  obtain ⟨graph, -, hips, o, ho, graph', -, hips', ⟨matrix, nodes⟩, hspeeds, hcoming, hnot,
    ⟨o', uuids⟩, h, -⟩ :
      Returns (demoCluster [0, 1] 1000) fun graph => DistinctIps graph ∧
        Returns (Orchestrator.new .inOrder graph 9092 4) fun o =>
          Returns (demoCluster [0, 1, 2] 500) fun graph' => DistinctIps graph' ∧
            Returns ((convertCgraphNodeinfo .inOrder o.emanagersPort graph').speeds .inOrder) fun r =>
              o.coming r.2 ≠ [] ∧
              (∀ h ∈ o.coming r.2, ∀ a ∈ o.mappingWith r.2, ¬ ((o.mappingWith r.2).idxOf a <
                (o.mappingWith r.2).idxOf h ∧ (o.mappingWith r.2).idxOf a = r.2.idxOf h)) ∧
              Returns (o.updateWithCgraph .checked .inOrder graph') fun _ => True := by
    decide +kernel
  exact ⟨⟨o, KeySet.empty⟩, matrix, nodes, uuids, o', .new hips ho, hcoming,
    (new_hosts_measured_iff (w := ⟨o, KeySet.empty⟩) (.new hips ho) hips' hspeeds h).mpr fun x hx a
      ha hmistaken =>
      absurd hmistaken (hnot x hx a ha)⟩

/-- A new host at the front of the graph gets its own speed to itself in the first row. -/
theorem new_host_mistaken : ∃ (w : World) (cgraph : Cgraph.CGraph ClusterNodeInfo) (matrix : SymMatrix Nat)
    (nodes : List ClusterNodeInfo) (uuids : List Uuid) (o' : Orchestrator) (h a : ClusterNodeInfo),
    Reached .checked w ∧ DistinctIps cgraph ∧
    (convertCgraphNodeinfo .inOrder w.orchestrator.emanagersPort cgraph).speeds .inOrder =
      .ok (matrix, nodes) ∧
    w.orchestrator.updateWithCgraph .checked .inOrder cgraph = .ok (o', uuids) ∧
    h ∈ w.orchestrator.coming nodes ∧ a ∈ w.orchestrator.staying nodes ∧ o'.left h a = u32Max ∧
    speedBetween matrix nodes h a = 1000 ∧ ¬ HostsMeasured .checked w.orchestrator matrix nodes uuids o' := by
  obtain ⟨graph, -, hips, o, ho, cgraph, -, hips', ⟨matrix, nodes⟩, hspeeds, ⟨o', uuids⟩, h,
    hcoming, hstaying,
      hleft, hspeed⟩ :
      Returns (demoCluster [0, 1] 1000) fun graph => DistinctIps graph ∧
        Returns (Orchestrator.new .inOrder graph 9092 4) fun o =>
          Returns (demoCluster [2, 0, 1] 1000) fun graph' => DistinctIps graph' ∧
            Returns ((convertCgraphNodeinfo .inOrder o.emanagersPort graph').speeds .inOrder) fun r =>
              Returns (o.updateWithCgraph .checked .inOrder graph') fun r' =>
                o.coming r.2 = [demoHost 2] ∧ o.staying r.2 = [demoHost 0, demoHost 1] ∧
                r'.1.left (demoHost 2) (demoHost 0) = u32Max ∧
                speedBetween r.1 r.2 (demoHost 2) (demoHost 0) = 1000 := by
    decide +kernel
  have hcoming : demoHost 2 ∈ o.coming nodes := hcoming ▸ List.mem_singleton_self _
  have hstaying : demoHost 0 ∈ o.staying nodes := hstaying ▸ List.mem_cons_self
  refine ⟨⟨o, KeySet.empty⟩, cgraph, matrix, nodes, uuids, o', demoHost 2, demoHost 0, .new hips ho,
    hips', hspeeds,
    h, hcoming, hstaying, hleft, hspeed, fun hmeasured => ?_⟩
  have hentry := hmeasured.new _ hcoming _ (List.mem_append_left _ hstaying) (by decide)
  simp only at hleft hspeed
  rw [hleft, hspeed] at hentry
  exact absurd hentry (by decide)

end Orchestrator

end Kollaps
