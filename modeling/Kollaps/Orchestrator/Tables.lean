import Kollaps.Orchestrator.Cluster
import Kollaps.Orchestrator.Placement

/-!
# The tables fit together

What each call keeps of the tables of the orchestrator: the rows of the residual graph, the
placements, the loads and the attributions.
-/

namespace Kollaps

open Run

namespace KeySet

variable {κ : Type} [DecidableEq κ]

def sumBy {V : Type} (f : V → Nat) (m : KeyMap κ V) : Nat := (m.elems.map fun e => f e.2).sum

def sum (m : KeyMap κ Nat) : Nat := (m.elems.map Prod.snd).sum

section

variable {V : Type} (f : V → Nat)

theorem sumBy_eq (m : KeyMap κ V) (k : κ) : m.sumBy f = ((m.lookup k).map f).getD 0 +
    (m.remove k).sumBy f := by
  cases h : m.get? k with
  | none =>
    rw [lookup, h, sumBy, sumBy, elems_remove_of_none h]
    simp
  | some e =>
    rw [lookup, h, sumBy, ((perm_cons_remove h).map _).sum_eq, List.map_cons, List.sum_cons]
    rfl

theorem sumBy_congr {m m' : KeyMap κ V} (h : ∀ k, m'.lookup k = m.lookup k) : m'.sumBy f = m.sumBy f := by
  have hsame : Same m' m := fun k => by rw [get?_eq_lookup, get?_eq_lookup, h]
  exact (hsame.perm.map _).sum_eq

theorem sumBy_change (m m' : KeyMap κ V) {k : κ} (h : ∀ j, j ≠ k → m'.lookup j = m.lookup j) :
    m'.sumBy f + ((m.lookup k).map f).getD 0 = m.sumBy f + ((m'.lookup k).map f).getD 0 := by
  have hrest : (m'.remove k).sumBy f = (m.remove k).sumBy f := sumBy_congr f fun j => by
    rw [lookup_remove, lookup_remove]
    split <;> rename_i hj
    · rfl
    · exact h j hj
  rw [m'.sumBy_eq f k, m.sumBy_eq f k, hrest]
  omega

end

theorem sum_change (m m' : KeyMap κ Nat) {k : κ} (h : ∀ j, j ≠ k → m'.lookup j = m.lookup j) :
    m'.sum + (m.lookup k).getD 0 = m.sum + (m'.lookup k).getD 0 := by
  have hchange := sumBy_change id m m' h
  rwa [Option.map_id, id, id] at hchange

theorem sum_eq_zero {m : KeyMap κ Nat} (h : ∀ k, m.lookup k = none) : m.sum = 0 := by
  have hnil : m.elems = [] := by
    rw [List.eq_nil_iff_forall_not_mem]
    rintro ⟨k, v⟩ hmem
    have hsome := lookup_eq_some.mpr hmem
    rw [h] at hsome
    cases hsome
  rw [sum, hnil]
  rfl

end KeySet

namespace Orchestrator

variable {ar : Arith} {it : Iter} {o o' : Orchestrator} {id : Uuid} {matrix : SymMatrix Nat} {p : List Nat}

/-! ## Loads -/

def loadsOn (o : Orchestrator) (host : ClusterNodeInfo) : UuidMap Nat :=
  (o.currentLoad.lookup host).getD KeySet.empty

theorem lookup_loadsOn (host : ClusterNodeInfo) (u : Uuid) : (o.loadsOn host).lookup u = o.loadOf host u := by
  unfold loadsOn loadOf
  cases o.currentLoad.lookup host <;> rfl

theorem totalLoad_eq (host : ClusterNodeInfo) : o.totalLoad host = (o.loadsOn host).sum := by
  unfold totalLoad loadsOn
  cases o.currentLoad.lookup host <;> rfl

/-- Where the load of one emulation changes, the whole load changes as much. -/
theorem totalLoad_change (o o' : Orchestrator) (id : Uuid) (host : ClusterNodeInfo)
    (h : ∀ u, u ≠ id → o'.loadOf host u = o.loadOf host u) :
    o'.totalLoad host + (o.loadOf host id).getD 0 = o.totalLoad host + (o'.loadOf host id).getD 0 := by
  have hchange := KeySet.sum_change (o.loadsOn host) (o'.loadsOn host) (k := id) fun u hu => by
    rw [lookup_loadsOn, lookup_loadsOn, h u hu]
  rwa [lookup_loadsOn, lookup_loadsOn, ← totalLoad_eq, ← totalLoad_eq] at hchange

theorem totalLoad_idle {host : ClusterNodeInfo} (h : ∀ u, o.loadOf host u = none) : o.totalLoad host = 0 := by
  rw [totalLoad_eq]
  exact KeySet.sum_eq_zero fun u => by rw [lookup_loadsOn, h]

/-! ## Stopping a list of emulations -/

def cellsOf (e : SymMatrix Nat × List Nat) : List Cell := (pairsBelow e.1.n).map (cellOf e.1 e.2)

/-- What the emulations among `us` take between two places, as their pairs of apps ask for it. -/
def takenBy (o : Orchestrator) (us : List Uuid) (i j : Nat) : Nat :=
  ((o.emulations.elems.filter fun e => e.1 ∈ us).map fun e => Cell.total i j (cellsOf e.2)).sum

/-- The placements point into the mapping. -/
def InRange (o : Orchestrator) (n : Nat) : Prop :=
  ∀ u matrix p, o.emulations.lookup u = some (matrix, p) → p.length = matrix.n ∧ ∀ x ∈ p, x < n

theorem cellsOf_within {n : Nat} (hlen : p.length = matrix.n) (hlt : ∀ x ∈ p, x < n) :
    Cell.Within n (cellsOf (matrix, p)) := by
  refine within_map hlt fun pair hpair => ?_
  obtain ⟨h1, h2⟩ : pair.1 < matrix.n ∧ pair.2 < pair.1 := mem_pairsBelow.mp hpair
  rw [hlen]
  exact ⟨h1, by omega⟩

theorem takenBy_snoc_known {us : List Uuid} {i j : Nat} {e : SymMatrix Nat × List Nat}
    (hid : id ∉ us) (he : o.emulations.lookup id = some e) :
    o.takenBy (us ++ [id]) i j = o.takenBy us i j + Cell.total i j (cellsOf e) := by
  have hget : o.emulations.get? id = some (id, e) := by
    rw [KeySet.get?_eq_lookup, he]
    rfl
  have hperm := KeySet.perm_cons_remove hget
  have hne : ∀ x ∈ (o.emulations.remove id).elems, x.1 ≠ id := fun x hx => by
    rw [KeySet.remove, KeySet.elems_filter, List.mem_filter] at hx
    simpa using hx.2
  have hsame : (o.emulations.remove id).elems.filter (fun x => decide (x.1 ∈ us ++ [id])) =
      (o.emulations.remove id).elems.filter fun x => decide (x.1 ∈ us) := by
    refine List.filter_congr fun x hx => ?_
    simp [hne x hx]
  unfold takenBy
  rw [((hperm.filter _).map _).sum_eq, ((hperm.filter fun x => decide (x.1 ∈ us)).map _).sum_eq,
    List.filter_cons_of_pos (by simp), List.filter_cons_of_neg (by simpa using hid), hsame, List.map_cons,
    List.sum_cons, Nat.add_comm]

theorem takenBy_snoc_gone {us : List Uuid} {i j : Nat} (h : id ∈ us ∨ o.emulations.lookup id = none) :
    o.takenBy (us ++ [id]) i j = o.takenBy us i j := by
  unfold takenBy
  congr 2
  refine List.filter_congr fun x hx => ?_
  rcases h with h | h
  · by_cases hx : x.1 = id
    · simp [hx, h]
    · simp [hx]
  · have hne : x.1 ≠ id := by
      rintro rfl
      have hsome := KeySet.lookup_eq_some.mpr (show (x.1, x.2) ∈ o.emulations.elems from hx)
      rw [h] at hsome
      cases hsome
    simp [hne]

structure EachStopped (ar : Arith) (o : Orchestrator) (us : List Uuid) (o' : Orchestrator) : Prop where
  cluster : SameCluster o o'
  size : o'.residualGraph.n = o.residualGraph.n
  forgets : Forgets us o.emulations o'.emulations
  back : ∀ i j, i < o.residualGraph.n → j < o.residualGraph.n →
    ar.Agrees (o'.residualGraph.entry i j) (o.residualGraph.entry i j + o.takenBy us i j)

theorem stopEach_ok {uuids : List Uuid} (hin : o.InRange o.residualGraph.n)
    (h : uuids.foldlM (fun (o : Orchestrator) uuid =>
      match o.stopEmulation ar uuid with
      | .error (.err _) => pure o
      | r => r) o = .ok o') : EachStopped ar o uuids o' := by
  refine stopEach_inv (fun done s => EachStopped ar o done s)
    ⟨⟨rfl, rfl, rfl⟩, rfl, Forgets.refl _, fun i j _ _ => ?_⟩ (fun done u s s' hs hstep => ?_) h
  · have hnone : o.takenBy [] i j = 0 := by simp [takenBy]
    rw [hnone]
    exact Arith.Agrees.refl ar _
  · rcases hstep with hstop | ⟨hnone, rfl⟩
    · obtain ⟨matrix, p, hstopped⟩ := stopEmulation_ok hstop
      have hlookup := hs.forgets u
      rw [hstopped.emulation] at hlookup
      have hu : u ∉ done := fun hu => by
        rw [if_pos hu] at hlookup
        cases hlookup
      rw [if_neg hu] at hlookup
      obtain ⟨hlen, hlt⟩ := hin u matrix p hlookup.symm
      have hwithin : Cell.Within s.residualGraph.n (cellsOf (matrix, p)) :=
        cellsOf_within hlen (hs.size ▸ hlt)
      have hreleased := hstopped.released
      rw [releaseAll_eq hlen] at hreleased
      refine ⟨⟨hstopped.cluster.hostMapping.trans hs.cluster.hostMapping,
        hstopped.cluster.maxLoad.trans hs.cluster.maxLoad,
        hstopped.cluster.emanagersPort.trans hs.cluster.emanagersPort⟩,
        (SymMatrix.addAll_n hreleased).trans hs.size, hs.forgets.trans fun v => ?_, fun i j hi hj => ?_⟩
      · rw [hstopped.emulations, KeySet.lookup_remove]
        simp only [List.mem_singleton]
      · refine (SymMatrix.addAll_agrees hwithin hreleased (hs.size ▸ hi) (hs.size ▸ hj)).trans ?_
        rw [takenBy_snoc_known hu hlookup.symm, ← Nat.add_assoc]
        exact (hs.back i j hi hj).add_right _
    · have hgone : u ∈ done ∨ o.emulations.lookup u = none := by
        have hlookup := hs.forgets u
        rw [hnone] at hlookup
        split at hlookup <;> rename_i hu
        · exact Or.inl hu
        · exact Or.inr hlookup.symm
      refine ⟨hs.cluster, hs.size, hs.forgets.trans fun v => ?_, fun i j hi hj => ?_⟩
      · simp only [List.mem_singleton]
        split <;> rename_i hv
        · rw [hv, hnone]
        · rfl
      · rw [takenBy_snoc_gone hgone]
        exact hs.back i j hi hj

/-! ## The tables together -/

/-- The tables of a state fit together. -/
structure Wf (o : Orchestrator) : Prop where
  rows : o.Rows
  inRange : o.InRange o.hostMapping.length
  accounted : o.Accounted
  counted : ∀ h u, o.Attributed h u → o.loadOf h u ≠ none
  registered : ∀ u, o.emulations.lookup u ≠ none → ∃ h, o.Attributed h u
  room : ∀ h, o.totalLoad h ≤ o.maxLoad

theorem new_wf {cgraph : Cgraph.CGraph ClusterNodeInfo} {port maxLoad : Nat} (hips : DistinctIps cgraph)
    (h : Orchestrator.new it cgraph port maxLoad = .ok o) : o.Wf := by
  have haccounted := new_accounted h
  unfold Orchestrator.new at h
  obtain ⟨⟨residualGraph, hostMapping⟩, hspeeds, h⟩ := of_bind_eq_ok h
  cases h
  have hhosts := hosts_ok hips hspeeds
  exact
    { rows := ⟨hhosts.size, hhosts.nodup, hhosts.port⟩
      inRange := fun u matrix p h => by cases h
      accounted := haccounted
      counted := fun h u ⟨uuids, hlookup, _⟩ => by cases hlookup
      registered := fun u h => absurd rfl h
      room := fun h => Nat.zero_le _ }

theorem Wf.inRange_n (h : o.Wf) : o.InRange o.residualGraph.n := by
  rw [h.rows.size]
  exact h.inRange

theorem SameCluster.rows {o o' : Orchestrator} (h : SameCluster o o')
    (hn : o'.residualGraph.n = o.residualGraph.n) (ho : o.Rows) : o'.Rows := by
  refine ⟨?_, ?_, fun n hmem => ?_⟩
  · rw [hn, h.hostMapping, ho.size]
  · rw [h.hostMapping]
    exact ho.nodup
  · rw [h.hostMapping] at hmem
    rw [h.emanagersPort]
    exact ho.port n hmem

/-! ### A new emulation -/

theorem Placed.size {places : List ClusterNodeInfo} (h : Placed ar it o id matrix p places o') :
    o'.residualGraph.n = o.residualGraph.n :=
  forRange_ok_inv (fun r => r.n = o.residualGraph.n) rfl (fun _ _ _ hr hrow =>
    forRange_ok_inv (fun r => r.n = o.residualGraph.n) hr (fun _ _ _ hr hcell =>
      (reserve_n hcell).trans hr) hrow) h.reserved

theorem Placed.residual {places : List ClusterNodeInfo} (har : ar ≠ .wrapping)
    (h : Placed ar it o id matrix p places o') {i j : Nat} (hi : i < o.residualGraph.n)
    (hj : j < o.residualGraph.n) : o'.residualGraph.entry i j +
      Cell.total i j ((apart matrix.n p).map (cellOf matrix p)) = o.residualGraph.entry i j := by
  have hreserved := h.reserved
  rw [reserveAll_eq h.found.length] at hreserved
  refine SymMatrix.subAll_entry har (fun c hc => ?_) hreserved hi hj
  obtain ⟨hrow, hcol, -⟩ := apart_ends h.found.length hc
  exact ⟨h.found.lt _ hrow, h.found.lt _ hcol⟩

theorem Places.count {places : List ClusterNodeInfo} (ho : o.Rows) (h : o.Places p places) {host : Nat}
    {node : ClusterNodeInfo} (hnode : o.hostMapping[host]? = some node) :
    places.count node = p.count host := by
  unfold Places at h
  induction h with
  | nil => rfl
  | @cons x place _ _ hx _ ih =>
    rw [List.count_cons, List.count_cons, ih]
    have hiff : place = node ↔ x = host := by
      constructor
      · rintro rfl
        rw [← ho.place_eq hx, ho.place_eq hnode]
      · rintro rfl
        exact Option.some.inj (hx.symm.trans hnode)
    by_cases hxh : x = host
    · simp [hxh, hiff.mpr hxh]
    · have hne : place ≠ node := fun heq => hxh (hiff.mp heq)
      simp [hxh, hne]

theorem Places.exists_host {places : List ClusterNodeInfo} (h : o.Places p places) {node : ClusterNodeInfo}
    (hnode : node ∈ places) : ∃ host ∈ p, o.hostMapping[host]? = some node := by
  unfold Places at h
  induction h with
  | nil => cases hnode
  | cons hx _ ih =>
    rcases List.mem_cons.mp hnode with rfl | hnode
    · exact ⟨_, List.mem_cons_self, hx⟩
    · obtain ⟨host, hhost, hmapped⟩ := ih hnode
      exact ⟨host, List.mem_cons_of_mem _ hhost, hmapped⟩

theorem Placed.room {places : List ClusterNodeInfo} (h : Placed ar it o id matrix p places o') (ho : o.Wf)
    (node : ClusterNodeInfo) : o'.totalLoad node ≤ o'.maxLoad := by
  have hchange := totalLoad_change o o' id node fun u hu => by
    rw [h.loadOf, if_neg fun hx => hu hx.1]
  have hold := ho.room node
  rw [h.cluster.maxLoad]
  rw [h.loadOf] at hchange
  by_cases hnode : node ∈ places
  · obtain ⟨host, hhost, hmapped⟩ := h.located.exists_host hnode
    obtain ⟨node', total, hchecked⟩ := h.found.checked hhost
    obtain rfl : node' = node := Option.some.inj (hchecked.mapped.symm.trans hmapped)
    have hroom := hchecked.room
    rw [if_pos ⟨rfl, hnode⟩, Option.getD_some, h.located.count ho.rows hmapped] at hchange
    omega
  · rw [if_neg fun hx => hnode hx.2] at hchange
    omega

theorem Placed.wf {places : List ClusterNodeInfo} (h : Placed ar it o id matrix p places o')
    (happs : 0 < matrix.n) (ho : o.Wf) : o'.Wf where
  rows := h.cluster.rows h.size ho.rows
  inRange := fun u m q hlookup => by
    rw [h.emulations, KeySet.lookup_put] at hlookup
    rw [h.cluster.hostMapping]
    split at hlookup
    · cases hlookup
      refine ⟨h.found.length, fun x hx => ?_⟩
      rw [← ho.rows.size]
      exact h.found.lt x hx
    · exact ho.inRange u m q hlookup
  accounted := h.accounted ho.accounted
  counted := fun x u ha => by
    rw [h.loadOf]
    split <;> rename_i hx
    · simp
    · rw [h.attributed] at ha
      exact ho.counted x u (ha.resolve_right hx)
  registered := fun u hu => by
    rw [h.emulations, KeySet.lookup_put] at hu
    split at hu <;> rename_i hid
    · have hlen : places.length = matrix.n := by
        rw [← h.located.length_eq, h.found.length]
      obtain ⟨x, hx⟩ := List.exists_mem_of_length_pos (by rw [hlen]; exact happs)
      exact ⟨x, (h.attributed x u).mpr (Or.inr ⟨hid, hx⟩)⟩
    · obtain ⟨x, hx⟩ := ho.registered u hu
      exact ⟨x, (h.attributed x u).mpr (Or.inl hx)⟩
  room := h.room ho

/-! ### Stops -/

theorem AppStopped.size {node : ClusterNodeInfo} {app : Nat} (h : AppStopped ar o id node app matrix p o') :
    o'.residualGraph.n = o.residualGraph.n := by
  refine forRange_ok_inv (fun r => r.n = o.residualGraph.n) rfl (fun i r r' hr hcell => ?_) h.released
  split at hcell
  · cases hcell
    exact hr
  · exact (release_n hcell).trans hr

theorem AppStopped.lookup_of_lookup {node : ClusterNodeInfo} {app : Nat}
    (h : AppStopped ar o id node app matrix p o') {u : Uuid} {e : SymMatrix Nat × List Nat}
    (hu : o'.emulations.lookup u = some e) : o.emulations.lookup u = some e := by
  by_cases hkept : ∃ x, o'.Attributed x id
  · rwa [h.kept hkept] at hu
  · rw [h.forgotten hkept, KeySet.lookup_remove] at hu
    split at hu
    · cases hu
    · exact hu

theorem AppStopped.lookup_other {node : ClusterNodeInfo} {app : Nat}
    (h : AppStopped ar o id node app matrix p o') {u : Uuid} (hu : u ≠ id) :
    o'.emulations.lookup u = o.emulations.lookup u := by
  by_cases hkept : ∃ x, o'.Attributed x id
  · rw [h.kept hkept]
  · rw [h.forgotten hkept, KeySet.lookup_remove, if_neg hu]

theorem AppStopped.wf {node : ClusterNodeInfo} {app : Nat} (h : AppStopped ar o id node app matrix p o')
    (ho : o.Wf) : o'.Wf where
  rows := h.cluster.rows h.size ho.rows
  inRange := fun u m q hlookup => by
    rw [h.cluster.hostMapping]
    exact ho.inRange u m q (h.lookup_of_lookup hlookup)
  accounted := h.accounted ho.accounted
  counted := fun x u ha => by
    obtain ⟨ha, hlast⟩ := (h.attributed x u).mp ha
    have hload := ho.counted x u ha
    rw [h.loadOf]
    split <;> rename_i hx
    · obtain ⟨rfl, rfl⟩ := hx
      cases hl : o.loadOf x u with
      | none => exact absurd hl hload
      | some l =>
        have hne : l ≠ 1 := fun hone => hlast ⟨rfl, rfl, by rw [hl, hone]⟩
        simp [hne]
    · exact hload
  registered := fun u hu => by
    by_cases hkept : ∃ x, o'.Attributed x id
    · rw [h.kept hkept] at hu
      obtain ⟨x, hx⟩ := ho.registered u hu
      by_cases hid : u = id
      · exact hid ▸ hkept
      · exact ⟨x, (h.attributed x u).mpr ⟨hx, fun hlast => hid hlast.2.1⟩⟩
    · rw [h.forgotten hkept, KeySet.lookup_remove] at hu
      split at hu <;> rename_i hid
      · exact absurd rfl hu
      · obtain ⟨x, hx⟩ := ho.registered u hu
        exact ⟨x, (h.attributed x u).mpr ⟨hx, fun hlast => hid hlast.2.1⟩⟩
  room := fun x => by
    have hchange := totalLoad_change o o' id x fun u hu => by
      rw [h.loadOf, if_neg fun hx => hu hx.2]
    have hold := ho.room x
    rw [h.cluster.maxLoad]
    rw [h.loadOf] at hchange
    split at hchange
    · cases hl : o.loadOf x id with
      | none =>
        rw [hl] at hchange
        simp only [Option.getD_none, Option.bind_none] at hchange
        omega
      | some l =>
        rw [hl, Option.bind_some] at hchange
        split at hchange <;> simp only [Option.getD_some, Option.getD_none] at hchange <;> omega
    · omega

theorem Stopped.size (h : Stopped ar o id matrix p o') : o'.residualGraph.n = o.residualGraph.n :=
  forRange_ok_inv (fun r => r.n = o.residualGraph.n) rfl (fun _ _ _ hr hrow =>
    forRange_ok_inv (fun r => r.n = o.residualGraph.n) hr (fun _ _ _ hr hcell =>
      (release_n hcell).trans hr) hrow) h.released

theorem Stopped.wf (h : Stopped ar o id matrix p o') (ho : o.Wf) : o'.Wf where
  rows := h.cluster.rows h.size ho.rows
  inRange := fun u m q hlookup => by
    rw [h.emulations, KeySet.lookup_remove] at hlookup
    rw [h.cluster.hostMapping]
    split at hlookup
    · cases hlookup
    · exact ho.inRange u m q hlookup
  accounted := h.accounted ho.accounted
  counted := fun x u ha => by
    obtain ⟨ha, hne⟩ := (h.attributed x u).mp ha
    rw [h.loadOf, if_neg hne]
    exact ho.counted x u ha
  registered := fun u hu => by
    rw [h.emulations, KeySet.lookup_remove] at hu
    split at hu <;> rename_i hid
    · exact absurd rfl hu
    · obtain ⟨x, hx⟩ := ho.registered u hu
      exact ⟨x, (h.attributed x u).mpr ⟨hx, hid⟩⟩
  room := fun x => by
    have hchange := totalLoad_change o o' id x fun u hu => by
      rw [h.loadOf, if_neg hu]
    have hold := ho.room x
    rw [h.cluster.maxLoad]
    rw [h.loadOf, if_pos rfl, Option.getD_none] at hchange
    omega

/-! ### A host less -/

/-- A host that was removed. Every emulation was stopped first, also those that had no app there. -/
structure HostRemoved (ar : Arith) (o : Orchestrator) (node : ClusterNodeInfo) (uuids : List Uuid)
    (o' : Orchestrator) : Prop where
  wf : o'.Wf
  known : node ∈ o.hostMapping
  hostMapping : o'.hostMapping = o.hostMapping.filter fun n => n ≠ node
  emanagersPort : o'.emanagersPort = o.emanagersPort
  stopped : ∀ u, u ∈ uuids ↔ o.emulations.lookup u ≠ none
  empty : ∀ u, o'.emulations.lookup u = none
  idle : ∀ h u, o'.loadOf h u = none ∧ ¬ o'.Attributed h u
  back : ∀ a ∈ o'.hostMapping, ∀ b ∈ o'.hostMapping,
    ar.Agrees (o'.left a b) (o.left a b + o.takenBy uuids (o.place a) (o.place b))

theorem NodeRemoved.hostRemoved {node : ClusterNodeInfo} {uuids : List Uuid} {i : Nat} {o₁ : Orchestrator}
    (h : NodeRemoved ar o node uuids i o₁ o') (ho : o.Wf) :
    HostRemoved ar o { node with port := o.emanagersPort } uuids o' := by
  have heach := stopEach_ok ho.inRange_n h.stopped
  have hrows := heach.cluster.rows heach.size ho.rows
  have hstopped : ∀ u, u ∈ uuids ↔ o.emulations.lookup u ≠ none := by
    intro u
    rw [h.concerned]
    exact ⟨fun ⟨x, hx⟩ => ho.accounted.attributed x u hx, ho.registered u⟩
  have hnone : ∀ u, o'.emulations.lookup u = none := by
    intro u
    rw [h.forgets u]
    split <;> rename_i hu
    · rfl
    · exact not_not.mp fun hne => hu ((hstopped u).mpr hne)
  have hidle := h.idle ho.accounted
  have hmapped : o.hostMapping[i]? = some { node with port := o.emanagersPort } := by
    obtain ⟨hlt, heq, -⟩ := List.findIdx?_eq_some_iff_getElem.mp h.index
    rw [List.getElem?_eq_getElem hlt, of_decide_eq_true heq]
  have hmapped₁ : o₁.hostMapping[i]? = some { node with port := o.emanagersPort } := by
    rw [heach.cluster.hostMapping]
    exact hmapped
  obtain ⟨hrows', hmapping, hleft⟩ := hrows.without hmapped₁ h.residualGraph h.hostMapping h.emanagersPort
  rw [heach.cluster.hostMapping] at hmapping
  have hplace : ∀ a, o₁.place a = o.place a := fun a => by rw [place, place, heach.cluster.hostMapping]
  refine ⟨⟨hrows', fun u m q hlookup => ?_, h.accounted ho.accounted, fun x u ha => absurd ha (hidle x u).2,
    fun u hu => absurd (hnone u) hu, fun x => ?_⟩, List.mem_of_getElem? hmapped, hmapping,
    h.emanagersPort.trans heach.cluster.emanagersPort, hstopped, hnone, hidle, fun a ha b hb => ?_⟩
  · rw [hnone] at hlookup
    cases hlookup
  · rw [totalLoad_idle fun u => (hidle x u).1]
    exact Nat.zero_le _
  · have hmem : ∀ a ∈ o'.hostMapping, o.place a < o.residualGraph.n := fun a ha => by
      rw [hmapping, List.mem_filter] at ha
      exact ho.rows.place_lt ha.1
    rw [hleft a ha b hb, left, hplace, hplace]
    exact heach.back _ _ (hmem a ha) (hmem b hb)

structure HostsRemoved (ar : Arith) (o : Orchestrator) (removed : List ClusterNodeInfo) (uuids : List Uuid)
    (s : Orchestrator) : Prop where
  start : removed = [] → s = o
  wf : s.Wf
  hostMapping : s.hostMapping = o.hostMapping.filter fun n => n ∉ removed
  emanagersPort : s.emanagersPort = o.emanagersPort
  stopped : ∀ u, u ∈ uuids ↔ removed ≠ [] ∧ o.emulations.lookup u ≠ none
  forgets : Forgets uuids o.emulations s.emulations
  loadOf : ∀ h u, s.loadOf h u = if u ∈ uuids then none else o.loadOf h u
  back : ∀ a ∈ s.hostMapping, ∀ b ∈ s.hostMapping,
    ar.Agrees (s.left a b) (o.left a b + o.takenBy uuids (o.place a) (o.place b))

theorem takenBy_congr {us us' : List Uuid} (h : ∀ u, u ∈ us ↔ u ∈ us') (i j : Nat) :
    o.takenBy us i j = o.takenBy us' i j := by
  unfold takenBy
  congr 2
  exact List.filter_congr fun x _ => by simp only [h]

theorem takenBy_empty (h : ∀ u, o.emulations.lookup u = none) (us : List Uuid) (i j : Nat) :
    o.takenBy us i j = 0 := by
  have hnil : o.emulations.elems = [] := by
    rw [List.eq_nil_iff_forall_not_mem]
    rintro ⟨u, e⟩ hmem
    have hsome := KeySet.lookup_eq_some.mpr hmem
    rw [h] at hsome
    cases hsome
  rw [takenBy, hnil]
  rfl

theorem HostsRemoved.snoc {removed : List ClusterNodeInfo} {uuids done : List Uuid} {s s' : Orchestrator}
    {node : ClusterNodeInfo} (ho : o.Wf) (h : HostsRemoved ar o removed uuids s)
    (hnode : HostRemoved ar s node done s') : HostsRemoved ar o (removed ++ [node]) (uuids ++ done) s' := by
  have hstopped : ∀ u, u ∈ uuids ++ done ↔ o.emulations.lookup u ≠ none := by
    intro u
    simp only [List.mem_append, hnode.stopped, h.forgets u, h.stopped]
    by_cases hu : o.emulations.lookup u = none <;> by_cases hr : removed = [] <;> simp [hu, hr]
  refine
    { start := fun hr => by simp at hr
      wf := hnode.wf
      hostMapping := ?_
      emanagersPort := hnode.emanagersPort.trans h.emanagersPort
      stopped := fun u => by simp [hstopped]
      forgets := fun u => ?_
      loadOf := fun x u => ?_
      back := fun a ha b hb => ?_ }
  · rw [hnode.hostMapping, h.hostMapping, List.filter_filter]
    exact List.filter_congr fun n _ => by simp [and_comm]
  · rw [hnode.empty]
    split <;> rename_i hu
    · rfl
    · exact (not_not.mp fun hne => hu ((hstopped u).mpr hne)).symm
  · rw [(hnode.idle x u).1]
    split <;> rename_i hu
    · rfl
    · have hnone : o.emulations.lookup u = none := not_not.mp fun hne => hu ((hstopped u).mpr hne)
      exact (ho.accounted.idle hnone x).1.symm
  · have hmem : ∀ a ∈ s'.hostMapping, a ∈ s.hostMapping := fun a ha => by
      rw [hnode.hostMapping] at ha
      exact (List.mem_filter.mp ha).1
    refine (hnode.back a ha b hb).trans ?_
    by_cases hr : removed = []
    · obtain rfl := h.start hr
      have hsame : ∀ u, u ∈ done ↔ u ∈ uuids ++ done := fun u => by rw [hstopped, hnode.stopped]
      rw [takenBy_congr hsame]
      exact Arith.Agrees.refl ar _
    · have hempty : ∀ u, s.emulations.lookup u = none := fun u => by
        rw [h.forgets u]
        split <;> rename_i hu
        · rfl
        · exact not_not.mp fun hne => hu ((h.stopped u).mpr ⟨hr, hne⟩)
      have hsame : ∀ u, u ∈ uuids ↔ u ∈ uuids ++ done := fun u => by
        rw [hstopped, h.stopped]
        exact and_iff_right hr
      rw [takenBy_empty hempty, Nat.add_zero, ← takenBy_congr hsame]
      exact h.back a (hmem a ha) b (hmem b hb)

/-! ### Hosts more -/

structure HostsAdded (matrix : SymMatrix Nat) (nodes : List ClusterNodeInfo) (o : Orchestrator)
    (added : List ClusterNodeInfo) (s : Orchestrator) : Prop where
  rows : s.Rows
  same : ∃ residualGraph, s = { o with residualGraph, hostMapping := o.hostMapping ++ added }
  kept : ∀ a ∈ o.hostMapping, ∀ b ∈ o.hostMapping, s.left a b = o.left a b
  new : ∀ h ∈ added, ∀ a ∈ s.hostMapping, s.place a < s.place h →
    s.left a h = speedBetween matrix nodes h (if s.place a = nodes.idxOf h then h else a)

theorem HostsAdded.snoc {matrix : SymMatrix Nat} {nodes added : List ClusterNodeInfo} {node : ClusterNodeInfo}
    {s s' : Orchestrator} (h : HostsAdded matrix nodes o added s) (hnew : node ∉ s.hostMapping)
    (hnode : HostAdded matrix nodes s node s') : HostsAdded matrix nodes o (added ++ [node]) s' := by
  have hmap : s.hostMapping = o.hostMapping ++ added := by
    obtain ⟨r, rfl⟩ := h.same
    rfl
  have hmap' : s'.hostMapping = s.hostMapping ++ [node] := by
    obtain ⟨r, rfl⟩ := hnode.same
    rfl
  have hplace : ∀ a ∈ s.hostMapping, s'.place a = s.place a := fun a ha => by
    rw [place, place, hmap']
    exact List.idxOf_append_of_mem ha
  have hlast : s'.place node = s.hostMapping.length := by
    rw [place, hmap', List.idxOf_append_of_notMem hnew]
    simp
  refine ⟨hnode.rows, ?_, fun a ha b hb => ?_, fun x hx a ha hlt => ?_⟩
  · obtain ⟨r, rfl⟩ := h.same
    obtain ⟨r', rfl⟩ := hnode.same
    exact ⟨r', by simp⟩
  · have hold : ∀ a ∈ o.hostMapping, a ∈ s.hostMapping := fun a ha => by
      rw [hmap]
      exact List.mem_append_left _ ha
    rw [hnode.kept a (hold a ha) b (hold b hb), h.kept a ha b hb]
  · have haold : a ∈ s.hostMapping := by
      rw [hmap'] at ha
      rcases List.mem_append.mp ha with ha | ha
      · exact ha
      · -- Nothing lies behind the last host.
        rw [List.mem_singleton.mp ha, hlast] at hlt
        have hxlt := hnode.rows.place_lt (a := x) (by
          rw [hmap', hmap]
          rcases List.mem_append.mp hx with hx | hx <;> simp [hx])
        rw [hnode.rows.size, hmap', List.length_append, List.length_singleton] at hxlt
        omega
    rw [hplace a haold] at hlt ⊢
    rcases List.mem_append.mp hx with hx | hx
    · have hxold : x ∈ s.hostMapping := by
        rw [hmap]
        exact List.mem_append_right _ hx
      rw [hplace x hxold] at hlt
      rw [hnode.kept a haold x hxold]
      exact h.new x hx a haold hlt
    · rw [List.mem_singleton.mp hx]
      exact hnode.new a haold

/-! ### A new graph -/

/-- The hosts that a graph leaves out, those that stay, and those that are new. -/
def leaving (o : Orchestrator) (nodes : List ClusterNodeInfo) : List ClusterNodeInfo :=
  o.hostMapping.filter fun n => n ∉ nodes

def staying (o : Orchestrator) (nodes : List ClusterNodeInfo) : List ClusterNodeInfo :=
  o.hostMapping.filter fun n => n ∈ nodes

def coming (o : Orchestrator) (nodes : List ClusterNodeInfo) : List ClusterNodeInfo :=
  nodes.filter fun n => n ∉ o.hostMapping

/-- What an update with a new graph makes of a state. -/
structure ClusterUpdated (ar : Arith) (o : Orchestrator) (matrix : SymMatrix Nat)
    (nodes : List ClusterNodeInfo)
    (uuids : List Uuid) (o' : Orchestrator) : Prop where
  wf : o'.Wf
  hostMapping : o'.hostMapping = o.staying nodes ++ o.coming nodes
  stopped : ∀ u, u ∈ uuids ↔ o.leaving nodes ≠ [] ∧ o.emulations.lookup u ≠ none
  forgets : Forgets uuids o.emulations o'.emulations
  loadOf : ∀ h u, o'.loadOf h u = if u ∈ uuids then none else o.loadOf h u
  back : ∀ a ∈ o.staying nodes, ∀ b ∈ o.staying nodes,
    ar.Agrees (o'.left a b) (o.left a b + o.takenBy uuids (o.place a) (o.place b))
  new : ∀ h ∈ o.coming nodes, ∀ a ∈ o'.hostMapping, o'.place a < o'.place h →
    o'.left a h = speedBetween matrix nodes h (if o'.place a = nodes.idxOf h then h else a)

/-- One removal of an update, with the ids so far. -/
def removeNext (ar : Arith) (it : Iter) (r : Orchestrator × UuidSet) (node : ClusterNodeInfo) :
    Run (Orchestrator × UuidSet) :=
  match r.1.removeClusterNode ar it node with
  | .ok (o, uuids) => pure (o, uuids.foldl KeySet.insert r.2)
  | .error (.err _) => .error .unwrap
  | .error e => .error e

theorem removeEach_ok {removed : List ClusterNodeInfo} {affected : UuidSet} {s : Orchestrator} (ho : o.Wf)
    (hport : ∀ n ∈ removed, n.port = o.emanagersPort)
    (h : removed.foldlM (removeNext ar it) (o, KeySet.empty) = .ok (s, affected)) :
    HostsRemoved ar o removed affected.elems s := by
  refine foldlM_ok_done (fun done (r : Orchestrator × UuidSet) => HostsRemoved ar o done r.2.elems r.1) ?_
    (fun pre node post r r' hx hr hstep => ?_) h
  · exact
      { start := fun _ => rfl
        wf := ho
        hostMapping := (List.filter_eq_self.mpr (by simp)).symm
        emanagersPort := rfl
        stopped := by simp
        forgets := Forgets.refl _
        loadOf := by simp
        back := fun a _ b _ => by
          have hnone : o.takenBy [] (o.place a) (o.place b) = 0 := by simp [takenBy]
          rw [KeySet.elems_empty, hnone]
          exact Arith.Agrees.refl ar _ }
  · obtain ⟨s₁, done⟩ := r
    obtain ⟨s₂, done'⟩ := r'
    simp only at hr
    unfold removeNext at hstep
    simp only at hstep
    cases hnode : s₁.removeClusterNode ar it node with
    | error e =>
      rw [hnode] at hstep
      cases e <;> cases hstep
    | ok r =>
      obtain ⟨s₃, uuids⟩ := r
      rw [hnode] at hstep
      cases hstep
      obtain ⟨i, s₄, hremoved⟩ := removeClusterNode_ok hnode
      have hsame : ({ node with port := s₁.emanagersPort } : ClusterNodeInfo) = node := by
        have hp := hport node (by rw [hx]; simp)
        rw [hr.emanagersPort, ← hp]
      have hsnoc := hr.snoc ho (hsame ▸ hremoved.hostRemoved hr.wf)
      have hmem : ∀ u, u ∈ (uuids.foldl KeySet.insert done).elems ↔ u ∈ done.elems ++ uuids := fun u => by
        rw [KeySet.mem_foldl_insert, List.mem_append]
      exact
        { start := hsnoc.start
          wf := hsnoc.wf
          hostMapping := hsnoc.hostMapping
          emanagersPort := hsnoc.emanagersPort
          stopped := fun u => (hmem u).trans (hsnoc.stopped u)
          forgets := fun u => by simp only [hsnoc.forgets u, hmem]
          loadOf := fun x u => by simp only [hsnoc.loadOf x u, hmem]
          back := fun a ha b hb => by
            rw [takenBy_congr hmem]
            exact hsnoc.back a ha b hb }

theorem addEach_ok {port : Nat} {matrix : SymMatrix Nat} {nodes added : List ClusterNodeInfo}
    {s : Orchestrator}
    (ho : o.Rows) (hnodes : Hosts port matrix nodes) (hport : ∀ n ∈ added, n.port = o.emanagersPort)
    (hnew : ∀ n ∈ added, n ∉ o.hostMapping) (hnodup : added.Nodup)
    (h : added.foldlM (addClusterNode matrix (nodesToIndex nodes)) o = .ok s) :
    HostsAdded matrix nodes o added s := by
  refine foldlM_ok_done (HostsAdded matrix nodes o) ⟨ho, ⟨o.residualGraph, by simp⟩,
    fun _ _ _ _ => rfl, by simp⟩
    (fun pre node post s s' hx hs hstep => ?_) h
  have hmem : node ∈ added := by rw [hx]; simp
  have hfresh : node ∉ s.hostMapping := by
    obtain ⟨r, rfl⟩ := hs.same
    intro hin
    rcases List.mem_append.mp hin with hin | hin
    · exact hnew node hmem hin
    · rw [hx, List.nodup_append] at hnodup
      exact hnodup.2.2 node hin node List.mem_cons_self rfl
  have hsport : node.port = s.emanagersPort := by
    obtain ⟨r, rfl⟩ := hs.same
    exact hport node hmem
  exact hs.snoc hfresh (hs.rows.added hnodes hsport hfresh hstep)

theorem updateWithCgraph_ok {cgraph : Cgraph.CGraph ClusterNodeInfo} {uuids : List Uuid}
    (hips : DistinctIps cgraph) (ho : o.Wf) (h : o.updateWithCgraph ar it cgraph = .ok (o', uuids)) :
    ∃ matrix nodes, (convertCgraphNodeinfo it o.emanagersPort cgraph).speeds it = .ok (matrix, nodes) ∧
      Hosts o.emanagersPort matrix nodes ∧ ClusterUpdated ar o matrix nodes uuids o' := by
  unfold updateWithCgraph at h
  obtain ⟨⟨matrix, nodes⟩, hspeeds, h⟩ := of_bind_eq_ok h
  obtain ⟨⟨o₁, affected⟩, hremoved, h⟩ := of_bind_eq_ok h
  obtain ⟨o₂, hadded, h⟩ := of_bind_eq_ok h
  cases h
  have hnodes := hosts_ok hips hspeeds
  have hr := removeEach_ok ho (fun n hn => ho.rows.port n (List.mem_filter.mp hn).1) hremoved
  have hstay : o₁.hostMapping = o.staying nodes := by
    rw [hr.hostMapping, staying]
    refine List.filter_congr fun n hn => ?_
    simp [hn]
  have hnotstay : ∀ n ∈ o.coming nodes, n ∉ o₁.hostMapping := fun n hn hin => by
    rw [hstay] at hin
    exact (of_decide_eq_true (List.mem_filter.mp hn).2) (List.mem_filter.mp hin).1
  have ha := addEach_ok hr.wf.rows hnodes (fun n hn => by
      rw [hr.emanagersPort]
      exact hnodes.port n (List.mem_filter.mp hn).1) hnotstay (hnodes.nodup.filter _) hadded
  refine ⟨matrix, nodes, hspeeds, hnodes, ?_⟩
  obtain ⟨r, hsame⟩ := ha.same
  have hload : ∀ x u, o'.loadOf x u = o₁.loadOf x u := fun x u => by rw [hsame]; rfl
  have hattr : ∀ x u, o'.Attributed x u ↔ o₁.Attributed x u := fun x u => by rw [hsame]; rfl
  have hemul : o'.emulations = o₁.emulations := by rw [hsame]
  have hmap : o'.hostMapping = o₁.hostMapping ++ o.coming nodes := by rw [hsame]
  refine
    { wf :=
        { rows := ha.rows
          inRange := fun u m q hlookup => ?_
          accounted := ?_
          counted := fun x u hx => ?_
          registered := fun u hu => ?_
          room := fun x => ?_ }
      hostMapping := by rw [hmap, hstay]
      stopped := fun u => it.mem_order.trans (hr.stopped u)
      forgets := fun u => ?_
      loadOf := fun x u => ?_
      back := fun a hain b hbin => ?_
      new := ha.new }
  · rw [hemul] at hlookup
    obtain ⟨hlen, hlt⟩ := hr.wf.inRange u m q hlookup
    rw [hmap, List.length_append]
    exact ⟨hlen, fun x hx => by have := hlt x hx; omega⟩
  · exact ⟨fun x u l hl => (hr.wf.accounted.loaded x u l (hload x u ▸ hl)).imp_right (hattr x u).mpr,
      fun x u hx => hemul ▸ hr.wf.accounted.attributed x u ((hattr x u).mp hx)⟩
  · rw [hload]
    exact hr.wf.counted x u ((hattr x u).mp hx)
  · rw [hemul] at hu
    obtain ⟨x, hx⟩ := hr.wf.registered u hu
    exact ⟨x, (hattr x u).mpr hx⟩
  · have hroom := hr.wf.room x
    rw [hsame]
    exact hroom
  · simp only [hemul, hr.forgets u, it.mem_order]
  · simp only [hload, hr.loadOf x u, it.mem_order]
  · rw [← hstay] at hain hbin
    rw [ha.kept a hain b hbin, takenBy_congr fun u => it.mem_order]
    exact hr.back a hain b hbin

end Orchestrator

end Kollaps
