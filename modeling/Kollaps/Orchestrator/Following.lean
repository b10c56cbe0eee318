import Kollaps.Orchestrator.Tables

/-!
# Following the cluster

Whatever was placed and stopped before, a change of the cluster comes back where no sum is checked,
and leaves the orchestrator with the nodes of the cluster as its hosts.
-/

namespace Kollaps

open Run Cgraph

namespace Orchestrator

variable {ar : Arith} {it : Iter} {o o' : Orchestrator} {id : Uuid} {matrix : SymMatrix Nat} {p : List Nat}

/-- What a change of the cluster relies on. An emulation without apps is attributed to no host, and
no removal stops it. -/
structure Sound (o : Orchestrator) : Prop where
  rows : o.Rows
  inRange : o.InRange o.hostMapping.length
  covered : ∀ u matrix p, o.emulations.lookup u = some (matrix, p) → p ≠ [] → ∃ h, o.Attributed h u

/-- The hosts are the nodes of the cluster, under the port of the emulation managers. -/
def Follows (o : Orchestrator) (cluster : List ClusterNodeInfo) : Prop :=
  ∀ n, n ∈ o.hostMapping ↔ ∃ c ∈ cluster, n = { c with port := o.emanagersPort }

theorem Wf.sound (h : o.Wf) : o.Sound :=
  ⟨h.rows, h.inRange, fun u matrix p hu _ => h.registered u (by simp [hu])⟩

theorem Sound.inRange_n (h : o.Sound) : o.InRange o.residualGraph.n := by
  rw [h.rows.size]
  exact h.inRange

/-! ## Placements and stops -/

theorem Placed.sound {places : List ClusterNodeInfo} (h : Placed ar it o id matrix p places o')
    (ho : o.Sound) : o'.Sound := by
  refine ⟨h.cluster.rows h.size ho.rows, fun u m q hlookup => ?_, fun u m q hlookup hq => ?_⟩
  · rw [h.emulations, KeySet.lookup_put] at hlookup
    rw [h.cluster.hostMapping]
    split at hlookup
    · cases hlookup
      exact ⟨h.found.length, fun x hx => ho.rows.size ▸ h.found.lt x hx⟩
    · exact ho.inRange u m q hlookup
  · rw [h.emulations, KeySet.lookup_put] at hlookup
    split at hlookup <;> rename_i hid
    · cases hlookup
      have hlen := h.located.length_eq
      obtain ⟨x, hx⟩ := List.exists_mem_of_length_pos (by rw [← hlen]; exact List.length_pos_of_ne_nil hq)
      exact ⟨x, (h.attributed x u).mpr (Or.inr ⟨hid, hx⟩)⟩
    · obtain ⟨x, hx⟩ := ho.covered u m q hlookup hq
      exact ⟨x, (h.attributed x u).mpr (Or.inl hx)⟩

theorem AppStopped.sound {node : ClusterNodeInfo} {app : Nat} (h : AppStopped ar o id node app matrix p o')
    (ho : o.Sound) : o'.Sound := by
  refine ⟨h.cluster.rows h.size ho.rows, fun u m q hlookup => ?_, fun u m q hlookup hq => ?_⟩
  · rw [h.cluster.hostMapping]
    exact ho.inRange u m q (h.lookup_of_lookup hlookup)
  · by_cases hid : u = id
    · by_contra hnone
      rw [h.forgotten (hid ▸ hnone), hid, KeySet.lookup_remove, if_pos rfl] at hlookup
      cases hlookup
    · obtain ⟨x, hx⟩ := ho.covered u m q (h.lookup_of_lookup hlookup) hq
      exact ⟨x, (h.attributed x u).mpr ⟨hx, fun hlast => hid hlast.2.1⟩⟩

theorem stopEmulation_returns (har : ar ≠ .checked) (hin : o.InRange o.residualGraph.n)
    (hid : o.emulations.lookup id = some (matrix, p)) : Returns (o.stopEmulation ar id) fun _ => True := by
  obtain ⟨hlen, hlt⟩ := hin id matrix p hid
  unfold stopEmulation
  rw [KeySet.get?_eq_lookup, hid]
  simp only [Option.map_some]
  rw [releaseAll_eq hlen]
  exact ((SymMatrix.addAll_returns (cellsOf_within hlen hlt)).mpr fun h => absurd h har).bind
    fun r _ => ⟨_, rfl, trivial⟩

theorem stopEach_returns (har : ar ≠ .checked) (hin : o.InRange o.residualGraph.n) (uuids : List Uuid) :
    Returns (uuids.foldlM (fun (o : Orchestrator) uuid =>
      match o.stopEmulation ar uuid with
      | .error (.err _) => pure o
      | r => r) o) fun _ => True := by
  refine (Returns.foldlM_inv (fun s => s.InRange s.residualGraph.n) hin fun u _ s hs => ?_).mono
    fun _ _ => trivial
  cases hu : s.emulations.lookup u with
  | none =>
    have herr : s.stopEmulation ar u = .error (.err "no emulation registered") := by
      rw [stopEmulation, KeySet.get?_eq_lookup, hu]
      rfl
    rw [herr]
    exact ⟨s, rfl, hs⟩
  | some e =>
    obtain ⟨s', hs', -⟩ := stopEmulation_returns har hs hu
    rw [hs']
    obtain ⟨m, q, hstopped⟩ := stopEmulation_ok hs'
    refine ⟨s', rfl, fun v m q hv => ?_⟩
    rw [hstopped.emulations, KeySet.lookup_remove] at hv
    rw [hstopped.size]
    split at hv
    · cases hv
    · exact hs v m q hv

/-! ## A node less -/

structure Shrunk (o : Orchestrator) (node : ClusterNodeInfo) (o' : Orchestrator) : Prop where
  sound : o'.Sound
  hostMapping : o'.hostMapping = o.hostMapping.filter fun n => n ≠ { node with port := o.emanagersPort }
  emanagersPort : o'.emanagersPort = o.emanagersPort

theorem NodeRemoved.shrunk {node : ClusterNodeInfo} {uuids : List Uuid} {i : Nat} {o₁ : Orchestrator}
    (h : NodeRemoved ar o node uuids i o₁ o') (ho : o.Sound) : Shrunk o node o' := by
  have heach := stopEach_ok ho.inRange_n h.stopped
  have hrows := heach.cluster.rows heach.size ho.rows
  have hmapped : o₁.hostMapping[i]? = some { node with port := o.emanagersPort } := by
    obtain ⟨hlt, heq, -⟩ := List.findIdx?_eq_some_iff_getElem.mp h.index
    rw [heach.cluster.hostMapping, List.getElem?_eq_getElem hlt, of_decide_eq_true heq]
  obtain ⟨hrows', hmapping, -⟩ := hrows.without hmapped h.residualGraph h.hostMapping h.emanagersPort
  rw [heach.cluster.hostMapping] at hmapping
  -- Only an emulation without apps is left.
  have hnil : ∀ u m q, o'.emulations.lookup u = some (m, q) → o.emulations.lookup u = some (m, q) ∧
    q = [] := by
    intro u m q hu
    rw [h.forgets u] at hu
    split at hu <;> rename_i hmem
    · cases hu
    · refine ⟨hu, ?_⟩
      by_contra hq
      exact hmem ((h.concerned u).mpr (ho.covered u m q hu hq))
  refine ⟨⟨hrows', fun u m q hu => ?_, fun u m q hu hq => absurd (hnil u m q hu).2 hq⟩, hmapping,
    h.emanagersPort.trans heach.cluster.emanagersPort⟩
  obtain ⟨hold, rfl⟩ := hnil u m q hu
  exact ⟨(ho.inRange u m [] hold).1, by simp⟩

theorem removeClusterNode_returns (har : ar ≠ .checked) (ho : o.Sound) {node : ClusterNodeInfo}
    (hnode : { node with port := o.emanagersPort } ∈ o.hostMapping) :
    Returns (o.removeClusterNode ar it node) fun r => Shrunk o node r.1 := by
  have hreturns : Returns (o.removeClusterNode ar it node) fun _ => True := by
    unfold removeClusterNode
    dsimp only
    cases hindex : o.hostMapping.findIdx? fun n => n = { node with port := o.emanagersPort } with
    | none =>
      have habsent := List.findIdx?_eq_none_iff.mp hindex _ hnode
      simp at habsent
    | some i =>
      obtain ⟨hlt, -⟩ := List.findIdx?_eq_some_iff_getElem.mp hindex
      obtain ⟨o₁, ho₁, -⟩ := stopEach_returns har ho.inRange_n
        ((it.order o.attributedEmul.elems).flatMap fun p => it.order p.2.elems)
      have heach := stopEach_ok ho.inRange_n ho₁
      dsimp only
      refine Returns.bind (P := fun s => s.residualGraph.n = o.residualGraph.n) ⟨o₁, ho₁, heach.size⟩
        fun s hs => ?_
      refine (SymMatrix.removeId_spec (m := s.residualGraph) ?_).bind fun r _ => ⟨_, rfl, trivial⟩
      rw [hs, ho.rows.size]
      exact hlt
  obtain ⟨⟨o', uuids⟩, hr, -⟩ := hreturns
  obtain ⟨i, o₁, hremoved⟩ := removeClusterNode_ok hr
  exact ⟨_, hr, hremoved.shrunk ho⟩

theorem Follows.shrunk {cluster : List ClusterNodeInfo} {node : ClusterNodeInfo} (h : o.Follows cluster)
    (hips : ∀ c ∈ cluster, c.ipAddr = node.ipAddr → c = node) (hs : Shrunk o node o') :
    o'.Follows (cluster.filter fun c => c ≠ node) := by
  intro n
  rw [hs.hostMapping, hs.emanagersPort, List.mem_filter, h n, decide_eq_true_eq]
  constructor
  · rintro ⟨⟨c, hc, rfl⟩, hne⟩
    refine ⟨c, List.mem_filter.mpr ⟨hc, decide_eq_true ?_⟩, rfl⟩
    rintro rfl
    exact hne rfl
  · rintro ⟨c, hc, rfl⟩
    obtain ⟨hc, hne⟩ := List.mem_filter.mp hc
    refine ⟨⟨c, hc, rfl⟩, fun heq => of_decide_eq_true hne (hips c hc ?_)⟩
    exact (ClusterNodeInfo.mk.inj heq).1

/-! ## The nodes of a new graph -/

theorem mem_speeds {cgraph : CGraph ClusterNodeInfo} {port : Nat} {nodes : List ClusterNodeInfo}
    (hidx : cgraph.Indexed) (h : (convertCgraphNodeinfo it port cgraph).speeds it = .ok (matrix, nodes))
    (n : ClusterNodeInfo) : n ∈ nodes ↔ ∃ c ∈ cgraph.infos, n = { c with port } := by
  have hspeeds := speeds_ok h
  have hidx' : (convertCgraphNodeinfo it port cgraph).Indexed := hidx.mapNodes it _
  have hinfos : n ∈ nodes ↔ ∃ a ∈ (convertCgraphNodeinfo it port cgraph).nodes.elems, a.info = n := by
    constructor
    · intro hn
      obtain ⟨i, hi⟩ := List.getElem?_of_mem hn
      obtain ⟨a, ha, -, hinfo⟩ := hspeeds.nodes i n hi
      exact ⟨a, ha, hinfo⟩
    · rintro ⟨a, ha, rfl⟩
      have hlt : a.index < nodes.length := by
        rw [hspeeds.len, hidx'.size_eq]
        exact hidx'.index_lt ha
      obtain ⟨b, hb, hbi, hinfo⟩ := hspeeds.nodes a.index _ (List.getElem?_eq_getElem hlt)
      obtain rfl := KeySet.eq_of_key_eq _ hb ha hbi
      rw [hinfo]
      exact List.getElem_mem hlt
  rw [hinfos]
  have hperm : (convertCgraphNodeinfo it port cgraph).nodes.elems.Perm _ :=
    CGraph.mapNodes_elems it cgraph fun info => { info with port }
  constructor
  · rintro ⟨a, ha, rfl⟩
    obtain ⟨b, hb, rfl⟩ := List.mem_map.mp (hperm.mem_iff.mp ha)
    exact ⟨b.info, List.mem_map_of_mem hb, rfl⟩
  · rintro ⟨c, hc, rfl⟩
    obtain ⟨b, hb, rfl⟩ := List.mem_map.mp hc
    exact ⟨_, hperm.mem_iff.mpr (List.mem_map_of_mem hb), rfl⟩

theorem new_follows {cgraph : CGraph ClusterNodeInfo} (hidx : cgraph.Indexed) (hips : DistinctIps cgraph)
    (it : Iter) (port maxLoad : Nat) : Returns (Orchestrator.new it cgraph port maxLoad) fun o =>
      o.Sound ∧ o.emanagersPort = port ∧ o.Follows cgraph.infos := by
  obtain ⟨⟨matrix, nodes⟩, hspeeds, -⟩ :=
    CGraph.speeds_returns (hidx.mapNodes it fun info => { info with port }) it
  have hspeeds : (convertCgraphNodeinfo it port cgraph).speeds it = .ok (matrix, nodes) := hspeeds
  have hnew : ∃ o, Orchestrator.new it cgraph port maxLoad = .ok o ∧ o.hostMapping = nodes ∧
      o.emanagersPort = port := by
    unfold Orchestrator.new
    rw [hspeeds]
    exact ⟨_, rfl, rfl, rfl⟩
  obtain ⟨o, ho, rfl, rfl⟩ := hnew
  exact ⟨o, ho, (new_wf hips ho).sound, rfl, mem_speeds hidx hspeeds⟩

/-! ### The nodes that leave -/

structure HostsGone (o : Orchestrator) (gone : List ClusterNodeInfo) (s : Orchestrator) : Prop where
  sound : s.Sound
  hostMapping : s.hostMapping = o.hostMapping.filter fun n => n ∉ gone
  emanagersPort : s.emanagersPort = o.emanagersPort

theorem Sound.noneGone (ho : o.Sound) : HostsGone o [] o :=
  ⟨ho, (List.filter_eq_self.mpr (by simp)).symm, rfl⟩

theorem HostsGone.snoc {gone : List ClusterNodeInfo} {s s' : Orchestrator} {node : ClusterNodeInfo}
    (h : HostsGone o gone s) (hport : node.port = o.emanagersPort) (hs : Shrunk s node s') :
    HostsGone o (gone ++ [node]) s' := by
  have hsame : ({ node with port := s.emanagersPort } : ClusterNodeInfo) = node := by
    rw [h.emanagersPort, ← hport]
  refine ⟨hs.sound, ?_, hs.emanagersPort.trans h.emanagersPort⟩
  rw [hs.hostMapping, hsame, h.hostMapping, List.filter_filter]
  exact List.filter_congr fun n _ => by simp [and_comm]

theorem removeNext_eq {r : Orchestrator × UuidSet} {node : ClusterNodeInfo} {r' : Orchestrator × List Uuid}
    (h : r.1.removeClusterNode ar it node = .ok r') :
    removeNext ar it r node = .ok (r'.1, r'.2.foldl KeySet.insert r.2) := by
  rw [removeNext, h]
  rfl

theorem removeNext_gone {gone : List ClusterNodeInfo} {r r' : Orchestrator × UuidSet} {node : ClusterNodeInfo}
    (h : HostsGone o gone r.1) (hport : node.port = o.emanagersPort)
    (hnext : removeNext ar it r node = .ok r') :
    HostsGone o (gone ++ [node]) r'.1 := by
  cases hnode : r.1.removeClusterNode ar it node with
  | error e =>
    rw [removeNext, hnode] at hnext
    cases e <;> cases hnext
  | ok r₁ =>
    obtain ⟨o₂, uuids⟩ := r₁
    rw [removeNext_eq hnode] at hnext
    cases hnext
    obtain ⟨i, o₁, hremoved⟩ := removeClusterNode_ok hnode
    exact h.snoc hport (hremoved.shrunk h.sound)

theorem removals_gone {removed : List ClusterNodeInfo} {r : Orchestrator × UuidSet} (ho : o.Sound)
    (hport : ∀ n ∈ removed, n.port = o.emanagersPort)
    (h : removed.foldlM (removeNext ar it) (o, KeySet.empty) = .ok r) : HostsGone o removed r.1 :=
  foldlM_ok_done (fun done (r : Orchestrator × UuidSet) => HostsGone o done r.1) ho.noneGone
    (fun pre node post r r' hx hr hstep => removeNext_gone hr (hport node (by simp [hx])) hstep) h

theorem removals_returns (har : ar ≠ .checked) {removed : List ClusterNodeInfo} (ho : o.Sound)
    (hknown : ∀ n ∈ removed, n ∈ o.hostMapping) (hnodup : removed.Nodup) :
    Returns (removed.foldlM (removeNext ar it) (o, KeySet.empty)) fun r => HostsGone o removed r.1 := by
  refine Returns.foldlM (fun done (r : Orchestrator × UuidSet) => HostsGone o done r.1) ho.noneGone
    fun pre node post r hx hr => ?_
  have hmem : node ∈ removed := by simp [hx]
  have hport := ho.rows.port node (hknown node hmem)
  have hhere : ({ node with port := r.1.emanagersPort } : ClusterNodeInfo) ∈ r.1.hostMapping := by
    have hsame : ({ node with port := r.1.emanagersPort } : ClusterNodeInfo) = node := by
      rw [hr.emanagersPort, ← hport]
    rw [hsame, hr.hostMapping, List.mem_filter]
    refine ⟨hknown node hmem, decide_eq_true fun hin => ?_⟩
    rw [hx, List.nodup_append] at hnodup
    exact hnodup.2.2 node hin node List.mem_cons_self rfl
  obtain ⟨r', hr', hshrunk⟩ := removeClusterNode_returns har hr.sound hhere
  rw [removeNext_eq hr']
  exact ⟨_, rfl, hr.snoc hport hshrunk⟩

/-! ### The nodes that come -/

theorem nodesToIndex_lookup {nodes : List ClusterNodeInfo} (hnodes : nodes.Nodup) {a : ClusterNodeInfo}
    (ha : a ∈ nodes) : ∃ i < nodes.length, (nodesToIndex nodes).get? a = some (a, i) := by
  have hperm : (nodesToIndex nodes).elems.Perm nodes.zipIdx := by
    have hput := KeySet.elems_foldl_put id (l := nodes.zipIdx) (m := KeySet.empty)
      (by simpa [KeySet.keys, Function.comp_def] using hnodes)
    rwa [KeySet.elems_empty, List.append_nil] at hput
  obtain ⟨i, hi⟩ := List.getElem?_of_mem ha
  refine ⟨i, (List.getElem?_eq_some_iff.mp hi).1, ?_⟩
  rw [KeySet.get?_eq_lookup, Option.map_eq_some_iff]
  refine ⟨i, KeySet.lookup_eq_some.mpr (hperm.mem_iff.mpr ?_), rfl⟩
  rw [List.mem_zipIdx_iff_getElem?]
  exact hi

theorem addClusterNode_returns {port : Nat} {nodes : List ClusterNodeInfo} {node : ClusterNodeInfo}
    (hnodes : Hosts port matrix nodes) (ho : o.Rows) (hall : ∀ a ∈ o.hostMapping, a ∈ nodes)
    (hnode : node ∈ nodes) : Returns (addClusterNode matrix (nodesToIndex nodes) o node) fun _ => True := by
  obtain ⟨i, hi, hindex⟩ := nodesToIndex_lookup hnodes.nodup hnode
  unfold addClusterNode
  dsimp only
  rw [hindex, unwrap_some, bind_ok]
  dsimp only
  refine (SymMatrix.growFn_spec (P := fun _ _ _ => True) fun row col hle hlo hhi => ?_).bind
    fun r _ => ⟨_, rfl, trivial⟩
  split
  · exact ⟨_, rfl, trivial⟩
  · have hother : (if row = i then col else row) < (o.hostMapping ++ [node]).length := by
      rw [List.length_append, List.length_singleton, ← ho.size]
      split <;> omega
    have hmem : (o.hostMapping ++ [node])[if row = i then col else row] ∈ nodes := by
      rcases List.mem_append.mp (List.getElem_mem hother) with ha | ha
      · exact hall _ ha
      · rw [List.mem_singleton.mp ha]
        exact hnode
    obtain ⟨j, hj, hlookup⟩ := nodesToIndex_lookup hnodes.nodup hmem
    rw [get_eq hother, bind_ok, hlookup, unwrap_some, bind_ok]
    exact ⟨_, SymMatrix.index_eq _ (hnodes.size ▸ hi) (hnodes.size ▸ hj), trivial⟩

theorem additions_returns {port : Nat} {nodes added : List ClusterNodeInfo} (hnodes : Hosts port matrix nodes)
    (ho : o.Rows) (hport : port = o.emanagersPort) (hall : ∀ a ∈ o.hostMapping, a ∈ nodes)
    (hadded : ∀ n ∈ added, n ∈ nodes ∧ n ∉ o.hostMapping) (hnodup : added.Nodup) :
    Returns (added.foldlM (addClusterNode matrix (nodesToIndex nodes)) o) fun _ => True := by
  refine (Returns.foldlM (fun done s => s.Rows ∧ s.emanagersPort = o.emanagersPort ∧
    s.hostMapping = o.hostMapping ++ done) ⟨ho, rfl, by simp⟩ fun pre node post s hx hs => ?_).mono
      fun _ _ => trivial
  obtain ⟨hrows, hsport, hmapping⟩ := hs
  have hmem : node ∈ added := by simp [hx]
  have hold : ∀ a ∈ s.hostMapping, a ∈ nodes := fun a ha => by
    rw [hmapping] at ha
    rcases List.mem_append.mp ha with ha | ha
    · exact hall a ha
    · exact (hadded a (by simp [hx, ha])).1
  have hnew : node ∉ s.hostMapping := by
    rw [hmapping]
    intro hin
    rcases List.mem_append.mp hin with hin | hin
    · exact (hadded node hmem).2 hin
    · rw [hx, List.nodup_append] at hnodup
      exact hnodup.2.2 node hin node List.mem_cons_self rfl
  obtain ⟨s', hs', -⟩ := addClusterNode_returns hnodes hrows hold (hadded node hmem).1
  have hhost :=
    hrows.added hnodes (by rw [hsport, ← hport]; exact hnodes.port node (hadded node hmem).1) hnew hs'
  obtain ⟨r, rfl⟩ := hhost.same
  exact ⟨_, hs', hhost.rows, hsport, by simp [hmapping]⟩

/-! ### The update -/

theorem updateWithCgraph_follows {cgraph : CGraph ClusterNodeInfo} {uuids : List Uuid}
    (hidx : cgraph.Indexed) (hips : DistinctIps cgraph) (ho : o.Sound)
    (h : o.updateWithCgraph ar it cgraph = .ok (o', uuids)) :
    o'.Sound ∧ o'.emanagersPort = o.emanagersPort ∧ o'.Follows cgraph.infos := by
  unfold updateWithCgraph at h
  obtain ⟨⟨matrix, nodes⟩, hspeeds, h⟩ := of_bind_eq_ok h
  obtain ⟨⟨o₁, affected⟩, hremoved, h⟩ := of_bind_eq_ok h
  obtain ⟨o₂, hadded, h⟩ := of_bind_eq_ok h
  cases h
  have hnodes := hosts_ok hips hspeeds
  have hr := removals_gone ho (fun n hn => ho.rows.port n (List.mem_filter.mp hn).1) hremoved
  dsimp only at hr
  have hstay : ∀ n, n ∈ o₁.hostMapping ↔ n ∈ o.hostMapping ∧ n ∈ nodes := fun n => by
    rw [hr.hostMapping, List.mem_filter, decide_eq_true_eq, List.mem_filter]
    simp +contextual
  have ha := addEach_ok hr.sound.rows hnodes (fun n hn => by
      rw [hr.emanagersPort]
      exact hnodes.port n (List.mem_filter.mp hn).1)
    (fun n hn hin => (of_decide_eq_true (List.mem_filter.mp hn).2) ((hstay n).mp hin).1)
    (hnodes.nodup.filter _) hadded
  obtain ⟨r, rfl⟩ := ha.same
  refine ⟨⟨ha.rows, fun u m q hu => ?_, hr.sound.covered⟩, hr.emanagersPort, fun n => ?_⟩
  · obtain ⟨hlen, hlt⟩ := hr.sound.inRange u m q hu
    exact ⟨hlen, fun x hx => (hlt x hx).trans_le (by simp)⟩
  · show n ∈ o₁.hostMapping ++ _ ↔ ∃ c ∈ cgraph.infos, n = { c with port := o₁.emanagersPort }
    rw [hr.emanagersPort, ← mem_speeds hidx hspeeds, List.mem_append, hstay, List.mem_filter,
      decide_eq_true_eq]
    tauto

theorem updateWithCgraph_returns (har : ar ≠ .checked) {cgraph : CGraph ClusterNodeInfo}
    (hidx : cgraph.Indexed) (hips : DistinctIps cgraph) (ho : o.Sound) :
    Returns (o.updateWithCgraph ar it cgraph) fun _ => True := by
  unfold updateWithCgraph
  have hidx' : (convertCgraphNodeinfo it o.emanagersPort cgraph).Indexed := hidx.mapNodes it _
  obtain ⟨⟨matrix, nodes⟩, hspeeds, -⟩ := CGraph.speeds_returns hidx' it
  have hnodes := hosts_ok hips hspeeds
  rw [hspeeds, bind_ok]
  dsimp only
  refine Returns.bind (P := fun r : Orchestrator × UuidSet =>
      HostsGone o (o.hostMapping.filter fun n => n ∉ nodes) r.1)
    (removals_returns har ho (fun n hn => (List.mem_filter.mp hn).1) (ho.rows.nodup.filter _)) fun r hr => ?_
  have hstay : ∀ n, n ∈ r.1.hostMapping ↔ n ∈ o.hostMapping ∧ n ∈ nodes := fun n => by
    rw [hr.hostMapping, List.mem_filter, decide_eq_true_eq, List.mem_filter]
    simp +contextual
  refine (additions_returns hnodes hr.sound.rows hr.emanagersPort.symm (fun a ha => ((hstay a).mp ha).2)
    (fun n hn => ?_) (hnodes.nodup.filter _)).bind fun s _ => ⟨_, rfl, trivial⟩
  obtain ⟨hn, hnew⟩ := List.mem_filter.mp hn
  exact ⟨hn, fun hin => of_decide_eq_true hnew ((hstay n).mp hin).1⟩

end Orchestrator

end Kollaps
