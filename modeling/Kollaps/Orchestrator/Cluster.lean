import Kollaps.Cgraph.Indices
import Kollaps.Orchestrator.Accounts

/-!
# The hosts of the orchestrator

A host is known by its place in the mapping. What is left between two hosts is read through
their places, so that it does not change when a row goes and the places move.
-/

namespace Kollaps

open Run

namespace SymMatrix

variable {α : Type} [Inhabited α]

theorem removeId_ok {m m' : SymMatrix α} {id : Nat} (hid : id < m.n) (h : m.removeId id = .ok m') :
    m'.n = m.n - 1 ∧ ∀ i j, i < m.n - 1 → j < m.n - 1 → m'.entry i j = m.entry (shift id i) (shift id j) :=
  (removeId_spec hid).of_eq h

end SymMatrix

/-! ## The graph of the cluster -/

open Cgraph

/-- No two nodes of the graph have the same address. -/
def DistinctIps (g : CGraph ClusterNodeInfo) : Prop := (g.nodes.elems.map fun n => n.info.ipAddr).Nodup

namespace Orchestrator

/-- The hosts that a graph gives to the orchestrator, with the speeds between them. -/
structure Hosts (port : Nat) (matrix : SymMatrix Nat) (nodes : List ClusterNodeInfo) : Prop where
  size : matrix.n = nodes.length
  nodup : nodes.Nodup
  port : ∀ n ∈ nodes, n.port = port
  bound : ∀ i j, i < nodes.length → j < nodes.length → matrix.entry i j ≤ u32Max

theorem hosts_ok {it : Iter} {port : Nat} {cgraph : CGraph ClusterNodeInfo} {matrix : SymMatrix Nat}
    {nodes : List ClusterNodeInfo} (hips : DistinctIps cgraph)
    (h : (convertCgraphNodeinfo it port cgraph).speeds it = .ok (matrix, nodes)) :
    Hosts port matrix nodes := by
  have hspeeds := speeds_ok h
  have hconverted : (convertCgraphNodeinfo it port cgraph).nodes.elems.Perm _ :=
    CGraph.mapNodes_elems it cgraph fun info => { info with port }
  have hips' : ((convertCgraphNodeinfo it port cgraph).nodes.elems.map fun n => n.info).Nodup := by
    refine List.Nodup.of_map ClusterNodeInfo.ipAddr ?_
    rw [List.map_map, (hconverted.map _).nodup_iff, List.map_map]
    exact hips
  refine ⟨hspeeds.size, ?_, fun n hn => ?_, fun i j hi hj => ?_⟩
  · rw [List.nodup_iff_getElem?_ne_getElem?]
    intro i j hij hj heq
    obtain ⟨info, hinfo⟩ : ∃ info, nodes[j]? = some info := ⟨_, List.getElem?_eq_getElem hj⟩
    rw [hinfo] at heq
    obtain ⟨a, ha, hai, hainfo⟩ := hspeeds.nodes i info heq
    obtain ⟨b, hb, hbj, hbinfo⟩ := hspeeds.nodes j info hinfo
    have hab : a = b := List.inj_on_of_nodup_map hips' ha hb (hainfo.trans hbinfo.symm)
    subst hab
    omega
  · obtain ⟨i, hi⟩ := List.getElem?_of_mem hn
    obtain ⟨a, ha, -, hinfo⟩ := hspeeds.nodes i n hi
    obtain ⟨b, -, rfl⟩ := List.mem_map.mp (hconverted.mem_iff.mp ha)
    rw [← hinfo]
  · rw [hspeeds.speed i j hi hj]
    exact Nat.le_of_lt_succ (Nat.mod_lt _ (Nat.succ_pos _))

def speedBetween (matrix : SymMatrix Nat) (nodes : List ClusterNodeInfo) (a b : ClusterNodeInfo) : Nat :=
  matrix.entry (nodes.idxOf a) (nodes.idxOf b)

/-! ## Places -/

def place (o : Orchestrator) (host : ClusterNodeInfo) : Nat := o.hostMapping.idxOf host

def left (o : Orchestrator) (a b : ClusterNodeInfo) : Nat :=
  o.residualGraph.entry (o.place a) (o.place b)

/-- Each host has one row of the residual graph. -/
structure Rows (o : Orchestrator) : Prop where
  size : o.residualGraph.n = o.hostMapping.length
  nodup : o.hostMapping.Nodup
  port : ∀ n ∈ o.hostMapping, n.port = o.emanagersPort

variable {ar : Arith} {it : Iter} {o o' : Orchestrator}

theorem Rows.place_lt (h : o.Rows) {a : ClusterNodeInfo} (ha : a ∈ o.hostMapping) :
    o.place a < o.residualGraph.n := by
  rw [h.size]
  exact List.idxOf_lt_length_of_mem ha

theorem idxOf_of_getElem? {l : List ClusterNodeInfo} (hl : l.Nodup) {a : ClusterNodeInfo} {i : Nat}
    (hi : l[i]? = some a) : l.idxOf a = i := by
  obtain ⟨hlt, rfl⟩ := List.getElem?_eq_some_iff.mp hi
  exact hl.idxOf_getElem i hlt

theorem Rows.place_eq (h : o.Rows) {a : ClusterNodeInfo} {i : Nat} (hi : o.hostMapping[i]? = some a) :
    o.place a = i := idxOf_of_getElem? h.nodup hi

theorem getElem?_place {a : ClusterNodeInfo} (ha : a ∈ o.hostMapping) :
    o.hostMapping[o.place a]? = some a := by
  have hlt := List.idxOf_lt_length_of_mem ha
  rw [place, List.getElem?_eq_getElem hlt, List.getElem_idxOf hlt]

theorem left_comm (a b : ClusterNodeInfo) : o.left a b = o.left b a := o.residualGraph.entry_comm _ _

/-! ## A row less -/

theorem eraseIdx_eq_filter {l : List ClusterNodeInfo} (hl : l.Nodup) {i : Nat} {a : ClusterNodeInfo}
    (hi : l[i]? = some a) : l.eraseIdx i = l.filter fun n => n ≠ a := by
  obtain ⟨hlt, rfl⟩ := List.getElem?_eq_some_iff.mp hi
  rw [← hl.erase_getElem i hlt, hl.erase_eq_filter]
  refine List.filter_congr fun n _ => ?_
  by_cases hn : n = l[i] <;> simp [hn]

theorem idxOf_eraseIdx {l : List ClusterNodeInfo} (hl : l.Nodup) {i : Nat} {a : ClusterNodeInfo}
    (ha : a ∈ l.eraseIdx i) : l.idxOf a = SymMatrix.shift i ((l.eraseIdx i).idxOf a) := by
  have hlt := List.idxOf_lt_length_of_mem ha
  have hget := List.getElem_idxOf hlt
  rw [List.getElem_eraseIdx] at hget
  unfold SymMatrix.shift
  split at hget <;> rename_i hi
  · rw [if_neg (by omega)]
    exact idxOf_of_getElem? hl (List.getElem?_eq_some_iff.mpr ⟨_, hget⟩)
  · rw [if_pos (by omega)]
    exact idxOf_of_getElem? hl (List.getElem?_eq_some_iff.mpr ⟨_, hget⟩)

theorem Rows.without {o₁ : Orchestrator} (h : o₁.Rows) {i : Nat} {node : ClusterNodeInfo}
    (hi : o₁.hostMapping[i]? = some node) (hr : o₁.residualGraph.removeId i = .ok o'.residualGraph)
    (hm : o'.hostMapping = o₁.hostMapping.eraseIdx i) (hp : o'.emanagersPort = o₁.emanagersPort) :
    o'.Rows ∧ o'.hostMapping = o₁.hostMapping.filter (fun n => n ≠ node) ∧
      ∀ a ∈ o'.hostMapping, ∀ b ∈ o'.hostMapping, o'.left a b = o₁.left a b := by
  have hlt : i < o₁.hostMapping.length := (List.getElem?_eq_some_iff.mp hi).1
  obtain ⟨hn, hentry⟩ := SymMatrix.removeId_ok (h.size ▸ hlt) hr
  have hlen : o'.residualGraph.n = o'.hostMapping.length := by
    rw [hn, hm, List.length_eraseIdx_of_lt hlt, h.size]
  refine ⟨⟨hlen, ?_, fun n hmem => ?_⟩, hm ▸ eraseIdx_eq_filter h.nodup hi, fun a ha b hb => ?_⟩
  · rw [hm]
    exact h.nodup.sublist (List.eraseIdx_sublist _ i)
  · rw [hp]
    rw [hm] at hmem
    exact h.port n ((List.eraseIdx_sublist _ i).subset hmem)
  · have hplace : ∀ a ∈ o'.hostMapping, o'.place a < o₁.residualGraph.n - 1 ∧
        o₁.place a = SymMatrix.shift i (o'.place a) := by
      intro a ha
      refine ⟨?_, ?_⟩
      · rw [← hn, hlen]
        exact List.idxOf_lt_length_of_mem ha
      · rw [place, place, hm]
        exact idxOf_eraseIdx h.nodup (hm ▸ ha)
    rw [left, left, hentry _ _ (hplace a ha).1 (hplace b hb).1, (hplace a ha).2, (hplace b hb).2]

/-! ## A row more -/

/-- `nodes_to_index`. -/
def nodesToIndex (nodes : List ClusterNodeInfo) : HostMap Nat :=
  nodes.zipIdx.foldl (fun acc p => acc.put p.1 p.2) KeySet.empty

theorem lookup_nodesToIndex {nodes : List ClusterNodeInfo} (hnodes : nodes.Nodup)
    {a : ClusterNodeInfo} {i : Nat}
    (h : (nodesToIndex nodes).lookup a = some i) : i = nodes.idxOf a ∧ i < nodes.length := by
  have hperm : (nodesToIndex nodes).elems.Perm nodes.zipIdx := by
    have hput := KeySet.elems_foldl_put id (l := nodes.zipIdx) (m := KeySet.empty)
      (by simpa [KeySet.keys, Function.comp_def] using hnodes)
    rwa [KeySet.elems_empty, List.append_nil] at hput
  rw [KeySet.lookup_eq_some, hperm.mem_iff, List.mem_zipIdx_iff_getElem?] at h
  exact ⟨(idxOf_of_getElem? hnodes h).symm, (List.getElem?_eq_some_iff.mp h).1⟩

/-- A host that was added at the end. Where a row has the number that the graph gives to the new
host, the new host is taken for the other one. -/
structure HostAdded (matrix : SymMatrix Nat) (nodes : List ClusterNodeInfo) (o : Orchestrator)
    (node : ClusterNodeInfo) (o' : Orchestrator) : Prop where
  rows : o'.Rows
  same : ∃ residualGraph, o' = { o with residualGraph, hostMapping := o.hostMapping ++ [node] }
  kept : ∀ a ∈ o.hostMapping, ∀ b ∈ o.hostMapping, o'.left a b = o.left a b
  own : o'.left node node = u32Max
  new : ∀ a ∈ o.hostMapping, o'.left a node =
    speedBetween matrix nodes node (if o.place a = nodes.idxOf node then node else a)

theorem Rows.added {port : Nat} {matrix : SymMatrix Nat} {nodes : List ClusterNodeInfo}
    {node : ClusterNodeInfo}
    (h : o.Rows) (hnodes : Hosts port matrix nodes) (hport : node.port = o.emanagersPort)
    (hnew : node ∉ o.hostMapping) (hadd : addClusterNode matrix (nodesToIndex nodes) o node = .ok o') :
    HostAdded matrix nodes o node o' := by
  obtain ⟨⟨n, index⟩, hindex, hadd⟩ := of_bind_eq_ok hadd
  obtain ⟨residualGraph, hgrow, hadd⟩ := of_bind_eq_ok hadd
  cases hadd
  obtain ⟨hn, hold, hcells⟩ := SymMatrix.growFn_ok (m := o.residualGraph) hgrow
  rw [unwrap_eq_ok, KeySet.get?_eq_lookup, Option.map_eq_some_iff] at hindex
  obtain ⟨i, hi, heq⟩ := hindex
  cases heq
  obtain ⟨rfl, hlt⟩ := lookup_nodesToIndex hnodes.nodup hi
  have hplace : (o.hostMapping ++ [node]).idxOf node = o.hostMapping.length := by
    rw [List.idxOf_append_of_notMem hnew]
    simp
  have hplaceOld : ∀ a ∈ o.hostMapping, (o.hostMapping ++ [node]).idxOf a = o.place a := fun a ha =>
    List.idxOf_append_of_mem ha
  refine ⟨⟨?_, ?_, ?_⟩, ⟨residualGraph, rfl⟩, fun a ha b hb => ?_, ?_, fun a ha => ?_⟩
  · show residualGraph.n = (o.hostMapping ++ [node]).length
    rw [hn, h.size, List.length_append, List.length_singleton]
  · exact List.nodup_append.mpr ⟨h.nodup, List.nodup_singleton node, fun a ha b hb => by
      rw [List.mem_singleton.mp hb]
      rintro rfl
      exact hnew ha⟩
  · intro a ha
    rcases List.mem_append.mp ha with ha | ha
    · exact h.port a ha
    · rw [List.mem_singleton.mp ha]
      exact hport
  · show residualGraph.entry _ _ = _
    rw [place, place, hplaceOld a ha, hplaceOld b hb, hold _ _ (h.place_lt ha) (h.place_lt hb), left]
  · show residualGraph.entry _ _ = _
    rw [place, hplace]
    have hcell :=
      hcells o.hostMapping.length o.hostMapping.length (le_refl _) h.size.le (by rw [h.size]; omega)
    rw [if_pos rfl] at hcell
    exact (Except.ok.inj hcell).symm
  · show residualGraph.entry _ _ = _
    rw [place, place, hplace, hplaceOld a ha]
    have hlast := h.size
    have hlta := h.place_lt ha
    have hcell := hcells (o.place a) o.hostMapping.length (by omega) (by omega) (by omega)
    rw [if_neg (by omega)] at hcell
    obtain ⟨other, hother, hcell⟩ := of_bind_eq_ok hcell
    obtain ⟨⟨n', index⟩, hindex, hcell⟩ := of_bind_eq_ok hcell
    rw [unwrap_eq_ok, KeySet.get?_eq_lookup, Option.map_eq_some_iff] at hindex
    obtain ⟨j, hj, heq⟩ := hindex
    cases heq
    obtain ⟨rfl, hltj⟩ := lookup_nodesToIndex hnodes.nodup hj
    simp only at hcell
    rw [SymMatrix.index_eq _ (hnodes.size ▸ hlt) (hnodes.size ▸ hltj)] at hcell
    rw [← Except.ok.inj hcell, speedBetween]
    congr 2
    rw [get_eq_ok] at hother
    split at hother <;> rename_i hsame
    · rw [if_pos hsame]
      simpa using hother.symm
    · have hothers : (o.hostMapping ++ [node])[o.place a]? = some other := hother
      rw [List.getElem?_append_left (by rw [← h.size]; exact hlta), getElem?_place ha] at hothers
      rw [if_neg hsame]
      exact (Option.some.inj hothers).symm

end Orchestrator

end Kollaps
