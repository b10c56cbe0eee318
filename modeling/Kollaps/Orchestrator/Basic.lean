import Kollaps.Cgraph.Basic
import Kollaps.Data
import Mathlib.Data.Nat.Factorial.Basic

/-!
# The orchestrator

Places the apps of an emulation on the hosts of the cluster, and keeps what is left of the
bandwidth between the hosts. The `u32` arithmetic is read in one of three ways. A call that
gives an `Err` keeps nothing of what it had changed.
-/

namespace Kollaps

open Run Cgraph

abbrev HostMap (V : Type) := KeyMap ClusterNodeInfo V

abbrev UuidMap (V : Type) := KeyMap Uuid V

abbrev UuidSet := KeySet fun u : Uuid => u

abbrev IndexSet := KeySet fun i : Nat => i

/-- `set_host` and `set_index` on `as_app_mut`. -/
def Node.setPlace (n : Node) (host : ClusterNodeInfo) (index : Nat) : Run Node :=
  match n with
  | .app id a => pure (.app id { a with hostOpt := some host, indexOpt := some index })
  | .bridge _ => .error (.stop "Trying to get the app from a bridge")

def IndexSet.same (s t : IndexSet) : Bool := s.len = t.len ∧ s.elems.all t.contains

def SymMatrix.addAt (ar : Arith) (m : SymMatrix Nat) (row col d : Nat) : Run (SymMatrix Nat) := do
  let a ← m.index row col
  m.setIndex row col (← ar.add a d)

def SymMatrix.subAt (ar : Arith) (m : SymMatrix Nat) (row col d : Nat) : Run (SymMatrix Nat) := do
  let a ← m.index row col
  m.setIndex row col (← ar.sub a d)

/-- The next combination of `k` elements of the set `0 ..= n`. -/
def nextComb (previous : List Nat) (k n : Nat) : Run (Option (List Nat)) := do
  let i ← usizeSub k 1
  let p ← get previous i
  let previous ← set previous i (p + 1)
  let (i, previous) ← loop (k + 1) (fun (i, previous) => do
    let p ← get previous i
    let d ← usizeSub n k
    if p > d + 1 + i then do
      let i ← usizeSub i 1
      let p ← get previous i
      pure (.inl (i, ← set previous i (p + 1)))
    else pure (.inr (i, previous))) (i, previous)
  let p ← get previous 0
  let d ← usizeSub n k
  if p > d then pure none
  else do
    let previous ← (List.range' (i + 1) (k - (i + 1))).foldlM (fun previous v => do
      let p ← get previous (v - 1)
      set previous v (p + 1)) previous
    pure (some previous)

def swap (xs : List Nat) (a b : Nat) : Run (List Nat) := do
  let x ← get xs a
  let y ← get xs b
  set (← set xs a y) b x

structure Orchestrator where
  residualGraph : SymMatrix Nat
  hostMapping : List ClusterNodeInfo
  attributedEmul : HostMap UuidSet
  emulations : UuidMap (SymMatrix Nat × List Nat)
  currentLoad : HostMap (UuidMap Nat)
  maxLoad : Nat
  emanagersPort : Nat
deriving DecidableEq

namespace Orchestrator

def convertCgraphNodeinfo (it : Iter) (port : Nat) (graph : CGraph ClusterNodeInfo) :
    CGraph ClusterNodeInfo := graph.mapNodes it fun cni => { cni with port }

def new (it : Iter) (cgraph : CGraph ClusterNodeInfo) (emanagersPort maxLoad : Nat) :
    Run Orchestrator := do
  let (residualGraph, hostMapping) ← (convertCgraphNodeinfo it emanagersPort cgraph).speeds it
  pure {
    residualGraph, hostMapping
    attributedEmul := KeySet.empty
    emulations := KeySet.empty
    currentLoad := KeySet.empty
    maxLoad, emanagersPort }

/-! ## The search for a placement -/

def getActualLoad (it : Iter) (o : Orchestrator) (host : Nat) : Run Nat := do
  let node ← get o.hostMapping host
  match o.currentLoad.get? node with
  | some (_, map) => pure ((it.order map.elems).foldl (fun acc p => acc + p.2) 0)
  | none => pure 0

/-- The host of an app: `mapper[equivalence[app]] % size_before_cloning`. -/
def hostOf (o : Orchestrator) (equivalence mapper : List Nat) (app : Nat) : Run Nat := do
  let e ← get equivalence app
  let m ← get mapper e
  pure (m % o.residualGraph.size)

/-- One host of `verify_permutation`. -/
def verifyHost (ar : Arith) (it : Iter) (o : Orchestrator) (g1 : SymMatrix Nat)
    (equivalence mapper : List Nat) (host : Nat) : Run Bool := do
  let apps := List.range g1.size
  let appsOnSameHost ← apps.filterM fun app => return (← o.hostOf equivalence mapper app) = host
  let load ← o.getActualLoad it host
  let room ← usizeSub o.maxLoad load
  if room < appsOnSameHost.length then pure false
  else do
    let appsNotSameHost ← apps.filterM fun app => return (← o.hostOf equivalence mapper app) ≠ host
    let totalRequiredBandwidth ← appsOnSameHost.foldlM (fun total sameHostApp =>
      appsNotSameHost.foldlM (fun total notSameHostApp => do
        ar.add total (← g1.index sameHostApp notSameHostApp)) total) 0
    let others ← equivalence.mapM fun other => do
      let m ← get mapper other
      pure (m % o.residualGraph.size)
    (others.filter fun other => other ≠ host).allM fun other => do
      let residual ← o.residualGraph.index host other
      pure (decide (totalRequiredBandwidth ≤ residual))

def verifyHosts (ar : Arith) (it : Iter) (o : Orchestrator) (g1 : SymMatrix Nat)
    (equivalence mapper : List Nat) : List Nat → IndexSet → Run Bool
  | [], _ => pure true
  | i :: rest, checkedHosts => do
    let m ← get mapper i
    let host := m % o.residualGraph.size
    if checkedHosts.contains host then verifyHosts ar it o g1 equivalence mapper rest checkedHosts
    else if ← o.verifyHost ar it g1 equivalence mapper host then
      verifyHosts ar it o g1 equivalence mapper rest (checkedHosts.insert host)
    else pure false

def verifyPermutation (ar : Arith) (it : Iter) (o : Orchestrator) (g1 residual : SymMatrix Nat)
    (equivalence mapper : List Nat) : Run Bool :=
  verifyHosts ar it o g1 equivalence mapper (List.range residual.size) KeySet.empty

/-- The state of Heap's algorithm. -/
structure Exchange where
  equivalence : List Nat
  exchangeCounter : List Nat
  exchangeIndex : Nat
deriving DecidableEq

def exchangeRound (ar : Arith) (it : Iter) (o : Orchestrator) (g1 residual : SymMatrix Nat)
    (mapper : List Nat) (s : Exchange) : Run (Exchange ⊕ Option (List Nat)) :=
  if s.exchangeIndex < g1.size then do
    let counter ← get s.exchangeCounter s.exchangeIndex
    if counter < s.exchangeIndex then do
      let other := if s.exchangeIndex % 2 = 0 then 0 else counter
      let equivalence ← swap s.equivalence other s.exchangeIndex
      if ← o.verifyPermutation ar it g1 residual equivalence mapper then
        pure (.inr (some equivalence))
      else do
        let exchangeCounter ← set s.exchangeCounter s.exchangeIndex (counter + 1)
        pure (.inl ⟨equivalence, exchangeCounter, 1⟩)
    else do
      let exchangeCounter ← set s.exchangeCounter s.exchangeIndex 0
      pure (.inl ⟨s.equivalence, exchangeCounter, s.exchangeIndex + 1⟩)
  else pure (.inr none)

def graphIsomorphism (ar : Arith) (it : Iter) (o : Orchestrator) (g1 residual : SymMatrix Nat)
    (mapper : List Nat) : Run (Option (List Nat)) :=
  if g1.size ≠ residual.size then .error (.err "the graph must have the same size")
  else do
    let equivalence := List.range g1.size
    if ← o.verifyPermutation ar it g1 residual equivalence mapper then pure (some equivalence)
    else do
      loop (g1.size.factorial * (g1.size + 1) + 1) (o.exchangeRound ar it g1 residual mapper)
        ⟨equivalence, List.replicate g1.size 0, 1⟩

/-- Every clone of a host is reduced to the smallest one that is not in the set yet. -/
def combinationSet (o : Orchestrator) (combination : List Nat) : Run IndexSet :=
  combination.foldlM (fun acc val => do
    let val ← loop (acc.len + 1) (fun val =>
      pure (if acc.contains val then .inl (val + o.residualGraph.size) else .inr val))
      (val % o.residualGraph.size)
    pure (acc.insert val)) KeySet.empty

/-- Whether every host of the combination has room for one more app. -/
def remaining (it : Iter) (o : Orchestrator) (combinationSet : IndexSet) : Run Bool :=
  (it.order combinationSet.elems).allM fun i => do
    let load ← o.getActualLoad it (i % o.residualGraph.size)
    pure (decide (load < o.maxLoad))

/-- The test of one combination: the placement that was found, or the combinations tested. -/
def testCombination (ar : Arith) (it : Iter) (o : Orchestrator) (g1 : SymMatrix Nat)
    (combination : List Nat) (testedComb : List IndexSet) : Run (List Nat ⊕ List IndexSet) := do
  let set ← o.combinationSet combination
  let remaining ← o.remaining it set
  if !testedComb.any set.same && remaining then do
    let subGraph ← SymMatrix.newFn combination.length fun row col => do
      let i1 ← get combination row
      let i2 ← get combination col
      o.residualGraph.index (i1 % o.residualGraph.size) (i2 % o.residualGraph.size)
    match ← o.graphIsomorphism ar it g1 subGraph combination with
    | none => pure (.inr (testedComb ++ [set]))
    | some equivalence => do
      let equivalence ← equivalence.mapM fun e => do
        let c ← get combination e
        pure (c % o.residualGraph.size)
      pure (.inl equivalence)
  else pure (.inr testedComb)

/-- One round of the loop over the combinations, each with those tested before. -/
def combinationRound (ar : Arith) (it : Iter) (o : Orchestrator) (g1 : SymMatrix Nat)
    (searchingSetSize : Nat) (s : List Nat × List IndexSet) :
    Run ((List Nat × List IndexSet) ⊕ (List Nat ⊕ List IndexSet)) := do
  match ← o.testCombination ar it g1 s.1 s.2 with
  | .inl equivalence => pure (.inr (.inl equivalence))
  | .inr testedComb =>
    match ← nextComb s.1 g1.size searchingSetSize with
    | some comb => pure (.inl (comb, testedComb))
    | none => pure (.inr (.inr testedComb))

def findIsoInternal (ar : Arith) (it : Iter) (o : Orchestrator) (g1 : SymMatrix Nat) :
    (maxDepth clones : Nat) → List IndexSet → Run (Option (List Nat))
  | 0, _, _ => pure none
  | maxDepth + 1, clones, testedComb => do
    let searchingSetSize ← usizeSub o.residualGraph.size 1
    let searchingSetSize :=
      if clones > 0 then searchingSetSize + o.residualGraph.size * clones else searchingSetSize
    match ← loop ((searchingSetSize + 2) ^ g1.size + 1) (o.combinationRound ar it g1 searchingSetSize)
        (List.range g1.size, testedComb) with
    | .inl equivalence => pure (some equivalence)
    | .inr testedComb => findIsoInternal ar it o g1 maxDepth (clones + 1) testedComb

def findIsomorphism (ar : Arith) (it : Iter) (o : Orchestrator) (graph : SymMatrix Nat) :
    Run (Option (List Nat)) :=
  let clones := (max 0 ((graph.size : Int) - (o.residualGraph.size : Int))).toNat
  o.findIsoInternal ar it graph 5 clones []

/-! ## Placing and stopping -/

def assign (emulId : Uuid) (o : Orchestrator) (host : ClusterNodeInfo) : Orchestrator :=
  let load := match o.currentLoad.get? host with
    | some (_, map) =>
      match map.get? emulId with
      | some (_, load) => map.put emulId (load + 1)
      | none => map.put emulId 1
    | none => KeySet.empty.put emulId 1
  let attributed := match o.attributedEmul.get? host with
    | some (_, entry) => entry.insert emulId
    | none => KeySet.empty.insert emulId
  { o with
    currentLoad := o.currentLoad.put host load
    attributedEmul := o.attributedEmul.put host attributed }

def placeApp (emulId : Uuid) (equivalence : List Nat) (i : Nat)
    (s : Orchestrator × Network Node × List Node × KeySet fun n : ClusterNodeInfo => n) :
    Run (Orchestrator × Network Node × List Node × KeySet fun n : ClusterNodeInfo => n) := do
  let (o, network, nodes, clusterNodesAffected) := s
  let host ← get o.hostMapping (← get equivalence i)
  let node ← (← get nodes i).setPlace host i
  let nodes ← set nodes i node
  pure (o.assign emulId host, network.editVertex node, nodes, clusterNodesAffected.insert host)

/-- Takes the bandwidth between two apps on different hosts. -/
def reserve (ar : Arith) (matrix : SymMatrix Nat) (equivalence : List Nat) (i j : Nat)
    (residualGraph : SymMatrix Nat) : Run (SymMatrix Nat) := do
  let hi ← get equivalence i
  let hj ← get equivalence j
  if i = j ∨ hi = hj then pure residualGraph
  else do
    let d ← matrix.index i j
    residualGraph.subAt ar hi hj d

def newEmulation (ar : Arith) (it : Iter) (o : Orchestrator) (network : Network Node) (emulId : Uuid) :
    Run (Orchestrator × Option (Network Node × List ClusterNodeInfo)) := do
  let (matrix, nodes) ← network.bandwidthMatrix it Node.isApp
  match ← o.findIsomorphism ar it matrix with
  | none => pure (o, none)
  | some equivalence => do
    let (o, network, _, clusterNodesAffected) ← forRange matrix.size
      (o, network, nodes, KeySet.empty) (placeApp emulId equivalence)
    let residualGraph ← forRange matrix.size o.residualGraph fun i residualGraph =>
      forRange i residualGraph (reserve ar matrix equivalence i)
    let emulations := o.emulations.put emulId (matrix, equivalence)
    pure ({ o with residualGraph, emulations },
      some (network, it.order clusterNodesAffected.elems))

/-- Gives back the bandwidth between two apps. -/
def release (ar : Arith) (matrix : SymMatrix Nat) (equivalence : List Nat) (i j : Nat)
    (residualGraph : SymMatrix Nat) : Run (SymMatrix Nat) :=
  if i = j then pure residualGraph
  else do
    let hi ← get equivalence i
    let hj ← get equivalence j
    let d ← matrix.index i j
    residualGraph.addAt ar hi hj d

def stopEmulation (ar : Arith) (o : Orchestrator) (emulId : Uuid) : Run Orchestrator :=
  match o.emulations.get? emulId with
  | some (_, matrix, equivalence) => do
    let residualGraph ← forRange matrix.size o.residualGraph fun i residualGraph =>
      forRange i residualGraph (release ar matrix equivalence i)
    pure { o with
      residualGraph
      attributedEmul := o.attributedEmul.mapValues fun uuids => uuids.remove emulId
      currentLoad := o.currentLoad.mapValues fun map => map.remove emulId
      emulations := o.emulations.remove emulId }
  | none => .error (.err "no emulation registered")

/-- One app less on a host, which may forget the emulation. -/
def unload (o : Orchestrator) (emulId : Uuid) (node : ClusterNodeInfo) : Run Orchestrator := do
  let (_, map) ← unwrap (o.currentLoad.get? node)
  match map.get? emulId with
  | some (_, load) => do
    let load ← usizeSub load 1
    if load = 0 then do
      let (_, uuids) ← unwrap (o.attributedEmul.get? node)
      pure { o with
        currentLoad := o.currentLoad.put node (map.remove emulId)
        attributedEmul := o.attributedEmul.put node (uuids.remove emulId) }
    else pure { o with currentLoad := o.currentLoad.put node (map.put emulId load) }
  | none => pure o

def stopAppEmulationOn (ar : Arith) (o : Orchestrator) (emulId : Uuid) (node : ClusterNodeInfo)
    (appIndex : Nat) : Run Orchestrator :=
  match o.emulations.get? emulId with
  | some (_, matrix, equivalence) => do
    let residualGraph ← forRange matrix.size o.residualGraph fun i residualGraph =>
      if i = appIndex then pure residualGraph
      else release ar matrix equivalence appIndex i residualGraph
    let o ← ({ o with residualGraph } : Orchestrator).unload emulId node
    if o.attributedEmul.elems.any fun p => p.2.contains emulId then pure o
    else pure { o with emulations := o.emulations.remove emulId }
  | none => .error (.err "no emulation registered")

/-! ## Changes of the cluster -/

def removeClusterNode (ar : Arith) (it : Iter) (o : Orchestrator) (node : ClusterNodeInfo) :
    Run (Orchestrator × List Uuid) := do
  let node := { node with port := o.emanagersPort }
  match o.hostMapping.findIdx? fun n => n = node with
  | none => .error (.err "Cannot find the node to remove")
  | some id => do
    let uuidsConcerned := (it.order o.attributedEmul.elems).flatMap fun p => it.order p.2.elems
    -- A second stop of the same emulation gives an `Err`, which is dropped.
    let o ← uuidsConcerned.foldlM (fun o uuid =>
      match o.stopEmulation ar uuid with
      | .error (.err _) => pure o
      | r => r) o
    let residualGraph ← o.residualGraph.removeId id
    pure ({ o with
        residualGraph
        hostMapping := o.hostMapping.eraseIdx id
        attributedEmul := o.attributedEmul.remove node },
      uuidsConcerned)

/-- Adds one node with its speeds. -/
def addClusterNode (matrix : SymMatrix Nat) (nodesToIndex : HostMap Nat) (o : Orchestrator)
    (node : ClusterNodeInfo) : Run Orchestrator := do
  let o := { o with hostMapping := o.hostMapping ++ [node] }
  let (_, nodeIndex) ← unwrap (nodesToIndex.get? node)
  let residualGraph ← o.residualGraph.growFn 1 fun row col =>
    if row = col then pure u32Max
    else do
      let other := if row = nodeIndex then col else row
      let (_, otherNodeIndex) ← unwrap (nodesToIndex.get? (← get o.hostMapping other))
      matrix.index nodeIndex otherNodeIndex
  pure { o with residualGraph }

def updateWithCgraph (ar : Arith) (it : Iter) (o : Orchestrator) (cgraph : CGraph ClusterNodeInfo) :
    Run (Orchestrator × List Uuid) := do
  let (matrix, nodes) ← (convertCgraphNodeinfo it o.emanagersPort cgraph).speeds it
  let toRemove := o.hostMapping.filter fun n => n ∉ nodes
  let toAdd := nodes.filter fun n => n ∉ o.hostMapping
  let (o, affected) ← toRemove.foldlM (fun (o, (affected : UuidSet)) node =>
    match o.removeClusterNode ar it node with
    | .ok (o, uuids) => pure (o, uuids.foldl KeySet.insert affected)
    | .error (.err _) => .error .unwrap
    | .error e => .error e) (o, KeySet.empty)
  let nodesToIndex := nodes.zipIdx.foldl (fun (acc : HostMap Nat) p => acc.put p.1 p.2) KeySet.empty
  let o ← toAdd.foldlM (addClusterNode matrix nodesToIndex) o
  pure (o, it.order affected.elems)

end Orchestrator

end Kollaps
