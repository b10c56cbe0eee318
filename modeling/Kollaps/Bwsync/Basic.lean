import Kollaps.Lib.WaterFilling
import Kollaps.Netgraph.Paths

/-!
# Bandwidth sharing

The flows of an emulation, and how each core shares the links among them. Shares are exact
rationals. A network is changed by `u32` subtractions, which an `Arith` reads.
-/

namespace Kollaps

open Run

structure Flow (T : Type) where
  source : T
  destination : T
  authorizedBandwidth : Nat
  usedBandwidth : Nat
  maxAllowedBandwidth : Nat
  isHungry : Bool
deriving DecidableEq, Repr

namespace Flow

variable {T : Type}

def build (source destination : T) (maxAllowedBandwidth usedBandwidth : Nat) : Flow T :=
  { source, destination
    authorizedBandwidth := 0
    usedBandwidth, maxAllowedBandwidth
    isHungry := false }

/-- What `Flow::eq` compares. -/
def key [Vertex T] (f : Flow T) : Vertex.Id T × Vertex.Id T :=
  (Vertex.id f.source, Vertex.id f.destination)

def maxOut (f : Flow T) : Flow T :=
  { f with authorizedBandwidth := f.maxAllowedBandwidth, isHungry := false }

/-- `partition as u32`. -/
def castU32 (partition : ℚ) : Nat := min ⌊partition⌋₊ u32Max

def limit (partition : ℚ) (f : Flow T) : Flow T :=
  let authorized := min (castU32 partition) f.maxAllowedBandwidth
  { f with authorizedBandwidth := authorized, usedBandwidth := authorized, isHungry := true }

end Flow

abbrev FlowSet (T : Type) [Vertex T] := KeySet (Flow.key (T := T))

namespace Bwsync

variable {T : Type} [Vertex T]

/-! ## Sharing one link -/

/-- The state of the loop of `distribute_bandwidth_across_flow`. -/
structure Distribution (T : Type) [Vertex T] where
  flows : FlowSet T
  newFlows : FlowSet T
  actualPartition : ℚ

/-- `used_bandwidth as f64 <= actual_partition && !is_hungry()`. -/
def maxedOut (partition : ℚ) (f : Flow T) : Bool :=
  decide ((f.usedBandwidth : ℚ) ≤ partition) && !f.isHungry

def distributeRound (it : Iter) (s : Distribution T) : Run (Distribution T ⊕ FlowSet T) :=
  let maxedOutFlows := s.flows.filter (maxedOut s.actualPartition)
  if maxedOutFlows.elems.isEmpty then
    pure (.inr ((it.order s.flows.elems).foldl
      (fun acc f => acc.insert (f.limit s.actualPartition)) s.newFlows))
  else
    let newFlows := (it.order maxedOutFlows.elems).foldl (fun acc f => acc.insert f.maxOut) s.newFlows
    let flows := s.flows.difference maxedOutFlows
    let spareBandwidth := (it.order maxedOutFlows.elems).foldl
      (fun acc f => acc + (s.actualPartition - f.usedBandwidth)) 0
    pure (.inl
      { flows, newFlows
        actualPartition := s.actualPartition + spareBandwidth / flows.len })

def distributeBandwidthAcrossFlow (it : Iter) (link : Link T) (flows : FlowSet T) :
    Run (FlowSet T) :=
  let initialPartition : ℚ := link.bandwidth / flows.len
  loop (flows.len + 1) (distributeRound it) ⟨flows, KeySet.empty, initialPartition⟩

/-- `MergeStricter::merge`: of two flows that compare equal, the one with less bandwidth. -/
def merge (it : Iter) (self other : FlowSet T) : Run (FlowSet T) := do
  let result := self.symmDiff other
  let selected ← (it.order (self.inter other).elems).foldlM (fun acc flow => do
    let first ← unwrap (self.get? flow.key)
    let second ← unwrap (other.get? flow.key)
    if first.authorizedBandwidth < second.authorizedBandwidth then pure (acc.insert first)
    else pure (acc.insert second)) KeySet.empty
  pure (result.union selected)

/-! ## Sharing the links of a path -/

abbrev LinkMap (T : Type) [Vertex T] := KeySet fun p : Link T × FlowSet T => p.1.key

def getFlowsBySharedLinks (it : Iter) (flowUpdated : Flow T) (allFlows : FlowSet T)
    (graph : Network T) : Run (LinkMap T) := do
  let flowPath ← unwrap (← graph.getPathBetween flowUpdated.source flowUpdated.destination)
  (it.order flowPath.linksSet.elems).foldlM (fun acc link => do
    let oneLinkSet : LinkSet T := KeySet.empty.insert link
    let setOfFlows ← (it.order allFlows.elems).foldlM (fun (set : FlowSet T) flow => do
      let path ← unwrap (← graph.getPathBetween flow.source flow.destination)
      if (path.linksSet.inter oneLinkSet).elems.isEmpty then pure set
      else pure (set.insert flow)) KeySet.empty
    let setOfFlows :=
      if flowUpdated.usedBandwidth = 0 then setOfFlows.remove flowUpdated.key
      else setOfFlows.replace flowUpdated
    pure (acc.put link setOfFlows)) KeySet.empty

/-- The flow that the caller passes is not read again, so its hunger is set on a copy. -/
def updateActiveFlows (it : Iter) (flowUpdated : Flow T) (activeFlows : FlowSet T)
    (originalGraph : Network T) : Run (FlowSet T) := do
  let flowUpdated := match activeFlows.get? flowUpdated.key with
    | some f => { flowUpdated with isHungry := f.isHungry }
    | none => flowUpdated
  let linksToCheck ← getFlowsBySharedLinks it flowUpdated activeFlows originalGraph
  (it.order linksToCheck.elems).foldlM (fun acc p => do
    let newFlows ← distributeBandwidthAcrossFlow it p.1 p.2
    merge it acc newFlows) KeySet.empty

def calculateBandwidthGraph (it : Iter) (ar : Arith) (graph : Network T) (activeFlows : FlowSet T) :
    Run (Network T) :=
  (it.order activeFlows.elems).foldlM (fun bwGraph flow =>
    bwGraph.updateEdgesAlongPathBy flow.source flow.destination fun oldSpeed =>
      ar.sub oldSpeed flow.usedBandwidth) graph

/-- `for fl in new_flows { active_flows.replace(fl); }`. -/
def replaceAll (it : Iter) (activeFlows newFlows : FlowSet T) : FlowSet T :=
  (it.order newFlows.elems).foldl KeySet.replace activeFlows

def updateFlows (it : Iter) (ar : Arith) (activeFlows : FlowSet T) (flow : Flow T)
    (graph bwGraph : Network T) : Run (FlowSet T × Network T) := do
  match ← bwGraph.bandwidthBetween flow.source flow.destination with
  | some _ =>
    let newFlows ← updateActiveFlows it flow activeFlows graph
    let activeFlows := replaceAll it activeFlows newFlows
    let bwGraph ← calculateBandwidthGraph it ar graph activeFlows
    pure (activeFlows, bwGraph)
  | none => pure (activeFlows, bwGraph)

def removeFlow (it : Iter) (ar : Arith) (activeFlows : FlowSet T) (flow : Flow T)
    (graph : Network T) : Run (FlowSet T × Network T) := do
  let activeFlows := activeFlows.remove flow.key
  let newFlows ← updateActiveFlows it flow activeFlows graph
  let activeFlows := replaceAll it activeFlows newFlows
  let bwGraph ← calculateBandwidthGraph it ar graph activeFlows
  pure (activeFlows, bwGraph)

end Bwsync

end Kollaps
