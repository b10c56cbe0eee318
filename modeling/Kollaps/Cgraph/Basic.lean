import Kollaps.Lib.KeySet
import Kollaps.Matrix

/-!
# The cluster graph

The speed between any two nodes of the cluster: some speeds are measured, and the others
follow from these. A call that gives an `Err` or panics is a fault, and what it had changed
before is not kept.
-/

namespace Kollaps

open Run

def usizeMax : Nat := 18446744073709551615

structure TestData where
  isLimited : Bool
  isDirectlyTested : Bool
  speed : Nat
deriving DecidableEq, Repr

namespace TestData

def default : TestData := ⟨true, false, 0⟩

def setLimited (d : TestData) (isLimited : Bool) : TestData := { d with isLimited }

def setDirectTested (d : TestData) (isDirectlyTested : Bool) : TestData :=
  { d with isDirectlyTested }

def setSpeed (d : TestData) (speed : Nat) : TestData := { d with speed }

instance : Inhabited TestData := ⟨default⟩

end TestData

namespace SymMatrix

variable {α : Type}

theorem sizeVec_zero : sizeVec 0 = 0 := by
  rw [sizeVec_eq]
  rfl

def empty : SymMatrix α := ⟨0, [], sizeVec_zero.symm⟩

theorem pushAll_zero (f : Nat → Run α) {k : Nat} (h : k = 0) :
    pushAll f k = .ok ⟨[], by simp [h]⟩ := by
  subst h
  rfl

theorem newFn_zero (f : Nat → Nat → Run α) : newFn 0 f = .ok empty := by
  unfold newFn
  rw [pushAll_zero _ sizeVec_zero]
  rfl

/-- A method call on `m[(row, col)]` that changes it. -/
def modify (m : SymMatrix α) (row col : Nat) (f : α → α) : Run (SymMatrix α) := do
  let a ← m.index row col
  m.setIndex row col (f a)

theorem modify_spec [Inhabited α] (m : SymMatrix α) {i j : Nat} (hi : i < m.n) (hj : j < m.n)
    (f : α → α) : Returns (m.modify i j f) fun m' => m'.n = m.n ∧ ∀ i' j', i' < m.n → j' < m.n →
      m'.entry i' j' =
        if (i' = i ∧ j' = j) ∨ (i' = j ∧ j' = i) then f (m.entry i j) else m.entry i' j' := by
  unfold modify
  rw [index_eq m hi hj, bind_ok]
  exact setIndex_spec m hi hj _

end SymMatrix

namespace Cgraph

structure Node (I : Type) where
  index : Nat
  speed : Nat
  info : I
deriving DecidableEq, Repr

structure CGraph (I : Type) where
  cGraph : SymMatrix TestData
  nodes : KeySet (Node.index (I := I))
deriving DecidableEq

variable {I : Type}

namespace CGraph

def new : CGraph I := ⟨SymMatrix.empty, KeySet.empty⟩

def size (g : CGraph I) : Nat := g.nodes.len

def infos (g : CGraph I) : List I := g.nodes.elems.map Node.info

def addNode [DecidableEq I] (it : Iter) (g : CGraph I) (speed : Nat) (info : I) :
    Run (CGraph I × Node I) :=
  match (it.order g.nodes.elems).find? fun n => n.info = info with
  | some node => pure (g, node)
  | none => do
    let m ← g.cGraph.growFn 1 fun _ _ => pure TestData.default
    let index ← usizeSub m.size 1
    let m ← m.modify index index fun d => d.setSpeed usizeMax
    let node : Node I := ⟨index, speed, info⟩
    if g.nodes.contains node.index then .error (.err "node already exists, big problem...")
    else pure (⟨m, g.nodes.insert node⟩, node)

/-- A node after the node with index `removed` went. -/
def lower (removed : Nat) (n : Node I) : Node I :=
  if n.index > removed then ⟨n.index - 1, n.speed, n.info⟩ else n

def removeOneBy (it : Iter) (g : CGraph I) (predicate : Node I → Bool) : Run (CGraph I) :=
  match (it.order g.nodes.elems).find? predicate with
  | none =>
    .error (.err ("[CGraph] Cannot remove the node you are searching for, " ++
      "predicates didn't give anything."))
  | some node => do
    let nodes := g.nodes.remove node.index
    let m ← g.cGraph.removeId node.index
    let newNodes : KeySet (Node.index (I := I)) :=
      KeySet.collect ((it.order nodes.elems).map (lower node.index))
    if m.size ≠ newNodes.len then
      .error (.err "Inconsistency after removing node from CGraph")
    else pure ⟨m, newNodes⟩

/-- `map_nodes`, with a function of the info. -/
def mapNodes (it : Iter) (g : CGraph I) (map : I → I) : CGraph I :=
  { g with nodes := KeySet.collect ((it.order g.nodes.elems).map fun n => { n with info := map n.info }) }

/-! ## Speeds by transition -/

/-- The least speed of the nodes with one of two indices. -/
def minSpeed (g : CGraph I) (i j : Nat) : Option Nat :=
  ((g.nodes.elems.filter fun a => a.index = i ∨ a.index = j).map Node.speed).min?

def updateSpeed (g : CGraph I) (i j k : Nat) : Run (CGraph I) := do
  let ik ← g.cGraph.index i k
  let kj ← g.cGraph.index k j
  let speedByTransition := min ik.speed kj.speed
  let ij ← g.cGraph.index i j
  if ij.speed < speedByTransition then
    let m ← g.cGraph.modify i j fun d => d.setSpeed speedByTransition
    match g.minSpeed i j with
    | none => .error (.err "Cannot the two nodes while updating speeds")
    | some minSpeed =>
      if minSpeed = speedByTransition then
        let m ← m.modify i j fun d => d.setLimited false
        pure ⟨m, g.nodes⟩
      else pure ⟨m, g.nodes⟩
  else pure g

def updateSpeeds (g : CGraph I) : Run (CGraph I) :=
  forRange g.cGraph.size g fun i g =>
    forRange g.cGraph.size g fun j g =>
      forRange g.cGraph.size g fun k g => g.updateSpeed i j k

def addLinkDirectTest (g : CGraph I) (from_ to_ : Node I) (speed : Nat) : Run (CGraph I × Bool) :=
  if !g.nodes.contains from_.index || !g.nodes.contains to_.index then
    .error (.err "your node is not in the system, add it first")
  else if speed > min from_.speed to_.speed then
    .error (.err "cannot have better performance than nodes speeds")
  else do
    let m ← g.cGraph.modify from_.index to_.index fun d => d.setLimited false
    let old ← m.index from_.index to_.index
    let useful := decide (old.speed < speed)
    let m ← m.modify from_.index to_.index fun d => d.setDirectTested true
    let m ← m.modify from_.index to_.index fun d => d.setSpeed speed
    let g ← updateSpeeds ⟨m, g.nodes⟩
    pure (g, useful)

/-! ## Reading the graph -/

def nodeByIndex (it : Iter) (g : CGraph I) (index : Nat) : Run (Node I) :=
  unwrap ((it.order g.nodes.elems).find? fun n => n.index = index)

/-- `speed as u32` keeps the low bits. -/
def speeds (it : Iter) (g : CGraph I) : Run (SymMatrix Nat × List I) := do
  let matrix ← SymMatrix.newFn g.nodes.len fun row col => do
    let d ← g.cGraph.index row col
    pure (d.speed % (u32Max + 1))
  let map ← (List.range matrix.size).mapM fun index => do
    let node ← g.nodeByIndex it index
    pure node.info
  pure (matrix, map)

/-- The rule that spares the test between `from` and `to`: looks for a node that tells the
speed, writes it, and says whether there is one. -/
def shortcut (from_ to_ : Node I) : List (Node I) → SymMatrix TestData → Run (SymMatrix TestData × Bool)
  | [], m => pure (m, false)
  | k :: rest, m =>
    if k.index = from_.index ∨ k.index = to_.index then shortcut from_ to_ rest m
    else do
      let fromK ← m.index from_.index k.index
      let kTo ← m.index k.index to_.index
      if (!fromK.isLimited || fromK.isDirectlyTested) && (!kTo.isLimited || kTo.isDirectlyTested) then
        if fromK.speed = kTo.speed then shortcut from_ to_ rest m
        else do
          let speed := if fromK.speed > kTo.speed then kTo.speed else fromK.speed
          let m ← m.modify from_.index to_.index fun d => d.setSpeed speed
          let m ← m.modify from_.index to_.index fun d => d.setDirectTested true
          pure (m, true)
      else shortcut from_ to_ rest m

def missingRound (nodes : List (Node I)) (from_ : Node I) (sufficientSpeed : Nat)
    (s : SymMatrix TestData × List (Node I)) (to_ : Node I) :
    Run (SymMatrix TestData × List (Node I)) :=
  if from_.index = to_.index then pure s
  else do
    let d ← s.1.index from_.index to_.index
    if !d.isDirectlyTested && decide (d.speed < sufficientSpeed) &&
        decide (d.speed < min from_.speed to_.speed) then
      let (m, ignoreTest) ← shortcut from_ to_ nodes s.1
      if ignoreTest then pure (m, s.2) else pure (m, s.2 ++ [to_])
    else pure s

/-- `max_by` on the speed: the last of the fastest. -/
def fastest : List (Node I) → Option (Node I)
  | [] => none
  | n :: rest => some (rest.foldl (fun best n => if best.speed ≤ n.speed then n else best) n)

/-- `missing` is set when a link is pushed on `missing_links`. -/
def findMissingFromMe (it : Iter) (g : CGraph I) (me : Node I) (sufficientSpeed : Nat) :
    Run (CGraph I × Option (Node I)) := do
  let nodes := it.order g.nodes.elems
  let (m, missingLinks) ← nodes.foldlM (missingRound nodes me sufficientSpeed) (g.cGraph, [])
  pure (⟨m, g.nodes⟩, fastest missingLinks)

end CGraph

end Cgraph

end Kollaps
