import Kollaps.Lib.Binary
import Kollaps.Lib.KeySet
import Kollaps.Matrix
import Mathlib.Data.Sym.Sym2

/-!
# Networks

The graph library of the emulation. A vertex is whatever the user of the library gives;
the network keeps its index, and the links between indices.
-/

namespace Kollaps

open Run

/-- A vertex type. `Id` is the part of a vertex that its `Eq` and `Hash` look at. -/
class Vertex (T : Type) where
  Id : Type
  id : T → Id
  decEq : DecidableEq Id

instance (T : Type) [Vertex T] : DecidableEq (Vertex.Id T) := Vertex.decEq

instance : Vertex Nat := ⟨Nat, fun n => n, inferInstance⟩

inductive Duplex where
  | halfDuplex
  | fullDuplex
deriving DecidableEq, Repr

structure Link (T : Type) where
  internalSource : Nat
  internalDestination : Nat
  source : T
  destination : T
  /-- The `bandwidth` field. `Link.bandwidth` is the method, which looks at the duplex too. -/
  linkBandwidth : Nat
  drop : F32
  latencyJitter : F32 × F32
  duplex : Duplex
deriving DecidableEq, Repr

namespace Link

variable {T : Type}

def build (source destination : T) (internalSource internalDestination bandwidth : Nat) : Link T :=
  { internalSource, internalDestination, source, destination
    linkBandwidth := bandwidth
    drop := 0
    latencyJitter := (0, 0)
    duplex := .fullDuplex }

def buildAll (source destination : T) (internalSource internalDestination bandwidth : Nat)
    (latencyJitter : F32 × F32) (drop : F32) : Link T :=
  { internalSource, internalDestination, source, destination
    linkBandwidth := bandwidth
    drop, latencyJitter
    duplex := .fullDuplex }

def bandwidth (l : Link T) : Nat :=
  match l.duplex with
  | .fullDuplex => l.linkBandwidth
  | .halfDuplex => l.linkBandwidth / 2

/-- What `Link::eq` compares: the two end points, in either order. -/
def key [Vertex T] (l : Link T) : Sym2 (Vertex.Id T) := s(Vertex.id l.source, Vertex.id l.destination)

end Link

abbrev LinkSet (T : Type) [Vertex T] := KeySet (Link.key (T := T))

structure Path (T : Type) [Vertex T] where
  links : List (Link T)
  linksSet : LinkSet T

inductive PathStrategy where
  | widestPath
  | shortestPath
deriving DecidableEq, Repr

/-- `HashMap<T, usize>`. -/
abbrev Mapper (T : Type) [Vertex T] := KeySet fun p : T × Nat => Vertex.id p.1

structure Network (T : Type) [Vertex T] where
  links : SymMatrix (Option (Link T))
  mapper : Mapper T
  pathStrategy : PathStrategy
deriving DecidableEq

/-! ## The priority queue -/

structure Pair where
  node : Nat
  val : Nat
deriving DecidableEq, Repr

/-- `other.cmp(self)` is less: the queue gives the least value first, then the least node. -/
def Pair.before (a b : Pair) : Bool := a.val < b.val ∨ (a.val = b.val ∧ a.node < b.node)

def heapPop : List Pair → Option (Pair × List Pair)
  | [] => none
  | p :: ps =>
    let best := ps.foldl (fun b q => if q.before b then q else b) p
    some (best, (p :: ps).erase best)

namespace Network

variable {T : Type} [Vertex T]

/-! ## Vertices and links -/

def new (vertices : List T) (pathStrategy : PathStrategy) : Run (Network T) := do
  let links ← SymMatrix.newFn vertices.length fun _ _ => pure none
  let mapper := vertices.zipIdx.foldl (fun acc p => acc.put p.1 p.2) KeySet.empty
  pure { links, mapper, pathStrategy }

def map (g : Network T) (vertex : T) : Option Nat := (g.mapper.get? (Vertex.id vertex)).map Prod.snd

def mapTwo (g : Network T) (vertex1 vertex2 : T) : Option (Nat × Nat) :=
  match g.map vertex1, g.map vertex2 with
  | some a, some b => some (a, b)
  | _, _ => none

/-- The keys of the mapper, in the order in which the map gives them. -/
def vertices (it : Iter) (g : Network T) : List T := (it.order g.mapper.elems).map Prod.fst

def editVertex (g : Network T) (newVertex : T) : Network T :=
  match g.mapper.get? (Vertex.id newVertex) with
  | some (_, v) => { g with mapper := (g.mapper.remove (Vertex.id newVertex)).put newVertex v }
  | none => g

def addEdge (g : Network T) (source destination : T) (bandwidth : Nat) : Run (Network T) :=
  match g.mapTwo source destination with
  | some (s, d) => do
    let links ← g.links.setIndex s d (some (Link.build source destination s d bandwidth))
    pure { g with links }
  | none => pure g

def addEdgeWithProps (g : Network T) (source destination : T) (bandwidth : Nat)
    (latencyJitter : F32 × F32) (drop : F32) : Run (Network T) :=
  match g.mapTwo source destination with
  | some (s, d) => do
    let links ← g.links.setIndex s d
      (some (Link.buildAll source destination s d bandwidth latencyJitter drop))
    pure { g with links }
  | none => pure g

def updateBandwidthInter (g : Network T) (source destination bandwidth : Nat) : Run (Network T) := do
  match ← g.links.index source destination with
  | some link =>
    let links ← g.links.setIndex source destination (some { link with linkBandwidth := bandwidth })
    pure { g with links }
  | none => pure g

def updateBandwidth (g : Network T) (source destination : T) (bandwidth : Nat) : Run (Network T) :=
  match g.mapTwo source destination with
  | some (s, d) => g.updateBandwidthInter s d bandwidth
  | none => pure g

def neighbours (g : Network T) (source : Nat) : Run (List Nat) :=
  forRange g.links.size [] fun i acc => do
    match ← g.links.index source i with
    | some _ => pure (if i ≠ source then acc ++ [i] else acc)
    | none => pure acc

/-! ## Searches -/

/-- The state of a search: the distances (or bandwidths), the parents and the queue. -/
structure Search where
  val : List (Option Nat)
  parents : List (Option Nat)
  toVisit : List Pair

/-- `dist[neigh] == None || alt < dist[neigh].unwrap()`. -/
def shorter (alt : Nat) : Option Nat → Bool
  | none => true
  | some d => alt < d

/-- The body of the neighbour loop of `shortest_path`. -/
def shortestRelax (node : Nat) (s : Search) (neigh : Nat) : Run Search := do
  let alt := (← unwrap (← get s.val node)) + 1
  let old ← get s.val neigh
  if shorter alt old then
    pure
      { val := ← set s.val neigh (some alt)
        parents := ← set s.parents neigh (some node)
        toVisit := ⟨neigh, alt⟩ :: s.toVisit }
  else pure s

def shortestRound (g : Network T) (s : Search) :
    Run (Search ⊕ (List (Option Nat) × List (Option Nat))) :=
  match heapPop s.toVisit with
  | none => pure (.inr (s.val, s.parents))
  | some (vert, toVisit) => do
    let d ← unwrap (← get s.val vert.node)
    if vert.val > d then pure (.inl { s with toVisit })
    else do
      let neighs ← g.neighbours vert.node
      let s ← neighs.foldlM (shortestRelax vert.node) { s with toVisit }
      pure (.inl s)

/-- The distance in links from a source to every index, and the parents on the way. -/
def shortestPath (g : Network T) (source : Nat) :
    Run (List (Option Nat) × List (Option Nat)) := do
  let n := g.links.size
  let dist ← set (List.replicate n none) source (some 0)
  loop (2 * (n * n) + 2) g.shortestRound ⟨dist, List.replicate n none, [⟨source, 0⟩]⟩

/-- `bandwidths[n] == None || current_bandwidth > bandwidths[n].unwrap()`. -/
def wider (current : Nat) : Option Nat → Bool
  | none => true
  | some bw => current > bw

/-- The body of the neighbour loop of `widest_path`. -/
def widestRelax (g : Network T) (node : Nat) (s : Search) (n : Nat) : Run Search := do
  let link ← unwrap (← g.links.index node n)
  let here ← unwrap (← get s.val node)
  let old ← get s.val n
  let current := match old with
    | some bw => max bw (min here link.bandwidth)
    | none => min here link.bandwidth
  if wider current old then
    pure
      { val := ← set s.val n (some current)
        parents := ← set s.parents n (some node)
        toVisit := ⟨n, current⟩ :: s.toVisit }
  else pure s

def widestRound (g : Network T) (s : Search) :
    Run (Search ⊕ (List (Option Nat) × List (Option Nat))) :=
  match heapPop s.toVisit with
  | none => pure (.inr (s.val, s.parents))
  | some (vert, toVisit) => do
    let skip := match ← get s.val vert.node with
      | some bw => decide (vert.val < bw)
      | none => false
    if skip then pure (.inl { s with toVisit })
    else do
      let neighs ← g.neighbours vert.node
      let s ← neighs.foldlM (g.widestRelax vert.node) { s with toVisit }
      pure (.inl s)

/-- The widest bandwidth from a source to every index, and the parents on the way. -/
def widestPath (g : Network T) (source : Nat) :
    Run (List (Option Nat) × List (Option Nat)) := do
  let n := g.links.size
  let bandwidths ← set (List.replicate n none) source (some u32Max)
  loop (n * (n * n + 1) + 2) g.widestRound ⟨bandwidths, List.replicate n none, [⟨source, u32Max⟩]⟩

def pathBetween (g : Network T) (source : Nat) : Run (List (Option Nat) × List (Option Nat)) :=
  match g.pathStrategy with
  | .widestPath => g.widestPath source
  | .shortestPath => g.shortestPath source

/-! ## Walks along the parents -/

/-- `while let Some(parent) = path[dest] { ..; dest = parent }`. -/
def walkBack {σ : Type} (path : List (Option Nat)) (dest : Nat) (s : σ)
    (f : σ → Nat → Nat → Run σ) : Run σ :=
  loop (path.length + 1) (fun (p : Nat × σ) => do
    match ← get path p.1 with
    | some parent => do
      let s ← f p.2 p.1 parent
      pure (.inl (parent, s))
    | none => pure (.inr p.2)) (dest, s)

def bandwidthBetween (g : Network T) (source destination : T) : Run (Option Nat) :=
  match g.mapTwo source destination with
  | none => pure none
  | some (source, destination) => do
    let (val, path) ← g.pathBetween source
    match g.pathStrategy with
    | .widestPath => get val destination
    | .shortestPath =>
      match ← get path destination with
      | none => pure none
      | some _ => do
        let speed ← walkBack path destination u32Max fun speed dest parent => do
          let link ← unwrap (← g.links.index dest parent)
          pure (min speed link.bandwidth)
        pure (some speed)

/-- Bandwidth, drop, and latency with jitter of the path between two vertices. -/
structure Properties where
  bandwidth : Nat
  drop : F32
  latencyJitter : F32 × F32
deriving DecidableEq, Repr

def propertiesBetween (g : Network T) (source destination : T) : Run (Option Properties) :=
  match g.mapTwo source destination with
  | none => pure none
  | some (source, destination) => do
    let (_, path) ← g.pathBetween source
    match ← get path destination with
    | none => pure none
    | some _ => do
      let props ← walkBack path destination ⟨u32Max, 0, (0, 0)⟩ fun p dest parent => do
        let link ← unwrap (← g.links.index dest parent)
        pure
          { bandwidth := min p.bandwidth link.bandwidth
            drop := p.drop + link.drop
            latencyJitter :=
              (p.latencyJitter.1 + link.latencyJitter.1, p.latencyJitter.2 + link.latencyJitter.2) }
      pure (some props)

def updateEdgesAlongPathBy (g : Network T) (source destination : T) (func : Nat → Run Nat) :
    Run (Network T) :=
  match g.mapTwo source destination with
  | none => pure g
  | some (source, destination) => do
    let (_, path) ← g.pathBetween source
    walkBack path destination g fun g lastChild parent => do
      let link ← unwrap (← g.links.index parent lastChild)
      g.updateBandwidthInter parent lastChild (← func link.bandwidth)

def getPathBetween (g : Network T) (source destination : T) : Run (Option (Path T)) :=
  match g.mapTwo source destination with
  | none => pure none
  | some (source, destination) => do
    let (_, parents) ← g.pathBetween source
    let (links, edgesSet) ← walkBack parents destination (([] : List (Link T)), (KeySet.empty : LinkSet T))
      fun acc lastChild parent => do
        let link ← unwrap (← g.links.index parent lastChild)
        if acc.2.contains link.key then .error .assertion
        else pure (acc.1 ++ [link], acc.2.insert link)
    pure (some ⟨links.reverse, edgesSet⟩)

/-- The bandwidth between each two vertices that pass a test, and the vertices. -/
def bandwidthMatrix (it : Iter) (g : Network T) (predicate : T → Bool) :
    Run (SymMatrix Nat × List T) := do
  let nodes := (g.vertices it).filter predicate
  let matrix ← SymMatrix.newFn nodes.length fun row col =>
    if row = col then pure u32Max
    else do
      let a ← get nodes row
      let b ← get nodes col
      unwrap (← g.bandwidthBetween a b)
  pure (matrix, nodes)

end Network

end Kollaps
