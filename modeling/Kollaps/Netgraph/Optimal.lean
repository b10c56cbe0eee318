import Kollaps.Lib.PathWidth
import Kollaps.Netgraph.Paths
import Mathlib.Combinatorics.SimpleGraph.Metric

/-!
# The searches find the best paths

The indices of a network and its links are a graph. The parents that a search leaves are
the steps of a path in it: a shortest path for `shortest_path`, a widest path for
`widest_path`. The loops that follow the parents take these steps and end.
-/

namespace Kollaps

open Run

namespace Network

variable {T : Type} [Vertex T] {g : Network T}

/-! ## The graph -/

/-- The links between different indices. -/
def graph (g : Network T) : SimpleGraph (Fin g.links.n) where
  Adj i j := g.adj i j = true
  symm := ⟨fun i j h => (g.adj_symm j i).trans h⟩
  loopless := ⟨fun _ h => (adj_iff.mp h).2 rfl⟩

@[simp] theorem graph_adj {i j : Fin g.links.n} : g.graph.Adj i j ↔ g.adj i j = true := Iff.rfl

def weight (g : Network T) (e : Sym2 (Fin g.links.n)) : Nat := g.bandOf (e.map Fin.val)

@[simp] theorem weight_mk {i j : Fin g.links.n} : g.weight s(i, j) = g.band i j := rfl

def LeastOn (g : Network T) {i j : Fin g.links.n} (p : g.graph.Walk i j) (w : Nat) : Prop :=
  IsLeast {x | ∃ e ∈ p.edges, g.weight e = x} w

/-- The steps of a walk, as the walks along the parents take them. -/
def stepsOf {i j : Fin g.links.n} (p : g.graph.Walk i j) : List (Nat × Nat) :=
  p.darts.map fun d => (d.fst.val, d.snd.val)

@[simp] theorem stepsOf_nil {i : Fin g.links.n} :
    stepsOf (SimpleGraph.Walk.nil : g.graph.Walk i i) = [] := rfl

@[simp] theorem stepsOf_cons {i j k : Fin g.links.n} (h : g.graph.Adj i j) (p : g.graph.Walk j k) :
    stepsOf (.cons h p) = (i.val, j.val) :: stepsOf p := rfl

@[simp] theorem length_stepsOf {i j : Fin g.links.n} (p : g.graph.Walk i j) :
    (stepsOf p).length = p.length := by
  rw [stepsOf, List.length_map, SimpleGraph.Walk.length_darts]

theorem cellsOf_stepsOf {i j : Fin g.links.n} (p : g.graph.Walk i j) :
    cellsOf (stepsOf p) = p.edges.map (Sym2.map Fin.val) := by
  induction p with
  | nil => rfl
  | cons h p ih => rw [stepsOf_cons, cellsOf_cons, ih]; rfl

theorem map_snd_stepsOf {i j : Fin g.links.n} (p : g.graph.Walk i j) :
    i.val :: (stepsOf p).map Prod.snd = p.support.map Fin.val := by
  rw [← SimpleGraph.Walk.cons_map_snd_darts, stepsOf, List.map_map, List.map_cons, List.map_map]
  rfl

theorem weight_le (hg : g.Shaped) {i j : Fin g.links.n} (h : g.graph.Adj i j) :
    g.weight s(i, j) ≤ u32Max := by
  obtain ⟨⟨l, hl⟩, -⟩ := adj_iff.mp (graph_adj.mp h)
  rw [weight_mk, band, hl]
  exact hg.bandwidth_le i.isLt j.isLt hl

theorem leastOn_width (hg : g.Shaped) {i j : Fin g.links.n} (hij : i ≠ j) (p : g.graph.Walk i j) :
    g.LeastOn p (PathWidth.width g.weight u32Max p) := by
  apply PathWidth.width_isLeast
  · intro h
    cases p with
    | nil => exact hij rfl
    | cons => simp at h
  · intro e he
    have hedge := p.edges_subset_edgeSet he
    induction e with
    | _ x y => exact weight_le hg (SimpleGraph.mem_edgeSet _ |>.mp hedge)

/-! ## The walks of the searches are walks of the graph -/

theorem walk_of_graph {i j : Fin g.links.n} (p : g.graph.Walk i j) : g.Walk j i p.length := by
  induction p with
  | nil => exact .refl (Fin.isLt _)
  | @cons i k j h p ih => exact .step ih i.isLt ((g.adj_symm k i).trans h)

theorem wideWalk_of_graph {i j : Fin g.links.n} (p : g.graph.Walk i j) :
    g.WideWalk j i (PathWidth.width g.weight u32Max p) := by
  induction p with
  | nil => exact .refl (Fin.isLt _)
  | @cons i k j h p ih =>
    rw [PathWidth.width_cons, min_comm, weight_mk, band_comm]
    exact .step ih i.isLt ((g.adj_symm k i).trans h)

/-! ## The parents are a path -/

/-- A path from `i` to the source along the parents. -/
def Follows (parents : List (Option Nat)) {i j : Fin g.links.n} (p : g.graph.Walk i j) : Prop :=
  p.IsPath ∧ IsChain parents i (stepsOf p)

theorem isPath_of_chain {parents : List (Option Nat)} {i j : Fin g.links.n} {p : g.graph.Walk i j}
    (h : IsChain parents i (stepsOf p)) : p.IsPath := by
  have hnd := h.nodup
  rw [map_snd_stepsOf] at hnd
  exact SimpleGraph.Walk.IsPath.mk' hnd.of_map

/-- The walk back from a labelled index ends at the source. -/
theorem Tree.follows {src : Fin g.links.n} {val parents : List (Option Nat)}
    (h : g.Tree src parents)
    (hval : ∀ v x, val.getD v none = some x → v ≠ src → ∃ p, parents.getD v none = some p ∧
      ∃ y, val.getD p none = some y) {v : Fin g.links.n} {x : Nat} (hv : val.getD v none = some x) :
    ∃ p : g.graph.Walk v src, Follows parents p := by
  have hget : ∀ i : Fin g.links.n, parents[i.val]? = some (parents.getD i none) := by
    intro i
    have hlt : i.val < parents.length := by rw [h.length]; exact i.isLt
    rw [List.getD_eq_getElem?_getD, List.getElem?_eq_getElem hlt, Option.getD_some]
  suffices hchain : ∀ v, Acc (fun p v => parents.getD v none = some p) v → ∀ hlt : v < g.links.n,
      ∀ x, val.getD v none = some x →
      ∃ p : g.graph.Walk ⟨v, hlt⟩ src, IsChain parents v (stepsOf p) by
    obtain ⟨p, hp⟩ := hchain v (h.acyclic v) v.isLt x hv
    exact ⟨p, isPath_of_chain hp, hp⟩
  intro v hacc
  induction hacc with
  | intro v _ ih =>
    intro hlt x hx
    by_cases hsrc : v = src
    · subst hsrc
      have hend : IsChain parents src [] := (hget src).trans (by rw [h.root])
      exact ⟨.nil, hend⟩
    · obtain ⟨p, hp, y, hy⟩ := hval v x hx hsrc
      obtain ⟨-, hpl, hadj⟩ := h.link v p hp
      obtain ⟨q, hq⟩ := ih p hp hpl y hy
      have hstep : g.graph.Adj ⟨v, hlt⟩ ⟨p, hpl⟩ := (g.adj_symm v p).trans hadj
      refine ⟨.cons hstep q, rfl, ?_, hq⟩
      rw [← hp]
      exact hget ⟨v, hlt⟩

/-! ## Shortest paths -/

namespace ShortestTree

variable {src v : Fin g.links.n} {dist parents : List (Option Nat)}

theorem follows (h : g.ShortestTree src dist parents) {d : Nat} (hd : dist.getD v none = some d) :
    ∃ p : g.graph.Walk v src, Follows parents p := by
  refine h.toTree.follows (fun v x hx hv => ?_) hd
  obtain ⟨p, hp⟩ := h.has_parent v x hx hv
  obtain ⟨-, -, -, y, hy, -⟩ := h.parent v p hp
  exact ⟨p, hp, y, hy⟩

theorem length_of_chain (h : g.ShortestTree src dist parents) {p : g.graph.Walk v src}
    (hp : IsChain parents v (stepsOf p)) : dist.getD v none = some p.length := by
  induction p with
  | nil => exact h.source
  | @cons v w src hadj p ih =>
    obtain ⟨-, hv, hrest⟩ := hp
    have hpar : parents.getD v none = some w.val := by
      rw [List.getD_eq_getElem?_getD, hv, Option.getD_some]
    obtain ⟨-, -, -, d, hd, hd'⟩ := h.parent v w hpar
    rw [ih h hrest, Option.some.injEq] at hd
    rw [hd', ← hd, SimpleGraph.Walk.length_cons]

theorem dist_eq_none (h : g.ShortestTree src dist parents) :
    dist.getD v none = none ↔ ¬ g.graph.Reachable v src := by
  constructor
  · rintro hnone ⟨p⟩
    obtain ⟨d, hd, -⟩ := h.least v p.length (walk_of_graph p)
    rw [hnone] at hd
    cases hd
  · intro hr
    cases hd : dist.getD v none with
    | none => rfl
    | some d =>
      obtain ⟨p, -⟩ := h.follows hd
      exact absurd ⟨p⟩ hr

theorem dist_eq (h : g.ShortestTree src dist parents) {d : Nat} (hd : dist.getD v none = some d) :
    d = g.graph.dist v src := by
  obtain ⟨p, hp⟩ := h.follows hd
  have hlen := h.length_of_chain hp.2
  rw [hd, Option.some.injEq] at hlen
  apply le_antisymm
  · obtain ⟨q, hq⟩ := SimpleGraph.Reachable.exists_walk_length_eq_dist ⟨p⟩
    obtain ⟨d', hd', hle⟩ := h.least v q.length (walk_of_graph q)
    rw [hd, Option.some.injEq] at hd'
    omega
  · rw [hlen]
    exact SimpleGraph.dist_le p

/-- The walk back is a shortest path, and shorter than the parents. -/
theorem shortest (h : g.ShortestTree src dist parents) {d : Nat} (hd : dist.getD v none = some d) :
    ∃ p : g.graph.Walk v src, Follows parents p ∧ p.length = g.graph.dist v src ∧
      (stepsOf p).length ≤ parents.length := by
  obtain ⟨p, hp⟩ := h.follows hd
  have hlen := h.length_of_chain hp.2
  rw [hd, Option.some.injEq] at hlen
  have hsmall := h.dist_lt v d hd
  refine ⟨p, hp, by rw [← hlen, h.dist_eq hd], ?_⟩
  rw [length_stepsOf, h.parents_length]
  omega

theorem get_parent_none (h : g.ShortestTree src dist parents) (hd : dist.getD v none = none) :
    get parents v = .ok none := by
  rw [get_getD none (by rw [h.parents_length]; exact v.isLt)]
  cases hp : parents.getD v none with
  | none => rfl
  | some q =>
    obtain ⟨-, -, -, d, -, hdv⟩ := h.parent v q hp
    rw [hd] at hdv
    cases hdv

end ShortestTree

/-! ## Widest paths -/

namespace WidestTree

variable {src v : Fin g.links.n} {val parents : List (Option Nat)}

theorem follows (h : g.WidestTree src val parents) {b : Nat} (hb : val.getD v none = some b) :
    ∃ p : g.graph.Walk v src, Follows parents p := by
  refine h.toTree.follows (fun v x hx hv => ?_) hb
  obtain ⟨p, hp⟩ := h.has_parent v x hx hv
  obtain ⟨-, -, -, y, hy, -⟩ := h.parent v p hp
  exact ⟨p, hp, y, hy⟩

theorem width_of_chain (h : g.WidestTree src val parents) {p : g.graph.Walk v src}
    (hp : IsChain parents v (stepsOf p)) :
    val.getD v none = some (PathWidth.width g.weight u32Max p) := by
  induction p with
  | nil => exact h.source
  | @cons v w src hadj p ih =>
    obtain ⟨-, hv, hrest⟩ := hp
    have hpar : parents.getD v none = some w.val := by
      rw [List.getD_eq_getElem?_getD, hv, Option.getD_some]
    obtain ⟨-, -, -, b, hb, hb'⟩ := h.parent v w hpar
    rw [ih h hrest, Option.some.injEq] at hb
    rw [hb', ← hb, PathWidth.width_cons, weight_mk, min_comm, band_comm]

theorem val_eq_none (h : g.WidestTree src val parents) :
    val.getD v none = none ↔ ¬ g.graph.Reachable v src := by
  constructor
  · rintro hnone ⟨p⟩
    obtain ⟨b, hb, -⟩ := h.widest v _ (wideWalk_of_graph p)
    rw [hnone] at hb
    cases hb
  · intro hr
    cases hb : val.getD v none with
    | none => rfl
    | some b =>
      obtain ⟨p, -⟩ := h.follows hb
      exact absurd ⟨p⟩ hr

theorem isGreatest (h : g.WidestTree src val parents) {b : Nat} (hb : val.getD v none = some b) :
    IsGreatest (PathWidth.pathWidths g.weight u32Max g.graph v src) b := by
  obtain ⟨p, hp⟩ := h.follows hb
  have hwidth := h.width_of_chain hp.2
  rw [hb, Option.some.injEq] at hwidth
  rw [hwidth]
  refine PathWidth.isGreatest_pathWidths p fun q => ?_
  obtain ⟨b', hb', hle⟩ := h.widest v _ (wideWalk_of_graph q)
  rw [hb, Option.some.injEq] at hb'
  omega

end WidestTree

/-! ## The route between two indices -/

theorem IsChain.eq_nil {parents : List (Option Nat)} {v : Nat} {steps : List (Nat × Nat)}
    (h : IsChain parents v steps) (hp : parents.getD v none = none) : steps = [] := by
  cases steps with
  | nil => rfl
  | cons cp steps =>
    rw [List.getD_eq_getElem?_getD, h.2.1] at hp
    cases hp

/-- The route of a query is a path in the graph, or there is none. -/
def RouteOf (g : Network T) (i j : Fin g.links.n) (steps : List (Nat × Nat)) : Prop :=
  (¬ g.graph.Reachable j i ∧ steps = []) ∨ ∃ p : g.graph.Walk j i, p.IsPath ∧ steps = stepsOf p

theorem RouteOf.eq_nil_iff {i j : Fin g.links.n} {steps : List (Nat × Nat)} (h : g.RouteOf i j steps)
    (hij : i ≠ j) : steps = [] ↔ ¬ g.graph.Reachable j i := by
  rcases h with ⟨hr, rfl⟩ | ⟨p, -, rfl⟩
  · simp [hr]
  · have hr : g.graph.Reachable j i := ⟨p⟩
    cases p with
    | nil => exact absurd rfl hij
    | cons => simp [hr]

theorem routeOf_routeFrom (i j : Fin g.links.n) : g.RouteOf i j (g.routeFrom i j) := by
  obtain ⟨r, hr, -, hchain, -⟩ := g.routeFrom_spec i.isLt j.isLt
  -- A labelled index has a path along the parents, another has no parent.
  have hroute : ∀ p : g.graph.Walk j i, Follows r.2 p → g.RouteOf i j (g.routeFrom i j) :=
    fun p hp => Or.inr ⟨p, hp.1, hchain.unique hp.2⟩
  unfold pathBetween at hr
  split at hr
  · have htree := (g.widestPath_spec i.isLt).of_eq hr
    cases hb : r.1.getD j none with
    | none =>
      refine Or.inl ⟨htree.val_eq_none.mp hb, IsChain.eq_nil hchain ?_⟩
      cases hp : r.2.getD j none with
      | none => rfl
      | some p =>
        obtain ⟨-, -, -, bp, -, hbj⟩ := htree.parent j p hp
        rw [hb] at hbj
        cases hbj
    | some b =>
      obtain ⟨p, hp⟩ := htree.follows hb
      exact hroute p hp
  · have htree := (g.shortestPath_spec i.isLt).of_eq hr
    cases hd : r.1.getD j none with
    | none =>
      refine Or.inl ⟨htree.dist_eq_none.mp hd, IsChain.eq_nil hchain ?_⟩
      cases hp : r.2.getD j none with
      | none => rfl
      | some p =>
        obtain ⟨-, -, -, d, -, hdj⟩ := htree.parent j p hp
        rw [hd] at hdj
        cases hdj
    | some d =>
      obtain ⟨p, hp⟩ := htree.follows hd
      exact hroute p hp

theorem le_foldl_min {α : Type*} {f : α → Nat} {l : List α} {top x : Nat} :
    x ≤ l.foldl (fun m c => min m (f c)) top ↔ x ≤ top ∧ ∀ c ∈ l, x ≤ f c := by
  induction l generalizing top with
  | nil => simp
  | cons c l ih =>
    rw [List.foldl_cons, ih, List.forall_mem_cons, le_min_iff, and_assoc]

theorem foldl_stepsOf {i j : Fin g.links.n} (p : g.graph.Walk i j) :
    (cellsOf (stepsOf p)).foldl (fun speed c => min speed (g.bandOf c)) u32Max =
      PathWidth.width g.weight u32Max p := by
  apply eq_of_forall_le_iff
  intro x
  rw [le_foldl_min, PathWidth.le_width_iff, cellsOf_stepsOf, List.forall_mem_map]
  rfl

theorem bandwidthBetween_eq (hg : g.Shaped) {a b : T} {i j : Fin g.links.n}
    (hm : g.mapTwo a b = some (i.val, j.val)) (hij : i ≠ j) :
    g.bandwidthBetween a b = .ok (if g.route a b = [] then none else some (g.bottleneck a b)) := by
  cases hs : g.pathStrategy with
  | shortestPath =>
    obtain ⟨o, ho, rfl⟩ := bandwidthBetween_spec hg hs a b
    exact ho
  | widestPath =>
    obtain ⟨r, hr, htree⟩ := g.widestPath_spec i.isLt
    have hlen : j.val < r.1.length := by rw [htree.val_length]; exact j.isLt
    have hchain := (g.routeFrom_spec i.isLt j.isLt).of_eq (a := r) (by rw [pathBetween, hs]; exact hr)
    unfold bandwidthBetween pathBetween
    simp only [hm, hs, hr, bind_ok]
    rw [get_getD none hlen, route_eq hm]
    rcases routeOf_routeFrom i j with ⟨hreach, hnil⟩ | ⟨p, hp, hsteps⟩
    · rw [if_pos hnil, htree.val_eq_none.mpr hreach]
    · have hne : g.routeFrom i j ≠ [] := fun h =>
        ((routeOf_routeFrom i j).eq_nil_iff hij).mp h ⟨p⟩
      have hwidth := htree.width_of_chain (p := p) (hsteps ▸ hchain.2.1)
      rw [if_neg hne, hwidth, bottleneck, cells, route_eq hm, hsteps, foldl_stepsOf]

theorem propertiesBetween_spec (hg : g.Shaped) (a b : T) :
    Returns (g.propertiesBetween a b) fun o =>
      o.map Properties.bandwidth = if g.route a b = [] then none else some (g.bottleneck a b) := by
  unfold propertiesBetween
  cases hm : g.mapTwo a b with
  | none => simp [route, hm]
  | some p =>
    obtain ⟨i, j⟩ := p
    obtain ⟨hi, hj⟩ := hg.mapTwo_lt hm
    obtain ⟨r, hr, -, hchain, hlen, hall⟩ := g.routeFrom_spec hi hj
    obtain ⟨o, ho, hnone⟩ := IsChain.first hchain
    simp only
    rw [hr, bind_ok, route_eq hm]
    simp only [ho, bind_ok]
    cases o with
    | none => simp only [returns_pure]; rw [if_pos (hnone.mp rfl)]; rfl
    | some q =>
      simp only
      rw [if_neg (mt hnone.mpr (by simp)), walkBack_eq hchain hlen]
      refine Returns.bind (P := fun props : Properties => props.bandwidth = g.bottleneck a b) ?_
        fun props h => by
        rw [returns_pure, Option.map_some, h]
      unfold bottleneck cells
      rw [route_eq hm]
      exact foldlM_least Properties.bandwidth _ hall rfl fun _ _ => rfl

theorem mapTwo_ne (hg : g.Shaped) {a b : T} {i j : Nat} (hm : g.mapTwo a b = some (i, j))
    (hab : Vertex.id a ≠ Vertex.id b) : i ≠ j := by
  rintro rfl
  obtain ⟨ha, hb⟩ := mapTwo_eq_some.mp hm
  exact hab (hg.map_inj a b i ha hb)

/-! ## Connected vertices -/

def Connected (g : Network T) (a b : T) : Prop :=
  ∃ i j : Fin g.links.n, g.mapTwo a b = some (i.val, j.val) ∧ g.graph.Reachable i j

theorem Connected.route_ne_nil (hg : g.Shaped) {a b : T} (h : g.Connected a b)
    (hab : Vertex.id a ≠ Vertex.id b) : g.route a b ≠ [] := by
  obtain ⟨i, j, hm, hreach⟩ := h
  have hij : i ≠ j := fun h => mapTwo_ne hg hm hab (congrArg Fin.val h)
  rw [route_eq hm, ne_eq, (routeOf_routeFrom i j).eq_nil_iff hij, not_not]
  exact hreach.symm

theorem Rebanded.connected {g' : Network T} (h : g.Rebanded g') {a b : T} (hc : g.Connected a b) :
    g'.Connected a b := by
  obtain ⟨i, j, hm, hreach⟩ := hc
  let toGraph : g.graph →g g'.graph :=
    { toFun := Fin.cast h.size.symm
      map_rel' := fun {u v} huv => (h.adj u.isLt v.isLt).trans huv }
  exact ⟨toGraph i, toGraph j, (h.mapTwo a b).trans hm, hreach.map toGraph⟩

theorem Connected.bandwidthBetween (hg : g.Shaped) {a b : T} (h : g.Connected a b)
    (hab : Vertex.id a ≠ Vertex.id b) : ∃ w, g.bandwidthBetween a b = .ok (some w) := by
  have hroute := h.route_ne_nil hg hab
  obtain ⟨i, j, hm, -⟩ := h
  have hij : i ≠ j := fun h => mapTwo_ne hg hm hab (congrArg Fin.val h)
  exact ⟨g.bottleneck a b, by rw [bandwidthBetween_eq hg hm hij, if_neg hroute]⟩

/-! ## The operations end -/

theorem bandwidthBetween_returns (hg : g.Shaped) (a b : T) :
    Returns (g.bandwidthBetween a b) fun _ => True := by
  cases hs : g.pathStrategy with
  | shortestPath => exact (bandwidthBetween_spec hg hs a b).mono fun _ _ => trivial
  | widestPath =>
    unfold bandwidthBetween
    cases hm : g.mapTwo a b with
    | none => simp
    | some p =>
      obtain ⟨i, j⟩ := p
      obtain ⟨hi, hj⟩ := hg.mapTwo_lt hm
      obtain ⟨r, hr, htree⟩ := g.widestPath_spec hi
      simp only [pathBetween, hs, hr, bind_ok]
      rw [get_getD none (by rw [htree.val_length]; exact hj)]
      simp

theorem getPathBetween_returns (hg : g.Shaped) (a b : T) :
    Returns (g.getPathBetween a b) fun _ => True := by
  cases hm : g.mapTwo a b with
  | none => rw [getPathBetween, hm]; simp
  | some p => exact (getPathBetween_spec hg hm).mono fun _ _ => trivial

theorem updateEdgesAlongPathBy_returns (hg : g.Shaped) (a b : T) {func : Nat → Run Nat}
    (hfunc : ∀ x, Returns (func x) fun _ => True) :
    Returns (g.updateEdgesAlongPathBy a b func) g.Rebanded := by
  rw [updateEdgesAlongPathBy_eq hg]
  apply Returns.foldlM_inv g.Rebanded (Rebanded.refl g)
  intro cp hcp g' hreb
  obtain ⟨hc, hp, hadj⟩ := hg.route_lt cp hcp
  rw [← hreb.adj hp hc] at hadj
  rw [← hreb.size] at hc hp
  obtain ⟨⟨l, hl⟩, -⟩ := adj_iff.mp hadj
  rw [g'.links.index_eq hp hc, hl, bind_ok, unwrap_some, bind_ok]
  refine (hfunc _).bind fun y _ => ?_
  exact (updateBandwidthInter_rebanded hp hc hadj y).mono fun g'' h => hreb.trans h.1

/-! ## What the searches find -/

/-- `shortest_path` ends with the distances in links, and with parents that are the steps of
shortest paths. The walks back take these steps, so the operations that walk back end. -/
theorem shortest_paths (g : Network T) (hg : g.Shaped) :
    (∀ src : Fin g.links.n, Returns (g.shortestPath src) fun r => ∀ v : Fin g.links.n,
      (¬ g.graph.Reachable v src → get r.1 v = .ok none) ∧
      (g.graph.Reachable v src → get r.1 v = .ok (some (g.graph.dist v src)) ∧
        ∃ p : g.graph.Walk v src, Follows r.2 p ∧ p.length = g.graph.dist v src ∧
          ∀ (σ : Type) (s : σ) (f : σ → Nat → Nat → Run σ),
            walkBack r.2 v s f = (stepsOf p).foldlM (fun s cp => f s cp.1 cp.2) s)) ∧
    ∀ a b, (Returns (g.bandwidthBetween a b) fun _ => True) ∧
      (Returns (g.propertiesBetween a b) fun _ => True) ∧
      (Returns (g.getPathBetween a b) fun _ => True) ∧
      ∀ func, (∀ x, Returns (func x) fun _ => True) →
        Returns (g.updateEdgesAlongPathBy a b func) fun _ => True := by
  refine ⟨fun src => ?_, fun a b => ⟨bandwidthBetween_returns hg a b, ?_,
    getPathBetween_returns hg a b, fun func hfunc => ?_⟩⟩
  · refine (g.shortestPath_spec src.isLt).mono fun r htree v => ?_
    have hget : get r.1 v = .ok (r.1.getD v none) :=
      get_getD none (by rw [htree.dist_length]; exact v.isLt)
    rw [hget]
    refine ⟨fun hr => by rw [htree.dist_eq_none.mpr hr], fun hr => ?_⟩
    obtain ⟨d, hd⟩ := Option.ne_none_iff_exists'.mp (mt htree.dist_eq_none.mp (not_not.mpr hr))
    obtain ⟨p, hp, hlength, hle⟩ := htree.shortest hd
    exact ⟨by rw [hd, htree.dist_eq hd], p, hp, hlength, fun σ s f => walkBack_eq hp.2 hle s f⟩
  · exact (propertiesBetween_spec hg a b).mono fun _ _ => trivial
  · exact (updateEdgesAlongPathBy_returns hg a b hfunc).mono fun _ _ => trivial

def triangle (pathStrategy : PathStrategy) : Run (Network Nat) :=
  withLinks pathStrategy [0, 1, 2] [(0, 1, 100), (1, 2, 50), (0, 2, 20)]

theorem triangle_shaped {pathStrategy : PathStrategy} {g : Network Nat}
    (h : triangle pathStrategy = .ok g) : g.Shaped :=
  (withLinks_built h (by decide)).wf.shaped

theorem shortest_paths_triangle : Returns (triangle .shortestPath) fun g =>
    ∀ src : Fin g.links.n, Returns (g.shortestPath src) fun r =>
      ∀ v : Fin g.links.n, g.graph.Reachable v src → get r.1 v = .ok (some (g.graph.dist v src)) := by
  obtain ⟨g, hg, -⟩ : Returns (triangle .shortestPath) fun _ => True := by decide +kernel
  refine ⟨g, hg, fun src => ?_⟩
  exact ((shortest_paths g (triangle_shaped hg)).1 src).mono fun r h v hr => ((h v).2 hr).1

def pathWidths (g : Network T) (i j : Fin g.links.n) : Set Nat :=
  {w | ∃ p : g.graph.Walk i j, p.IsPath ∧ g.LeastOn p w}

theorem pathWidths_eq (hg : g.Shaped) {i j : Fin g.links.n} (hij : i ≠ j) :
    g.pathWidths i j = PathWidth.pathWidths g.weight u32Max g.graph i j := by
  ext w
  constructor
  · rintro ⟨p, hp, hw⟩
    exact ⟨p, hp, (leastOn_width hg hij p).unique hw⟩
  · rintro ⟨p, hp, rfl⟩
    exact ⟨p, hp, leastOn_width hg hij p⟩

/-- `widest_path` ends, its labels are the greatest widths of paths, and the walk along its
parents, which are without a cycle and end at the source, gives the same bandwidth. -/
theorem widest_paths (g : Network T) (hg : g.Shaped) (hs : g.pathStrategy = .widestPath) {a b : T}
    {i j : Fin g.links.n} (hm : g.mapTwo a b = some (i.val, j.val))
    (hab : Vertex.id a ≠ Vertex.id b) :
    Returns (g.widestPath i) fun r =>
      (∃ o, g.bandwidthBetween a b = .ok o ∧ (o = none ↔ ¬ g.graph.Reachable j i) ∧
        (∀ w, o = some w → IsGreatest (g.pathWidths j i) w) ∧
        Returns (g.propertiesBetween a b) fun props => props.map Properties.bandwidth = o) ∧
      (∀ v, Acc (fun p v => r.2.getD v none = some p) v) ∧
      (g.graph.Reachable j i → ∃ p : g.graph.Walk j i, Follows r.2 p) := by
  have hij : i ≠ j := fun h => mapTwo_ne hg hm hab (congrArg Fin.val h)
  obtain ⟨r, hr, htree⟩ := g.widestPath_spec i.isLt
  have hlen : j.val < r.1.length := by rw [htree.val_length]; exact j.isLt
  have hval : g.bandwidthBetween a b = .ok (r.1.getD j none) := by
    unfold bandwidthBetween pathBetween
    simp only [hm, hs, hr, bind_ok]
    exact get_getD none hlen
  refine ⟨r, hr, ⟨_, hval, htree.val_eq_none, fun w hw => ?_, ?_⟩, htree.acyclic, fun hreach => ?_⟩
  · rw [pathWidths_eq hg hij.symm]
    exact htree.isGreatest hw
  · -- The shortcut through the labels is the least bandwidth on the route.
    have hshort := bandwidthBetween_eq hg hm hij
    rw [hval, Except.ok.injEq] at hshort
    rw [hshort]
    exact propertiesBetween_spec hg a b
  · obtain ⟨b, hb⟩ := Option.ne_none_iff_exists'.mp (mt htree.val_eq_none.mp (not_not.mpr hreach))
    exact htree.follows hb

theorem widest_paths_triangle : Returns (triangle .widestPath) fun g =>
    ∃ i j : Fin g.links.n, g.mapTwo 0 2 = some (i.val, j.val) ∧ IsGreatest (g.pathWidths j i) 50 := by
  obtain ⟨g, hg, ⟨hn, hs⟩, hm, hband⟩ : Returns (triangle .widestPath) fun g =>
      (g.links.n = 3 ∧ g.pathStrategy = .widestPath) ∧ g.mapTwo 0 2 = some (0, 2) ∧
        g.bandwidthBetween 0 2 = .ok (some 50) := by decide +kernel
  have hij : g.mapTwo 0 2 =
    some ((⟨0, by omega⟩ : Fin g.links.n).val, (⟨2, by omega⟩ : Fin g.links.n).val) := hm
  obtain ⟨r, -, ⟨o, ho, -, hgreatest, -⟩, -⟩ :=
    widest_paths g (triangle_shaped hg) hs hij (by decide)
  rw [hband, Except.ok.injEq] at ho
  exact ⟨g, hg, _, _, hij, hgreatest 50 ho.symm⟩

end Network

end Kollaps
