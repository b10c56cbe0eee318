import Kollaps.Netgraph.WidestPath

/-!
# Routes

Both searches leave parents without a cycle, so the loops that follow them end. A route is
the list of steps of such a loop. It visits no vertex twice, hence no link twice.
-/

namespace Kollaps

open Run

/-! ## The walk back -/

/-- The steps from an index along its parents, until an index has none. -/
def IsChain (parents : List (Option Nat)) : Nat → List (Nat × Nat) → Prop
  | v, [] => parents[v]? = some none
  | v, (c, p) :: steps => c = v ∧ parents[v]? = some (some p) ∧ IsChain parents p steps

def cellsOf (steps : List (Nat × Nat)) : List (Sym2 Nat) := steps.map fun cp => s(cp.1, cp.2)

@[simp] theorem cellsOf_nil : cellsOf [] = [] := rfl

@[simp] theorem cellsOf_cons (cp : Nat × Nat) (steps : List (Nat × Nat)) :
    cellsOf (cp :: steps) = s(cp.1, cp.2) :: cellsOf steps := rfl

@[simp] theorem cellsOf_append (steps steps' : List (Nat × Nat)) :
    cellsOf (steps ++ steps') = cellsOf steps ++ cellsOf steps' := List.map_append

namespace IsChain

variable {parents : List (Option Nat)}

theorem unique {steps steps' : List (Nat × Nat)} {v : Nat} (h : IsChain parents v steps)
    (h' : IsChain parents v steps') : steps = steps' := by
  induction steps generalizing v steps' with
  | nil =>
    cases steps' with
    | nil => rfl
    | cons cp steps' =>
      have := h'.2.1
      rw [show parents[v]? = some none from h] at this
      cases this
  | cons cp steps ih =>
    obtain ⟨rfl, hp, hrest⟩ := h
    cases steps' with
    | nil => rw [show parents[cp.1]? = some none from h'] at hp; cases hp
    | cons cp' steps' =>
      obtain ⟨h1, hp', hrest'⟩ := h'
      rw [hp] at hp'
      simp only [Option.some.injEq] at hp'
      rw [← hp'] at hrest'
      rw [ih hrest hrest', Prod.ext h1.symm hp']

theorem drop {steps : List (Nat × Nat)} {v x : Nat} (h : IsChain parents v steps)
    (hx : x ∈ steps.map Prod.snd) :
    ∃ steps', IsChain parents x steps' ∧ steps'.length < steps.length := by
  induction steps generalizing v with
  | nil => simp at hx
  | cons cp steps ih =>
    obtain ⟨rfl, -, hrest⟩ := h
    rw [List.map_cons, List.mem_cons] at hx
    rcases hx with rfl | hx
    · exact ⟨steps, hrest, by simp⟩
    · obtain ⟨steps', h1, h2⟩ := ih hrest hx
      exact ⟨steps', h1, by simp only [List.length_cons]; omega⟩

theorem nodup {steps : List (Nat × Nat)} {v : Nat} (h : IsChain parents v steps) :
    (v :: steps.map Prod.snd).Nodup := by
  induction steps generalizing v with
  | nil => simp
  | cons cp steps ih =>
    obtain ⟨rfl, hp, hrest⟩ := h
    rw [List.map_cons, List.nodup_cons]
    refine ⟨fun hmem => ?_, ih hrest⟩
    have hchain : IsChain parents cp.1 (cp :: steps) := ⟨rfl, hp, hrest⟩
    obtain ⟨steps', h', hlt⟩ := drop hchain hmem
    have heq := unique hchain h'
    rw [← heq] at hlt
    exact absurd hlt (lt_irrefl _)

theorem map_fst {steps : List (Nat × Nat)} {v : Nat} (h : IsChain parents v steps) :
    ∀ cp ∈ steps, cp.1 ∈ v :: steps.map Prod.snd := by
  induction steps generalizing v with
  | nil => simp
  | cons cp steps ih =>
    obtain ⟨rfl, -, hrest⟩ := h
    intro dp hdp
    rw [List.mem_cons] at hdp
    rcases hdp with rfl | hdp
    · exact List.mem_cons_self
    · exact List.mem_cons_of_mem _ (ih hrest dp hdp)

/-- The end points of a step, in either order, tell it from the other steps. -/
theorem nodup_cells {steps : List (Nat × Nat)} {v : Nat} (h : IsChain parents v steps) :
    (cellsOf steps).Nodup := by
  induction steps generalizing v with
  | nil => simp
  | cons cp steps ih =>
    have hnd := h.nodup
    obtain ⟨rfl, hp, hrest⟩ := h
    rw [List.map_cons, List.nodup_cons] at hnd
    rw [cellsOf_cons, List.nodup_cons]
    refine ⟨fun hmem => ?_, ih hrest⟩
    obtain ⟨dp, hdp, heq⟩ := List.mem_map.mp hmem
    -- The first index is on no later step.
    have h1 := hrest.map_fst dp hdp
    have h2 : dp.2 ∈ cp.2 :: steps.map Prod.snd :=
      List.mem_cons_of_mem _ (List.mem_map_of_mem hdp)
    rw [Sym2.eq_iff] at heq
    rcases heq with ⟨h, -⟩ | ⟨-, h⟩
    · exact hnd.1 (h ▸ h1)
    · exact hnd.1 (h ▸ h2)

end IsChain

theorem walkBack_eq {σ : Type} {parents : List (Option Nat)} {v : Nat} {steps : List (Nat × Nat)}
    (hc : IsChain parents v steps) (hlen : steps.length ≤ parents.length) (s : σ)
    (f : σ → Nat → Nat → Run σ) :
    Network.walkBack parents v s f = steps.foldlM (fun s cp => f s cp.1 cp.2) s := by
  unfold Network.walkBack
  generalize hfuel : parents.length + 1 = fuel
  have hlt : steps.length < fuel := by omega
  clear hfuel hlen
  induction steps generalizing v s fuel with
  | nil =>
    obtain ⟨k, rfl⟩ : ∃ k, fuel = k + 1 := ⟨fuel - 1, by omega⟩
    rw [loop, get_eq_ok.mpr hc]
    rfl
  | cons cp steps ih =>
    obtain ⟨k, rfl⟩ : ∃ k, fuel = k + 1 := ⟨fuel - 1, by omega⟩
    obtain ⟨c, p⟩ := cp
    obtain ⟨rfl, hp, hrest⟩ := hc
    rw [loop, get_eq_ok.mpr hp, List.foldlM_cons]
    cases hf : f s c p with
    | error e => simp [hf]
    | ok s' =>
      simp only [bind_ok, hf, pure_bind]
      exact ih hrest s' k (by simpa using hlt)

namespace Network

variable {T : Type} [Vertex T]

/-- What the parents of a search have: they lead along links, and in no cycle. -/
structure Tree (g : Network T) (src : Nat) (parents : List (Option Nat)) : Prop where
  length : parents.length = g.links.n
  root : parents.getD src none = none
  link : ∀ v p, parents.getD v none = some p → v < g.links.n ∧ p < g.links.n ∧ g.adj p v = true
  acyclic : ∀ v, Acc (fun p v => parents.getD v none = some p) v

theorem ShortestTree.toTree {g : Network T} {src : Nat} {dist parents : List (Option Nat)}
    (h : g.ShortestTree src dist parents) : g.Tree src parents := by
  refine ⟨h.parents_length, ?_, fun v p hp => ?_, fun v => ?_⟩
  · cases hp : parents.getD src none with
    | none => rfl
    | some p =>
      obtain ⟨-, -, -, d, -, hd⟩ := h.parent src p hp
      rw [h.source] at hd; cases hd
  · obtain ⟨h1, h2, h3, -⟩ := h.parent v p hp
    exact ⟨h1, h2, h3⟩
  · -- A parent is nearer to the source.
    refine Subrelation.accessible (fun {p v} hp => ?_)
      ((measure fun v => (dist.getD v none).getD 0).wf.apply v)
    obtain ⟨-, -, -, d, hdp, hdv⟩ := h.parent v p hp
    show (dist.getD p none).getD 0 < (dist.getD v none).getD 0
    rw [hdp, hdv]
    exact Nat.lt_succ_self d

theorem WidestTree.toTree {g : Network T} {src : Nat} {bandwidths parents : List (Option Nat)}
    (h : g.WidestTree src bandwidths parents) : g.Tree src parents := by
  refine ⟨h.parents_length, h.root, fun v p hp => ?_, h.acyclic⟩
  obtain ⟨h1, h2, h3, -⟩ := h.parent v p hp
  exact ⟨h1, h2, h3⟩

theorem pathBetween_spec (g : Network T) {src : Nat} (hsrc : src < g.links.n) :
    Returns (g.pathBetween src) fun r => g.Tree src r.2 := by
  unfold pathBetween
  cases g.pathStrategy with
  | widestPath => exact (g.widestPath_spec hsrc).mono fun r h => h.toTree
  | shortestPath => exact (g.shortestPath_spec hsrc).mono fun r h => h.toTree

theorem Tree.chain {g : Network T} {src : Nat} {parents : List (Option Nat)} (h : g.Tree src parents)
    {v : Nat} (hv : v < g.links.n) :
    ∃ steps, IsChain parents v steps ∧
      ∀ cp ∈ steps, cp.1 < g.links.n ∧ cp.2 < g.links.n ∧ g.adj cp.2 cp.1 = true := by
  induction h.acyclic v with
  | intro v _ ih =>
    have hget : parents[v]? = some (parents.getD v none) := by
      have hlt : v < parents.length := by rw [h.length]; exact hv
      rw [List.getD_eq_getElem?_getD, List.getElem?_eq_getElem hlt, Option.getD_some]
    cases hp : parents.getD v none with
    | none => exact ⟨[], by rw [hp] at hget; exact hget, by simp⟩
    | some p =>
      obtain ⟨-, hpl, hadj⟩ := h.link v p hp
      obtain ⟨steps, hc, hall⟩ := ih p hp hpl
      rw [hp] at hget
      refine ⟨(v, p) :: steps, ⟨rfl, hget, hc⟩, ?_⟩
      intro cp hcp
      rw [List.mem_cons] at hcp
      rcases hcp with rfl | hcp
      · exact ⟨hv, hpl, hadj⟩
      · exact hall cp hcp

/-! ## Routes -/

def stepsFrom (parents : List (Option Nat)) : Nat → Nat → List (Nat × Nat)
  | 0, _ => []
  | fuel + 1, v =>
    match parents[v]? with
    | some (some p) => (v, p) :: stepsFrom parents fuel p
    | _ => []

theorem stepsFrom_eq {parents : List (Option Nat)} {steps : List (Nat × Nat)} {v fuel : Nat}
    (h : IsChain parents v steps) (hlen : steps.length ≤ fuel) :
    stepsFrom parents fuel v = steps := by
  induction steps generalizing v fuel with
  | nil =>
    cases fuel with
    | zero => rfl
    | succ fuel => rw [stepsFrom, show parents[v]? = some none from h]
  | cons cp steps ih =>
    obtain ⟨rfl, hp, hrest⟩ := h
    cases fuel with
    | zero => simp at hlen
    | succ fuel =>
      rw [stepsFrom, hp]
      simp only
      rw [ih hrest (by simpa using hlen)]

/-- The route between two indices: the steps of the walk back, each with its parent. -/
def routeFrom (g : Network T) (i j : Nat) : List (Nat × Nat) :=
  match g.pathBetween i with
  | .ok r => stepsFrom r.2 r.2.length j
  | .error _ => []

def route (g : Network T) (a b : T) : List (Nat × Nat) :=
  match g.mapTwo a b with
  | some (i, j) => g.routeFrom i j
  | none => []

def cells (g : Network T) (a b : T) : List (Sym2 Nat) := cellsOf (g.route a b)

theorem cells_eq_nil {g : Network T} {a b : T} : g.cells a b = [] ↔ g.route a b = [] :=
  List.map_eq_nil_iff

theorem route_congr (g : Network T) {a b a' b' : T} (ha : Vertex.id a = Vertex.id a')
    (hb : Vertex.id b = Vertex.id b') : g.route a b = g.route a' b' := by
  rw [route, route, mapTwo, mapTwo, g.map_congr ha, g.map_congr hb]

theorem routeFrom_spec (g : Network T) {i j : Nat} (hi : i < g.links.n) (hj : j < g.links.n) :
    Returns (g.pathBetween i) fun r => g.Tree i r.2 ∧ IsChain r.2 j (g.routeFrom i j) ∧
      (g.routeFrom i j).length ≤ r.2.length ∧
      ∀ cp ∈ g.routeFrom i j, cp.1 < g.links.n ∧ cp.2 < g.links.n ∧ g.adj cp.2 cp.1 = true := by
  obtain ⟨r, hr, htree⟩ := g.pathBetween_spec hi
  obtain ⟨steps, hc, hall⟩ := htree.chain hj
  have hlen : steps.length ≤ r.2.length := by
    -- The vertices on the way are distinct indices.
    have hsub : steps.map Prod.snd ⊆ List.range g.links.n := by
      intro x hx
      obtain ⟨cp, hcp, rfl⟩ := List.mem_map.mp hx
      exact List.mem_range.mpr (hall cp hcp).2.1
    have hle := (List.subperm_of_subset (List.nodup_cons.mp hc.nodup).2 hsub).length_le
    rw [List.length_map, List.length_range] at hle
    rw [htree.length]
    exact hle
  have hroute : g.routeFrom i j = steps := by
    rw [routeFrom, hr]
    exact stepsFrom_eq hc hlen
  rw [hroute]
  exact ⟨r, hr, htree, hc, hlen, hall⟩

theorem route_eq {g : Network T} {a b : T} {i j : Nat} (h : g.mapTwo a b = some (i, j)) :
    g.route a b = g.routeFrom i j := by
  rw [route, h]

theorem Shaped.mapTwo_lt {g : Network T} (hg : g.Shaped) {a b : T} {i j : Nat}
    (h : g.mapTwo a b = some (i, j)) : i < g.links.n ∧ j < g.links.n := by
  obtain ⟨ha, hb⟩ := mapTwo_eq_some.mp h
  exact ⟨hg.map_lt a i ha, hg.map_lt b j hb⟩

theorem Wf.mapTwo_lt {g : Network T} (hg : g.Wf) {a b : T} {i j : Nat}
    (h : g.mapTwo a b = some (i, j)) : i < g.links.n ∧ j < g.links.n :=
  hg.shaped.mapTwo_lt h

theorem Shaped.route_lt {g : Network T} (hg : g.Shaped) {a b : T} :
    ∀ cp ∈ g.route a b, cp.1 < g.links.n ∧ cp.2 < g.links.n ∧ g.adj cp.2 cp.1 = true := by
  unfold route
  cases h : g.mapTwo a b with
  | none => simp
  | some p =>
    obtain ⟨hi, hj⟩ := hg.mapTwo_lt h
    obtain ⟨r, -, -, -, -, hall⟩ := g.routeFrom_spec hi hj
    exact hall

theorem Wf.route_lt {g : Network T} (hg : g.Wf) {a b : T} :
    ∀ cp ∈ g.route a b, cp.1 < g.links.n ∧ cp.2 < g.links.n ∧ g.adj cp.2 cp.1 = true :=
  hg.shaped.route_lt

theorem Wf.route_self {g : Network T} (hg : g.Wf) {a b : T} (h : Vertex.id a = Vertex.id b) :
    g.route a b = [] := by
  unfold route
  cases hm : g.mapTwo a b with
  | none => rfl
  | some p =>
    obtain ⟨i, j⟩ := p
    obtain ⟨hi, hj⟩ := hg.mapTwo_lt hm
    obtain ⟨ha, hb⟩ := mapTwo_eq_some.mp hm
    obtain rfl : i = j := Option.some.inj (ha.symm.trans ((g.map_congr h).trans hb))
    obtain ⟨r, -, htree, hchain, -⟩ := g.routeFrom_spec hi hi
    cases hroute : g.routeFrom i i with
    | nil => simp only [hroute]
    | cons cp steps =>
      rw [hroute] at hchain
      have hroot := htree.root
      rw [List.getD_eq_getElem?_getD, hchain.2.1] at hroot
      cases hroot

theorem Shaped.nodup_cells {g : Network T} (hg : g.Shaped) (a b : T) : (g.cells a b).Nodup := by
  unfold cells route
  cases h : g.mapTwo a b with
  | none => simp
  | some p =>
    obtain ⟨hi, hj⟩ := hg.mapTwo_lt h
    obtain ⟨r, -, -, hc, -⟩ := g.routeFrom_spec hi hj
    exact hc.nodup_cells

theorem Wf.nodup_cells {g : Network T} (hg : g.Wf) (a b : T) : (g.cells a b).Nodup :=
  hg.shaped.nodup_cells a b

end Network

end Kollaps
