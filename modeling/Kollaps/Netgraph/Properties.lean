import Kollaps.Netgraph.Optimal

/-!
# What the properties of a path add up

`properties_between` walks back from the destination. What it gives is the least bandwidth and the
sums of the rest, link after link, over a shortest path.
-/

namespace Kollaps

open Run

namespace Network

namespace Properties

def add (p q : Properties) : Properties :=
  { bandwidth := min p.bandwidth q.bandwidth
    drop := p.drop + q.drop
    latencyJitter := (p.latencyJitter.1 + q.latencyJitter.1, p.latencyJitter.2 + q.latencyJitter.2) }

def zero : Properties := ⟨u32Max, 0, (0, 0)⟩

/-- The links in the order of the walk: the sums are rounded after each of them. -/
def sum (ps : List Properties) : Properties := ps.foldl add zero

end Properties

end Network

def Link.properties {T : Type} (l : Link T) : Network.Properties := ⟨l.bandwidth, l.drop, l.latencyJitter⟩

namespace Network

variable {T : Type} [Vertex T] {g : Network T}

/-! ## One link -/

theorem new_entry {vertices : List T} {strategy : PathStrategy} (h : new vertices strategy = .ok g)
    {i j : Nat} (hi : i < g.links.n) (hj : j < g.links.n) : g.links.entry i j = none := by
  obtain ⟨links, hlinks, h⟩ := of_bind_eq_ok h
  cases h
  obtain ⟨hn, hnone⟩ := SymMatrix.newFn_ok hlinks
  rcases Nat.le_total i j with hij | hij
  · exact (Except.ok.inj (hnone i j hij (hn ▸ hj))).symm
  · rw [links.entry_comm]
    exact (Except.ok.inj (hnone j i hij (hn ▸ hi))).symm

theorem addEdgeWithProps_entry {g' : Network T} (hg : g.Shaped) {a b : T} {i j bandwidth : Nat}
    {latencyJitter : F32 × F32} {drop : F32} (hm : g.mapTwo a b = some (i, j))
    (h : g.addEdgeWithProps a b bandwidth latencyJitter drop = .ok g') :
    g'.pathStrategy = g.pathStrategy ∧ g'.links.n = g.links.n ∧
      ∀ i' j', i' < g.links.n → j' < g.links.n → g'.links.entry i' j' =
        if s(i', j') = s(i, j) then some (Link.buildAll a b i j bandwidth latencyJitter drop)
        else g.links.entry i' j' := by
  obtain ⟨hi, hj⟩ := hg.mapTwo_lt hm
  unfold addEdgeWithProps at h
  rw [hm] at h
  obtain ⟨links, hset, h⟩ := of_bind_eq_ok h
  cases h
  obtain ⟨hn, hentry⟩ := (g.links.setIndex_spec hi hj _).of_eq hset
  refine ⟨rfl, hn, fun i' j' hi' hj' => ?_⟩
  simp only [Sym2.eq_iff]
  exact hentry i' j' hi' hj'

/-! ## Along a walk -/

def LinkOn (g : Network T) (e : Sym2 (Fin g.links.n)) (l : Link T) : Prop :=
  ∃ i j : Fin g.links.n, e = s(i, j) ∧ g.links.entry i j = some l

theorem foldlM_stepsOf {i j : Fin g.links.n} (p : g.graph.Walk i j) (s : Properties) :
    ∃ ls, List.Forall₂ g.LinkOn p.edges ls ∧ (stepsOf p).foldlM (fun s cp => do
      let link ← unwrap (← g.links.index cp.1 cp.2)
      pure (s.add link.properties)) s = .ok ((ls.map Link.properties).foldl Properties.add s) := by
  induction p generalizing s with
  | nil => exact ⟨[], List.Forall₂.nil, rfl⟩
  | @cons i k j hadj p ih =>
    obtain ⟨⟨l, hl⟩, -⟩ := adj_iff.mp (graph_adj.mp hadj)
    obtain ⟨ls, hls, hfold⟩ := ih (s.add l.properties)
    refine ⟨l :: ls, List.Forall₂.cons ⟨i, k, rfl, hl⟩ hls, ?_⟩
    rw [stepsOf_cons, List.foldlM_cons, g.links.index_eq i.isLt k.isLt, hl]
    exact hfold

/-- The properties between two vertices are those of a shortest path. -/
theorem propertiesBetween_along (hs : g.pathStrategy = .shortestPath) {a b : T}
    {i j : Fin g.links.n} (hm : g.mapTwo a b = some (i.val, j.val)) (hij : i ≠ j) :
    Returns (g.propertiesBetween a b) fun o => (o = none ↔ ¬ g.graph.Reachable j i) ∧
      ∀ props, o = some props → ∃ p : g.graph.Walk j i, p.length = g.graph.dist j i ∧
        ∃ ls, List.Forall₂ g.LinkOn p.edges ls ∧ props = Properties.sum (ls.map Link.properties) := by
  obtain ⟨r, hr, htree⟩ := g.shortestPath_spec i.isLt
  have hpath : g.pathBetween i = .ok r := by rw [pathBetween, hs]; exact hr
  unfold propertiesBetween
  rw [hm]
  dsimp only
  rw [hpath, bind_ok]
  cases hd : r.1.getD j none with
  | none =>
    rw [htree.get_parent_none hd, bind_ok]
    exact ⟨none, rfl, by simp [htree.dist_eq_none.mp hd], by simp⟩
  | some d =>
    obtain ⟨p, ⟨-, hchain⟩, hlength, hlt⟩ := htree.shortest hd
    obtain ⟨o, ho, hnone⟩ := IsChain.first hchain
    obtain ⟨ls, hls, hfold⟩ := foldlM_stepsOf p Properties.zero
    have hreach : g.graph.Reachable j i := ⟨p⟩
    cases o with
    | none =>
      have hsteps := hnone.mp rfl
      cases p with
      | nil => exact absurd rfl hij
      | cons hadj p => simp at hsteps
    | some q =>
      rw [ho, bind_ok]
      dsimp only
      rw [walkBack_eq hchain hlt]
      refine ⟨some (Properties.sum (ls.map Link.properties)), ?_, by simp [hreach], ?_⟩
      · exact congrArg (fun r => r >>= fun props => pure (some props)) hfold
      · rintro props hprops
        cases hprops
        exact ⟨p, hlength, ls, hls, rfl⟩

end Network

end Kollaps
