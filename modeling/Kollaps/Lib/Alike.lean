import Mathlib.Combinatorics.SimpleGraph.Metric

/-!
# Graphs that look alike

Two graphs whose vertices are matched one to one, as far as they go, so that neighbours are
matched with neighbours. Walks, and so distances, are the same in both.
-/

namespace Kollaps

variable {V W : Type*} {G : SimpleGraph V} {H : SimpleGraph W} {R : V → W → Prop}

/-- Every neighbour of a matched vertex is matched with a neighbour. -/
structure Alike (G : SimpleGraph V) (H : SimpleGraph W) (R : V → W → Prop) : Prop where
  unique : Relator.BiUnique R
  forth : ∀ {a x b}, R a x → G.Adj a b → ∃ y, R b y ∧ H.Adj x y
  back : ∀ {a x y}, R a x → H.Adj x y → ∃ b, R b y ∧ G.Adj a b

def EdgesMatch (R : V → W → Prop) (e : Sym2 V) (f : Sym2 W) : Prop :=
  ∃ a b x y, e = s(a, b) ∧ f = s(x, y) ∧ R a x ∧ R b y

namespace Alike

theorem symm (h : Alike G H R) : Alike H G (flip R) :=
  ⟨⟨fun _ _ _ hx hy => h.unique.2 hx hy, fun _ _ _ hx hy => h.unique.1 hx hy⟩, h.back, h.forth⟩

theorem walk_from (h : Alike G H R) {a b : V} (p : G.Walk a b) {x : W} (hx : R a x) :
    ∃ y, R b y ∧ ∃ q : H.Walk x y, q.length = p.length ∧
      List.Forall₂ (EdgesMatch R) p.edges q.edges := by
  induction p generalizing x with
  | nil => exact ⟨x, hx, .nil, rfl, List.Forall₂.nil⟩
  | cons hadj p ih =>
    obtain ⟨x', hx', hadj'⟩ := h.forth hx hadj
    obtain ⟨y, hy, q, hlength, hedges⟩ := ih hx'
    refine ⟨y, hy, .cons hadj' q, ?_, List.Forall₂.cons ⟨_, _, _, _, rfl, rfl, hx, hx'⟩ hedges⟩
    rw [SimpleGraph.Walk.length_cons, SimpleGraph.Walk.length_cons, hlength]

/-- Between matched vertices there is the same walk. -/
theorem walk (h : Alike G H R) {a b : V} {x y : W} (hx : R a x) (hy : R b y) (p : G.Walk a b) :
    ∃ q : H.Walk x y, q.length = p.length ∧ List.Forall₂ (EdgesMatch R) p.edges q.edges := by
  obtain ⟨y', hy', q, hq⟩ := h.walk_from p hx
  obtain rfl := h.unique.2 hy hy'
  exact ⟨q, hq⟩

theorem reachable_iff (h : Alike G H R) {a b : V} {x y : W} (hx : R a x) (hy : R b y) :
    G.Reachable a b ↔ H.Reachable x y := by
  constructor
  · rintro ⟨p⟩
    obtain ⟨q, -⟩ := h.walk hx hy p
    exact ⟨q⟩
  · rintro ⟨q⟩
    obtain ⟨p, -⟩ := h.symm.walk hx hy q
    exact ⟨p⟩

theorem dist_le (h : Alike G H R) {a b : V} {x y : W} (hx : R a x) (hy : R b y)
    (hr : G.Reachable a b) : H.dist x y ≤ G.dist a b := by
  obtain ⟨p, hp⟩ := hr.exists_walk_length_eq_dist
  obtain ⟨q, hlength, -⟩ := h.walk hx hy p
  rw [← hp, ← hlength]
  exact SimpleGraph.dist_le q

theorem dist_eq (h : Alike G H R) {a b : V} {x y : W} (hx : R a x) (hy : R b y)
    (hr : G.Reachable a b) : H.dist x y = G.dist a b :=
  le_antisymm (h.dist_le hx hy hr) (h.symm.dist_le hx hy ((h.reachable_iff hx hy).mp hr))

end Alike

end Kollaps
