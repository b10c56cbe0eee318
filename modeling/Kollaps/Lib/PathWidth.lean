import Mathlib.Combinatorics.SimpleGraph.Paths
import Mathlib.Order.Bounds.Basic

/-!
# Widths of walks

The width of a walk in a graph with weighted edges: the least weight on it. A walk that
repeats vertices is no wider than the path inside it, so paths are enough for the widest.
-/

namespace Kollaps

namespace PathWidth

variable {V α : Type*} [LinearOrder α] {G : SimpleGraph V} (weight : Sym2 V → α) (top : α)

/-- The least weight of the edges, starting from `top`. -/
def width {u v : V} (p : G.Walk u v) : α := (p.edges.map weight).foldr min top

variable {weight top}

theorem width_cons {u v w : V} (h : G.Adj u v) (p : G.Walk v w) :
    width weight top (.cons h p) = min (weight s(u, v)) (width weight top p) := rfl

theorem le_width_iff {u v : V} {p : G.Walk u v} {a : α} :
    a ≤ width weight top p ↔ a ≤ top ∧ ∀ e ∈ p.edges, a ≤ weight e := by
  unfold width
  induction p.edges with
  | nil => simp
  | cons e l ih =>
    rw [List.map_cons, List.foldr_cons, le_min_iff, ih, List.forall_mem_cons]
    tauto

theorem width_le_of_subset {u v u' v' : V} {p : G.Walk u v} {q : G.Walk u' v'}
    (h : p.edges ⊆ q.edges) : width weight top q ≤ width weight top p := by
  obtain ⟨htop, hall⟩ := le_width_iff.mp (le_refl (width weight top q))
  exact le_width_iff.mpr ⟨htop, fun e he => hall e (h he)⟩

def pathWidths (weight : Sym2 V → α) (top : α) (G : SimpleGraph V) (u v : V) : Set α :=
  {a | ∃ p : G.Walk u v, p.IsPath ∧ width weight top p = a}

/-- The width of a walk that is the widest is the greatest width of a path. -/
theorem isGreatest_pathWidths [DecidableEq V] {u v : V} (p : G.Walk u v)
    (h : ∀ q : G.Walk u v, width weight top q ≤ width weight top p) :
    IsGreatest (pathWidths weight top G u v) (width weight top p) := by
  refine ⟨⟨p.bypass, p.bypass_isPath, ?_⟩, ?_⟩
  · exact le_antisymm (h _) (width_le_of_subset p.edges_bypass_subset_edges)
  · rintro a ⟨q, -, rfl⟩
    exact h q

theorem width_isLeast {u v : V} {p : G.Walk u v} (hp : p.edges ≠ [])
    (htop : ∀ e ∈ p.edges, weight e ≤ top) :
    IsLeast {a | ∃ e ∈ p.edges, weight e = a} (width weight top p) := by
  constructor
  · unfold width
    have hfold : ∀ l : List (Sym2 V), (∀ e ∈ l, weight e ≤ top) → l ≠ [] →
        ∃ e ∈ l, weight e = (l.map weight).foldr min top := by
      intro l hl hne
      induction l with
      | nil => exact absurd rfl hne
      | cons e l ih =>
        rw [List.map_cons, List.foldr_cons]
        rcases le_total (weight e) ((l.map weight).foldr min top) with hle | hle
        · exact ⟨e, List.mem_cons_self, (min_eq_left hle).symm⟩
        · rw [min_eq_right hle]
          rcases eq_or_ne l [] with rfl | hl'
          · exact ⟨e, List.mem_cons_self, le_antisymm (hl e List.mem_cons_self) hle⟩
          · obtain ⟨e', he', h⟩ := ih (fun x hx => hl x (List.mem_cons_of_mem _ hx)) hl'
            exact ⟨e', List.mem_cons_of_mem _ he', h⟩
    exact hfold p.edges htop hp
  · rintro a ⟨e, he, rfl⟩
    exact (le_width_iff.mp (le_refl _)).2 e he

end PathWidth

end Kollaps
