import Kollaps.Netgraph.Shape
import Mathlib.Algebra.BigOperators.Group.List.Basic

/-!
# The shortest path search

`shortest_path` labels every vertex with the least number of links from the source, and
its parents lead back to the source. The proof does not use the order of the queue: a
label that can still be improved has an entry in the queue.
-/

namespace Kollaps

open Run

/-! ## The queue -/

theorem heapPop_eq_none {l : List Pair} : heapPop l = none ↔ l = [] := by
  cases l <;> simp [heapPop]

theorem foldl_best_mem (ps : List Pair) (p : Pair) :
    ps.foldl (fun b q => if q.before b then q else b) p ∈ p :: ps := by
  induction ps generalizing p with
  | nil => simp
  | cons q ps ih =>
    rw [List.foldl_cons]
    rcases List.mem_cons.mp (ih (if q.before p then q else p)) with h | h
    · rw [h]; split <;> simp
    · simp [h]

theorem heapPop_spec {l rest : List Pair} {p : Pair} (h : heapPop l = some (p, rest)) :
    p ∈ l ∧ rest = l.erase p := by
  cases l with
  | nil => cases h
  | cons q l =>
    simp only [heapPop, Option.some.injEq, Prod.mk.injEq] at h
    obtain ⟨rfl, rfl⟩ := h
    exact ⟨foldl_best_mem l q, rfl⟩

theorem getD_set {α : Type} (l : List α) (i j : Nat) (a d : α) (hi : i < l.length) :
    (l.set i a).getD j d = if j = i then a else l.getD j d := by
  rw [List.getD_eq_getElem?_getD, List.getD_eq_getElem?_getD, List.getElem?_set]
  rcases eq_or_ne j i with rfl | h
  · rw [if_pos rfl, if_pos hi, if_pos rfl, Option.getD_some]
  · rw [if_neg (Ne.symm h), if_neg h]

theorem get_getD {α : Type} {l : List α} {i : Nat} (d : α) (hi : i < l.length) :
    get l i = .ok (l.getD i d) := by
  rw [get_eq hi, List.getD_eq_getElem?_getD, List.getElem?_eq_getElem hi, Option.getD_some]

namespace Network

variable {T : Type} [Vertex T]

/-- There is a link between two different indices. -/
def adj (g : Network T) (i j : Nat) : Bool := (g.links.entry i j).isSome && decide (i ≠ j)

theorem adj_symm (g : Network T) (i j : Nat) : g.adj i j = g.adj j i := by
  rw [adj, adj, g.links.entry_comm, decide_eq_decide.mpr (ne_comm)]

theorem adj_iff {g : Network T} {i j : Nat} :
    g.adj i j = true ↔ (∃ l, g.links.entry i j = some l) ∧ i ≠ j := by
  simp [adj, Option.isSome_iff_exists]

theorem neighbours_eq (g : Network T) {i : Nat} (hi : i < g.links.n) :
    g.neighbours i = .ok ((List.range g.links.n).filter (g.adj i)) := by
  have h : Returns (g.neighbours i) (· = (List.range g.links.n).filter (g.adj i)) := by
    unfold neighbours
    refine Returns.forRange (fun k acc => acc = (List.range k).filter (g.adj i)) rfl ?_
    rintro k acc hk rfl
    rw [g.links.index_eq hi hk, bind_ok]
    rw [List.range_succ, List.filter_append]
    cases he : g.links.entry i k with
    | none => simp [adj, he]
    | some l =>
      rcases eq_or_ne k i with rfl | hik
      · simp [adj]
      · simp [adj, he, hik, Ne.symm hik]
  obtain ⟨a, ha, rfl⟩ := h
  exact ha

inductive Walk (g : Network T) : Nat → Nat → Nat → Prop where
  | refl {i : Nat} : i < g.links.n → Walk g i i 0
  | step {i j k len : Nat} : Walk g i j len → k < g.links.n → g.adj j k = true → Walk g i k (len + 1)

def labelled (val : List (Option Nat)) : Nat := (val.filter Option.isSome).length

def cost (n : Nat) : Option Nat → Nat
  | none => n
  | some d => d

/-- The invariant of the search. A link in `pending` need not be relaxed yet. -/
structure SearchInv (g : Network T) (src : Nat) (pending : Nat → Nat → Prop) (s : Search) : Prop where
  val_length : s.val.length = g.links.n
  parents_length : s.parents.length = g.links.n
  source : s.val.getD src none = some 0
  parent : ∀ v p, s.parents.getD v none = some p → v < g.links.n ∧ p < g.links.n ∧ g.adj p v = true ∧
    ∃ dp dv, s.val.getD p none = some dp ∧ s.val.getD v none = some dv ∧ dp + 1 ≤ dv
  has_parent : ∀ v d, s.val.getD v none = some d → v ≠ src → ∃ p, s.parents.getD v none = some p
  queue : ∀ q ∈ s.toVisit, q.node < g.links.n ∧ ∃ d, s.val.getD q.node none = some d ∧ d ≤ q.val
  relaxed : ∀ u d w, s.val.getD u none = some d → w < g.links.n → g.adj u w = true →
    ⟨u, d⟩ ∈ s.toVisit ∨ pending u w ∨ ∃ dw, s.val.getD w none = some dw ∧ dw ≤ d + 1
  walk : ∀ v d, s.val.getD v none = some d → g.Walk src v d
  small : ∀ v d, s.val.getD v none = some d → d < labelled s.val

/-- The queue shrinks, or a label does. -/
def searchMeasure (n : Nat) (s : Search) : Nat :=
  s.toVisit.length + 2 * (s.val.map (cost n)).sum

theorem labelled_set {val : List (Option Nat)} {i : Nat} (d : Nat) (hi : i < val.length) :
    labelled (val.set i (some d)) = labelled val + if val.getD i none = none then 1 else 0 := by
  induction val generalizing i with
  | nil => simp at hi
  | cons a val ih =>
    cases i with
    | zero => cases a <;> simp [labelled]
    | succ i =>
      have := ih (i := i) (by simpa using hi)
      unfold labelled at this ⊢
      cases a <;> simp only [List.set_cons_succ, List.filter_cons, Option.isSome, List.getD_cons_succ,
        if_true, Bool.false_eq_true, if_false, List.length_cons] <;> omega

theorem sum_map_set {α : Type} (f : Option α → Nat) {val : List (Option α)} {i : Nat} (a : Option α)
    (hi : i < val.length) : ((val.set i a).map f).sum + f (val.getD i none) =
      (val.map f).sum + f a := by
  induction val generalizing i with
  | nil => simp at hi
  | cons b val ih =>
    cases i with
    | zero => simp; omega
    | succ i =>
      have := ih (i := i) (by simpa using hi)
      simp only [List.set_cons_succ, List.map_cons, List.sum_cons, List.getD_cons_succ] at this ⊢
      omega

theorem labelled_le (val : List (Option Nat)) : labelled val ≤ val.length := List.length_filter_le _ _

theorem lt_of_label {val : List (Option Nat)} {v d : Nat} (h : val.getD v none = some d) :
    v < val.length := by
  by_contra hv
  rw [List.getD_eq_getElem?_getD, List.getElem?_eq_none (by omega)] at h
  simp at h

theorem label_set {val : List (Option Nat)} {w new : Nat} (better : Nat → Nat → Prop) (hw : w < val.length)
    (hrefl : ∀ x, better x x) (hnew : ∀ x, val.getD w none = some x → better new x) (v x : Nat)
    (hx : val.getD v none = some x) : ∃ y, (val.set w (some new)).getD v none = some y ∧ better y x := by
  rw [getD_set _ _ _ _ _ hw]
  split <;> rename_i hv
  · subst hv
    exact ⟨new, rfl, hnew x hx⟩
  · exact ⟨x, hx, hrefl x⟩

theorem relaxed_settle {pending : Nat → Nat → Prop} {u w x y : Nat} {Queued Settled : Prop}
    (hsettled : x = u → y = w → Settled) (h : Queued ∨ pending x y ∨ Settled) :
    Queued ∨ (pending x y ∧ ¬ (x = u ∧ y = w)) ∨ Settled := by
  by_cases hxu : x = u ∧ y = w
  · exact Or.inr (Or.inr (hsettled hxu.1 hxu.2))
  · rcases h with h | h | h
    · exact Or.inl h
    · exact Or.inr (Or.inl ⟨h, hxu⟩)
    · exact Or.inr (Or.inr h)

theorem relaxed_pop {s : Search} {vert : Pair} {d u e : Nat} {Settled : Prop}
    (hd : s.val.getD vert.node none = some d) (hu : s.val.getD u none = some e)
    (h : ⟨u, e⟩ ∈ s.toVisit ∨ False ∨ Settled) :
    ⟨u, e⟩ ∈ s.toVisit.erase vert ∨ (u = vert.node ∧ vert.val = d) ∨ Settled := by
  rcases h with h | h | h
  · by_cases he : (⟨u, e⟩ : Pair) = vert
    · subst he
      rw [hu] at hd
      cases hd
      exact Or.inr (Or.inl ⟨rfl, rfl⟩)
    · exact Or.inl ((List.mem_erase_of_ne he).mpr h)
  · exact h.elim
  · exact Or.inr (Or.inr h)

/-- Relaxing its links one by one settles all links of a vertex. -/
theorem relaxAll_spec {g : Network T} {u : Nat} {relax : Search → Nat → Run Search} {s : Search}
    (Inv : (Nat → Nat → Prop) → Search → Prop)
    (hmono : ∀ (pending pending' : Nat → Nat → Prop) s,
      (∀ x y, y < g.links.n → g.adj x y = true → pending x y → pending' x y) → Inv pending s → Inv pending' s)
    (hrelax : ∀ pending s w, w < g.links.n → g.adj u w = true → Inv pending s →
      Returns (relax s w) (Inv fun x y => pending x y ∧ ¬ (x = u ∧ y = w)))
    (hs : Inv (fun x _ => x = u) s) :
    Returns (((List.range g.links.n).filter (g.adj u)).foldlM relax s) (Inv fun _ _ => False) := by
  have hfold : Returns (((List.range g.links.n).filter (g.adj u)).foldlM relax s)
      (Inv fun x y => x = u ∧ y ∉ (List.range g.links.n).filter (g.adj u)) := by
    refine Returns.foldlM (fun pre => Inv fun x y => x = u ∧ y ∉ pre)
      (hmono _ _ s (fun x y _ _ h => ⟨h, List.not_mem_nil⟩) hs) ?_
    intro pre w post s hx hI
    have hw : w ∈ (List.range g.links.n).filter (g.adj u) := by rw [hx]; simp
    rw [List.mem_filter, List.mem_range] at hw
    refine (hrelax _ s w hw.1 hw.2 hI).mono fun s' h => hmono _ _ s' (fun x y _ _ hxy => ⟨hxy.1.1, ?_⟩) h
    rw [List.mem_append, List.mem_singleton]
    rintro (hy | hy)
    · exact hxy.1.2 hy
    · exact hxy.2 ⟨hxy.1.1, hy⟩
  refine hfold.mono fun s' h => hmono _ _ s' (fun x y hy hadj hxy => hxy.2 ?_) h
  rw [List.mem_filter, List.mem_range, ← hxy.1]
  exact ⟨hy, hadj⟩

theorem SearchInv.improve {g : Network T} {src u w : Nat} {pending : Nat → Nat → Prop} {s : Search}
    {d : Nat} (hI : g.SearchInv src pending s) (hu : s.val.getD u none = some d)
    (hw : w < g.links.n) (hadj : g.adj u w = true)
    (hle : ∀ dw, s.val.getD w none = some dw → d + 1 < dw) :
    g.SearchInv src (fun x y => pending x y ∧ ¬ (x = u ∧ y = w))
      ⟨s.val.set w (some (d + 1)), s.parents.set w (some u), ⟨w, d + 1⟩ :: s.toVisit⟩ := by
  have hul : u < s.val.length := lt_of_label hu
  have hwl : w < s.val.length := by rw [hI.val_length]; exact hw
  have hwp : w < s.parents.length := by rw [hI.parents_length]; exact hw
  obtain ⟨-, huw⟩ := adj_iff.mp hadj
  have hval : ∀ j, (s.val.set w (some (d + 1))).getD j none =
      if j = w then some (d + 1) else s.val.getD j none := fun j => getD_set _ _ _ _ _ hwl
  have hpar : ∀ j, (s.parents.set w (some u)).getD j none =
      if j = w then some u else s.parents.getD j none := fun j => getD_set _ _ _ _ _ hwp
  -- Labels only shrink.
  have hshrink : ∀ v x, s.val.getD v none = some x →
      ∃ y, (s.val.set w (some (d + 1))).getD v none = some y ∧ y ≤ x :=
    label_set (· ≤ ·) hwl Nat.le_refl fun x hx => le_of_lt (hle x hx)
  refine ⟨?_, ?_, ?_, ?_, ?_, ?_, ?_, ?_, ?_⟩
  · rw [List.length_set]; exact hI.val_length
  · rw [List.length_set]; exact hI.parents_length
  · -- source
    obtain ⟨y, hy, hle0⟩ := hshrink src 0 hI.source
    rw [Nat.le_zero.mp hle0] at hy
    exact hy
  · -- parent
    intro v p hp
    rw [hpar] at hp
    split at hp <;> rename_i hv
    · cases hp; subst hv
      refine ⟨hw, by rw [← hI.val_length]; exact hul, hadj, d, d + 1, ?_, ?_, le_refl _⟩
      · rw [hval, if_neg huw]; exact hu
      · rw [hval, if_pos rfl]
    · obtain ⟨h1, h2, h3, dp, dv, hdp, hdv, hlt⟩ := hI.parent v p hp
      obtain ⟨dp', hdp', hle'⟩ := hshrink p dp hdp
      refine ⟨h1, h2, h3, dp', dv, hdp', ?_, by omega⟩
      rw [hval, if_neg hv]; exact hdv
  · -- has_parent
    intro v e he hv
    rw [hpar]
    split <;> rename_i hvw
    · exact ⟨u, rfl⟩
    · rw [hval, if_neg hvw] at he
      exact hI.has_parent v e he hv
  · -- queue
    intro q hq
    rw [List.mem_cons] at hq
    rcases hq with rfl | hq
    · exact ⟨hw, d + 1, by rw [hval, if_pos rfl], le_refl _⟩
    · obtain ⟨h1, x, hx, hle'⟩ := hI.queue q hq
      obtain ⟨y, hy, hxy⟩ := hshrink q.node x hx
      exact ⟨h1, y, hy, by omega⟩
  · -- relaxed
    intro x e y hx hy hxy
    rw [hval] at hx
    split at hx <;> rename_i hxw
    · cases hx; subst hxw; exact Or.inl List.mem_cons_self
    · refine relaxed_settle ?_ ?_
      · rintro rfl rfl
        rw [hu] at hx; cases hx
        exact ⟨d + 1, by rw [hval, if_pos rfl], le_refl _⟩
      · refine (hI.relaxed x e y hx hy hxy).imp (List.mem_cons_of_mem _) (Or.imp_right ?_)
        rintro ⟨dy, hdy, hle'⟩
        obtain ⟨z, hz, hzd⟩ := hshrink y dy hdy
        exact ⟨z, hz, by omega⟩
  · -- walk
    intro v e he
    rw [hval] at he
    split at he <;> rename_i hv
    · cases he; subst hv; exact .step (hI.walk u d hu) hw hadj
    · exact hI.walk v e he
  · -- small
    intro v e he
    rw [hval] at he
    rw [labelled_set _ hwl]
    split at he <;> rename_i hv
    · cases he
      have h1 := hI.small u d hu
      split <;> rename_i hold
      · omega
      · obtain ⟨dw, hdw⟩ := Option.ne_none_iff_exists'.mp hold
        have h2 := hI.small w dw hdw
        have h3 := hle dw hdw
        omega
    · exact lt_of_lt_of_le (hI.small v e he) (Nat.le_add_right _ _)

/-- A label is below the number of vertices, so it costs less than having none. -/
theorem SearchInv.lt_cost {g : Network T} {src u w : Nat} {pending : Nat → Nat → Prop} {s : Search}
    {d : Nat} (hI : g.SearchInv src pending s) (hu : s.val.getD u none = some d)
    (hw : w < g.links.n) (hc : shorter (d + 1) (s.val.getD w none) = true) :
    d + 1 < cost g.links.n (s.val.getD w none) := by
  cases hold : s.val.getD w none with
  | none =>
    -- `u` has a label below the number of labels, and `w` has none.
    have h1 := hI.small u d hu
    have h2 := labelled_set 0 (show w < s.val.length by rw [hI.val_length]; exact hw)
    rw [if_pos hold] at h2
    have h3 := labelled_le (s.val.set w (some 0))
    rw [List.length_set, hI.val_length] at h3
    simp only [cost]; omega
  | some dw => rw [hold] at hc; simpa [shorter, cost] using hc

theorem SearchInv.settled {g : Network T} {src u w : Nat} {pending : Nat → Nat → Prop} {s : Search}
    {d : Nat} (hI : g.SearchInv src pending s) (hu : s.val.getD u none = some d)
    (hc : shorter (d + 1) (s.val.getD w none) = false) :
    g.SearchInv src (fun x y => pending x y ∧ ¬ (x = u ∧ y = w)) s := by
  refine ⟨hI.val_length, hI.parents_length, hI.source, hI.parent, hI.has_parent, hI.queue, ?_,
    hI.walk, hI.small⟩
  intro x e y hx hy hxy
  refine relaxed_settle ?_ (hI.relaxed x e y hx hy hxy)
  rintro rfl rfl
  rw [hu] at hx; cases hx
  cases hold : s.val.getD y none with
  | none => rw [hold] at hc; simp [shorter] at hc
  | some dy => rw [hold] at hc; exact ⟨dy, rfl, by simpa [shorter] using hc⟩

/-- Relaxing one link takes it off `pending`, and the measure does not grow. -/
theorem shortestRelax_spec {g : Network T} {src u w : Nat} {pending : Nat → Nat → Prop} {s : Search}
    {d : Nat} (hI : g.SearchInv src pending s) (hu : s.val.getD u none = some d)
    (hw : w < g.links.n) (hadj : g.adj u w = true) :
    Returns (shortestRelax u s w) fun s' =>
      g.SearchInv src (fun x y => pending x y ∧ ¬ (x = u ∧ y = w)) s' ∧
        s'.val.getD u none = some d ∧
        searchMeasure g.links.n s' ≤ searchMeasure g.links.n s := by
  have hul : u < s.val.length := lt_of_label hu
  have hwl : w < s.val.length := by rw [hI.val_length]; exact hw
  obtain ⟨-, huw⟩ := adj_iff.mp hadj
  unfold shortestRelax
  rw [get_getD none hul, hu]
  simp only [bind_ok, unwrap_some]
  rw [get_getD none hwl, bind_ok]
  split <;> rename_i hc
  · have hlt := hI.lt_cost hu hw hc
    have hle : ∀ dw, s.val.getD w none = some dw → d + 1 < dw := by
      intro dw h; rw [h] at hlt; exact hlt
    rw [set_eq hwl, bind_ok, set_eq (by rw [hI.parents_length]; exact hw), bind_ok, returns_pure]
    refine ⟨hI.improve hu hw hadj hle, ?_, ?_⟩
    · rw [getD_set _ _ _ _ _ hwl, if_neg huw]; exact hu
    · have h1 := sum_map_set (cost g.links.n) (some (d + 1)) hwl
      simp only [searchMeasure, List.length_cons]
      simp only [cost] at h1 hlt
      omega
  · rw [returns_pure]
    exact ⟨hI.settled hu (Bool.eq_false_of_not_eq_true hc), hu, le_refl _⟩

theorem SearchInv.mono {g : Network T} {src : Nat} {pending pending' : Nat → Nat → Prop} {s : Search}
    (hI : g.SearchInv src pending s)
    (h : ∀ x y, y < g.links.n → g.adj x y = true → pending x y → pending' x y) :
    g.SearchInv src pending' s := by
  refine ⟨hI.val_length, hI.parents_length, hI.source, hI.parent, hI.has_parent, hI.queue, ?_,
    hI.walk, hI.small⟩
  intro u d w hu hw hadj
  exact (hI.relaxed u d w hu hw hadj).imp_right (Or.imp_left (h u w hw hadj))

theorem SearchInv.pop {g : Network T} {src d : Nat} {s : Search} {vert : Pair}
    (hI : g.SearchInv src (fun _ _ => False) s) (hd : s.val.getD vert.node none = some d) :
    g.SearchInv src (fun x _ => x = vert.node ∧ vert.val = d) { s with toVisit := s.toVisit.erase vert } where
  val_length := hI.val_length
  parents_length := hI.parents_length
  source := hI.source
  parent := hI.parent
  has_parent := hI.has_parent
  queue := fun q hq => hI.queue q (List.mem_of_mem_erase hq)
  relaxed := fun u e w hu hw hadj => relaxed_pop hd hu (hI.relaxed u e w hu hw hadj)
  walk := hI.walk
  small := hI.small

/-- What the search gives: exact distances, and parents one link closer to the source. -/
structure ShortestTree (g : Network T) (src : Nat) (dist parents : List (Option Nat)) : Prop where
  dist_length : dist.length = g.links.n
  parents_length : parents.length = g.links.n
  source : dist.getD src none = some 0
  parent : ∀ v p, parents.getD v none = some p → v < g.links.n ∧ p < g.links.n ∧ g.adj p v = true ∧
    ∃ d, dist.getD p none = some d ∧ dist.getD v none = some (d + 1)
  has_parent : ∀ v d, dist.getD v none = some d → v ≠ src → ∃ p, parents.getD v none = some p
  walk : ∀ v d, dist.getD v none = some d → g.Walk src v d
  least : ∀ v len, g.Walk src v len → ∃ d, dist.getD v none = some d ∧ d ≤ len
  dist_lt : ∀ v d, dist.getD v none = some d → d < g.links.n

theorem SearchInv.tree {g : Network T} {src : Nat} {s : Search}
    (hI : g.SearchInv src (fun _ _ => False) s) (hq : s.toVisit = []) :
    g.ShortestTree src s.val s.parents := by
  have hrelaxed : ∀ u d w, s.val.getD u none = some d → w < g.links.n → g.adj u w = true →
      ∃ dw, s.val.getD w none = some dw ∧ dw ≤ d + 1 := by
    intro u d w hu hw hadj
    rcases hI.relaxed u d w hu hw hadj with h | h | h
    · rw [hq] at h; simp at h
    · exact h.elim
    · exact h
  refine ⟨hI.val_length, hI.parents_length, hI.source, ?_, hI.has_parent, hI.walk, ?_, ?_⟩
  · intro v p hp
    obtain ⟨h1, h2, h3, dp, dv, hdp, hdv, hle⟩ := hI.parent v p hp
    obtain ⟨dv', hdv', hle'⟩ := hrelaxed p dp v hdp h1 h3
    rw [hdv] at hdv'; cases hdv'
    exact ⟨h1, h2, h3, dp, hdp, by rw [hdv]; congr 1; omega⟩
  · intro v len hw
    induction hw with
    | refl => exact ⟨0, hI.source, le_refl _⟩
    | step _ hk hadj ih =>
      obtain ⟨d, hd, hle⟩ := ih
      obtain ⟨dw, hdw, hle'⟩ := hrelaxed _ d _ hd hk hadj
      exact ⟨dw, hdw, by omega⟩
  · intro v d hd
    have h1 := hI.small v d hd
    have h2 := labelled_le s.val
    rw [hI.val_length] at h2
    omega

theorem shortestRound_spec {g : Network T} {src : Nat} {s : Search}
    (hI : g.SearchInv src (fun _ _ => False) s) :
    Returns (g.shortestRound s) (Round (g.SearchInv src fun _ _ => False) (searchMeasure g.links.n)
      (fun r => g.ShortestTree src r.1 r.2) s) := by
  unfold shortestRound
  cases hpop : heapPop s.toVisit with
  | none =>
    simp only [returns_pure]
    exact hI.tree (heapPop_eq_none.mp hpop)
  | some r =>
    obtain ⟨vert, rest⟩ := r
    obtain ⟨hmem, rfl⟩ := heapPop_spec hpop
    obtain ⟨hlt, d, hd, hle⟩ := hI.queue vert hmem
    have hlen : (s.toVisit.erase vert).length + 1 = s.toVisit.length := List.length_erase_add_one hmem
    have hrest := hI.pop hd
    simp only
    rw [get_getD none (by rw [hI.val_length]; exact hlt), hd, bind_ok, unwrap_some, bind_ok]
    split <;> rename_i hval
    · rw [returns_pure]
      refine ⟨hrest.mono fun x y _ _ h => by omega, ?_⟩
      simp only [searchMeasure]; omega
    · rw [neighbours_eq g hlt, bind_ok]
      have hfold := relaxAll_spec
        (fun pending s' => g.SearchInv src pending s' ∧ s'.val.getD vert.node none = some d ∧
          searchMeasure g.links.n s' ≤ searchMeasure g.links.n { s with toVisit := s.toVisit.erase vert })
        (fun _ _ _ h hI' => ⟨hI'.1.mono h, hI'.2⟩)
        (fun _ _ w hw hadj hI' => (shortestRelax_spec hI'.1 hI'.2.1 hw hadj).mono fun _ h =>
          ⟨h.1, h.2.1, le_trans h.2.2 hI'.2.2⟩)
        ⟨hrest.mono fun x y _ _ h => h.1, hd, le_refl _⟩
      refine hfold.bind fun s' hs' => ?_
      rw [returns_pure]
      refine ⟨hs'.1, ?_⟩
      have := hs'.2.2
      simp only [searchMeasure] at this ⊢
      omega

theorem getD_replicate_none {n v : Nat} : (List.replicate n (none : Option Nat)).getD v none = none := by
  simp only [List.getD_eq_getElem?_getD, List.getElem?_replicate]
  split <;> rfl

def searchStart (n src : Nat) : Search :=
  ⟨(List.replicate n none).set src (some 0), List.replicate n none, [⟨src, 0⟩]⟩

theorem searchStart_inv (g : Network T) {src : Nat} (hsrc : src < g.links.n) :
    g.SearchInv src (fun _ _ => False) (searchStart g.links.n src) := by
  have hlen : src < (List.replicate g.links.n (none : Option Nat)).length := by simpa using hsrc
  have hval : ∀ v, ((List.replicate g.links.n none).set src (some 0)).getD v none =
      if v = src then some 0 else none := by
    intro v; rw [getD_set _ _ _ _ _ hlen, getD_replicate_none]
  refine ⟨by simp [searchStart], by simp [searchStart], by rw [searchStart, hval, if_pos rfl],
    ?_, ?_, ?_, ?_, ?_, ?_⟩
  · intro v p hp; rw [searchStart, getD_replicate_none] at hp; cases hp
  · intro v d hd hv; rw [searchStart, hval, if_neg hv] at hd; cases hd
  · intro q hq
    rw [searchStart, List.mem_singleton] at hq
    subst hq
    exact ⟨hsrc, 0, by rw [searchStart, hval, if_pos rfl], le_refl _⟩
  · intro u d w hu _ _
    rw [searchStart, hval] at hu
    split at hu <;> rename_i h
    · cases hu; subst h; exact Or.inl (by simp [searchStart])
    · cases hu
  · intro v d hd
    rw [searchStart, hval] at hd
    split at hd <;> rename_i h
    · cases hd; subst h; exact .refl hsrc
    · cases hd
  · intro v d hd
    rw [searchStart, hval] at hd
    split at hd
    · cases hd
      rw [searchStart, labelled_set 0 hlen, getD_replicate_none, if_pos rfl]; omega
    · cases hd

theorem shortestPath_eq (g : Network T) {src : Nat} (hsrc : src < g.links.n) :
    g.shortestPath src =
      loop (2 * (g.links.n * g.links.n) + 2) g.shortestRound (searchStart g.links.n src) := by
  unfold shortestPath
  simp only [SymMatrix.size]
  rw [set_eq (by simpa using hsrc), bind_ok]
  rfl

theorem shortestPath_spec (g : Network T) {src : Nat} (hsrc : src < g.links.n) :
    Returns (g.shortestPath src) fun r => g.ShortestTree src r.1 r.2 := by
  rw [g.shortestPath_eq hsrc]
  refine Returns.loop (g.SearchInv src fun _ _ => False) (searchMeasure g.links.n)
    (g.searchStart_inv hsrc) ?_ fun s hI => shortestRound_spec hI
  have hlen : src < (List.replicate g.links.n (none : Option Nat)).length := by simpa using hsrc
  have h1 := sum_map_set (cost g.links.n) (some 0) hlen
  have h2 : ((List.replicate g.links.n none).map (cost g.links.n)).sum = g.links.n * g.links.n := by
    simp [cost]
  rw [getD_replicate_none, h2] at h1
  simp only [searchMeasure, searchStart, List.length_singleton]
  simp only [cost] at h1
  omega

end Network

end Kollaps
