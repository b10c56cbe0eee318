import Kollaps.Netgraph.ShortestPath

/-!
# The widest path search

`widest_path` labels every vertex with the best bandwidth of a walk from the source. A
vertex may be labelled many times, but each time with the bandwidth of some link, and a
greater one. The parents stay without a cycle: a vertex that gets a wider label is not on
the way to the vertex that gives it.
-/

namespace Kollaps

open Run

namespace Network

variable {T : Type} [Vertex T]

def band (g : Network T) (i j : Nat) : Nat :=
  match g.links.entry i j with
  | some l => l.bandwidth
  | none => 0

theorem band_comm (g : Network T) (i j : Nat) : g.band i j = g.band j i := by
  rw [band, g.links.entry_comm, ← band]

theorem Wf.band_le {g : Network T} (h : g.Wf) {i j : Nat} (hi : i < g.links.n) (hj : j < g.links.n) :
    g.band i j ≤ u32Max := by
  unfold band
  cases hl : g.links.entry i j with
  | none => exact Nat.zero_le _
  | some l =>
    simp only [h.bandwidth hi hj hl]
    exact (h.full i j l hi hj hl).2

inductive WideWalk (g : Network T) : Nat → Nat → Nat → Prop where
  | refl {i : Nat} : i < g.links.n → WideWalk g i i u32Max
  | step {i j k b : Nat} : WideWalk g i j b → k < g.links.n → g.adj j k = true →
      WideWalk g i k (min b (g.band j k))

def levels (g : Network T) : List Nat := u32Max :: g.links.data.filterMap fun l => l.map Link.bandwidth

def levelsAbove (g : Network T) : Option Nat → Nat
  | none => g.levels.length
  | some b => (g.levels.filter fun x => b < x).length

theorem band_mem_levels {g : Network T} {i j : Nat} (hi : i < g.links.n) (hj : j < g.links.n)
    (h : g.adj i j = true) : g.band i j ∈ g.levels := by
  obtain ⟨⟨l, hl⟩, -⟩ := adj_iff.mp h
  refine List.mem_cons_of_mem _ (List.mem_filterMap.mpr ⟨some l, ?_, ?_⟩)
  · have := get_eq_ok.mp (g.links.index_eq hi hj)
    rw [hl] at this
    exact List.mem_of_getElem? this
  · rw [band, hl]; rfl

theorem length_levels_le (g : Network T) : g.levels.length ≤ g.links.n * g.links.n + 1 := by
  have h1 := List.length_filterMap_le (fun l : Option (Link T) => l.map Link.bandwidth) g.links.data
  have h2 := SymMatrix.two_mul_rowStart g.links.n g.links.n (le_refl _)
  rw [g.links.size_data, SymMatrix.sizeVec_eq] at h1
  have h3 : g.links.n ≤ g.links.n * g.links.n := Nat.le_mul_self _
  have h4 : g.links.n * (2 * g.links.n + 1) = 2 * (g.links.n * g.links.n) + g.links.n := by
    rw [Nat.mul_add, Nat.mul_one, Nat.mul_left_comm]
  simp only [levels, List.length_cons]
  omega

theorem levelsAbove_lt {g : Network T} {b : Nat} {old : Option Nat} (hb : b ∈ g.levels)
    (h : wider b old = true) : g.levelsAbove (some b) < g.levelsAbove old := by
  cases old with
  | none => exact List.length_filter_lt_length_iff_exists.mpr ⟨b, hb, by simp⟩
  | some a =>
    have hab : a < b := by simpa [wider] using h
    have hsub : (g.levels.filter fun x => b < x) =
      (g.levels.filter fun x => a < x).filter fun x => b < x := by
      rw [List.filter_filter]
      apply List.filter_congr
      intro x _
      rw [Bool.eq_iff_iff]
      simp only [decide_eq_true_eq, Bool.and_eq_true]
      omega
    simp only [levelsAbove]
    rw [hsub]
    exact List.length_filter_lt_length_iff_exists.mpr ⟨b, by simp [hb, hab], by simp⟩

/-- The invariant of the search. A link in `pending` need not be relaxed yet. -/
structure WidestInv (g : Network T) (src : Nat) (pending : Nat → Nat → Prop) (s : Search) : Prop where
  val_length : s.val.length = g.links.n
  parents_length : s.parents.length = g.links.n
  source : s.val.getD src none = some u32Max
  root : s.parents.getD src none = none
  parent : ∀ v p, s.parents.getD v none = some p → v < g.links.n ∧ p < g.links.n ∧ g.adj p v = true ∧
    ∃ bp bv, s.val.getD p none = some bp ∧ s.val.getD v none = some bv ∧ bv ≤ min bp (g.band p v)
  has_parent : ∀ v b, s.val.getD v none = some b → v ≠ src → ∃ p, s.parents.getD v none = some p
  acyclic : ∀ v, Acc (fun p v => s.parents.getD v none = some p) v
  queue : ∀ q ∈ s.toVisit, q.node < g.links.n ∧ ∃ b, s.val.getD q.node none = some b ∧ q.val ≤ b
  relaxed : ∀ u b w, s.val.getD u none = some b → w < g.links.n → g.adj u w = true →
    ⟨u, b⟩ ∈ s.toVisit ∨ pending u w ∨ ∃ bw, s.val.getD w none = some bw ∧ min b (g.band u w) ≤ bw
  walk : ∀ v b, s.val.getD v none = some b → g.WideWalk src v b
  level : ∀ v b, s.val.getD v none = some b → b ∈ g.levels ∧ b ≤ u32Max

def widestMeasure (g : Network T) (s : Search) : Nat :=
  s.toVisit.length + (s.val.map g.levelsAbove).sum

/-- A new parent that is wider than the old label of its child closes no cycle. -/
theorem acyclic_set {val parents : List (Option Nat)} {u w b : Nat} (hw : w < parents.length)
    (hacc : ∀ v, Acc (fun p v => parents.getD v none = some p) v)
    (hle : ∀ v p, parents.getD v none = some p → ∃ bp bv, val.getD p none = some bp ∧
      val.getD v none = some bv ∧ bv ≤ bp)
    (hu : val.getD u none = some b) (hwide : wider b (val.getD w none) = true) (v : Nat) :
    Acc (fun p v => (parents.set w (some u)).getD v none = some p) v := by
  -- A vertex wider than `w` has only ancestors wider than `w`.
  have habove : ∀ x, Acc (fun p v => parents.getD v none = some p) x → ∀ bx, val.getD x none = some bx →
      wider bx (val.getD w none) = true →
      Acc (fun p v => (parents.set w (some u)).getD v none = some p) x := by
    intro x hx
    induction hx with
    | intro x _ ih =>
      intro bx hbx hwx
      have hxw : x ≠ w := by
        rintro rfl
        rw [hbx] at hwx
        simp [wider] at hwx
      refine ⟨x, fun p hp => ?_⟩
      rw [getD_set _ _ _ _ _ hw, if_neg hxw] at hp
      obtain ⟨bp, bx', hbp, hbx', hlt⟩ := hle x p hp
      rw [hbx] at hbx'; cases hbx'
      refine ih p hp bp hbp ?_
      cases hwl : val.getD w none with
      | none => rfl
      | some bw =>
        rw [hwl] at hwx
        simp only [wider, decide_eq_true_eq] at hwx ⊢
        omega
  have hnode := habove u (hacc u) b hu hwide
  induction hacc v with
  | intro x _ ih =>
    refine ⟨x, fun p hp => ?_⟩
    rw [getD_set _ _ _ _ _ hw] at hp
    split at hp
    · cases hp; exact hnode
    · exact ih p hp

theorem WidestInv.level_min {g : Network T} {src u w : Nat} {pending : Nat → Nat → Prop}
    {s : Search} {b : Nat}
    (hI : g.WidestInv src pending s) (hu : s.val.getD u none = some b) (hw : w < g.links.n)
    (hadj : g.adj u w = true) : min b (g.band u w) ∈ g.levels ∧ min b (g.band u w) ≤ u32Max := by
  have hun : u < g.links.n := by rw [← hI.val_length]; exact lt_of_label hu
  obtain ⟨hlevel, hmax⟩ := hI.level u b hu
  refine ⟨?_, le_trans (Nat.min_le_left _ _) hmax⟩
  rcases Nat.le_total b (g.band u w) with h | h
  · rw [Nat.min_eq_left h]; exact hlevel
  · rw [Nat.min_eq_right h]; exact band_mem_levels hun hw hadj

/-- The new entry of the queue is paid for by the levels that the wider label leaves behind. -/
theorem widestMeasure_set {g : Network T} {s : Search} {w b : Nat} (parents : List (Option Nat))
    (hw : w < s.val.length) (hb : b ∈ g.levels) (hc : wider b (s.val.getD w none) = true) :
    g.widestMeasure ⟨s.val.set w (some b), parents, ⟨w, b⟩ :: s.toVisit⟩ ≤ g.widestMeasure s := by
  have hsum := sum_map_set g.levelsAbove (some b) hw
  have hless := levelsAbove_lt hb hc
  simp only [widestMeasure, List.length_cons]
  omega

theorem WidestInv.improve {g : Network T} {src u w : Nat} {pending : Nat → Nat → Prop} {s : Search}
    {b cur : Nat} (hI : g.WidestInv src pending s) (hu : s.val.getD u none = some b)
    (hw : w < g.links.n) (hadj : g.adj u w = true) (hcur : cur = min b (g.band u w))
    (hc : wider cur (s.val.getD w none) = true) :
    g.WidestInv src (fun x y => pending x y ∧ ¬ (x = u ∧ y = w))
        ⟨s.val.set w (some cur), s.parents.set w (some u), ⟨w, cur⟩ :: s.toVisit⟩ ∧
      (s.val.set w (some cur)).getD u none = some b ∧
      g.widestMeasure ⟨s.val.set w (some cur), s.parents.set w (some u), ⟨w, cur⟩ :: s.toVisit⟩ ≤
        g.widestMeasure s := by
  have hun : u < g.links.n := by rw [← hI.val_length]; exact lt_of_label hu
  have hwl : w < s.val.length := by rw [hI.val_length]; exact hw
  have hwp : w < s.parents.length := by rw [hI.parents_length]; exact hw
  obtain ⟨-, huw⟩ := adj_iff.mp hadj
  have hlt : ∀ bw, s.val.getD w none = some bw → bw < cur := by
    intro bw h; rw [h] at hc; simpa [wider] using hc
  have hlevel : cur ∈ g.levels ∧ cur ≤ u32Max := hcur ▸ hI.level_min hu hw hadj
  have hsrc : w ≠ src := by
    rintro rfl
    have := hlt _ hI.source
    have := hlevel.2
    omega
  have hval : ∀ j, (s.val.set w (some cur)).getD j none =
      if j = w then some cur else s.val.getD j none := fun j => getD_set _ _ _ _ _ hwl
  have hpar : ∀ j, (s.parents.set w (some u)).getD j none =
      if j = w then some u else s.parents.getD j none := fun j => getD_set _ _ _ _ _ hwp
  -- Labels only grow.
  have hgrow : ∀ v x, s.val.getD v none = some x →
      ∃ y, (s.val.set w (some cur)).getD v none = some y ∧ x ≤ y :=
    label_set (· ≥ ·) hwl Nat.le_refl fun x hx => le_of_lt (hlt x hx)
  refine ⟨⟨?_, ?_, ?_, ?_, ?_, ?_, ?_, ?_, ?_, ?_, ?_⟩, ?_, ?_⟩
  · rw [List.length_set]; exact hI.val_length
  · rw [List.length_set]; exact hI.parents_length
  · rw [hval, if_neg hsrc.symm]; exact hI.source
  · rw [hpar, if_neg hsrc.symm]; exact hI.root
  · -- parent
    intro v p hp
    rw [hpar] at hp
    split at hp <;> rename_i hv
    · cases hp; subst hv
      refine ⟨hw, hun, hadj, b, cur, ?_, ?_, le_of_eq hcur⟩
      · rw [hval, if_neg huw]; exact hu
      · rw [hval, if_pos rfl]
    · obtain ⟨h1, h2, h3, bp, bv, hbp, hbv, hle⟩ := hI.parent v p hp
      obtain ⟨bp', hbp', hle'⟩ := hgrow p bp hbp
      refine ⟨h1, h2, h3, bp', bv, hbp', ?_, by omega⟩
      rw [hval, if_neg hv]; exact hbv
  · -- has_parent
    intro v x hx hv
    rw [hpar]
    split <;> rename_i hvw
    · exact ⟨u, rfl⟩
    · rw [hval, if_neg hvw] at hx
      exact hI.has_parent v x hx hv
  · -- acyclic
    refine acyclic_set hwp hI.acyclic ?_ hu ?_
    · intro v p hp
      obtain ⟨-, -, -, bp, bv, hbp, hbv, hle⟩ := hI.parent v p hp
      exact ⟨bp, bv, hbp, hbv, by omega⟩
    · cases hold : s.val.getD w none with
      | none => rfl
      | some bw =>
        have := hlt bw hold
        simp only [wider, decide_eq_true_eq]
        omega
  · -- queue
    intro q hq
    rw [List.mem_cons] at hq
    rcases hq with rfl | hq
    · exact ⟨hw, cur, by rw [hval, if_pos rfl], le_refl _⟩
    · obtain ⟨h1, x, hx, hle⟩ := hI.queue q hq
      obtain ⟨y, hy, hxy⟩ := hgrow q.node x hx
      exact ⟨h1, y, hy, by omega⟩
  · -- relaxed
    intro x e y hx hy hxy
    rw [hval] at hx
    split at hx <;> rename_i hxw
    · cases hx; subst hxw; exact Or.inl List.mem_cons_self
    · refine relaxed_settle ?_ ?_
      · rintro rfl rfl
        rw [hu] at hx; cases hx
        exact ⟨cur, by rw [hval, if_pos rfl], le_of_eq hcur.symm⟩
      · refine (hI.relaxed x e y hx hy hxy).imp (List.mem_cons_of_mem _) (Or.imp_right ?_)
        rintro ⟨bw, hbw, hle⟩
        obtain ⟨z, hz, hbz⟩ := hgrow y bw hbw
        exact ⟨z, hz, by omega⟩
  · -- walk
    intro v x hx
    rw [hval] at hx
    split at hx <;> rename_i hv
    · cases hx; subst hv; rw [hcur]; exact .step (hI.walk u b hu) hw hadj
    · exact hI.walk v x hx
  · -- level
    intro v x hx
    rw [hval] at hx
    split at hx <;> rename_i hv
    · cases hx; exact hlevel
    · exact hI.level v x hx
  · rw [hval, if_neg huw]; exact hu
  · exact widestMeasure_set _ hwl hlevel.1 hc

theorem widestRelax_spec {g : Network T} {src u w : Nat} {pending : Nat → Nat → Prop} {s : Search}
    {b : Nat} (hI : g.WidestInv src pending s) (hu : s.val.getD u none = some b)
    (hw : w < g.links.n) (hadj : g.adj u w = true) :
    Returns (g.widestRelax u s w) fun s' =>
      g.WidestInv src (fun x y => pending x y ∧ ¬ (x = u ∧ y = w)) s' ∧
        s'.val.getD u none = some b ∧ g.widestMeasure s' ≤ g.widestMeasure s := by
  have hul : u < s.val.length := lt_of_label hu
  have hun : u < g.links.n := by rw [← hI.val_length]; exact hul
  have hwl : w < s.val.length := by rw [hI.val_length]; exact hw
  have hwp : w < s.parents.length := by rw [hI.parents_length]; exact hw
  obtain ⟨⟨l, hl⟩, -⟩ := adj_iff.mp hadj
  have hband : g.band u w = l.bandwidth := by rw [band, hl]
  unfold widestRelax
  rw [g.links.index_eq hun hw, hl, get_getD none hul, hu]
  simp only [bind_ok, unwrap_some]
  rw [get_getD none hwl, bind_ok, ← hband]
  cases hold : s.val.getD w none with
  | none =>
    simp only [wider, if_true]
    rw [set_eq hwl, bind_ok, set_eq hwp, bind_ok, returns_pure]
    exact hI.improve hu hw hadj rfl (by rw [hold]; rfl)
  | some bw =>
    simp only [wider, decide_eq_true_eq]
    split <;> rename_i hc
    · have hmax : max bw (min b (g.band u w)) = min b (g.band u w) := by omega
      rw [hmax, set_eq hwl, bind_ok, set_eq hwp, bind_ok, returns_pure]
      exact hI.improve hu hw hadj rfl (by rw [hold]; simp only [wider, decide_eq_true_eq]; omega)
    · -- The label stays, so the link is relaxed already.
      rw [returns_pure]
      refine ⟨⟨hI.val_length, hI.parents_length, hI.source, hI.root, hI.parent, hI.has_parent,
        hI.acyclic, hI.queue, ?_, hI.walk, hI.level⟩, hu, le_refl _⟩
      intro x e y hx hy hxy
      refine relaxed_settle ?_ (hI.relaxed x e y hx hy hxy)
      rintro rfl rfl
      rw [hu] at hx; cases hx
      exact ⟨bw, hold, by omega⟩

theorem WidestInv.mono {g : Network T} {src : Nat} {pending pending' : Nat → Nat → Prop} {s : Search}
    (hI : g.WidestInv src pending s)
    (h : ∀ x y, y < g.links.n → g.adj x y = true → pending x y → pending' x y) :
    g.WidestInv src pending' s := by
  refine ⟨hI.val_length, hI.parents_length, hI.source, hI.root, hI.parent, hI.has_parent,
    hI.acyclic, hI.queue, ?_, hI.walk, hI.level⟩
  intro u b w hu hw hadj
  exact (hI.relaxed u b w hu hw hadj).imp_right (Or.imp_left (h u w hw hadj))

theorem WidestInv.pop {g : Network T} {src b : Nat} {s : Search} {vert : Pair}
    (hI : g.WidestInv src (fun _ _ => False) s) (hb : s.val.getD vert.node none = some b) :
    g.WidestInv src (fun x _ => x = vert.node ∧ vert.val = b) { s with toVisit := s.toVisit.erase vert } where
  val_length := hI.val_length
  parents_length := hI.parents_length
  source := hI.source
  root := hI.root
  parent := hI.parent
  has_parent := hI.has_parent
  acyclic := hI.acyclic
  queue := fun q hq => hI.queue q (List.mem_of_mem_erase hq)
  relaxed := fun u e w hu hw hadj => relaxed_pop hb hu (hI.relaxed u e w hu hw hadj)
  walk := hI.walk
  level := hI.level

/-- What the search gives: the best bandwidths, and parents on walks that have them. -/
structure WidestTree (g : Network T) (src : Nat) (bandwidths parents : List (Option Nat)) : Prop where
  val_length : bandwidths.length = g.links.n
  parents_length : parents.length = g.links.n
  source : bandwidths.getD src none = some u32Max
  root : parents.getD src none = none
  parent : ∀ v p, parents.getD v none = some p → v < g.links.n ∧ p < g.links.n ∧ g.adj p v = true ∧
    ∃ bp, bandwidths.getD p none = some bp ∧ bandwidths.getD v none = some (min bp (g.band p v))
  has_parent : ∀ v b, bandwidths.getD v none = some b → v ≠ src → ∃ p, parents.getD v none = some p
  acyclic : ∀ v, Acc (fun p v => parents.getD v none = some p) v
  walk : ∀ v b, bandwidths.getD v none = some b → g.WideWalk src v b
  widest : ∀ v b, g.WideWalk src v b → ∃ b', bandwidths.getD v none = some b' ∧ b ≤ b'

theorem WidestInv.tree {g : Network T} {src : Nat} {s : Search}
    (hI : g.WidestInv src (fun _ _ => False) s) (hq : s.toVisit = []) :
    g.WidestTree src s.val s.parents := by
  have hrelaxed : ∀ u b w, s.val.getD u none = some b → w < g.links.n → g.adj u w = true →
      ∃ bw, s.val.getD w none = some bw ∧ min b (g.band u w) ≤ bw := by
    intro u b w hu hw hadj
    rcases hI.relaxed u b w hu hw hadj with h | h | h
    · rw [hq] at h; simp at h
    · exact h.elim
    · exact h
  refine ⟨hI.val_length, hI.parents_length, hI.source, hI.root, ?_, hI.has_parent, hI.acyclic,
    hI.walk, ?_⟩
  · intro v p hp
    obtain ⟨h1, h2, h3, bp, bv, hbp, hbv, hle⟩ := hI.parent v p hp
    obtain ⟨bv', hbv', hle'⟩ := hrelaxed p bp v hbp h1 h3
    rw [hbv] at hbv'; cases hbv'
    exact ⟨h1, h2, h3, bp, hbp, by rw [hbv, le_antisymm hle hle']⟩
  · intro v b hw
    induction hw with
    | refl => exact ⟨u32Max, hI.source, le_refl _⟩
    | step _ hk hadj ih =>
      obtain ⟨b', hb', hle⟩ := ih
      obtain ⟨bw, hbw, hle'⟩ := hrelaxed _ b' _ hb' hk hadj
      exact ⟨bw, hbw, by omega⟩

theorem widestRound_spec {g : Network T} {src : Nat} {s : Search}
    (hI : g.WidestInv src (fun _ _ => False) s) :
    Returns (g.widestRound s) (Round (g.WidestInv src fun _ _ => False) g.widestMeasure
      (fun r => g.WidestTree src r.1 r.2) s) := by
  unfold widestRound
  cases hpop : heapPop s.toVisit with
  | none =>
    simp only [returns_pure]
    exact hI.tree (heapPop_eq_none.mp hpop)
  | some r =>
    obtain ⟨vert, rest⟩ := r
    obtain ⟨hmem, rfl⟩ := heapPop_spec hpop
    obtain ⟨hlt, b, hb, hle⟩ := hI.queue vert hmem
    have hlen : (s.toVisit.erase vert).length + 1 = s.toVisit.length := List.length_erase_add_one hmem
    have hrest := hI.pop hb
    simp only
    rw [get_getD none (by rw [hI.val_length]; exact hlt), hb, bind_ok]
    simp only [decide_eq_true_eq]
    split <;> rename_i hval
    · rw [returns_pure]
      refine ⟨hrest.mono fun x y _ _ h => by omega, ?_⟩
      simp only [widestMeasure]; omega
    · rw [neighbours_eq g hlt, bind_ok]
      have hfold := relaxAll_spec
        (fun pending s' => g.WidestInv src pending s' ∧ s'.val.getD vert.node none = some b ∧
          g.widestMeasure s' ≤ g.widestMeasure { s with toVisit := s.toVisit.erase vert })
        (fun _ _ _ h hI' => ⟨hI'.1.mono h, hI'.2⟩)
        (fun _ _ w hw hadj hI' => (widestRelax_spec hI'.1 hI'.2.1 hw hadj).mono fun _ h =>
          ⟨h.1, h.2.1, le_trans h.2.2 hI'.2.2⟩)
        ⟨hrest.mono fun x y _ _ h => h.1, hb, le_refl _⟩
      refine hfold.bind fun s' hs' => ?_
      rw [returns_pure]
      refine ⟨hs'.1, ?_⟩
      have := hs'.2.2
      simp only [widestMeasure] at this ⊢
      omega

theorem sum_replicate_set_le (g : Network T) {src : Nat} (h : src < g.links.n) :
    (((List.replicate g.links.n none).set src (some u32Max)).map g.levelsAbove).sum ≤
      g.links.n * (g.links.n * g.links.n + 1) := by
  have hlen : src < (List.replicate g.links.n (none : Option Nat)).length := by simpa using h
  have h1 := sum_map_set g.levelsAbove (some u32Max) hlen
  have h2 : g.levelsAbove (some u32Max) ≤ g.levelsAbove none := List.length_filter_le _ _
  have h3 : ((List.replicate g.links.n none).map g.levelsAbove).sum = g.links.n * g.levels.length := by
    simp [levelsAbove]
  have h4 := Nat.mul_le_mul_left g.links.n g.length_levels_le
  rw [getD_replicate_none] at h1
  omega

theorem widestPath_spec (g : Network T) {src : Nat} (hsrc : src < g.links.n) :
    Returns (g.widestPath src) fun r => g.WidestTree src r.1 r.2 := by
  unfold widestPath
  simp only [SymMatrix.size]
  rw [set_eq (by simpa using hsrc), bind_ok]
  have hlen : src < (List.replicate g.links.n (none : Option Nat)).length := by simpa using hsrc
  have hval : ∀ v, ((List.replicate g.links.n none).set src (some u32Max)).getD v none =
      if v = src then some u32Max else none := by
    intro v; rw [getD_set _ _ _ _ _ hlen, getD_replicate_none]
  apply Returns.loop (g.WidestInv src fun _ _ => False) g.widestMeasure
  · refine ⟨by simp, by simp, by rw [hval, if_pos rfl], getD_replicate_none, ?_, ?_, ?_, ?_, ?_, ?_, ?_⟩
    · intro v p hp; rw [getD_replicate_none] at hp; cases hp
    · intro v b hb hv; rw [hval, if_neg hv] at hb; cases hb
    · intro v; refine ⟨v, fun p hp => ?_⟩; rw [getD_replicate_none] at hp; cases hp
    · intro q hq
      rw [List.mem_singleton] at hq
      subst hq
      exact ⟨hsrc, u32Max, by rw [hval, if_pos rfl], le_refl _⟩
    · intro u b w hu _ _
      rw [hval] at hu
      split at hu <;> rename_i h
      · cases hu; subst h; exact Or.inl (by simp)
      · cases hu
    · intro v b hb
      rw [hval] at hb
      split at hb <;> rename_i h
      · cases hb; subst h; exact .refl hsrc
      · cases hb
    · intro v b hb
      rw [hval] at hb
      split at hb
      · cases hb; exact ⟨List.mem_cons_self, le_refl _⟩
      · cases hb
  · have h1 := g.sum_replicate_set_le hsrc
    simp only [widestMeasure, List.length_singleton]
    omega
  · exact fun s hI => widestRound_spec hI

end Network

end Kollaps
