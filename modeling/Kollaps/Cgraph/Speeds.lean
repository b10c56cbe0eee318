import Kollaps.Cgraph.Basic
import Kollaps.Lib.Bottleneck

/-!
# The speeds stay closed

What each operation does to the table of speeds. A direct test changes one entry, and the
one pass of `update_speeds` after it is enough: the table is closed again.
-/

namespace Kollaps

open Run Bottleneck

namespace Cgraph

variable {I : Type}

/-- Two places of a symmetric table hold the same entry. -/
abbrev SamePair (p q i j : Nat) : Prop := (p = i ∧ q = j) ∨ (p = j ∧ q = i)

namespace CGraph

def width (g : CGraph I) (i j : Nat) : Nat := (g.cGraph.entry i j).speed

theorem width_comm (g : CGraph I) (i j : Nat) : g.width i j = g.width j i := by
  rw [width, width, g.cGraph.entry_comm]

def table (g : CGraph I) (n : Nat) (i j : Fin n) : Nat := g.width i j

/-- The nodes are numbered from zero on. -/
def Indexed (g : CGraph I) : Prop := (g.nodes.elems.map Node.index).Perm (List.range g.cGraph.n)

namespace Indexed

variable {g : CGraph I}

theorem index_lt (h : g.Indexed) {a : Node I} (ha : a ∈ g.nodes.elems) : a.index < g.cGraph.n :=
  List.mem_range.mp (h.mem_iff.mp (List.mem_map_of_mem ha))

theorem exists_node (h : g.Indexed) {i : Nat} (hi : i < g.cGraph.n) :
    ∃ a ∈ g.nodes.elems, a.index = i :=
  List.mem_map.mp (h.mem_iff.mpr (List.mem_range.mpr hi))

theorem size_eq (h : g.Indexed) : g.nodes.len = g.cGraph.n := by
  have := h.length_eq
  rwa [List.length_map, List.length_range] at this

theorem lt_of_contains (h : g.Indexed) {i : Nat} (hi : g.nodes.contains i = true) : i < g.cGraph.n :=
  List.mem_range.mp (h.mem_iff.mp (KeySet.contains_iff.mp hi))

theorem new : (CGraph.new : CGraph I).Indexed := List.Perm.refl _

end Indexed

/-- The nodes are numbered from zero on, and no two have the same info. -/
structure Wf (g : CGraph I) : Prop where
  indices : (g.nodes.elems.map Node.index).Perm (List.range g.cGraph.n)
  infos : g.infos.Nodup

namespace Wf

variable {g : CGraph I}

theorem indexed (h : g.Wf) : g.Indexed := h.indices

theorem index_lt (h : g.Wf) {a : Node I} (ha : a ∈ g.nodes.elems) : a.index < g.cGraph.n :=
  h.indexed.index_lt ha

theorem exists_node (h : g.Wf) {i : Nat} (hi : i < g.cGraph.n) :
    ∃ a ∈ g.nodes.elems, a.index = i := h.indexed.exists_node hi

theorem size_eq (h : g.Wf) : g.nodes.len = g.cGraph.n := h.indexed.size_eq

theorem eq_of_info (h : g.Wf) {a b : Node I} (ha : a ∈ g.nodes.elems) (hb : b ∈ g.nodes.elems)
    (hab : a.info = b.info) : a = b := List.inj_on_of_nodup_map h.infos ha hb hab

theorem new : (CGraph.new : CGraph I).Wf := ⟨List.Perm.refl _, List.nodup_nil⟩

end Wf

theorem minSpeed_isSome {g : CGraph I} {i j : Nat} (h : ∃ a ∈ g.nodes.elems, a.index = i) :
    (g.minSpeed i j).isSome := by
  obtain ⟨a, ha, hi⟩ := h
  unfold minSpeed
  cases hmin : ((g.nodes.elems.filter fun a => a.index = i ∨ a.index = j).map Node.speed).min? with
  | some v => rfl
  | none =>
    rw [List.min?_eq_none_iff, List.map_eq_nil_iff, List.filter_eq_nil_iff] at hmin
    exact absurd (by simp [hi]) (hmin a ha)

/-! ## The nodes stay -/

structure Framed (g g' : CGraph I) : Prop where
  nodes : g'.nodes = g.nodes
  size : g'.cGraph.n = g.cGraph.n

theorem Framed.trans {g g' g'' : CGraph I} (h : Framed g g') (h' : Framed g' g'') : Framed g g'' :=
  ⟨h'.nodes.trans h.nodes, h'.size.trans h.size⟩

theorem Framed.wf {g g' : CGraph I} (h : Framed g g') (hwf : g.Wf) : g'.Wf := by
  constructor
  · rw [h.nodes, h.size]
    exact hwf.indices
  · rw [infos, h.nodes]
    exact hwf.infos

theorem modify_n {α : Type} {m m' : SymMatrix α} {i j : Nat} {f : α → α}
    (h : m.modify i j f = .ok m') : m'.n = m.n := by
  obtain ⟨a, -, h⟩ := of_bind_eq_ok h
  unfold SymMatrix.setIndex at h
  split at h <;> cases h
  rfl

theorem updateSpeed_framed {g g' : CGraph I} {i j k : Nat} (h : g.updateSpeed i j k = .ok g') :
    Framed g g' := by
  unfold updateSpeed at h
  obtain ⟨ik, -, h⟩ := of_bind_eq_ok h
  obtain ⟨kj, -, h⟩ := of_bind_eq_ok h
  obtain ⟨ij, -, h⟩ := of_bind_eq_ok h
  split at h
  · obtain ⟨m, hm, h⟩ := of_bind_eq_ok h
    split at h
    · cases h
    · split at h
      · obtain ⟨m', hm', h⟩ := of_bind_eq_ok h
        cases h
        exact ⟨rfl, (modify_n hm').trans (modify_n hm)⟩
      · cases h
        exact ⟨rfl, modify_n hm⟩
  · cases h
    exact ⟨rfl, rfl⟩

theorem updateSpeeds_framed {g g' : CGraph I} (h : g.updateSpeeds = .ok g') : Framed g g' := by
  unfold updateSpeeds at h
  refine forRange_ok_inv (Framed g) ⟨rfl, rfl⟩ (fun i s s' hs h => ?_) h
  refine forRange_ok_inv (Framed g) hs (fun j s s' hs h => ?_) h
  refine forRange_ok_inv (Framed g) hs (fun k s s' hs h => ?_) h
  exact hs.trans (updateSpeed_framed h)

theorem addLinkDirectTest_framed {g : CGraph I} {from_ to_ : Node I} {speed : Nat}
    {r : CGraph I × Bool} (h : g.addLinkDirectTest from_ to_ speed = .ok r) : Framed g r.1 := by
  unfold addLinkDirectTest at h
  split at h
  · cases h
  split at h
  · cases h
  obtain ⟨m, hm, h⟩ := of_bind_eq_ok h
  obtain ⟨old, -, h⟩ := of_bind_eq_ok h
  obtain ⟨m₂, hm₂, h⟩ := of_bind_eq_ok h
  obtain ⟨m₃, hm₃, h⟩ := of_bind_eq_ok h
  obtain ⟨g', hg', h⟩ := of_bind_eq_ok h
  cases h
  have hframed : Framed g ⟨m₃, g.nodes⟩ :=
    ⟨rfl, (modify_n hm₃).trans ((modify_n hm₂).trans (modify_n hm))⟩
  exact hframed.trans (updateSpeeds_framed hg')

/-! ## One update -/

/-- What one round of the pass does. -/
structure Updated (i j k : Nat) (g g' : CGraph I) : Prop where
  nodes : g'.nodes = g.nodes
  size : g'.cGraph.n = g.cGraph.n
  width : ∀ p q, p < g.cGraph.n → q < g.cGraph.n → g'.width p q =
    if SamePair p q i j then max (g.width i j) (min (g.width i k) (g.width k j)) else g.width p q
  tested : ∀ p q, p < g.cGraph.n → q < g.cGraph.n →
    (g'.cGraph.entry p q).isDirectlyTested = (g.cGraph.entry p q).isDirectlyTested
  limited : ∀ p q, p < g.cGraph.n → q < g.cGraph.n → (g'.cGraph.entry p q).isLimited = false →
    (g.cGraph.entry p q).isLimited = false ∨ (SamePair p q i j ∧ g.minSpeed i j = some (g'.width p q))

theorem Updated.of_entry {g g' : CGraph I} {i j k : Nat} {d : TestData} (hnodes : g'.nodes = g.nodes)
    (hn : g'.cGraph.n = g.cGraph.n) (hentry : ∀ p q, p < g.cGraph.n → q < g.cGraph.n →
      g'.cGraph.entry p q = if SamePair p q i j then d else g.cGraph.entry p q)
    (hspeed : d.speed = max (g.width i j) (min (g.width i k) (g.width k j)))
    (htested : d.isDirectlyTested = (g.cGraph.entry i j).isDirectlyTested)
    (hlimited : d.isLimited = false →
      (g.cGraph.entry i j).isLimited = false ∨ g.minSpeed i j = some d.speed) :
    Updated i j k g g' := by
  have hsame : ∀ p q, SamePair p q i j → g.cGraph.entry p q = g.cGraph.entry i j := by
    rintro p q (⟨rfl, rfl⟩ | ⟨rfl, rfl⟩)
    · rfl
    · exact g.cGraph.entry_comm p q
  refine ⟨hnodes, hn, fun p q hp hq => ?_, fun p q hp hq => ?_, fun p q hp hq hl => ?_⟩
  · rw [CGraph.width, hentry p q hp hq]
    split
    · exact hspeed
    · rfl
  · rw [hentry p q hp hq]
    split <;> rename_i h
    · rw [htested, hsame p q h]
    · rfl
  · rw [hentry p q hp hq] at hl
    rw [CGraph.width, hentry p q hp hq]
    split at hl <;> rename_i h
    · rw [if_pos h, hsame p q h]
      exact (hlimited hl).imp_right fun hm => ⟨h, hm⟩
    · exact Or.inl hl

theorem updateSpeed_spec {g : CGraph I} {i j k : Nat} (hi : i < g.cGraph.n) (hj : j < g.cGraph.n)
    (hk : k < g.cGraph.n) (hnode : ∃ a ∈ g.nodes.elems, a.index = i) :
    Returns (g.updateSpeed i j k) (Updated i j k g) := by
  unfold updateSpeed
  rw [SymMatrix.index_eq _ hi hk, SymMatrix.index_eq _ hk hj, SymMatrix.index_eq _ hi hj]
  simp only [bind_ok]
  have hmax : ∀ {x y : Nat}, x < y → max x y = y := fun h => max_eq_right h.le
  split <;> rename_i hlt
  · refine (SymMatrix.modify_spec g.cGraph hi hj _).bind fun m hm => ?_
    obtain ⟨hn, hm⟩ := hm
    obtain ⟨v, hv⟩ := Option.isSome_iff_exists.mp (minSpeed_isSome (j := j) hnode)
    rw [hv]
    simp only
    split <;> rename_i hmin
    · have hmi := hm i j hi hj
      rw [if_pos (Or.inl ⟨rfl, rfl⟩)] at hmi
      refine (SymMatrix.modify_spec m (hn ▸ hi) (hn ▸ hj) _).bind fun m' hm' => ?_
      obtain ⟨hn', hm'⟩ := hm'
      rw [hn] at hn' hm'
      rw [returns_pure]
      refine Updated.of_entry rfl hn' (d := (m.entry i j).setLimited false) (fun p q hp hq => ?_)
        ?_ ?_ fun _ => Or.inr ?_
      · rw [hm' p q hp hq, hm p q hp hq]
        split <;> rfl
      · rw [hmi]
        exact (hmax hlt).symm
      · rw [hmi]
        rfl
      · rw [hmi, hv, hmin]
        rfl
    · rw [returns_pure]
      exact Updated.of_entry rfl hn (fun p q hp hq => hm p q hp hq) (hmax hlt).symm rfl Or.inl
  · rw [returns_pure]
    refine Updated.of_entry rfl rfl (d := g.cGraph.entry i j) (fun p q _ _ => ?_) ?_ rfl Or.inl
    · split <;> rename_i h
      · rcases h with ⟨rfl, rfl⟩ | ⟨rfl, rfl⟩
        · rfl
        · exact g.cGraph.entry_comm p q
      · rfl
    · exact (max_eq_left (not_lt.mp hlt)).symm

/-! ## The pass -/

theorem updateSpeeds_inv {g : CGraph I} {P : CGraph I → Prop} (hidx : g.Indexed) (hg : P g)
    (hstep : ∀ i j k g' g'', i < g.cGraph.n → j < g.cGraph.n → k < g.cGraph.n → g'.nodes = g.nodes →
      g'.cGraph.n = g.cGraph.n → P g' → Updated i j k g' g'' → P g'') :
    Returns g.updateSpeeds fun g' => g'.nodes = g.nodes ∧ g'.cGraph.n = g.cGraph.n ∧ P g' := by
  unfold updateSpeeds
  refine Returns.forRange (fun _ g' => g'.nodes = g.nodes ∧ g'.cGraph.n = g.cGraph.n ∧ P g')
    ⟨rfl, rfl, hg⟩ fun i s hi hs => ?_
  refine Returns.forRange (fun _ g' => g'.nodes = g.nodes ∧ g'.cGraph.n = g.cGraph.n ∧ P g')
    hs fun j s₁ hj hs₁ => ?_
  refine Returns.forRange (fun _ g' => g'.nodes = g.nodes ∧ g'.cGraph.n = g.cGraph.n ∧ P g')
    hs₁ fun k s₂ hk hs₂ => ?_
  have hj : j < g.cGraph.n := hs.2.1 ▸ hj
  have hk : k < g.cGraph.n := hs₁.2.1 ▸ hk
  obtain ⟨hnodes, hn, hP⟩ := hs₂
  have hnode : ∃ a ∈ s₂.nodes.elems, a.index = i := hnodes ▸ hidx.exists_node hi
  refine (updateSpeed_spec (hn.symm ▸ hi) (hn.symm ▸ hj) (hn.symm ▸ hk) hnode).mono fun s' hs' => ?_
  exact ⟨hs'.nodes.trans hnodes, hs'.size.trans hn, hstep i j k s₂ s' hi hj hk hnodes hn hP hs'⟩

structure Grown (n : Nat) (g g' : CGraph I) : Prop where
  nodes : g'.nodes = g.nodes
  size : g'.cGraph.n = n
  grows : ∀ i j, g.table n i j ≤ g'.table n i j
  below : ∀ u, TwoWay u → Closed u → (∀ i j, g.table n i j ≤ u i j) → ∀ i j, g'.table n i j ≤ u i j

theorem Grown.refl {n : Nat} {g : CGraph I} (h : g.cGraph.n = n) : Grown n g g :=
  ⟨rfl, h, fun _ _ => le_refl _, fun _ _ _ h => h⟩

theorem Grown.trans {n : Nat} {g g' g'' : CGraph I} (h : Grown n g g') (h' : Grown n g' g'') :
    Grown n g g'' :=
  ⟨h'.nodes.trans h.nodes, h'.size, fun i j => (h.grows i j).trans (h'.grows i j),
    fun u hs hc hu => h'.below u hs hc (h.below u hs hc hu)⟩

theorem Updated.grown {n : Nat} {g g' : CGraph I} {i j k : Fin n} (h : Updated i j k g g')
    (hn : g.cGraph.n = n) : Grown n g g' ∧ min (g.table n i k) (g.table n k j) ≤ g'.table n i j := by
  have hwidth : ∀ p q : Fin n, g'.table n p q =
      if SamePair p q i j then max (g.table n i j) (min (g.table n i k) (g.table n k j))
      else g.table n p q := fun p q => h.width p q (hn.symm ▸ p.2) (hn.symm ▸ q.2)
  refine ⟨⟨h.nodes, h.size.trans hn, fun p q => ?_, fun u hs hc hu p q => ?_⟩, ?_⟩
  · rw [hwidth]
    split <;> rename_i hp
    · rcases hp with ⟨hp, hq⟩ | ⟨hp, hq⟩
      · rw [Fin.ext hp, Fin.ext hq]
        exact le_max_left _ _
      · rw [Fin.ext hp, Fin.ext hq, table, width_comm]
        exact le_max_left _ _
    · exact le_refl _
  · rw [hwidth]
    split <;> rename_i hp
    · have hij : max (g.table n i j) (min (g.table n i k) (g.table n k j)) ≤ u i j :=
        max_le (hu i j) ((min_le_min (hu i k) (hu k j)).trans (hc i j k))
      rcases hp with ⟨hp, hq⟩ | ⟨hp, hq⟩
      · rw [Fin.ext hp, Fin.ext hq]
        exact hij
      · rw [Fin.ext hp, Fin.ext hq, hs]
        exact hij
    · exact hu p q
  · have hij : SamePair i j i j := Or.inl ⟨rfl, rfl⟩
    rw [hwidth, if_pos hij]
    exact le_max_right _ _

theorem row_spec {n : Nat} {g : CGraph I} (hn : g.cGraph.n = n) (i : Fin n)
    (hnode : ∃ a ∈ g.nodes.elems, a.index = i) :
    Returns (forRange g.cGraph.size g fun j g =>
      forRange g.cGraph.size g fun k g => g.updateSpeed i j k) fun g' => Grown n g g' ∧
        ∀ j k, min (g.table n i k) (g.table n k j) ≤ g'.table n i j := by
  refine (Returns.forRange (fun t g' => Grown n g g' ∧
    ∀ j k : Fin n, j < t → min (g.table n i k) (g.table n k j) ≤ g'.table n i j)
    ⟨Grown.refl hn, fun _ _ h => absurd h (Nat.not_lt_zero _)⟩ fun j s hj hs => ?_).mono ?_
  · obtain ⟨hs, htwo⟩ := hs
    have hj : j < n := hn ▸ hj
    refine (Returns.forRange (fun t g' => Grown n s g' ∧
      ∀ k : Fin n, k < t → min (s.table n i k) (s.table n k ⟨j, hj⟩) ≤ g'.table n i ⟨j, hj⟩)
      ⟨Grown.refl hs.size, fun _ h => absurd h (Nat.not_lt_zero _)⟩ fun k s' hk hs' => ?_).mono ?_
    · obtain ⟨hs', htwo'⟩ := hs'
      have hk : k < n := hs.size ▸ hk
      have hnode' : ∃ a ∈ s'.nodes.elems, a.index = i := by
        rw [hs'.nodes, hs.nodes]
        exact hnode
      refine (updateSpeed_spec (hs'.size.symm ▸ i.2) (hs'.size.symm ▸ hj) (hs'.size.symm ▸ hk)
        hnode').mono fun s'' hs'' => ?_
      obtain ⟨hgrown, hround⟩ := hs''.grown (i := i) (j := ⟨j, hj⟩) (k := ⟨k, hk⟩) hs'.size
      refine ⟨hs'.trans hgrown, fun k' hk' => ?_⟩
      rcases Nat.lt_succ_iff_lt_or_eq.mp hk' with hlt | heq
      · exact (htwo' k' hlt).trans (hgrown.grows _ _)
      · obtain rfl : k' = ⟨k, hk⟩ := Fin.ext heq
        exact (min_le_min (hs'.grows _ _) (hs'.grows _ _)).trans hround
    · rintro s' ⟨hs', htwo'⟩
      refine ⟨hs.trans hs', fun j' k hj' => ?_⟩
      rcases Nat.lt_succ_iff_lt_or_eq.mp hj' with hlt | heq
      · exact (htwo j' k hlt).trans (hs'.grows _ _)
      · obtain rfl : j' = ⟨j, hj⟩ := Fin.ext heq
        refine (min_le_min (hs.grows _ _) (hs.grows _ _)).trans (htwo' k ?_)
        show k.1 < s.cGraph.n
        rw [hs.size]
        exact k.2
  · rintro g' ⟨hg', htwo⟩
    refine ⟨hg', fun j k => htwo j k ?_⟩
    show j.1 < g.cGraph.n
    rw [hn]
    exact j.2

/-- The whole pass. When a row comes, the rows before it are done, so that a path of three
hops to one of these is a path of two hops. -/
theorem updateSpeeds_spec {n : Nat} {g : CGraph I} (hn : g.cGraph.n = n) (hwf : g.Wf) :
    Returns g.updateSpeeds fun g' => Grown n g g' ∧ Pass (g.table n) (g'.table n) := by
  have hsymm : ∀ (g : CGraph I), TwoWay (g.table n) := fun g i j => g.width_comm i j
  unfold updateSpeeds
  refine (Returns.forRange (fun t g' => Grown n g g' ∧
    (∀ i j k : Fin n, i < t → min (g.table n i k) (g.table n k j) ≤ g'.table n i j) ∧
    ∀ i j x y : Fin n, i < t → j < i →
      min (g.table n i x) (min (g.table n x y) (g.table n y j)) ≤ g'.table n i j)
    ⟨Grown.refl hn, fun _ _ _ h => absurd h (Nat.not_lt_zero _),
      fun _ _ _ _ h => absurd h (Nat.not_lt_zero _)⟩ fun i s hi hs => ?_).mono ?_
  · obtain ⟨hs, htwo, hthree⟩ := hs
    have hi : i < n := hn ▸ hi
    have hnode : ∃ a ∈ s.nodes.elems, a.index = i := by
      rw [hs.nodes]
      exact hwf.exists_node (hn.symm ▸ hi)
    refine (row_spec hs.size ⟨i, hi⟩ hnode).mono fun s' hs' => ?_
    obtain ⟨hs', hrow⟩ := hs'
    refine ⟨hs.trans hs', fun i' j k hi' => ?_, fun i' j x y hi' hj => ?_⟩
    · rcases Nat.lt_succ_iff_lt_or_eq.mp hi' with hlt | heq
      · exact (htwo i' j k hlt).trans (hs'.grows _ _)
      · obtain rfl : i' = ⟨i, hi⟩ := Fin.ext heq
        exact (min_le_min (hs.grows _ _) (hs.grows _ _)).trans (hrow j k)
    · rcases Nat.lt_succ_iff_lt_or_eq.mp hi' with hlt | heq
      · exact (hthree i' j x y hlt hj).trans (hs'.grows _ _)
      · obtain rfl : i' = ⟨i, hi⟩ := Fin.ext heq
        refine le_trans (min_le_min (hs.grows _ _) ?_) (hrow j x)
        -- The hop from `x` to `j` was raised in the row of `j`.
        have hxj := htwo j x y hj
        rwa [hsymm s j x, hsymm g j y, hsymm g y x, min_comm] at hxj
  · rintro g' ⟨hg', htwo, hthree⟩
    have hlt : ∀ i : Fin n, i.1 < g.cGraph.n := fun i => hn.symm ▸ i.2
    refine ⟨hg', hsymm g', hg'.grows, hg'.below, fun i j k => htwo i j k (hlt i), fun i j x y => ?_⟩
    rcases Nat.lt_trichotomy i j with h | h | h
    · have hback := hthree j i y x (hlt j) h
      rw [hsymm g' j i, hsymm g j y, hsymm g y x, hsymm g x i] at hback
      rw [min_comm (g.table n x y), ← min_assoc, min_comm (g.table n i x), min_assoc,
        min_comm (g.table n i x)]
      exact hback
    · obtain rfl : i = j := Fin.ext h
      refine le_trans ?_ (htwo i i x (hlt i))
      rw [hsymm g x i, min_self]
      exact min_le_left _ _
    · exact hthree i j x y (hlt i) h

/-! ## Adding and removing nodes -/

structure Added (g : CGraph I) (node : Node I) (g' : CGraph I) : Prop where
  fresh : node.info ∉ g.infos
  index : node.index = g.cGraph.n
  nodes : g'.nodes.elems = node :: g.nodes.elems
  size : g'.cGraph.n = g.cGraph.n + 1
  old : ∀ p q, p < g.cGraph.n → q < g.cGraph.n → g'.cGraph.entry p q = g.cGraph.entry p q
  untested : ∀ p, p < g.cGraph.n → g'.cGraph.entry p g.cGraph.n = TestData.default
  self : g'.width g.cGraph.n g.cGraph.n = usizeMax

theorem Added.indexed {g g' : CGraph I} {node : Node I} (h : Added g node g') (hidx : g.Indexed) :
    g'.Indexed := by
  unfold Indexed
  rw [h.nodes, h.size, List.map_cons, h.index, List.range_succ]
  exact (List.Perm.cons _ hidx).trans (List.perm_append_singleton _ _).symm

theorem Added.wf {g g' : CGraph I} {node : Node I} (h : Added g node g') (hwf : g.Wf) : g'.Wf := by
  refine ⟨h.indexed hwf.indexed, ?_⟩
  · rw [infos, h.nodes, List.map_cons]
    exact List.nodup_cons.mpr ⟨h.fresh, hwf.infos⟩

theorem addNode_spec [DecidableEq I] {g : CGraph I} (it : Iter) (hidx : g.Indexed) (speed : Nat) (info : I) :
    Returns (g.addNode it speed info) fun r => r.2 ∈ r.1.nodes.elems ∧ r.2.info = info ∧
      (r.1 = g ∨ (r.2.speed = speed ∧ Added g r.2 r.1)) := by
  unfold addNode
  cases hfind : (it.order g.nodes.elems).find? fun n => n.info = info with
  | some node =>
    rw [returns_pure]
    exact ⟨it.mem_order.mp (List.mem_of_find?_eq_some hfind), by simpa using List.find?_some hfind,
      Or.inl rfl⟩
  | none =>
    refine (SymMatrix.growFn_spec (P := fun _ _ d => d = TestData.default)
      fun i j _ _ _ => (returns_pure _ _).mpr rfl).bind fun m hm => ?_
    obtain ⟨hn, hold, hnew⟩ := hm
    have hlast : usizeSub m.size 1 = .ok g.cGraph.n := by
      rw [show m.size = g.cGraph.n + 1 from hn]
      exact usizeSub_of_le (by omega)
    rw [hlast, bind_ok]
    refine (SymMatrix.modify_spec m (by omega) (by omega) _).bind fun m' hm' => ?_
    obtain ⟨hn', hm'⟩ := hm'
    have hcontains : g.nodes.contains g.cGraph.n = false := by
      rw [Bool.eq_false_iff, ne_eq, KeySet.contains_iff, KeySet.keys, List.Perm.mem_iff hidx,
        List.mem_range]
      omega
    simp only [hcontains, Bool.false_eq_true, if_false]
    rw [returns_pure]
    have helems := KeySet.elems_insert (s := g.nodes) (a := ⟨g.cGraph.n, speed, info⟩) hcontains
    refine ⟨by rw [helems]; exact List.mem_cons_self, rfl, Or.inr ⟨rfl, ?_, rfl, helems, ?_, ?_, ?_, ?_⟩⟩
    · intro hmem
      obtain ⟨a, ha, hinfo⟩ := List.mem_map.mp hmem
      exact List.find?_eq_none.mp hfind a (it.mem_order.mpr ha) (decide_eq_true hinfo)
    · exact hn'.trans hn
    · intro p q hp hq
      rw [hm' p q (by omega) (by omega), if_neg (by omega)]
      exact hold p q hp hq
    · intro p hp
      rw [hm' p g.cGraph.n (by omega) (by omega), if_neg (by omega)]
      exact hnew p g.cGraph.n (by omega) (by omega) (by omega)
    · rw [width, hm' g.cGraph.n g.cGraph.n (by omega) (by omega), if_pos (Or.inl ⟨rfl, rfl⟩)]
      rfl

theorem lower_index (r : Nat) (a : Node I) :
    (lower r a).index = if a.index > r then a.index - 1 else a.index := by
  unfold lower
  split <;> rfl

@[simp] theorem lower_info (r : Nat) (a : Node I) : (lower r a).info = a.info := by
  unfold lower
  split <;> rfl

@[simp] theorem lower_speed (r : Nat) (a : Node I) : (lower r a).speed = a.speed := by
  unfold lower
  split <;> rfl

structure Removed (g : CGraph I) (node : Node I) (g' : CGraph I) : Prop where
  mem : node ∈ g.nodes.elems
  nodes : g'.nodes.elems.Perm
    ((g.nodes.elems.filter fun a => a.index ≠ node.index).map (lower node.index))
  size : g'.cGraph.n = g.cGraph.n - 1
  entries : ∀ p q, p < g.cGraph.n - 1 → q < g.cGraph.n - 1 → g'.cGraph.entry p q =
    g.cGraph.entry (SymMatrix.shift node.index p) (SymMatrix.shift node.index q)

theorem lower_range {n r : Nat} (hr : r < n) :
    (((List.range n).filter fun i => i ≠ r).map fun i => if i > r then i - 1 else i).Perm
      (List.range (n - 1)) := by
  have hnodup : (((List.range n).filter fun i => i ≠ r).map
      fun i => if i > r then i - 1 else i).Nodup := by
    refine List.Nodup.map_on ?_ (List.nodup_range.filter _)
    intro i hi j hj h
    rw [List.mem_filter, decide_eq_true_eq] at hi hj
    have := hi.2
    have := hj.2
    split at h <;> split at h <;> omega
  refine (List.perm_ext_iff_of_nodup hnodup List.nodup_range).mpr fun x => ?_
  rw [List.mem_map, List.mem_range]
  constructor
  · rintro ⟨i, hi, rfl⟩
    rw [List.mem_filter, List.mem_range, decide_eq_true_eq] at hi
    split <;> omega
  · intro hx
    refine ⟨if x ≥ r then x + 1 else x, ?_, ?_⟩
    · rw [List.mem_filter, List.mem_range, decide_eq_true_eq]
      split <;> omega
    · split <;> split <;> omega

theorem lower_indices {g : CGraph I} (hidx : g.Indexed) {node : Node I} (hmem : node ∈ g.nodes.elems) :
    (((g.nodes.elems.filter fun a => a.index ≠ node.index).map (lower node.index)).map
      Node.index).Perm (List.range (g.cGraph.n - 1)) := by
  have hfilter : ((g.nodes.elems.filter fun a => a.index ≠ node.index).map Node.index) =
      (g.nodes.elems.map Node.index).filter fun i => i ≠ node.index := by
    rw [List.filter_map]
    rfl
  have hmap : ((g.nodes.elems.filter fun a => a.index ≠ node.index).map (lower node.index)).map
      Node.index = ((g.nodes.elems.map Node.index).filter fun i => i ≠ node.index).map
        fun i => if i > node.index then i - 1 else i := by
    rw [← hfilter, List.map_map, List.map_map]
    exact List.map_congr_left fun a _ => lower_index node.index a
  rw [hmap]
  exact ((List.Perm.filter _ hidx).map _).trans (lower_range (hidx.index_lt hmem))

theorem Removed.indexed {g g' : CGraph I} {node : Node I} (h : Removed g node g') (hidx : g.Indexed) :
    g'.Indexed := by
  unfold Indexed
  rw [h.size]
  exact (h.nodes.map _).trans (lower_indices hidx h.mem)

theorem Removed.wf {g g' : CGraph I} {node : Node I} (h : Removed g node g') (hwf : g.Wf) :
    g'.Wf := by
  refine ⟨h.indexed hwf.indexed, ?_⟩
  · refine (h.nodes.map Node.info).nodup_iff.mpr ?_
    rw [List.map_map]
    have hinfo : (Node.info ∘ lower node.index : Node I → I) = Node.info :=
      funext fun a => lower_info node.index a
    rw [hinfo]
    exact hwf.infos.sublist (List.filter_sublist.map _)

theorem removeOneBy_spec {g : CGraph I} (it : Iter) (hidx : g.Indexed) {predicate : Node I → Bool}
    (h : ∃ a ∈ g.nodes.elems, predicate a = true) :
    Returns (g.removeOneBy it predicate) fun g' =>
      ∃ node, predicate node = true ∧ Removed g node g' := by
  unfold removeOneBy
  cases hfind : (it.order g.nodes.elems).find? predicate with
  | none =>
    obtain ⟨a, ha, hp⟩ := h
    exact absurd hp (List.find?_eq_none.mp hfind a (it.mem_order.mpr ha))
  | some node =>
    have hmem : node ∈ g.nodes.elems := it.mem_order.mp (List.mem_of_find?_eq_some hfind)
    simp only
    refine (SymMatrix.removeId_spec (hidx.index_lt hmem)).bind fun m hm => ?_
    have hperm : ((it.order (g.nodes.remove node.index).elems).map (lower node.index)).Perm
        ((g.nodes.elems.filter fun a => a.index ≠ node.index).map (lower node.index)) :=
      (it.perm _).map _
    have hnodup : (((it.order (g.nodes.remove node.index).elems).map (lower node.index)).map
        Node.index).Nodup :=
      (hperm.map _).nodup_iff.mpr ((lower_indices hidx hmem).nodup_iff.mpr List.nodup_range)
    have hcollect := KeySet.elems_collect hnodup
    have hlen := ((hcollect.trans hperm).map Node.index).trans (lower_indices hidx hmem)
    have hsize : m.size = (KeySet.collect ((it.order (g.nodes.remove node.index).elems).map
        (lower node.index)) : KeySet (Node.index (I := I))).len := by
      have := hlen.length_eq
      rw [List.length_map, List.length_range] at this
      exact hm.1.trans this.symm
    rw [if_neg (not_not_intro hsize), returns_pure]
    exact ⟨node, List.find?_some hfind, hmem, hcollect.trans hperm, hm.1, hm.2⟩

theorem removeOneBy_ok {g g' : CGraph I} {it : Iter} {predicate : Node I → Bool}
    (h : g.removeOneBy it predicate = .ok g') : ∃ a ∈ g.nodes.elems, predicate a = true := by
  unfold removeOneBy at h
  cases hfind : (it.order g.nodes.elems).find? predicate with
  | none =>
    rw [hfind] at h
    cases h
  | some node =>
    exact ⟨node, it.mem_order.mp (List.mem_of_find?_eq_some hfind), List.find?_some hfind⟩

theorem Removed.infos {g g' : CGraph I} {node : Node I} (h : Removed g node g') (hwf : g.Wf) (x : I) :
    x ∈ g'.infos ↔ x ∈ g.infos ∧ x ≠ node.info := by
  have hperm := (h.nodes.map Node.info).mem_iff (a := x)
  rw [CGraph.infos, hperm, CGraph.infos]
  simp only [List.mem_map, List.mem_filter, decide_eq_true_eq]
  constructor
  · rintro ⟨b, ⟨a, ⟨ha, hne⟩, rfl⟩, rfl⟩
    rw [lower_info]
    refine ⟨⟨a, ha, rfl⟩, fun hinfo => hne ?_⟩
    rw [hwf.eq_of_info ha h.mem hinfo]
  · rintro ⟨⟨a, ha, rfl⟩, hne⟩
    refine ⟨lower node.index a, ⟨a, ⟨ha, fun hindex => hne ?_⟩, rfl⟩, lower_info node.index a⟩
    rw [g.nodes.eq_of_key_eq ha h.mem hindex]

theorem removeOneBy_infos [DecidableEq I] {g g' : CGraph I} {it : Iter} {info : I} (hwf : g.Wf)
    (h : g.removeOneBy it (fun n => n.info = info) = .ok g') :
    g'.Wf ∧ ∀ x, x ∈ g'.infos ↔ x ∈ g.infos ∧ x ≠ info := by
  obtain ⟨node, hnode, hremoved⟩ := Returns.of_eq (removeOneBy_spec it hwf.indexed (removeOneBy_ok h)) h
  refine ⟨hremoved.wf hwf, fun x => ?_⟩
  rw [hremoved.infos hwf, of_decide_eq_true hnode]

/-! ## Direct tests -/

/-- The graph of a direct test before its pass: the entry holds the measured speed. -/
structure Measured (i j speed : Nat) (g g₁ : CGraph I) : Prop where
  nodes : g₁.nodes = g.nodes
  size : g₁.cGraph.n = g.cGraph.n
  entries : ∀ p q, p < g.cGraph.n → q < g.cGraph.n → g₁.cGraph.entry p q =
    if SamePair p q i j then ⟨false, true, speed⟩ else g.cGraph.entry p q

theorem Measured.wf {i j speed : Nat} {g g₁ : CGraph I} (h : Measured i j speed g g₁) (hwf : g.Wf) :
    g₁.Wf := by
  constructor
  · rw [h.nodes, h.size]
    exact hwf.indices
  · rw [infos, h.nodes]
    exact hwf.infos

theorem addLinkDirectTest_spec {g : CGraph I} {from_ to_ : Node I} {speed : Nat} {P : CGraph I → Prop}
    (hidx : g.Indexed) (hfrom : g.nodes.contains from_.index = true)
    (hto : g.nodes.contains to_.index = true) (hspeed : speed ≤ min from_.speed to_.speed)
    (hP : ∀ g₁, Measured from_.index to_.index speed g g₁ → Returns g₁.updateSpeeds P) :
    Returns (g.addLinkDirectTest from_ to_ speed) fun r => P r.1 := by
  have hi := hidx.lt_of_contains hfrom
  have hj := hidx.lt_of_contains hto
  unfold addLinkDirectTest
  rw [hfrom, hto, if_neg (by simp), if_neg (not_lt.mpr hspeed)]
  refine (SymMatrix.modify_spec g.cGraph hi hj _).bind fun m hm => ?_
  obtain ⟨hn, hm⟩ := hm
  rw [SymMatrix.index_eq m (hn ▸ hi) (hn ▸ hj), bind_ok]
  refine (SymMatrix.modify_spec m (hn ▸ hi) (hn ▸ hj) _).bind fun m₂ hm₂ => ?_
  obtain ⟨hn₂, hm₂⟩ := hm₂
  rw [hn] at hn₂ hm₂
  refine (SymMatrix.modify_spec m₂ (hn₂ ▸ hi) (hn₂ ▸ hj) _).bind fun m₃ hm₃ => ?_
  obtain ⟨hn₃, hm₃⟩ := hm₃
  rw [hn₂] at hn₃ hm₃
  refine (hP ⟨m₃, g.nodes⟩ ⟨rfl, hn₃, fun p q hp hq => ?_⟩).bind fun g' hg' => ⟨_, rfl, hg'⟩
  rw [hm₃ p q hp hq]
  split <;> rename_i h
  · rw [hm₂ _ _ hi hj, if_pos (Or.inl ⟨rfl, rfl⟩), hm _ _ hi hj, if_pos (Or.inl ⟨rfl, rfl⟩)]
    rfl
  · rw [hm₂ p q hp hq, if_neg h, hm p q hp hq, if_neg h]

theorem addLinkDirectTest_ok {g : CGraph I} {from_ to_ : Node I} {speed : Nat} {r : CGraph I × Bool}
    (h : g.addLinkDirectTest from_ to_ speed = .ok r) :
    g.nodes.contains from_.index = true ∧ g.nodes.contains to_.index = true ∧
      speed ≤ min from_.speed to_.speed := by
  unfold addLinkDirectTest at h
  split at h <;> rename_i hcontains
  · cases h
  split at h <;> rename_i hspeed
  · cases h
  rw [Bool.or_eq_true, Bool.not_eq_true', Bool.not_eq_true', not_or, Bool.not_eq_false,
    Bool.not_eq_false] at hcontains
  exact ⟨hcontains.1, hcontains.2, not_lt.mp hspeed⟩

/-! ## The table of speeds over a run -/

inductive Reached [DecidableEq I] : CGraph I → Prop
  | new : Reached CGraph.new
  | addNode {g g' : CGraph I} {node : Node I} (it : Iter) (speed : Nat) (info : I) (h : Reached g)
      (hg' : g.addNode it speed info = .ok (g', node)) : Reached g'
  | removeOneBy {g g' : CGraph I} (it : Iter) (predicate : Node I → Bool) (h : Reached g)
      (hg' : g.removeOneBy it predicate = .ok g') : Reached g'
  | addLinkDirectTest {g g' : CGraph I} {useful : Bool} (from_ to_ : Node I) (speed : Nat)
      (h : Reached g) (hne : from_.index ≠ to_.index) (hspeed : speed ≤ usizeMax)
      (hg' : g.addLinkDirectTest from_ to_ speed = .ok (g', useful)) : Reached g'

/-- The table is closed, and a node is not limited to itself. -/
structure Settled (g : CGraph I) : Prop where
  wf : g.Wf
  closed : Closed (g.table g.cGraph.n)
  self : ∀ i, i < g.cGraph.n → usizeMax ≤ g.width i i

theorem table_twoWay (g : CGraph I) (n : Nat) : TwoWay (g.table n) := fun i j => g.width_comm i j

theorem Settled.new : (CGraph.new : CGraph I).Settled :=
  ⟨Wf.new, fun i => i.elim0, fun _ h => absurd h (Nat.not_lt_zero _)⟩

/-- A node that no test has reached is at speed zero from every other one. -/
theorem Settled.added {g g' : CGraph I} {node : Node I} (h : g.Settled) (ha : Added g node g') :
    g'.Settled := by
  have hold : ∀ p q, p < g.cGraph.n → q < g.cGraph.n → g'.width p q = g.width p q :=
    fun p q hp hq => congrArg TestData.speed (ha.old p q hp hq)
  have hzero : ∀ p, p < g.cGraph.n → g'.width p g.cGraph.n = 0 :=
    fun p hp => congrArg TestData.speed (ha.untested p hp)
  refine ⟨ha.wf h.wf, fun i j k => ?_, fun i hi => ?_⟩
  · have hi := i.2.trans_eq ha.size
    have hj := j.2.trans_eq ha.size
    have hk := k.2.trans_eq ha.size
    show min (g'.width i k) (g'.width k j) ≤ g'.width i j
    rcases Nat.lt_succ_iff_lt_or_eq.mp hk with hk | hk
    · rcases Nat.lt_succ_iff_lt_or_eq.mp hi with hi | hi
      · rcases Nat.lt_succ_iff_lt_or_eq.mp hj with hj | hj
        · rw [hold _ _ hi hk, hold _ _ hk hj, hold _ _ hi hj]
          exact h.closed ⟨i, hi⟩ ⟨j, hj⟩ ⟨k, hk⟩
        · rw [hj, hzero _ hk]
          exact (min_le_right _ _).trans (Nat.zero_le _)
      · rw [hi, g'.width_comm _ k, hzero _ hk]
        exact (min_le_left _ _).trans (Nat.zero_le _)
    · rcases Nat.lt_succ_iff_lt_or_eq.mp hi with hi | hi
      · rw [hk, hzero _ hi]
        exact (min_le_left _ _).trans (Nat.zero_le _)
      · rw [hk, hi]
        exact min_le_right _ _
  · rw [ha.size] at hi
    rcases Nat.lt_succ_iff_lt_or_eq.mp hi with hi | rfl
    · rw [hold _ _ hi hi]
      exact h.self i hi
    · exact ha.self.ge

theorem Settled.removed {g g' : CGraph I} {node : Node I} (h : g.Settled) (hr : Removed g node g') :
    g'.Settled := by
  have hlt := h.wf.index_lt hr.mem
  have hshift : ∀ i, i < g.cGraph.n - 1 → SymMatrix.shift node.index i < g.cGraph.n := by
    intro i hi
    unfold SymMatrix.shift
    split <;> omega
  have hwidth : ∀ p q, p < g.cGraph.n - 1 → q < g.cGraph.n - 1 → g'.width p q =
      g.width (SymMatrix.shift node.index p) (SymMatrix.shift node.index q) :=
    fun p q hp hq => congrArg TestData.speed (hr.entries p q hp hq)
  refine ⟨hr.wf h.wf, fun i j k => ?_, fun i hi => ?_⟩
  · have hi := i.2.trans_eq hr.size
    have hj := j.2.trans_eq hr.size
    have hk := k.2.trans_eq hr.size
    show min (g'.width i k) (g'.width k j) ≤ g'.width i j
    rw [hwidth _ _ hi hk, hwidth _ _ hk hj, hwidth _ _ hi hj]
    exact h.closed ⟨_, hshift i hi⟩ ⟨_, hshift j hj⟩ ⟨_, hshift k hk⟩
  · rw [hr.size] at hi
    rw [hwidth i i hi hi]
    exact h.self _ (hshift i hi)

theorem Measured.changed {g g₁ : CGraph I} {n speed : Nat} {i j : Fin n}
    (hm : Measured i j speed g g₁) (hn : g.cGraph.n = n) :
    Changed (g.table n) i j speed (g₁.table n) := by
  have hwidth : ∀ p q : Fin n, g₁.table n p q = if SamePair p q i j then speed else g.table n p q := by
    intro p q
    show (g₁.cGraph.entry p q).speed = _
    rw [hm.entries p q (hn.symm ▸ p.2) (hn.symm ▸ q.2)]
    split <;> rfl
  refine ⟨?_, ?_, fun p q h1 h2 => ?_⟩
  · rw [hwidth, if_pos (Or.inl ⟨rfl, rfl⟩)]
  · rw [hwidth, if_pos (Or.inr ⟨rfl, rfl⟩)]
  · rw [hwidth, if_neg]
    rintro (⟨hp, hq⟩ | ⟨hp, hq⟩)
    · exact h1 ⟨Fin.ext hp, Fin.ext hq⟩
    · exact h2 ⟨Fin.ext hp, Fin.ext hq⟩

theorem Settled.measured {g g₁ : CGraph I} {i j speed : Nat} (h : g.Settled)
    (hm : Measured i j speed g g₁) (hi : i < g.cGraph.n) (hj : j < g.cGraph.n) (hij : i ≠ j)
    (hspeed : speed ≤ usizeMax) :
    Returns g₁.updateSpeeds fun g' => g'.Settled ∧ speed ≤ g'.width i j := by
  refine (updateSpeeds_spec hm.size (hm.wf h.wf)).mono fun g' hg' => ?_
  obtain ⟨hgrown, hpass⟩ := hg'
  have hch := hm.changed (n := g.cGraph.n) (i := ⟨i, hi⟩) (j := ⟨j, hj⟩) rfl
  have hne : (⟨i, hi⟩ : Fin g.cGraph.n) ≠ ⟨j, hj⟩ := fun heq => hij (congrArg Fin.val heq)
  have hself : ∀ p : Fin g.cGraph.n, usizeMax ≤ g.table _ p p := fun p => h.self p p.2
  have hclosed := hpass.closed (g.table_twoWay _) h.closed hne hch (hspeed.trans (hself _))
    (hspeed.trans (hself _))
  have hwf : g'.Wf := by
    refine ⟨?_, ?_⟩
    · rw [hgrown.nodes, hm.nodes, hgrown.size]
      exact h.wf.indices
    · rw [infos, hgrown.nodes, hm.nodes]
      exact h.wf.infos
  refine ⟨⟨hwf, ?_, fun p hp => ?_⟩, ?_⟩
  · rw [hgrown.size]
    exact hclosed
  · rw [hgrown.size] at hp
    have hsame : g₁.table _ ⟨p, hp⟩ ⟨p, hp⟩ = g.table _ ⟨p, hp⟩ ⟨p, hp⟩ :=
      hch.2.2 _ _ (fun hpp => hne (hpp.1.symm.trans hpp.2)) (fun hpp => hne (hpp.2.symm.trans hpp.1))
    exact (hself ⟨p, hp⟩).trans (hsame.ge.trans (hgrown.grows ⟨p, hp⟩ ⟨p, hp⟩))
  · exact hch.1.ge.trans (hgrown.grows ⟨i, hi⟩ ⟨j, hj⟩)

theorem Settled.addLinkDirectTest {g g' : CGraph I} {from_ to_ : Node I} {speed : Nat} {useful : Bool}
    (h : g.Settled) (hne : from_.index ≠ to_.index) (hspeed : speed ≤ usizeMax)
    (hg' : g.addLinkDirectTest from_ to_ speed = .ok (g', useful)) :
    g'.Settled ∧ speed ≤ g'.width from_.index to_.index := by
  obtain ⟨hfrom, hto, hle⟩ := addLinkDirectTest_ok hg'
  have hspec := addLinkDirectTest_spec h.wf.indexed hfrom hto hle fun g₁ hm =>
    h.measured hm (h.wf.indexed.lt_of_contains hfrom) (h.wf.indexed.lt_of_contains hto) hne hspeed
  exact hspec.of_eq hg'

theorem Reached.settled [DecidableEq I] {g : CGraph I} (h : Reached g) : g.Settled := by
  induction h with
  | new => exact Settled.new
  | addNode it speed info _ hg' ih =>
    rcases ((addNode_spec it ih.wf.indexed speed info).of_eq hg').2.2 with heq | ⟨-, hadded⟩
    · cases heq
      exact ih
    · exact ih.added hadded
  | @removeOneBy g g' it predicate _ hg' ih =>
    obtain ⟨node, -, hremoved⟩ := (removeOneBy_spec it ih.wf.indexed (removeOneBy_ok hg')).of_eq hg'
    exact ih.removed hremoved
  | addLinkDirectTest from_ to_ speed _ hne hspeed hg' ih =>
    exact (ih.addLinkDirectTest hne hspeed hg').1

/-- The speeds are min-transitively closed after every run, and a direct test is never below
what it measured. -/
theorem speeds_closed [DecidableEq I] {g : CGraph I} (h : Reached g) :
    (∀ i j k, i < g.cGraph.n → j < g.cGraph.n → k < g.cGraph.n →
      min (g.width i k) (g.width k j) ≤ g.width i j) ∧
    ∀ (from_ to_ : Node I) (speed : Nat) (g' : CGraph I) (useful : Bool),
      from_.index ≠ to_.index → speed ≤ usizeMax →
      g.addLinkDirectTest from_ to_ speed = .ok (g', useful) →
      speed ≤ g'.width from_.index to_.index :=
  ⟨fun i j k hi hj hk => h.settled.closed ⟨i, hi⟩ ⟨j, hj⟩ ⟨k, hk⟩,
    fun _ _ _ _ _ hne hspeed hg' => (h.settled.addLinkDirectTest hne hspeed hg').2⟩

/-! ## A test between two nodes -/

def demoOne : CGraph Nat :=
  ⟨⟨1, [⟨true, false, usizeMax⟩], by decide +kernel⟩, ⟨[⟨0, 100, 7⟩], by decide⟩⟩

def demoTwo : CGraph Nat :=
  ⟨⟨2, [⟨true, false, usizeMax⟩, ⟨true, false, 0⟩, ⟨true, false, usizeMax⟩], by decide +kernel⟩,
    ⟨[⟨1, 60, 8⟩, ⟨0, 100, 7⟩], by decide⟩⟩

def demoTested : CGraph Nat :=
  ⟨⟨2, [⟨true, false, usizeMax⟩, ⟨false, true, 40⟩, ⟨true, false, usizeMax⟩], by decide +kernel⟩,
    ⟨[⟨1, 60, 8⟩, ⟨0, 100, 7⟩], by decide⟩⟩

theorem demoOne_add : CGraph.new.addNode Iter.inOrder 100 7 = .ok (demoOne, ⟨0, 100, 7⟩) := by
  decide +kernel

theorem demoTwo_add : demoOne.addNode Iter.inOrder 60 8 = .ok (demoTwo, ⟨1, 60, 8⟩) := by
  decide +kernel

theorem demoTwo_reached : Reached demoTwo :=
  .addNode Iter.inOrder 60 8 (.addNode Iter.inOrder 100 7 .new demoOne_add) demoTwo_add

theorem demoTwo_test : demoTwo.addLinkDirectTest ⟨1, 60, 8⟩ ⟨0, 100, 7⟩ 40 = .ok (demoTested, true) := by
  decide +kernel

theorem speeds_closed_demo :
    min (demoTwo.width 1 0) (demoTwo.width 0 1) ≤ demoTwo.width 1 1 ∧ 40 ≤ demoTested.width 1 0 :=
  ⟨(speeds_closed demoTwo_reached).1 1 1 0 (by decide) (by decide) (by decide),
    (speeds_closed demoTwo_reached).2 ⟨1, 60, 8⟩ ⟨0, 100, 7⟩ 40 demoTested true (by decide)
      (by decide) demoTwo_test⟩

end CGraph

end Cgraph

end Kollaps
