import Mathlib.Order.MinMax

/-!
# Bottleneck tables

A table gives the width of the connection between any two points. It is closed when two
hops are never wider than the direct entry. Changing one entry of a closed table, and then
taking every path of at most three hops into account, gives a closed table again.
-/

namespace Kollaps

namespace Bottleneck

variable {ι α : Type} [LinearOrder α]

def Closed (s : ι → ι → α) : Prop := ∀ i j k, min (s i k) (s k j) ≤ s i j

def TwoWay (s : ι → ι → α) : Prop := ∀ i j, s i j = s j i

theorem Closed.trans {s : ι → ι → α} (h : Closed s) {i j k : ι} {c : α} (hik : c ≤ s i k)
    (hkj : c ≤ s k j) : c ≤ s i j := (le_min hik hkj).trans (h i j k)

/-- `t` is reached from `s` by updates that follow paths, and holds every short path of `s`. -/
structure Pass (s t : ι → ι → α) : Prop where
  symm : TwoWay t
  grows : ∀ i j, s i j ≤ t i j
  below : ∀ u, TwoWay u → Closed u → (∀ i j, s i j ≤ u i j) → ∀ i j, t i j ≤ u i j
  two : ∀ i j k, min (s i k) (s k j) ≤ t i j
  three : ∀ i j x y, min (s i x) (min (s x y) (s y j)) ≤ t i j

def across (s : ι → ι → α) (a b : ι) (w : α) (i j : ι) : α := min (s i a) (min w (s b j))

/-- A closed table with one more edge. -/
def widen (s : ι → ι → α) (a b : ι) (w : α) (i j : ι) : α :=
  max (s i j) (max (across s a b w i j) (across s b a w i j))

theorem le_across {s : ι → ι → α} {a b i j : ι} {w c : α} :
    c ≤ across s a b w i j ↔ c ≤ s i a ∧ c ≤ w ∧ c ≤ s b j := by
  rw [across, le_min_iff, le_min_iff]

theorem le_widen {s : ι → ι → α} {a b i j : ι} {w c : α} : c ≤ widen s a b w i j ↔
    c ≤ s i j ∨ c ≤ across s a b w i j ∨ c ≤ across s b a w i j := by
  rw [widen, le_max_iff, le_max_iff]

theorem across_symm {s : ι → ι → α} (hs : TwoWay s) (a b : ι) (w : α) (i j : ι) :
    across s a b w i j = across s b a w j i := by
  unfold across
  rw [hs i a, hs b j, min_left_comm, min_comm (s a i) (s j b), ← min_left_comm]

theorem widen_symm {s : ι → ι → α} (hs : TwoWay s) (a b : ι) (w : α) :
    TwoWay (widen s a b w) := by
  intro i j
  unfold widen
  rw [hs i j, across_symm hs a b w i j, across_symm hs b a w i j, max_comm (across s b a w j i)]

theorem widen_closed {s : ι → ι → α} (hc : Closed s) (a b : ι) (w : α) :
    Closed (widen s a b w) := by
  -- Two ways over the edge, one after the other, make one way over it or none.
  have hsame : ∀ {a b i j k : ι} {c : α}, c ≤ across s a b w i k → c ≤ across s a b w k j →
      c ≤ across s a b w i j := by
    intro a b i j k c h h'
    rw [le_across] at h h' ⊢
    exact ⟨h.1, h.2.1, h'.2.2⟩
  have hback : ∀ {a b i j k : ι} {c : α}, c ≤ across s a b w i k → c ≤ across s b a w k j →
      c ≤ s i j := by
    intro a b i j k c h h'
    rw [le_across] at h h'
    exact hc.trans h.1 h'.2.2
  have hafter : ∀ {a b i j k : ι} {c : α}, c ≤ across s a b w i k → c ≤ s k j →
      c ≤ across s a b w i j := by
    intro a b i j k c h h'
    rw [le_across] at h ⊢
    exact ⟨h.1, h.2.1, hc.trans h.2.2 h'⟩
  have hbefore : ∀ {a b i j k : ι} {c : α}, c ≤ s i k → c ≤ across s a b w k j →
      c ≤ across s a b w i j := by
    intro a b i j k c h h'
    rw [le_across] at h' ⊢
    exact ⟨hc.trans h h'.1, h'.2⟩
  intro i j k
  have hik := min_le_left (widen s a b w i k) (widen s a b w k j)
  have hkj := min_le_right (widen s a b w i k) (widen s a b w k j)
  rw [le_widen] at hik hkj ⊢
  rcases hik with hik | hik | hik <;> rcases hkj with hkj | hkj | hkj
  · exact Or.inl (hc.trans hik hkj)
  · exact Or.inr (Or.inl (hbefore hik hkj))
  · exact Or.inr (Or.inr (hbefore hik hkj))
  · exact Or.inr (Or.inl (hafter hik hkj))
  · exact Or.inr (Or.inl (hsame hik hkj))
  · exact Or.inl (hback hik hkj)
  · exact Or.inr (Or.inr (hafter hik hkj))
  · exact Or.inl (hback hik hkj)
  · exact Or.inr (Or.inr (hsame hik hkj))

def Changed (s : ι → ι → α) (a b : ι) (w : α) (s' : ι → ι → α) : Prop :=
  s' a b = w ∧ s' b a = w ∧
    ∀ i j, ¬ (i = a ∧ j = b) → ¬ (i = b ∧ j = a) → s' i j = s i j

/-- A wider edge: what a pass reaches is the closed table with that edge. -/
theorem Pass.closed_of_raised {s s' t : ι → ι → α} {a b : ι} {w : α} (hs : TwoWay s)
    (hc : Closed s) (hch : Changed s a b w s') (hp : Pass s' t) (hw : s a b ≤ w)
    (ha : w ≤ s a a) (hb : w ≤ s b b) : Closed t := by
  obtain ⟨hab, hba, hrest⟩ := hch
  have hle : ∀ i j, s i j ≤ s' i j := by
    intro i j
    by_cases h1 : i = a ∧ j = b
    · rw [h1.1, h1.2, hab]
      exact hw
    by_cases h2 : i = b ∧ j = a
    · rw [h2.1, h2.2, hba, hs]
      exact hw
    exact (hrest i j h1 h2).ge
  have hup : ∀ i j, t i j ≤ widen s a b w i j := by
    refine hp.below _ (widen_symm hs a b w) (widen_closed hc a b w) fun i j => ?_
    rw [le_widen, le_across, le_across]
    by_cases h1 : i = a ∧ j = b
    · rw [h1.1, h1.2, hab]
      exact Or.inr (Or.inl ⟨ha, le_refl w, hb⟩)
    by_cases h2 : i = b ∧ j = a
    · rw [h2.1, h2.2, hba]
      exact Or.inr (Or.inr ⟨hb, le_refl w, ha⟩)
    exact Or.inl (hrest i j h1 h2).le
  have hacross : ∀ {x y i j : ι}, s' x y = w → across s x y w i j ≤ t i j := by
    intro x y i j hxy
    refine le_trans ?_ (hp.three i j x y)
    rw [hxy]
    exact min_le_min (hle i x) (min_le_min_left w (hle y j))
  have hlow : ∀ i j, widen s a b w i j ≤ t i j := fun i j =>
    max_le ((hle i j).trans (hp.grows i j)) (max_le (hacross hab) (hacross hba))
  intro i j k
  have hclosed := widen_closed hc a b w i j k
  exact (min_le_min (hup i k) (hup k j)).trans (hclosed.trans (hlow i j))

/-- A narrower edge: a pass raises no other entry, and raises that one as far as it can. -/
theorem Pass.closed_of_lowered {s s' t : ι → ι → α} {a b : ι} {w : α} (hs : TwoWay s)
    (hc : Closed s) (hab : a ≠ b) (hch : Changed s a b w s') (hp : Pass s' t) (hw : w ≤ s a b) :
    Closed t := by
  obtain ⟨hsab, hsba, hrest⟩ := hch
  have hup : ∀ i j, t i j ≤ s i j := by
    refine hp.below s hs hc fun i j => ?_
    by_cases h1 : i = a ∧ j = b
    · rw [h1.1, h1.2, hsab]
      exact hw
    by_cases h2 : i = b ∧ j = a
    · rw [h2.1, h2.2, hsba, hs]
      exact hw
    exact (hrest i j h1 h2).le
  have hsame : ∀ i j, ¬ (i = a ∧ j = b) → ¬ (i = b ∧ j = a) → t i j = s i j := fun i j h1 h2 =>
    le_antisymm (hup i j) ((hrest i j h1 h2).ge.trans (hp.grows i j))
  -- The hops to and from a third point are those of the table before the pass.
  have hkept : ∀ {x y k : ι}, x ≠ y → k ≠ x → k ≠ y → (x = a ∧ y = b ∨ x = b ∧ y = a) →
      t x k = s' x k ∧ t k y = s' k y := by
    rintro x y k - hkx hky (⟨rfl, rfl⟩ | ⟨rfl, rfl⟩)
    · rw [hsame x k (fun h => hky h.2) (fun h => hab h.1), hsame k y (fun h => hkx h.1)
        (fun h => hky h.1), hrest x k (fun h => hky h.2) (fun h => hab h.1),
        hrest k y (fun h => hkx h.1) (fun h => hky h.1)]
      exact ⟨rfl, rfl⟩
    · rw [hsame x k (fun h => hab h.1.symm) (fun h => hky h.2), hsame k y (fun h => hky h.1)
        (fun h => hkx h.1), hrest x k (fun h => hab h.1.symm) (fun h => hky h.2),
        hrest k y (fun h => hky h.1) (fun h => hkx h.1)]
      exact ⟨rfl, rfl⟩
  have hedge : ∀ {x y : ι} (k : ι), x ≠ y → (x = a ∧ y = b ∨ x = b ∧ y = a) →
      min (t x k) (t k y) ≤ t x y := by
    intro x y k hxy h
    rcases eq_or_ne k x with rfl | hkx
    · exact min_le_right _ _
    rcases eq_or_ne k y with rfl | hky
    · exact min_le_left _ _
    obtain ⟨h1, h2⟩ := hkept hxy hkx hky h
    rw [h1, h2]
    exact hp.two x y k
  intro i j k
  by_cases h1 : i = a ∧ j = b
  · obtain ⟨rfl, rfl⟩ := h1
    exact hedge k hab (Or.inl ⟨rfl, rfl⟩)
  by_cases h2 : i = b ∧ j = a
  · obtain ⟨rfl, rfl⟩ := h2
    exact hedge k hab.symm (Or.inr ⟨rfl, rfl⟩)
  rw [hsame i j h1 h2]
  exact (min_le_min (hup i k) (hup k j)).trans (hc i j k)

theorem Pass.closed {s s' t : ι → ι → α} {a b : ι} {w : α} (hs : TwoWay s) (hc : Closed s)
    (hab : a ≠ b) (hch : Changed s a b w s') (hp : Pass s' t) (ha : w ≤ s a a) (hb : w ≤ s b b) :
    Closed t := by
  rcases le_total (s a b) w with h | h
  · exact hp.closed_of_raised hs hc hch h ha hb
  · exact hp.closed_of_lowered hs hc hab hch h

end Bottleneck

end Kollaps
