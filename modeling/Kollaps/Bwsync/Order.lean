import Kollaps.Bwsync.Capacity

/-!
# The order of two updates

A link is contested when a flow that has links in common with both paths crosses it. Two
updates commute when, on the contested links of their paths, everything fits and nobody is
hungry. Otherwise the first update may make a flow hungry that the other order leaves alone.
-/

namespace Kollaps

open Run

namespace Flow

variable {T : Type} [Vertex T]

abbrev cells (f : Flow T) (g : Network T) : List (Sym2 Nat) := g.cells f.source f.destination

end Flow

namespace Bwsync

variable {T : Type} [Vertex T]

def Touches (g : Network T) (path : List (Sym2 Nat)) (f : Flow T) : Prop :=
  ∃ c ∈ path, crosses g c f = true

instance (g : Network T) (path : List (Sym2 Nat)) (f : Flow T) : Decidable (Touches g path f) :=
  inferInstanceAs (Decidable (∃ c ∈ path, crosses g c f = true))

/-- A flow that has links in common with both paths crosses the cell. -/
def Contested (g : Network T) (flows : FlowSet T) (f₁ f₂ : Flow T) (c : Sym2 Nat) : Prop :=
  ∃ h, (h ∈ flows.elems ∨ h = f₁ ∨ h = f₂) ∧ crosses g c h = true ∧
    Touches g (f₁.cells g) h ∧ Touches g (f₂.cells g) h

def usedBy (flows : FlowSet T) (k : Vertex.Id T × Vertex.Id T) : Nat :=
  ((flows.get? k).map Flow.usedBandwidth).getD 0

/-- What crosses a cell, the two flows taken with the larger of their old and new bandwidths. -/
def peak (g : Network T) (flows : FlowSet T) (f₁ f₂ : Flow T) (c : Sym2 Nat) : Nat :=
  load g ((flows.remove f₁.key).remove f₂.key).elems c +
    (if crosses g c f₁ then max f₁.usedBandwidth (usedBy flows f₁.key) else 0) +
    (if crosses g c f₂ then max f₂.usedBandwidth (usedBy flows f₂.key) else 0)

def Sated (g : Network T) (flows : FlowSet T) (c : Sym2 Nat) : Prop :=
  ∀ h ∈ flows.elems, crosses g c h = true → h.isHungry = false

instance (g : Network T) (flows : FlowSet T) (c : Sym2 Nat) : Decidable (Sated g flows c) :=
  inferInstanceAs (Decidable (∀ h ∈ flows.elems, crosses g c h = true → h.isHungry = false))

/-- On the contested links of the two paths nobody is hungry, and everything fits. -/
def Settled (g : Network T) (flows : FlowSet T) (f₁ f₂ : Flow T) : Prop :=
  ∀ c, c ∈ f₁.cells g ∨ c ∈ f₂.cells g → Contested g flows f₁ f₂ c →
    Sated g flows c ∧ peak g flows f₁ f₂ c ≤ g.bandOf c

theorem crosses_congr (g : Network T) {f h : Flow T} (hk : h.key = f.key) (c : Sym2 Nat) :
    crosses g c h = crosses g c f := by
  rw [crosses, crosses, cells_congr g hk]

theorem Touches.congr {g : Network T} {path : List (Sym2 Nat)} {f h : Flow T} (hk : h.key = f.key) :
    Touches g path h ↔ Touches g path f := by
  simp only [Touches, crosses_congr g hk]

theorem Touches.self {g : Network T} {f : Flow T} (h : f.cells g ≠ []) : Touches g (f.cells g) f := by
  obtain ⟨c, hc⟩ := List.exists_mem_of_ne_nil _ h
  exact ⟨c, hc, decide_eq_true hc⟩

theorem peak_comm (g : Network T) (flows : FlowSet T) (f₁ f₂ : Flow T) (c : Sym2 Nat) :
    peak g flows f₁ f₂ c = peak g flows f₂ f₁ c := by
  have hremove : ((flows.remove f₁.key).remove f₂.key).elems =
      ((flows.remove f₂.key).remove f₁.key).elems := by
    simp only [KeySet.remove, KeySet.elems_filter, List.filter_filter]
    exact List.filter_congr fun _ _ => Bool.and_comm _ _
  rw [peak, peak, hremove]
  omega

theorem Settled.symm {g : Network T} {flows : FlowSet T} {f₁ f₂ : Flow T}
    (h : Settled g flows f₁ f₂) : Settled g flows f₂ f₁ := by
  rintro c hc ⟨x, hx, hcross, ht₂, ht₁⟩
  rw [peak_comm]
  exact h c hc.symm ⟨x, by tauto, hcross, ht₁, ht₂⟩

/-! ## Shares that a change elsewhere leaves alone -/

theorem redistribute_off {g : Network T} {flows : FlowSet T} {path : List (Sym2 Nat)} {h : Flow T}
    (hoff : ¬ Touches g path h) : redistribute g flows path h = h := by
  have hnone : leastLevel g flows path h = none := by
    rw [leastLevel_eq_none]
    intro c hc
    rw [← Bool.not_eq_true]
    exact fun hcross => hoff ⟨c, hc, hcross⟩
  rw [redistribute, hnone]

theorem leastLevel_mem {g : Network T} {flows : FlowSet T} {path : List (Sym2 Nat)} {h : Flow T}
    {L : ℚ} (hL : leastLevel g flows path h = some L) :
    (∃ c ∈ path, crosses g c h = true ∧ linkLevel g flows c = L) ∧
      ∀ c ∈ path, crosses g c h = true → L ≤ linkLevel g flows c := by
  obtain ⟨hmem, hle⟩ := least_eq_some.mp hL
  obtain ⟨c, hc, rfl⟩ := List.mem_map.mp hmem
  rw [List.mem_filter] at hc
  exact ⟨⟨c, hc.1, hc.2, rfl⟩, fun c' hc' hcross' =>
    hle _ (List.mem_map_of_mem (List.mem_filter.mpr ⟨hc', hcross'⟩))⟩

theorem redistribute_maxed {g : Network T} {flows : FlowSet T} {path : List (Sym2 Nat)} {h : Flow T}
    (ht : Touches g path h) (hmax : ∀ c ∈ path, crosses g c h = true →
      maxedOut (linkLevel g flows c) h = true) : redistribute g flows path h = h.maxOut := by
  rw [redistribute]
  cases hL : leastLevel g flows path h with
  | none =>
    obtain ⟨c, hc, hcross⟩ := ht
    rw [leastLevel_eq_none.mp hL c hc] at hcross
    cases hcross
  | some L =>
    obtain ⟨⟨c, hc, hcross, rfl⟩, -⟩ := leastLevel_mem hL
    exact if_pos (hmax c hc hcross)

/-- Two active sets give a flow the same share when every link of the path has the same level
in both, or maxes the flow out in both. -/
theorem redistribute_alike {g : Network T} {flows flows' : FlowSet T} {path : List (Sym2 Nat)}
    {h : Flow T} (halike : ∀ c ∈ path, crosses g c h = true →
      linkLevel g flows c = linkLevel g flows' c ∨
        (maxedOut (linkLevel g flows c) h = true ∧ maxedOut (linkLevel g flows' c) h = true)) :
    redistribute g flows path h = redistribute g flows' path h := by
  by_cases ht : Touches g path h
  case neg => rw [redistribute_off ht, redistribute_off ht]
  case pos =>
    cases hL : leastLevel g flows path h with
    | none =>
      obtain ⟨c, hc, hcross⟩ := ht
      rw [leastLevel_eq_none.mp hL c hc] at hcross
      cases hcross
    | some L =>
      cases hL' : leastLevel g flows' path h with
      | none =>
        obtain ⟨c, hc, hcross⟩ := ht
        rw [leastLevel_eq_none.mp hL' c hc] at hcross
        cases hcross
      | some L' =>
        obtain ⟨⟨c, hc, hcross, rfl⟩, hle⟩ := leastLevel_mem hL
        obtain ⟨⟨c', hc', hcross', rfl⟩, hle'⟩ := leastLevel_mem hL'
        rw [redistribute, redistribute, hL, hL']
        show h.share _ = h.share _
        -- A least level that does not max the flow out is that of a link with one level only.
        have hle := hle c' hc' hcross'
        have hle' := hle' c hc hcross
        rcases halike c hc hcross with heq | hmax
        · rw [← heq] at hle'
          rcases halike c' hc' hcross' with heq' | hmax'
          · rw [heq'] at hle
            rw [le_antisymm hle hle']
          · rw [Flow.share, Flow.share, if_pos (Flow.maxedOut_mono hle' hmax'.2), if_pos hmax'.2]
        · rcases halike c' hc' hcross' with heq' | hmax'
          · rw [heq'] at hle
            rw [Flow.share, Flow.share, if_pos hmax.1, if_pos (Flow.maxedOut_mono hle hmax.1)]
          · rw [Flow.share, Flow.share, if_pos hmax.1, if_pos hmax'.2]

theorem linkLevel_congr {g : Network T} {flows flows' : FlowSet T} {c : Sym2 Nat}
    (h : ∀ k, (flows.get? k).filter (crosses g c) = (flows'.get? k).filter (crosses g c)) :
    linkLevel g flows c = linkLevel g flows' c := by
  have hsame : KeySet.Same (flows.filter (crosses g c)) (flows'.filter (crosses g c)) := by
    intro k
    rw [KeySet.get?_filter, KeySet.get?_filter, h]
  rw [linkLevel, linkLevel]
  exact partitionOf_perm hsame.perm

theorem maxedOut_of_sated {g : Network T} {flows : FlowSet T} {c : Sym2 Nat} (hs : Sated g flows c)
    (hfits : load g flows.elems c ≤ g.bandOf c) {h : Flow T} (hh : h ∈ flows.elems)
    (hcross : crosses g c h = true) : maxedOut (linkLevel g flows c) h = true :=
  maxedOut_of_fits (fun f hf => hs f (List.mem_filter.mp hf).1 (List.mem_filter.mp hf).2) hfits h
    (List.mem_filter.mpr ⟨hh, hcross⟩)

theorem Sated.withFlow {g : Network T} {flows : FlowSet T} {c : Sym2 Nat} {f : Flow T}
    (hs : Sated g flows c) (hf : f.isHungry = false) : Sated g (withFlow flows (remember flows f)) c := by
  intro h hh hcross
  rcases mem_withFlow hh with rfl | hh
  · rw [crosses_remember] at hcross
    unfold remember
    cases hold : flows.get? f.key with
    | none => exact hf
    | some old =>
      exact hs old (KeySet.mem_of_get? hold) ((crosses_congr g (KeySet.key_of_get? hold) c).trans hcross)
  · exact hs h hh hcross

/-! ## The load of a link -/

theorem load_cons (g : Network T) (f : Flow T) (flows : List (Flow T)) (c : Sym2 Nat) :
    load g (f :: flows) c = load g flows c + if crosses g c f then f.usedBandwidth else 0 := by
  rw [load, List.filter_cons]
  split
  · rw [List.map_cons, List.sum_cons, add_comm, ← load]
  · rw [← load, add_zero]

theorem load_remove (g : Network T) (flows : FlowSet T) (f : Flow T) (c : Sym2 Nat) :
    load g flows.elems c = load g (flows.remove f.key).elems c +
      if crosses g c f then usedBy flows f.key else 0 := by
  unfold usedBy
  cases hold : flows.get? f.key with
  | none => rw [KeySet.elems_remove_of_none hold]; simp
  | some old =>
    rw [load_perm g (KeySet.perm_cons_remove hold), load_cons,
      crosses_congr g (KeySet.key_of_get? hold)]
    rfl

theorem load_withFlow (g : Network T) (flows : FlowSet T) (f : Flow T) (c : Sym2 Nat) :
    load g (withFlow flows (remember flows f)).elems c = load g (flows.remove f.key).elems c +
      if crosses g c f then f.usedBandwidth else 0 := by
  unfold withFlow
  split <;> rename_i h
  · rw [usedBandwidth_remember] at h
    rw [h, key_remember]; simp
  · rw [KeySet.replace, load_cons, key_remember, crosses_remember, usedBandwidth_remember]

theorem usedBy_remove {flows : FlowSet T} {f₁ f₂ : Flow T} (hne : f₁.key ≠ f₂.key) :
    usedBy (flows.remove f₁.key) f₂.key = usedBy flows f₂.key := by
  rw [usedBy, KeySet.get?_remove, if_neg hne.symm, ← usedBy]

theorem load_first_le_peak (g : Network T) {flows : FlowSet T} {f₁ f₂ : Flow T}
    (hne : f₁.key ≠ f₂.key) (c : Sym2 Nat) :
    load g (withFlow flows (remember flows f₁)).elems c ≤ peak g flows f₁ f₂ c := by
  have hfirst := load_withFlow g flows f₁ c
  have hold := load_remove g (flows.remove f₁.key) f₂ c
  rw [usedBy_remove hne] at hold
  unfold peak
  by_cases hc₁ : crosses g c f₁ = true <;> by_cases hc₂ : crosses g c f₂ = true <;>
    simp only [hc₁, hc₂, reduceIte, Bool.false_eq_true] at hfirst hold ⊢ <;> omega

theorem load_second_le_peak {g : Network T} {flows flows₁ : FlowSet T} {f₁ f₂ : Flow T}
    (hne : f₁.key ≠ f₂.key) {c : Sym2 Nat}
    (hload : load g flows₁.elems c = load g (withFlow flows (remember flows f₁)).elems c)
    (hused : usedBy flows₁ f₂.key = usedBy flows f₂.key) :
    load g (withFlow flows₁ (remember flows₁ f₂)).elems c ≤ peak g flows f₁ f₂ c := by
  have hfirst := load_withFlow g flows f₁ c
  have hsecond := load_withFlow g flows₁ f₂ c
  have hold := load_remove g (flows.remove f₁.key) f₂ c
  have hold₁ := load_remove g flows₁ f₂ c
  rw [usedBy_remove hne] at hold
  rw [hused] at hold₁
  unfold peak
  by_cases hc₁ : crosses g c f₁ = true <;> by_cases hc₂ : crosses g c f₂ = true <;>
    simp only [hc₁, hc₂, reduceIte, Bool.false_eq_true] at hfirst hsecond hold hold₁ ⊢ <;> omega

/-! ## One update after the other -/

/-- Two updates of different flows, as measured, that leave each other's links settled. -/
structure Compatible (g : Network T) (flows : FlowSet T) (f₁ f₂ : Flow T) : Prop where
  settled : Settled g flows f₁ f₂
  ne : f₁.key ≠ f₂.key
  sated₁ : f₁.isHungry = false
  sated₂ : f₂.isHungry = false
  path₁ : f₁.cells g ≠ []
  path₂ : f₂.cells g ≠ []

/-- The active flows that an update shares the links among. -/
abbrev applied (flows : FlowSet T) (f : Flow T) : FlowSet T := withFlow flows (remember flows f)

abbrev updated (g : Network T) (flows : FlowSet T) (f h : Flow T) : Flow T :=
  redistribute g (applied flows f) (f.cells g) h

theorem updated_off {g : Network T} {flows : FlowSet T} {f h : Flow T}
    (hoff : ¬ Touches g (f.cells g) h) : updated g flows f h = h := redistribute_off hoff

def maxOutOn (g : Network T) (path : List (Sym2 Nat)) (f : Flow T) : Flow T :=
  if Touches g path f then f.maxOut else f

theorem maxOutOn_on {g : Network T} {path : List (Sym2 Nat)} {f : Flow T} (h : Touches g path f) :
    maxOutOn g path f = f.maxOut := if_pos h

theorem maxOutOn_off {g : Network T} {path : List (Sym2 Nat)} {f : Flow T} (h : ¬ Touches g path f) :
    maxOutOn g path f = f := if_neg h

@[simp] theorem key_maxOutOn (g : Network T) (path : List (Sym2 Nat)) (f : Flow T) :
    (maxOutOn g path f).key = f.key := by
  unfold maxOutOn
  split <;> rfl

@[simp] theorem usedBandwidth_maxOutOn (g : Network T) (path : List (Sym2 Nat)) (f : Flow T) :
    (maxOutOn g path f).usedBandwidth = f.usedBandwidth := by
  unfold maxOutOn
  split <;> rfl

theorem maxOut_remember (flows : FlowSet T) (f : Flow T) : (remember flows f).maxOut = f.maxOut := by
  unfold remember
  cases flows.get? f.key <;> rfl

namespace Compatible

variable {g : Network T} {flows flows₁ flows₂ flows₁₂ flows₂₁ : FlowSet T} {f₁ f₂ : Flow T}

theorem symm (p : Compatible g flows f₁ f₂) : Compatible g flows f₂ f₁ :=
  ⟨p.settled.symm, p.ne.symm, p.sated₂, p.sated₁, p.path₂, p.path₁⟩

/-- A flow that the first update sees, and that has links in common with both paths, contests
the links that it crosses. -/
theorem contested {h : Flow T} (hh : h ∈ (applied flows f₁).elems) {c : Sym2 Nat}
    (hcross : crosses g c h = true) (ht₁ : Touches g (f₁.cells g) h) (ht₂ : Touches g (f₂.cells g) h) :
    Contested g flows f₁ f₂ c := by
  rcases mem_withFlow hh with rfl | hh
  · have hk := key_remember flows f₁
    rw [Touches.congr hk] at ht₁ ht₂
    exact ⟨f₁, Or.inr (Or.inl rfl), (crosses_congr g hk c).symm.trans hcross, ht₁, ht₂⟩
  · exact ⟨h, Or.inl hh, hcross, ht₁, ht₂⟩

theorem updated_first (p : Compatible g flows f₁ f₂) {h : Flow T} (hh : h ∈ (applied flows f₁).elems)
    (ht₂ : Touches g (f₂.cells g) h) : updated g flows f₁ h = maxOutOn g (f₁.cells g) h := by
  by_cases ht₁ : Touches g (f₁.cells g) h
  case neg => rw [maxOutOn_off ht₁, updated_off ht₁]
  case pos =>
    rw [maxOutOn_on ht₁]
    refine redistribute_maxed ht₁ fun c hc hcross => ?_
    obtain ⟨hs, hpeak⟩ := p.settled c (Or.inl hc) (contested hh hcross ht₁ ht₂)
    exact maxedOut_of_sated (hs.withFlow p.sated₁) ((load_first_le_peak g p.ne c).trans hpeak) hh hcross

theorem filter_first (p : Compatible g flows f₁ f₂)
    (h₁ : Redistributed g (f₁.cells g) (applied flows f₁) flows₁) {c : Sym2 Nat}
    (hc : c ∈ f₂.cells g) : (flows₁.elems.filter (crosses g c)).Perm
      (((applied flows f₁).elems.filter (crosses g c)).map (maxOutOn g (f₁.cells g))) := by
  have hcross : crosses g c ∘ updated g flows f₁ = crosses g c :=
    funext fun h => crosses_redistribute g _ _ h c
  refine (h₁.perm.filter _).trans (List.Perm.of_eq ?_)
  rw [List.filter_map, hcross]
  refine List.map_congr_left fun h hh => ?_
  rw [List.mem_filter] at hh
  exact p.updated_first hh.1 ⟨c, hc, hh.2⟩

theorem load_first (p : Compatible g flows f₁ f₂)
    (h₁ : Redistributed g (f₁.cells g) (applied flows f₁) flows₁) {c : Sym2 Nat}
    (hc : c ∈ f₂.cells g) : load g flows₁.elems c = load g (applied flows f₁).elems c := by
  rw [load, ((p.filter_first h₁ hc).map _).sum_eq, List.map_map, load]
  exact congrArg _ (List.map_congr_left fun f _ => usedBandwidth_maxOutOn g _ f)

theorem sated_first (p : Compatible g flows f₁ f₂)
    (h₁ : Redistributed g (f₁.cells g) (applied flows f₁) flows₁) {c : Sym2 Nat}
    (hc : c ∈ f₂.cells g) (hs : Sated g flows c) : Sated g flows₁ c := by
  intro h hh hcross
  have hmem := (p.filter_first h₁ hc).mem_iff.mp (List.mem_filter.mpr ⟨hh, hcross⟩)
  obtain ⟨x, hx, rfl⟩ := List.mem_map.mp hmem
  rw [List.mem_filter] at hx
  by_cases ht : Touches g (f₁.cells g) x
  · rw [maxOutOn_on ht]; rfl
  · rw [maxOutOn_off ht]
    exact hs.withFlow p.sated₁ x hx.1 hx.2

theorem get?_first (p : Compatible g flows f₁ f₂)
    (h₁ : Redistributed g (f₁.cells g) (applied flows f₁) flows₁) :
    flows₁.get? f₂.key = (flows.get? f₂.key).map (maxOutOn g (f₁.cells g)) := by
  rw [h₁, get?_withFlow, key_remember, if_neg p.ne.symm]
  cases hold : flows.get? f₂.key with
  | none => rfl
  | some old =>
    have hk := KeySet.key_of_get? hold
    have hmem : old ∈ (applied flows f₁).elems := by
      refine KeySet.mem_of_get? (k := f₂.key) ?_
      rw [get?_withFlow, key_remember, if_neg p.ne.symm, hold]
    exact congrArg some (p.updated_first hmem ((Touches.congr hk).mpr (Touches.self p.path₂)))

theorem remember_first (p : Compatible g flows f₁ f₂)
    (h₁ : Redistributed g (f₁.cells g) (applied flows f₁) flows₁)
    (ht : ¬ Touches g (f₁.cells g) f₂) : remember flows₁ f₂ = remember flows f₂ := by
  unfold remember
  rw [p.get?_first h₁]
  cases hold : flows.get? f₂.key with
  | none => rfl
  | some old =>
    rw [Option.map_some, maxOutOn_off (mt (Touches.congr (KeySet.key_of_get? hold)).mp ht)]

theorem maxedOut_second (p : Compatible g flows f₁ f₂)
    (h₁ : Redistributed g (f₁.cells g) (applied flows f₁) flows₁) {c : Sym2 Nat}
    (hc : c ∈ f₂.cells g) (hcon : Contested g flows f₁ f₂ c) {h : Flow T}
    (hh : h ∈ (applied flows₁ f₂).elems) (hcross : crosses g c h = true) :
    maxedOut (linkLevel g (applied flows₁ f₂) c) h = true := by
  obtain ⟨hs, hpeak⟩ := p.settled c (Or.inr hc) hcon
  have hused : usedBy flows₁ f₂.key = usedBy flows f₂.key := by
    unfold usedBy
    rw [p.get?_first h₁, Option.map_map]
    exact congrArg (fun φ => ((flows.get? f₂.key).map φ).getD 0)
      (funext fun f => usedBandwidth_maxOutOn g _ f)
  exact maxedOut_of_sated ((p.sated_first h₁ hc hs).withFlow p.sated₂)
    ((load_second_le_peak p.ne (p.load_first h₁ hc) hused).trans hpeak) hh hcross

theorem linkLevel_second (p : Compatible g flows f₁ f₂)
    (h₁ : Redistributed g (f₁.cells g) (applied flows f₁) flows₁) {c : Sym2 Nat}
    (hc : c ∈ f₂.cells g) (hcon : ¬ Contested g flows f₁ f₂ c) :
    linkLevel g (applied flows f₂) c = linkLevel g (applied flows₁ f₂) c := by
  have ht₂ : ¬ Touches g (f₁.cells g) f₂ := fun ht =>
    hcon ⟨f₂, Or.inr (Or.inr rfl), decide_eq_true hc, ht, Touches.self p.path₂⟩
  refine linkLevel_congr fun k => ?_
  rw [get?_withFlow, get?_withFlow, p.remember_first h₁ ht₂, key_remember]
  by_cases hk : k = f₂.key
  · rw [if_pos hk, if_pos hk]
  · rw [if_neg hk, if_neg hk, h₁, get?_withFlow, key_remember]
    by_cases hk₁ : k = f₁.key
    · -- The first flow, old or new, is not on this link.
      have hnone : ∀ o : Option (Flow T), (∀ h ∈ o, h.key = f₁.key) →
          o.filter (crosses g c) = none := by
        intro o ho
        rw [Option.filter_eq_none_iff]
        intro h hh hcross
        rw [crosses_congr g (ho h hh)] at hcross
        exact hcon ⟨f₁, Or.inr (Or.inl rfl), hcross, Touches.self p.path₁, c, hc, hcross⟩
      rw [hnone, hnone]
      · intro h hh
        rw [if_pos hk₁, usedBandwidth_remember] at hh
        split at hh
        · cases hh
        · cases hh
          rw [key_redistribute, key_remember]
      · exact fun h hh => (KeySet.key_of_get? hh).trans hk₁
    · rw [if_neg hk₁]
      cases hh : flows.get? k with
      | none => rfl
      | some h =>
        rw [Option.map_some]
        cases hcross : crosses g c h with
        | false => simp [Option.filter, hcross]
        | true =>
          rw [redistribute_off fun ht => hcon ⟨h, Or.inl (KeySet.mem_of_get? hh), hcross, ht, c, hc, hcross⟩]

/-- The second update gives a flow off the first path what it would have given it without the
first update. -/
theorem updated_second (p : Compatible g flows f₁ f₂)
    (h₁ : Redistributed g (f₁.cells g) (applied flows f₁) flows₁) {h : Flow T}
    (hh : h ∈ (applied flows f₂).elems) (hh₁ : h ∈ (applied flows₁ f₂).elems) :
    updated g flows₁ f₂ h = updated g flows f₂ h := by
  refine redistribute_alike fun c hc hcross => ?_
  by_cases hcon : Contested g flows f₁ f₂ c
  · obtain ⟨hs, hpeak⟩ := p.settled c (Or.inr hc) hcon
    rw [peak_comm] at hpeak
    exact Or.inr ⟨p.maxedOut_second h₁ hc hcon hh₁ hcross, maxedOut_of_sated (hs.withFlow p.sated₂)
      ((load_first_le_peak g p.ne.symm c).trans hpeak) hh hcross⟩
  · exact Or.inl (p.linkLevel_second h₁ hc hcon).symm

def settle (g : Network T) (flows : FlowSet T) (f₁ f₂ h : Flow T) : Flow T :=
  if Touches g (f₁.cells g) h ∧ Touches g (f₂.cells g) h then h.maxOut
  else updated g flows f₂ (updated g flows f₁ h)

theorem settle_comm (g : Network T) (flows : FlowSet T) (f₁ f₂ h : Flow T) :
    settle g flows f₁ f₂ h = settle g flows f₂ f₁ h := by
  unfold settle
  by_cases ht₁ : Touches g (f₁.cells g) h <;> by_cases ht₂ : Touches g (f₂.cells g) h
  · rw [if_pos ⟨ht₁, ht₂⟩, if_pos ⟨ht₂, ht₁⟩]
  · rw [if_neg fun ht => ht₂ ht.2, if_neg fun ht => ht₂ ht.1, updated_off ht₂,
      updated_off (mt (Touches.congr (key_redistribute _ _ _ h)).mp ht₂)]
  · rw [if_neg fun ht => ht₁ ht.1, if_neg fun ht => ht₁ ht.2, updated_off ht₁,
      updated_off (mt (Touches.congr (key_redistribute _ _ _ h)).mp ht₁)]
  · rw [if_neg fun ht => ht₁ ht.1, if_neg fun ht => ht₁ ht.2, updated_off ht₁, updated_off ht₂,
      updated_off ht₁]

theorem updated_both (p : Compatible g flows f₁ f₂)
    (h₁ : Redistributed g (f₁.cells g) (applied flows f₁) flows₁) {h : Flow T}
    (hh : h ∈ (applied flows f₁).elems) (hne : h.key ≠ f₂.key) :
    updated g flows₁ f₂ (updated g flows f₁ h) = settle g flows f₁ f₂ h := by
  have hk : (updated g flows f₁ h).key = h.key := key_redistribute g _ _ h
  have hmem : updated g flows f₁ h ∈ (applied flows₁ f₂).elems := by
    refine KeySet.mem_of_get? (k := h.key) ?_
    rw [get?_withFlow, key_remember, if_neg hne, h₁, KeySet.get?_eq_some.mpr ⟨hh, rfl⟩]
    rfl
  by_cases ht₂ : Touches g (f₂.cells g) h
  case neg =>
    have ht₂' := mt (Touches.congr hk).mp ht₂
    rw [settle, if_neg fun ht => ht₂ ht.2, updated_off ht₂', updated_off ht₂']
  case pos =>
    rw [p.updated_first hh ht₂] at hmem ⊢
    by_cases ht₁ : Touches g (f₁.cells g) h
    case pos =>
      have hk : h.maxOut.key = h.key := rfl
      rw [settle, if_pos ⟨ht₁, ht₂⟩]
      rw [maxOutOn_on ht₁] at hmem ⊢
      refine redistribute_maxed ((Touches.congr hk).mpr ht₂) fun c hc hcross => ?_
      rw [crosses_congr g hk] at hcross
      exact p.maxedOut_second h₁ hc (contested hh hcross ht₁ ht₂) hmem hcross
    case neg =>
      rw [settle, if_neg fun ht => ht₁ ht.1]
      rw [maxOutOn_off ht₁] at hmem ⊢
      rw [updated_off ht₁]
      refine p.updated_second h₁ ?_ hmem
      -- The flow is not the first one, so the second update alone sees it too.
      rcases mem_withFlow hh with rfl | hh
      · exact absurd ((Touches.congr (key_remember flows f₁)).mpr (Touches.self p.path₁)) ht₁
      · refine KeySet.mem_of_get? (k := h.key) ?_
        rw [get?_withFlow, key_remember, if_neg hne, KeySet.get?_eq_some.mpr ⟨hh, rfl⟩]

theorem updated_self (p : Compatible g flows f₁ f₂)
    (h₁ : Redistributed g (f₁.cells g) (applied flows f₁) flows₁) (hused : f₂.usedBandwidth ≠ 0) :
    updated g flows₁ f₂ (remember flows₁ f₂) = settle g flows f₁ f₂ (remember flows f₂) := by
  have hmem : ∀ flows : FlowSet T, remember flows f₂ ∈ (applied flows f₂).elems := by
    intro flows
    refine KeySet.mem_of_get? (k := f₂.key) ?_
    rw [get?_withFlow, key_remember, if_pos rfl, usedBandwidth_remember, if_neg hused]
  have ht₂ : ∀ flows : FlowSet T, Touches g (f₂.cells g) (remember flows f₂) := fun flows =>
    (Touches.congr (key_remember flows f₂)).mpr (Touches.self p.path₂)
  by_cases ht₁ : Touches g (f₁.cells g) f₂
  case pos =>
    rw [settle, if_pos ⟨(Touches.congr (key_remember flows f₂)).mpr ht₁, ht₂ flows⟩,
      maxOut_remember, ← maxOut_remember flows₁]
    refine redistribute_maxed (ht₂ flows₁) fun c hc hcross => ?_
    have hcross₂ : crosses g c f₂ = true := (crosses_remember g flows₁ f₂ c).symm.trans hcross
    exact p.maxedOut_second h₁ hc ⟨f₂, Or.inr (Or.inr rfl), hcross₂, ht₁, c, hc, hcross₂⟩
      (hmem flows₁) hcross
  case neg =>
    have hsame := p.remember_first h₁ ht₁
    have ht₁' := mt (Touches.congr (key_remember flows f₂)).mp ht₁
    rw [settle, if_neg fun ht => ht₁' ht.1, hsame, updated_off ht₁']
    exact p.updated_second h₁ (hmem flows) (hsame ▸ hmem flows₁)

theorem get?_second (p : Compatible g flows f₁ f₂) (hused : f₂.usedBandwidth ≠ 0)
    (h₁ : Redistributed g (f₁.cells g) (applied flows f₁) flows₁)
    (h₁₂ : Redistributed g (f₂.cells g) (applied flows₁ f₂) flows₁₂) (k : Vertex.Id T × Vertex.Id T) :
    flows₁₂.get? k = (if k = f₂.key then some (remember flows f₂)
      else (applied flows f₁).get? k).map (settle g flows f₁ f₂) := by
  rw [h₁₂, get?_withFlow, key_remember]
  split <;> rename_i hk
  · rw [usedBandwidth_remember, if_neg hused]
    exact congrArg some (p.updated_self h₁ hused)
  · rw [h₁]
    cases hh : (applied flows f₁).get? k with
    | none => rfl
    | some h =>
      exact congrArg some (p.updated_both h₁ (KeySet.mem_of_get? hh) (KeySet.key_of_get? hh ▸ hk))

/-- Compatible updates give the same active flows in both orders. -/
theorem same (p : Compatible g flows f₁ f₂) (hused₁ : f₁.usedBandwidth ≠ 0)
    (hused₂ : f₂.usedBandwidth ≠ 0)
    (h₁ : Redistributed g (f₁.cells g) (applied flows f₁) flows₁)
    (h₁₂ : Redistributed g (f₂.cells g) (applied flows₁ f₂) flows₁₂)
    (h₂ : Redistributed g (f₂.cells g) (applied flows f₂) flows₂)
    (h₂₁ : Redistributed g (f₁.cells g) (applied flows₂ f₁) flows₂₁) :
    KeySet.Same flows₁₂ flows₂₁ := by
  intro k
  rw [p.get?_second hused₂ h₁ h₁₂, p.symm.get?_second hused₁ h₂ h₂₁, get?_withFlow, get?_withFlow,
    funext (settle_comm g flows f₁ f₂)]
  simp only [key_remember, usedBandwidth_remember, if_neg hused₁, if_neg hused₂]
  congr 1
  by_cases hk₁ : k = f₁.key
  · rw [if_pos hk₁, if_pos hk₁, if_neg fun hk₂ => p.ne (hk₁.symm.trans hk₂)]
  · rw [if_neg hk₁, if_neg hk₁]

end Compatible

theorem Measured.isHungry {g : Network T} {f : Flow T} (h : Measured g f) : f.isHungry = false := by
  obtain ⟨props, measured, -, hf⟩ := h
  rw [hf]
  rfl

theorem update_returns (it : Iter) {g : Network T} (hg : g.Wf) (hs : g.pathStrategy = .shortestPath)
    {s : FlowSet T × Network T} (hI : RunInv g s) {f : Flow T} (hf : (Call.update f).Valid g) :
    Returns (call it .wrapping g s (.update f)) fun s' =>
      RunInv g s' ∧ Redistributed g (f.cells g) (applied s.1 f) s'.1 :=
  call_wrapping it hg hs hI hf

/-- Between two calls of any run, two updates of different flows give the same active flows in
both orders, when the links that they contest are settled. -/
theorem update_comm {g : Network T} (hb : g.Built) (hs : g.pathStrategy = .shortestPath)
    {s : FlowSet T × Network T} (h : Reach .wrapping g (fun _ c => c.Valid g) s) {f₁ f₂ : Flow T}
    (hf₁ : (Call.update f₁).Valid g) (hf₂ : (Call.update f₂).Valid g) (hne : f₁.key ≠ f₂.key)
    (hset : Settled g s.1 f₁ f₂) (it₁ it₂ it₃ it₄ : Iter) :
    Returns (call it₁ .wrapping g s (.update f₁)) fun s₁ =>
      Returns (call it₂ .wrapping g s₁ (.update f₂)) fun s₁₂ =>
        Returns (call it₃ .wrapping g s (.update f₂)) fun s₂ =>
          Returns (call it₄ .wrapping g s₂ (.update f₁)) fun s₂₁ => KeySet.Same s₁₂.1 s₂₁.1 := by
  have hg := hb.wf
  have hI := h.runInv hg hs
  have p : Compatible g s.1 f₁ f₂ := ⟨hset, hne, hf₁.1.isHungry, hf₂.1.isHungry, hf₁.1.cells hg,
    hf₂.1.cells hg⟩
  refine (update_returns it₁ hg hs hI hf₁).mono fun s₁ h₁ => ?_
  refine (update_returns it₂ hg hs h₁.1 hf₂).mono fun s₁₂ h₁₂ => ?_
  refine (update_returns it₃ hg hs hI hf₂).mono fun s₂ h₂ => ?_
  refine (update_returns it₄ hg hs h₂.1 hf₁).mono fun s₂₁ h₂₁ => ?_
  exact p.same hf₁.2 hf₂.2 h₁.2 h₁₂.2 h₂.2 h₂₁.2

theorem twoLinks_update_comm : Returns (call .inOrder .wrapping twoLinks (KeySet.empty, twoLinks)
      (.update (wideFlow 0 2 20))) fun s =>
    Returns (call .inOrder .wrapping twoLinks s (.update (wideFlow 0 1 30))) fun s₁ =>
      Returns (call .inOrder .wrapping twoLinks s₁ (.update (wideFlow 1 2 40))) fun s₁₂ =>
        Returns (call .inOrder .wrapping twoLinks s (.update (wideFlow 1 2 40))) fun s₂ =>
          Returns (call .inOrder .wrapping twoLinks s₂ (.update (wideFlow 0 1 30))) fun s₂₁ =>
            KeySet.Same s₁₂.1 s₂₁.1 := by
  obtain ⟨s, hs, hset⟩ : Returns (call .inOrder .wrapping twoLinks (KeySet.empty, twoLinks)
      (.update (wideFlow 0 2 20))) fun s =>
        ∀ c ∈ (wideFlow 0 1 30).cells twoLinks ++ (wideFlow 1 2 40).cells twoLinks,
          Sated twoLinks s.1 c ∧
            peak twoLinks s.1 (wideFlow 0 1 30) (wideFlow 1 2 40) c ≤ twoLinks.bandOf c := by
    decide +kernel
  have hreach : Reach .wrapping twoLinks (fun _ c => c.Valid twoLinks) s :=
    .call (c := .update (wideFlow 0 2 20)) .inOrder .start
      ⟨wideFlow_measured 20 (by decide +kernel), by decide⟩ hs
  exact ⟨s, hs, update_comm twoLinks_built rfl hreach
    ⟨wideFlow_measured 30 (by decide +kernel), by decide⟩
    ⟨wideFlow_measured 40 (by decide +kernel), by decide⟩ (by decide)
    (fun c hc _ => hset c (List.mem_append.mpr hc)) .inOrder .inOrder .inOrder .inOrder⟩

/-- A flow of sixty goes down to ten, and the way back wants eighty. When the way back comes
first there is no room for it, and both flows stay at fifty. -/
theorem update_order_matters :
    (twoLinks.Built ∧ twoLinks.pathStrategy = .shortestPath) ∧
    ∃ s f₁ f₂, Reach .wrapping twoLinks (fun _ c => c.Valid twoLinks) s ∧
      (Call.update f₁).Valid twoLinks ∧ (Call.update f₂).Valid twoLinks ∧ f₁.key ≠ f₂.key ∧
      Returns (call .inOrder .wrapping twoLinks s (.update f₁)) fun s₁ =>
        Returns (call .inOrder .wrapping twoLinks s₁ (.update f₂)) fun s₁₂ =>
          Returns (call .inOrder .wrapping twoLinks s (.update f₂)) fun s₂ =>
            Returns (call .inOrder .wrapping twoLinks s₂ (.update f₁)) fun s₂₁ =>
              ¬ KeySet.Same s₁₂.1 s₂₁.1 := by
  refine ⟨⟨twoLinks_built, rfl⟩, ?_⟩
  obtain ⟨s, hs, s₁, h₁, s₁₂, h₁₂, s₂, h₂, s₂₁, h₂₁, hdiff⟩ :
      Returns (call .inOrder .wrapping twoLinks (KeySet.empty, twoLinks)
        (.update (wideFlow 0 1 60))) fun s =>
      Returns (call .inOrder .wrapping twoLinks s (.update (wideFlow 0 1 10))) fun s₁ =>
        Returns (call .inOrder .wrapping twoLinks s₁ (.update (wideFlow 1 0 80))) fun s₁₂ =>
          Returns (call .inOrder .wrapping twoLinks s (.update (wideFlow 1 0 80))) fun s₂ =>
            Returns (call .inOrder .wrapping twoLinks s₂ (.update (wideFlow 0 1 10))) fun s₂₁ =>
              s₁₂.1.get? (wideFlow 0 1 10).key ≠ s₂₁.1.get? (wideFlow 0 1 10).key := by decide +kernel
  have hreach : Reach .wrapping twoLinks (fun _ c => c.Valid twoLinks) s :=
    .call (c := .update (wideFlow 0 1 60)) .inOrder .start
      ⟨wideFlow_measured 60 (by decide +kernel), by decide⟩ hs
  exact ⟨s, wideFlow 0 1 10, wideFlow 1 0 80, hreach,
    ⟨wideFlow_measured 10 (by decide +kernel), by decide⟩,
    ⟨wideFlow_measured 80 (by decide +kernel), by decide⟩, by decide,
    s₁, h₁, s₁₂, h₁₂, s₂, h₂, s₂₁, h₂₁, fun hsame => hdiff (hsame _)⟩

end Bwsync

end Kollaps
