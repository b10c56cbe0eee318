import Kollaps.Bwsync.Sharing

/-!
# How fair one link is

The flows on a link get no more than there is, and each the least of its demand and the level.
A hungry flow whose maximum is below the level takes its maximum, and the rest of its part is
not divided again, so more can be left over than the rounding explains.
-/

namespace Kollaps

open Run WaterFilling

namespace Bwsync

variable {T : Type}

/-! ## Shares are safe -/

theorem authorized_share_le (p : ℚ) (f : Flow T) :
    (f.share p).authorizedBandwidth ≤ f.maxAllowedBandwidth := by
  unfold Flow.share
  split
  · exact le_refl _
  · exact min_le_right _ _

theorem map_key_share [Vertex T] (p : ℚ) (flows : List (Flow T)) :
    (flows.map (Flow.share p)).map Flow.key = flows.map Flow.key := by
  rw [List.map_map]
  exact List.map_congr_left fun f _ => Flow.key_share p f

/-- The flows that come back are the flows that went in, none above its maximum and none of the
satisfied ones raised, and they fit on the link. -/
theorem sharing_safe [Vertex T] (it : Iter) (link : Link T) (flows : FlowSet T)
    (hused : ∀ f ∈ flows.elems, f.usedBandwidth ≤ f.maxAllowedBandwidth) :
    Returns (distributeBandwidthAcrossFlow it link flows) fun r =>
      r.keys.Perm flows.keys ∧
      (∀ f' ∈ r.elems, ∃ f ∈ flows.elems, (f'.source = f.source ∧ f'.destination = f.destination ∧
        f'.maxAllowedBandwidth = f.maxAllowedBandwidth) ∧
        f'.authorizedBandwidth ≤ f'.maxAllowedBandwidth ∧
        f'.usedBandwidth ≤ f'.maxAllowedBandwidth ∧
        (f.isHungry = false → f'.usedBandwidth ≤ f.usedBandwidth)) ∧
      (r.elems.map Flow.usedBandwidth).sum ≤ link.bandwidth := by
  refine (distributeBandwidthAcrossFlow_spec it link flows).mono fun r h => ⟨?_, ?_, ?_⟩
  · have hkeys := h.map Flow.key
    rwa [map_key_share] at hkeys
  · intro f' hf'
    obtain ⟨f, hf, rfl⟩ := List.mem_map.mp (h.mem_iff.mp hf')
    refine ⟨f, hf, ⟨Flow.source_share _ f, Flow.destination_share _ f,
      Flow.maxAllowedBandwidth_share _ f⟩, ?_, ?_, fun hungry => ?_⟩
    · rw [Flow.maxAllowedBandwidth_share]
      exact authorized_share_le _ f
    · rw [Flow.maxAllowedBandwidth_share]
      exact Flow.used_share_le_max (hused f hf)
    · exact Flow.used_share_le_used (partitionOf_nonneg _ _) hungry
  · rw [(h.map _).sum_eq, List.map_map]
    exact sum_share_le link.bandwidth flows.elems

def cappedFlows : FlowSet Nat :=
  ⟨[⟨0, 1, 10, 10, 10, true⟩, ⟨2, 1, 50, 50, 100, true⟩], by decide⟩

def sharedLink : Link Nat := Link.build 0 1 0 1 100

theorem sharing_safe_capped : Returns (distributeBandwidthAcrossFlow .inOrder sharedLink cappedFlows) fun r =>
    r.keys.Perm cappedFlows.keys ∧ (r.elems.map Flow.usedBandwidth).sum ≤ sharedLink.bandwidth :=
  (sharing_safe .inOrder sharedLink cappedFlows (by decide)).mono fun _ h => ⟨h.1, h.2.2⟩

/-! ## Demands and the level -/

def demand (f : Flow T) : Nat := if f.isHungry then f.maxAllowedBandwidth else f.usedBandwidth

/-- The level of a link: with this part for each hungry flow, and for the others as much of it as
they use, nothing is left over. -/
def IsLevel (bandwidth : Nat) (flows : List (Flow T)) (L : ℚ) : Prop :=
  poured want Flow.isHungry flows L = bandwidth

def capped (L : ℚ) (flows : List (Flow T)) : Nat :=
  ((flows.filter Flow.isHungry).map fun f => ⌊L⌋₊ - f.maxAllowedBandwidth).sum

def wanting (L : ℚ) (flows : List (Flow T)) : Nat :=
  (flows.filter fun f => !sated want Flow.isHungry L f).length

/-- At the level everybody is satisfied, or what hungry flows leave and what the rounding loses is
less than one unit for each flow. -/
def NoWaste (bandwidth : Nat) (flows : List (Flow T)) : Prop :=
  ∀ L : ℚ, IsLevel bandwidth flows L → (∀ f ∈ flows, demand f ≤ ⌊L⌋₊) ∨
    capped L flows + wanting L flows * (L - ⌊L⌋₊) < flows.length

theorem used_share_eq {L : ℚ} (hL : 0 ≤ L) {f : Flow T}
    (hused : f.usedBandwidth ≤ f.maxAllowedBandwidth) (hmax : f.maxAllowedBandwidth ≤ u32Max) :
    (f.share L).usedBandwidth = min (demand f) ⌊L⌋₊ := by
  have hfloor : f.usedBandwidth ≤ ⌊L⌋₊ ↔ (f.usedBandwidth : ℚ) ≤ L := Nat.le_floor_iff hL
  unfold Flow.share demand
  by_cases hs : maxedOut L f = true
  · obtain ⟨hh, hle⟩ := Flow.maxedOut_iff.mp hs
    rw [if_pos hs, hh, min_eq_left]
    · rfl
    · simpa using hfloor.mpr hle
  · rw [if_neg hs]
    simp only [Flow.limit, Flow.castU32]
    cases hh : f.isHungry
    · -- The flow uses more than the level, and so may have it.
      have hlt : ⌊L⌋₊ < f.usedBandwidth := by
        rw [← not_le, hfloor]
        exact fun hle => hs (Flow.maxedOut_iff.mpr ⟨hh, hle⟩)
      simp only [Bool.false_eq_true, if_false]
      omega
    · simp only [if_true]
      omega

theorem left_over (L : ℚ) (hL : 0 ≤ L) (flows : List (Flow T)) :
    poured want Flow.isHungry flows L - ((flows.map fun f => min (demand f) ⌊L⌋₊).sum : Nat) =
      capped L flows + wanting L flows * (L - ⌊L⌋₊) := by
  induction flows with
  | nil => simp [poured, capped, wanting]
  | cons f flows ih =>
    simp only [poured, capped, wanting] at ih ⊢
    rw [List.map_cons, List.sum_cons, List.map_cons, List.sum_cons]
    have hfloor : f.usedBandwidth ≤ ⌊L⌋₊ ↔ (f.usedBandwidth : ℚ) ≤ L := Nat.le_floor_iff hL
    cases hh : f.isHungry
    · by_cases hle : (f.usedBandwidth : ℚ) ≤ L
      · -- A satisfied flow leaves nothing.
        have hs : sated want Flow.isHungry L f = true := sated_iff.mpr ⟨hh, hle⟩
        have hwant : min (want f) L = f.usedBandwidth := min_eq_left hle
        have hdemand : min (demand f) ⌊L⌋₊ = f.usedBandwidth := by
          rw [demand, hh]
          exact min_eq_left (hfloor.mpr hle)
        simp only [hh, hs, hwant, hdemand, List.filter_cons, Bool.false_eq_true, if_false, Bool.not_true]
        push_cast at ih ⊢
        linarith
      · have hs : sated want Flow.isHungry L f = false := by
          rw [Bool.eq_false_iff]
          exact fun h => hle (sated_iff.mp h).2
        have hwant : min (want f) L = L := min_eq_right (not_le.mp hle).le
        have hdemand : min (demand f) ⌊L⌋₊ = ⌊L⌋₊ := by
          rw [demand, hh]
          exact min_eq_right (not_le.mp (mt hfloor.mp hle)).le
        simp only [hh, hs, hwant, hdemand, List.filter_cons, Bool.false_eq_true, if_false, Bool.not_false,
          if_true, List.length_cons]
        push_cast at ih ⊢
        linarith
    · have hs : sated want Flow.isHungry L f = false := by simp [sated, hh]
      have hdemand : min (demand f) ⌊L⌋₊ + (⌊L⌋₊ - f.maxAllowedBandwidth) = ⌊L⌋₊ := by
        rw [demand, hh]
        simp only [if_true]
        omega
      have hcast : ((min (demand f) ⌊L⌋₊ : Nat) : ℚ) + ((⌊L⌋₊ - f.maxAllowedBandwidth : Nat) : ℚ) = ⌊L⌋₊ := by
        exact_mod_cast hdemand
      simp only [hh, hs, List.filter_cons, Bool.not_false, if_true, List.map_cons, List.sum_cons,
        List.length_cons]
      push_cast at ih hcast ⊢
      linarith

theorem demand_le_floor {L : ℚ} {f : Flow T} (h : sated want Flow.isHungry L f = true) :
    demand f ≤ ⌊L⌋₊ := by
  obtain ⟨hh, hle⟩ := sated_iff.mp h
  rw [demand, hh]
  exact Nat.le_floor hle

theorem sum_take_partitionOf (bandwidth : Nat) {flows : List (Flow T)} (hne : flows ≠ []) :
    poured want Flow.isHungry flows (partitionOf bandwidth flows) ≤ bandwidth ∧
      ((∃ f ∈ flows, sated want Flow.isHungry (partitionOf bandwidth flows) f = false) →
        IsLevel bandwidth flows (partitionOf bandwidth flows)) := by
  have hlen : (flows.length : ℚ) ≠ 0 := by
    simpa using hne
  have hsum := sum_take_level want Flow.isHungry flows (bandwidth / flows.length : ℚ)
  rw [sum_take, div_mul_cancel₀ _ hlen] at hsum
  exact hsum

/-- There is no waste at the level of the loop exactly when there is none at any level. -/
theorem noWaste_iff {bandwidth : Nat} {flows : List (Flow T)} (hne : flows ≠ []) :
    NoWaste bandwidth flows ↔
      ((∃ f ∈ flows, ⌊partitionOf bandwidth flows⌋₊ < demand f) → bandwidth <
        (flows.map fun f => min (demand f) ⌊partitionOf bandwidth flows⌋₊).sum + flows.length) := by
  set P := partitionOf bandwidth flows with hP
  have hP0 : 0 ≤ P := partitionOf_nonneg bandwidth flows
  obtain ⟨hle, hlevel⟩ := sum_take_partitionOf bandwidth hne
  rw [← hP] at hle hlevel
  have hdemand : (∃ f ∈ flows, ⌊P⌋₊ < demand f) ↔ ¬ ∀ f ∈ flows, demand f ≤ ⌊P⌋₊ := by
    simp only [not_forall, not_le, exists_prop]
  by_cases hleft : ∃ f ∈ flows, sated want Flow.isHungry P f = false
  · -- The level of the loop is the only one.
    have hpour := hlevel hleft
    have hover := left_over P hP0 flows
    rw [show poured want Flow.isHungry flows P = bandwidth from hpour] at hover
    have hwaste : (bandwidth : ℚ) < ((flows.map fun f => min (demand f) ⌊P⌋₊).sum : Nat) + flows.length ↔
        (capped P flows : ℚ) + wanting P flows * (P - ⌊P⌋₊) < flows.length := by
      constructor <;> intro h <;> linarith
    have hcast : bandwidth < (flows.map fun f => min (demand f) ⌊P⌋₊).sum + flows.length ↔
        (bandwidth : ℚ) < ((flows.map fun f => min (demand f) ⌊P⌋₊).sum : Nat) + flows.length := by
      rw [← Nat.cast_add, Nat.cast_lt]
    rw [hcast, hwaste, hdemand, ← or_iff_not_imp_left]
    constructor
    · intro h
      exact h P hpour
    · intro h L hL
      have hLP : L = P := eq_of_poured (hpour.trans hL.symm) hleft
      rw [hLP]
      exact h
  · -- Everybody is satisfied, at this level and at any other.
    simp only [not_exists, not_and, Bool.not_eq_false] at hleft
    refine iff_of_true (fun L hL => Or.inl fun f hf => ?_) fun h => ?_
    · by_contra hgt
      have hfL : sated want Flow.isHungry L f = false := by
        rw [Bool.eq_false_iff]
        exact fun hs => hgt (demand_le_floor hs)
      have hLP : L < P := by
        by_contra hge
        rw [sated_mono (not_lt.mp hge) (hleft f hf)] at hfL
        cases hfL
      have hlt := poured_lt hLP ⟨f, hf, hfL⟩
      rw [show poured want Flow.isHungry flows L = bandwidth from hL] at hlt
      exact absurd hlt (not_lt.mpr hle)
    · exact absurd (fun f hf => demand_le_floor (hleft f hf)) (hdemand.mp h)

/-- The shares are fair: each is the least of the demand and one level. And when somebody gets less
than its demand, less than one unit for each flow is left over. -/
def FairAndFull [Vertex T] (it : Iter) (link : Link T) (flows : FlowSet T) : Prop :=
  Returns (distributeBandwidthAcrossFlow it link flows) fun r =>
    (∃ L : ℚ, ∀ f ∈ flows.elems, ∃ f' ∈ r.elems, f'.key = f.key ∧
      f'.usedBandwidth = min (demand f) ⌊L⌋₊) ∧
    ((∃ f ∈ flows.elems, ∃ f' ∈ r.elems, f'.key = f.key ∧ f'.usedBandwidth < demand f) →
      link.bandwidth < (r.elems.map Flow.usedBandwidth).sum + flows.len)

/-- Sharing is fair and wastes nothing exactly when the hungry flows that may not have the level
leave little enough. -/
theorem fair_and_full_iff [Vertex T] (it : Iter) (link : Link T) (flows : FlowSet T)
    (hne : flows.elems ≠ [])
    (hused : ∀ f ∈ flows.elems, f.usedBandwidth ≤ f.maxAllowedBandwidth)
    (hmax : ∀ f ∈ flows.elems, f.maxAllowedBandwidth ≤ u32Max) :
    FairAndFull it link flows ↔ NoWaste link.bandwidth flows.elems := by
  obtain ⟨r, hr, hperm⟩ := distributeBandwidthAcrossFlow_spec it link flows
  have hP0 := partitionOf_nonneg link.bandwidth flows.elems
  rw [noWaste_iff hne, FairAndFull, hr, returns_ok]
  generalize partitionOf link.bandwidth flows.elems = P at hperm hP0 ⊢
  have hshare : ∀ f ∈ flows.elems, (f.share P).usedBandwidth = min (demand f) ⌊P⌋₊ := fun f hf =>
    used_share_eq hP0 (hused f hf) (hmax f hf)
  have hmem : ∀ f ∈ flows.elems, f.share P ∈ r.elems := fun f hf =>
    hperm.mem_iff.mpr (List.mem_map_of_mem hf)
  have hsum : (r.elems.map Flow.usedBandwidth).sum = (flows.elems.map fun f => min (demand f) ⌊P⌋₊).sum := by
    rw [(hperm.map _).sum_eq, List.map_map]
    exact congrArg _ (List.map_congr_left hshare)
  have hless : (∃ f ∈ flows.elems, ∃ f' ∈ r.elems, f'.key = f.key ∧ f'.usedBandwidth < demand f) ↔
      ∃ f ∈ flows.elems, ⌊P⌋₊ < demand f := by
    constructor
    · rintro ⟨f, hf, f', hf', hkey, hlt⟩
      refine ⟨f, hf, ?_⟩
      rw [r.eq_of_key_eq hf' (hmem f hf) (hkey.trans (Flow.key_share P f).symm), hshare f hf] at hlt
      omega
    · rintro ⟨f, hf, hlt⟩
      refine ⟨f, hf, f.share P, hmem f hf, Flow.key_share P f, ?_⟩
      rw [hshare f hf]
      omega
  rw [hless, hsum, and_iff_right]
  · rfl
  · exact ⟨P, fun f hf => ⟨f.share P, hmem f hf, Flow.key_share P f, hshare f hf⟩⟩

theorem fair_and_full_capped :
    FairAndFull .inOrder sharedLink cappedFlows ↔ NoWaste sharedLink.bandwidth cappedFlows.elems :=
  fair_and_full_iff .inOrder sharedLink cappedFlows (by decide) (by decide) (by decide)

/-- The level is fifty. The flow that may have ten leaves forty, and the other gets fifty. -/
theorem capped_waste :
    (∀ f ∈ cappedFlows.elems, f.usedBandwidth ≤ f.maxAllowedBandwidth) ∧
    ¬ FairAndFull .inOrder sharedLink cappedFlows := by
  obtain ⟨r, hr, hless, hfull⟩ :
      Returns (distributeBandwidthAcrossFlow .inOrder sharedLink cappedFlows) fun r =>
        (∃ f ∈ cappedFlows.elems, ∃ f' ∈ r.elems, f'.key = f.key ∧ f'.usedBandwidth < demand f) ∧
        ¬ sharedLink.bandwidth < (r.elems.map Flow.usedBandwidth).sum + cappedFlows.len := by
    decide +kernel
  refine ⟨by decide, ?_⟩
  rintro ⟨r', hr', -, hfair⟩
  rw [hr, Except.ok.injEq] at hr'
  subst hr'
  exact hfull (hfair hless)

end Bwsync

end Kollaps
