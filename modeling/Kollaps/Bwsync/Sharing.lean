import Kollaps.Bwsync.Basic
import Mathlib.Algebra.BigOperators.Ring.Finset

/-!
# What one call computes

`distribute_bandwidth_across_flow` is water filling, and `merge` keeps the lowest level. So a
call maps every active flow to its share at the least level of the links it has in common
with the updated flow, whatever the order in which the hash sets are walked.
-/

namespace Kollaps

open Run WaterFilling

namespace Flow

variable {T : Type}

/-- What one link gives to a flow, at the level of that link. -/
def share (partition : ℚ) (f : Flow T) : Flow T :=
  if Bwsync.maxedOut partition f then f.maxOut else f.limit partition

@[simp] theorem key_share [Vertex T] (partition : ℚ) (f : Flow T) : (f.share partition).key = f.key := by
  unfold share
  split <;> rfl

@[simp] theorem source_share (partition : ℚ) (f : Flow T) :
    (f.share partition).source = f.source := by
  unfold share
  split <;> rfl

@[simp] theorem destination_share (partition : ℚ) (f : Flow T) :
    (f.share partition).destination = f.destination := by
  unfold share
  split <;> rfl

@[simp] theorem maxAllowedBandwidth_share (partition : ℚ) (f : Flow T) :
    (f.share partition).maxAllowedBandwidth = f.maxAllowedBandwidth := by
  unfold share
  split <;> rfl

theorem castU32_mono {p p' : ℚ} (h : p ≤ p') : castU32 p ≤ castU32 p' :=
  min_le_min_right _ (Nat.floor_mono h)

theorem castU32_le {p : ℚ} (h : 0 ≤ p) : (castU32 p : ℚ) ≤ p :=
  (Nat.cast_le.mpr (min_le_left _ _)).trans (Nat.floor_le h)

theorem maxedOut_iff {p : ℚ} {f : Flow T} :
    Bwsync.maxedOut p f = true ↔ f.isHungry = false ∧ (f.usedBandwidth : ℚ) ≤ p := by
  simp [Bwsync.maxedOut, and_comm]

theorem maxedOut_mono {p p' : ℚ} {f : Flow T} (h : p ≤ p') (hp : Bwsync.maxedOut p f = true) :
    Bwsync.maxedOut p' f = true := by
  rw [maxedOut_iff] at hp ⊢
  exact ⟨hp.1, hp.2.trans h⟩

theorem used_share_mono {p p' : ℚ} (hp : 0 ≤ p) (h : p ≤ p') (f : Flow T) :
    (f.share p).usedBandwidth ≤ (f.share p').usedBandwidth := by
  unfold share
  split <;> rename_i hs
  · obtain ⟨h1, h2⟩ := maxedOut_iff.mp hs
    rw [if_pos (maxedOut_iff.mpr ⟨h1, h2.trans h⟩)]
  · split <;> rename_i hs'
    · -- The flow wants more than the lower level, so it gets less than it wants.
      obtain ⟨h1, -⟩ := maxedOut_iff.mp hs'
      have hlt : p < f.usedBandwidth := by
        by_contra hle
        exact hs (maxedOut_iff.mpr ⟨h1, not_lt.mp hle⟩)
      have hcast : (castU32 p : ℚ) < f.usedBandwidth := (castU32_le hp).trans_lt hlt
      have := Nat.cast_lt.mp hcast
      simp only [limit, maxOut]
      omega
    · exact min_le_min_right _ (castU32_mono h)

theorem used_share_le_max {p : ℚ} {f : Flow T} (h : f.usedBandwidth ≤ f.maxAllowedBandwidth) :
    (f.share p).usedBandwidth ≤ f.maxAllowedBandwidth := by
  unfold share
  split
  · exact h
  · exact min_le_right _ _

theorem used_share_le_used {p : ℚ} (hp : 0 ≤ p) {f : Flow T} (h : f.isHungry = false) :
    (f.share p).usedBandwidth ≤ f.usedBandwidth := by
  unfold share
  split <;> rename_i hs
  · exact le_refl _
  · have hlt : p < f.usedBandwidth := by
      by_contra hle
      exact hs (maxedOut_iff.mpr ⟨h, not_lt.mp hle⟩)
    have := Nat.cast_lt.mp ((castU32_le hp).trans_lt hlt)
    simp only [limit]
    omega

end Flow

namespace Bwsync

variable {T : Type}

/-! ## Sharing one link -/

def want (f : Flow T) : ℚ := f.usedBandwidth

/-- The last partition of a link with this bandwidth among these flows. -/
def partitionOf (bandwidth : Nat) (flows : List (Flow T)) : ℚ :=
  level want Flow.isHungry flows (bandwidth / flows.length)

theorem maxedOut_eq (p : ℚ) : maxedOut (T := T) p = sated want Flow.isHungry p := by
  funext f
  rw [Bool.eq_iff_iff, Flow.maxedOut_iff, sated_iff]
  rfl

theorem partitionOf_perm {bandwidth : Nat} {flows flows' : List (Flow T)} (h : flows.Perm flows') :
    partitionOf bandwidth flows = partitionOf bandwidth flows' := by
  rw [partitionOf, partitionOf, h.length_eq, level_perm h]

theorem partitionOf_nonneg (bandwidth : Nat) (flows : List (Flow T)) :
    0 ≤ partitionOf bandwidth flows :=
  (div_nonneg (Nat.cast_nonneg _) (Nat.cast_nonneg _)).trans (le_level _ _)

theorem div_mul_length (bandwidth : Nat) (flows : List (Flow T)) :
    (bandwidth / flows.length : ℚ) * flows.length ≤ bandwidth := by
  rcases Nat.eq_zero_or_pos flows.length with h | h
  · rw [h]; simp
  · rw [div_mul_cancel₀]
    exact_mod_cast (ne_of_gt h)

theorem used_share_le_take {p : ℚ} (hp : 0 ≤ p) (f : Flow T) :
    ((f.share p).usedBandwidth : ℚ) ≤ take want Flow.isHungry p f := by
  unfold Flow.share take
  rw [maxedOut_eq]
  split
  · exact le_refl _
  · exact (Nat.cast_le.mpr (min_le_left _ _)).trans (Flow.castU32_le hp)

theorem cast_sum_map {α : Type} (f : α → Nat) (l : List α) :
    (((l.map f).sum : Nat) : ℚ) = (l.map fun x => (f x : ℚ)).sum := by
  rw [Nat.cast_list_sum, List.map_map]
  rfl

theorem sum_share_le (bandwidth : Nat) (flows : List (Flow T)) :
    (flows.map fun f => (f.share (partitionOf bandwidth flows)).usedBandwidth).sum ≤ bandwidth := by
  have hp := partitionOf_nonneg bandwidth flows
  have hle : (flows.map fun f => ((f.share (partitionOf bandwidth flows)).usedBandwidth : ℚ)).sum ≤
      (flows.map (take want Flow.isHungry (partitionOf bandwidth flows))).sum :=
    List.sum_le_sum fun f _ => used_share_le_take hp f
  rw [← cast_sum_map] at hle
  exact Nat.cast_le.mp ((hle.trans (sum_take_level _ _ _ _).1).trans (div_mul_length bandwidth flows))

theorem maxedOut_of_fits {bandwidth : Nat} {flows : List (Flow T)}
    (hungry : ∀ f ∈ flows, f.isHungry = false)
    (hfit : (flows.map Flow.usedBandwidth).sum ≤ bandwidth) :
    ∀ f ∈ flows, maxedOut (partitionOf bandwidth flows) f = true := by
  intro f hf
  have hlen : (0 : ℚ) < flows.length := by
    exact_mod_cast List.length_pos_of_mem hf
  have hsum : (flows.map want).sum ≤ (bandwidth / flows.length : ℚ) * flows.length := by
    rw [div_mul_cancel₀ _ (ne_of_gt hlen)]
    have := cast_sum_map Flow.usedBandwidth flows
    exact this ▸ Nat.cast_le.mpr hfit
  rw [maxedOut_eq]
  exact sated_of_fits hungry hsum f hf

theorem foldl_add_sum {α : Type} (f : α → ℚ) (l : List α) (a : ℚ) :
    l.foldl (fun acc x => acc + f x) a = a + (l.map f).sum := by
  induction l generalizing a with
  | nil => simp
  | cons x l ih => rw [List.foldl_cons, ih, List.map_cons, List.sum_cons, add_assoc]

variable [Vertex T]

/-- The invariant of the loop: the flows that left have their share of the last level. -/
structure DistributionInv (flows : FlowSet T) (L : ℚ) (s : Distribution T) : Prop where
  level : level want Flow.isHungry s.flows.elems s.actualPartition = L
  split : ∃ done, s.newFlows.elems.Perm (done.map (Flow.share L)) ∧
    (done ++ s.flows.elems).Perm flows.elems

theorem DistributionInv.add {flows : FlowSet T} {L : ℚ} {s : Distribution T} (it : Iter)
    (hI : DistributionInv flows L s) (leaving : List (Flow T)) {φ : Flow T → Flow T}
    (hsub : leaving.Sublist s.flows.elems) (hφ : ∀ f ∈ leaving, f.share L = φ f) :
    ∃ done, ((it.order leaving).foldl (fun acc f => acc.insert (φ f)) s.newFlows).elems.Perm
        ((done ++ leaving).map (Flow.share L)) ∧ (done ++ s.flows.elems).Perm flows.elems := by
  obtain ⟨done, hnew, hdone⟩ := hI.split
  refine ⟨done, ?_, hdone⟩
  have hmap : (it.order leaving).map φ = (it.order leaving).map (Flow.share L) :=
    List.map_congr_left fun f hf => (hφ f (it.mem_order.mp hf)).symm
  have hkeys : ((done ++ leaving).map Flow.key).Nodup := by
    have h1 : (done ++ leaving).Sublist (done ++ s.flows.elems) := List.Sublist.append_left hsub done
    exact List.Nodup.sublist (h1.map _) ((hdone.map _).nodup_iff.mpr flows.nodup)
  have hshare : ∀ l : List (Flow T), (l.map (Flow.share L)).map Flow.key = l.map Flow.key := by
    intro l
    rw [List.map_map]
    exact List.map_congr_left fun f _ => Flow.key_share L f
  have hnd : (((it.order leaving).map (Flow.share L)).map Flow.key ++ s.newFlows.keys).Nodup := by
    have h2 : s.newFlows.keys.Perm (done.map Flow.key) := by
      rw [← hshare]
      exact hnew.map _
    rw [hshare]
    refine ((((it.perm leaving).map _).append h2).trans List.perm_append_comm).nodup_iff.mpr ?_
    rw [← List.map_append]
    exact hkeys
  rw [← List.foldl_map, hmap]
  refine (KeySet.elems_foldl_insert hnd).trans ?_
  rw [List.map_append]
  exact (((it.perm leaving).map _).append hnew).trans List.perm_append_comm

theorem distributeRound_spec (it : Iter) {flows : FlowSet T} {L : ℚ} {s : Distribution T}
    (hI : DistributionInv flows L s) :
    Returns (distributeRound it s) (Round (DistributionInv flows L) (fun s => s.flows.len)
      (fun r => r.elems.Perm (flows.elems.map (Flow.share L))) s) := by
  unfold distributeRound
  simp only [KeySet.elems_filter, maxedOut_eq, List.isEmpty_iff]
  split <;> rename_i hnil
  · -- Nobody leaves, so the partition is the level.
    rw [returns_pure]
    have hL : s.actualPartition = L := by rw [← level_done hnil]; exact hI.level
    obtain ⟨done, h1, h2⟩ := hI.add it s.flows.elems (φ := Flow.limit s.actualPartition) (List.Sublist.refl _)
      (by
        intro f hf
        have := List.filter_eq_nil_iff.mp hnil f hf
        rw [← hL, Flow.share, maxedOut_eq, if_neg this])
    exact h1.trans (h2.map _)
  · rw [returns_pure]
    have hlt := length_filter_unsated_lt hnil
    have hdiff : (s.flows.difference (s.flows.filter (sated want Flow.isHungry s.actualPartition))).elems =
        s.flows.elems.filter fun f => !sated want Flow.isHungry s.actualPartition f := by
      refine List.filter_congr fun f hf => ?_
      rw [KeySet.contains, KeySet.get?_filter, KeySet.get?_key hf]
      cases hs : sated want Flow.isHungry s.actualPartition f <;> simp [Option.filter, hs]
    have hnext : s.actualPartition + (it.order (s.flows.elems.filter
          (sated want Flow.isHungry s.actualPartition))).foldl
            (fun acc f => acc + (s.actualPartition - f.usedBandwidth)) 0 /
          (s.flows.difference (s.flows.filter (sated want Flow.isHungry s.actualPartition))).len =
        nextPart want Flow.isHungry s.flows.elems s.actualPartition := by
      rw [foldl_add_sum, zero_add, ((it.perm _).map _).sum_eq, KeySet.len, hdiff]
      rfl
    have hle : s.actualPartition ≤ L := by rw [← hI.level]; exact le_level _ _
    obtain ⟨done, h1, h2⟩ := hI.add it
      (s.flows.elems.filter (sated want Flow.isHungry s.actualPartition)) (φ := Flow.maxOut)
      List.filter_sublist
      (by
        intro f hf
        have := sated_mono hle (List.mem_filter.mp hf).2
        rw [Flow.share, maxedOut_eq, if_pos this])
    refine ⟨⟨?_, _, h1, ?_⟩, ?_⟩
    · simp only [hnext, hdiff]
      rw [← level_next hnil]
      exact hI.level
    · simp only [hdiff]
      rw [List.append_assoc]
      refine ((List.Perm.append_left done ?_)).trans h2
      exact List.filter_append_perm _ _
    · simp only [KeySet.len, hdiff]
      exact hlt

theorem distributeBandwidthAcrossFlow_spec (it : Iter) (link : Link T) (flows : FlowSet T) :
    Returns (distributeBandwidthAcrossFlow it link flows) fun r =>
      r.elems.Perm (flows.elems.map (Flow.share (partitionOf link.bandwidth flows.elems))) := by
  unfold distributeBandwidthAcrossFlow
  refine Returns.loop (DistributionInv flows (partitionOf link.bandwidth flows.elems))
    (fun s => s.flows.len) ?_ (Nat.lt_succ_self _) fun s hI => distributeRound_spec it hI
  exact ⟨rfl, [], by simp, by simp⟩

end Bwsync

end Kollaps
