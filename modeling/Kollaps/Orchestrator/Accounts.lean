import Kollaps.Orchestrator.Calls

/-!
# The tables account for one another

A load is counted for an emulation that the host is attributed, and an emulation that a host is
attributed is registered. So what the orchestrator forgets holds no load.
-/

namespace Kollaps

open Run

namespace Orchestrator

structure Accounted (o : Orchestrator) : Prop where
  loaded : ∀ h u l, o.loadOf h u = some l → 1 ≤ l ∧ o.Attributed h u
  attributed : ∀ h u, o.Attributed h u → o.emulations.lookup u ≠ none

variable {ar : Arith} {it : Iter} {o o' : Orchestrator} {id : Uuid} {matrix : SymMatrix Nat} {p : List Nat}

/-- What is not registered holds no load, on any host. -/
theorem Accounted.idle (ho : o.Accounted) {u : Uuid} (hu : o.emulations.lookup u = none)
    (h : ClusterNodeInfo) : o.loadOf h u = none ∧ ¬ o.Attributed h u := by
  have hattr : ¬ o.Attributed h u := fun ha => ho.attributed h u ha hu
  refine ⟨?_, hattr⟩
  cases hload : o.loadOf h u with
  | none => rfl
  | some l => exact absurd (ho.loaded h u l hload).2 hattr

theorem new_accounted {cgraph : Cgraph.CGraph ClusterNodeInfo} {port maxLoad : Nat}
    (h : Orchestrator.new it cgraph port maxLoad = .ok o) : o.Accounted := by
  unfold Orchestrator.new at h
  obtain ⟨⟨residualGraph, hostMapping⟩, -, h⟩ := of_bind_eq_ok h
  cases h
  refine ⟨fun h u l hl => ?_, fun h u ha => ?_⟩
  · cases hl
  · obtain ⟨uuids, hlookup, -⟩ := ha
    cases hlookup

theorem Placed.accounted {places : List ClusterNodeInfo} (h : Placed ar it o id matrix p places o')
    (ho : o.Accounted) : o'.Accounted := by
  refine ⟨fun x u l hl => ?_, fun x u ha => ?_⟩
  · rw [h.loadOf] at hl
    rw [h.attributed]
    split at hl <;> rename_i hx
    · have hcount : 0 < places.count x := List.count_pos_iff.mpr hx.2
      cases hl
      exact ⟨by omega, Or.inr hx⟩
    · obtain ⟨hpos, hattr⟩ := ho.loaded x u l hl
      exact ⟨hpos, Or.inl hattr⟩
  · rw [h.emulations, KeySet.lookup_put]
    split <;> rename_i hu
    · simp
    · rw [h.attributed] at ha
      exact ho.attributed x u (ha.resolve_right fun hx => hu hx.1)

theorem AppStopped.accounted {node : ClusterNodeInfo} {appIndex : Nat}
    (h : AppStopped ar o id node appIndex matrix p o') (ho : o.Accounted) : o'.Accounted := by
  refine ⟨fun x u l hl => ?_, fun x u ha => ?_⟩
  · rw [h.loadOf] at hl
    rw [h.attributed]
    split at hl <;> rename_i hx
    · obtain ⟨rfl, rfl⟩ := hx
      obtain ⟨l₀, hl₀, hl⟩ := Option.bind_eq_some_iff.mp hl
      obtain ⟨hpos, hattr⟩ := ho.loaded x u l₀ hl₀
      split at hl <;> rename_i hone
      · cases hl
      · cases hl
        refine ⟨by omega, hattr, fun hlast => hone ?_⟩
        rw [hlast.2.2] at hl₀
        exact (Option.some.inj hl₀).symm
    · obtain ⟨hpos, hattr⟩ := ho.loaded x u l hl
      exact ⟨hpos, hattr, fun hlast => hx ⟨hlast.1, hlast.2.1⟩⟩
  · have hu := ho.attributed x u ((h.attributed x u).mp ha).1
    by_cases hkept : ∃ y, o'.Attributed y id
    · rwa [h.kept hkept]
    · rw [h.forgotten hkept, KeySet.lookup_remove, if_neg]
      · exact hu
      · rintro rfl
        exact hkept ⟨x, ha⟩

theorem Stopped.accounted (h : Stopped ar o id matrix p o') (ho : o.Accounted) : o'.Accounted := by
  refine ⟨fun x u l hl => ?_, fun x u ha => ?_⟩
  · rw [h.loadOf] at hl
    rw [h.attributed]
    split at hl <;> rename_i hu
    · cases hl
    · obtain ⟨hpos, hattr⟩ := ho.loaded x u l hl
      exact ⟨hpos, hattr, hu⟩
  · obtain ⟨hattr, hu⟩ := (h.attributed x u).mp ha
    rw [h.emulations, KeySet.lookup_remove, if_neg hu]
    exact ho.attributed x u hattr

theorem NodeRemoved.idle {node : ClusterNodeInfo} {uuids : List Uuid} {i : Nat} {o₁ : Orchestrator}
    (h : NodeRemoved ar o node uuids i o₁ o') (ho : o.Accounted) :
    ∀ x u, o'.loadOf x u = none ∧ ¬ o'.Attributed x u := by
  have hinv := stopEach_inv (fun done s => s.Accounted ∧ (∀ x u, s.Attributed x u → o.Attributed x u) ∧
    ∀ u ∈ done, ∀ x, ¬ s.Attributed x u) ⟨ho, fun _ _ ha => ha, by simp⟩ (fun done u s s' hs hstep => ?_)
    h.stopped
  · obtain ⟨hacc, hfrom, hdone⟩ := hinv
    have hnone : ∀ x u, ¬ o₁.Attributed x u := fun x u ha =>
      hdone u ((h.concerned u).mpr ⟨x, hfrom x u ha⟩) x ha
    intro x u
    constructor
    · unfold Orchestrator.loadOf
      rw [h.currentLoad]
      cases hload : o₁.loadOf x u with
      | none => exact hload
      | some l => exact absurd (hacc.loaded x u l hload).2 (hnone x u)
    · rintro ⟨set, hlookup, hu⟩
      rw [h.attributedEmul, KeySet.lookup_remove] at hlookup
      split at hlookup
      · cases hlookup
      · exact hnone x u ⟨set, hlookup, hu⟩
  · obtain ⟨hacc, hfrom, hdone⟩ := hs
    rcases hstep with hstop | ⟨hnone, rfl⟩
    · obtain ⟨matrix, p, hstopped⟩ := stopEmulation_ok hstop
      refine ⟨hstopped.accounted hacc, fun x v ha => hfrom x v ((hstopped.attributed x v).mp ha).1,
        fun v hv x ha => ?_⟩
      obtain ⟨hold, hne⟩ := (hstopped.attributed x v).mp ha
      rcases List.mem_append.mp hv with hv | hv
      · exact hdone v hv x hold
      · exact hne (List.mem_singleton.mp hv)
    · refine ⟨hacc, hfrom, fun v hv x => ?_⟩
      rcases List.mem_append.mp hv with hv | hv
      · exact hdone v hv x
      · rw [List.mem_singleton.mp hv]
        exact (hacc.idle hnone x).2

theorem NodeRemoved.accounted {node : ClusterNodeInfo} {uuids : List Uuid} {i : Nat} {o₁ : Orchestrator}
    (h : NodeRemoved ar o node uuids i o₁ o') (ho : o.Accounted) : o'.Accounted := by
  refine ⟨fun x u l hl => ?_, fun x u ha => absurd ha (h.idle ho x u).2⟩
  rw [(h.idle ho x u).1] at hl
  cases hl

theorem updateWithCgraph_accounted {cgraph : Cgraph.CGraph ClusterNodeInfo} {uuids : List Uuid}
    (h : o.updateWithCgraph ar it cgraph = .ok (o', uuids)) (ho : o.Accounted) : o'.Accounted := by
  refine updateWithCgraph_inv (fun _ s => s.Accounted) ho (fun _ _ _ _ _ _ _ hs h => h.accounted hs)
    (fun done matrix nodesToIndex node s s' hs h => ?_) (fun _ _ _ _ hs => hs) h
  obtain ⟨residualGraph, rfl⟩ := addClusterNode_ok h
  exact ⟨hs.loaded, hs.attributed⟩

end Orchestrator

end Kollaps
