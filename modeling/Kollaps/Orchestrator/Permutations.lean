import Kollaps.Orchestrator.Exhaustive

/-!
# Tests of permutations

The test of a permutation looks only at the hosts that it gives to the apps. All permutations of a
combination are tested, and two combinations that name the same hosts are as good as each other.
-/

namespace Kollaps

open Run

namespace Orchestrator

variable {ar : Arith} {it it' : Iter} {o : Orchestrator} {g1 residual residual' : SymMatrix Nat}
  {comb comb' e e' : List Nat}

structure Testable (o : Orchestrator) (g1 residual : SymMatrix Nat) (mapper : List Nat) : Prop where
  mapped : o.Mapped
  hosts : 0 < o.residualGraph.n
  loads : ∀ node ∈ o.hostMapping, o.totalLoad node ≤ o.maxLoad
  size : residual.n = g1.n
  length : mapper.length = g1.n

theorem Testable.bearing (h : Testable o g1 residual comb) (v : Nat) : o.Bearing (v % o.residualGraph.n) := by
  obtain ⟨node, hnode⟩ := h.mapped.node (Nat.mod_lt v h.hosts)
  exact ⟨node, hnode, h.loads node (List.mem_of_getElem? hnode)⟩

/-! ## The answer of a test -/

theorem verifyPermutation_iff (h : Testable o g1 residual comb) (hsum : Summable ar g1)
    (he : e.Perm (List.range g1.n)) :
    Returns (o.verifyPermutation ar it g1 residual e comb) fun accepted =>
      accepted = true ↔ Passes ar o g1 (o.hosts e comb) := by
  have hshaped : Shaped o g1 e comb _ := ⟨he, h.length, rfl⟩
  obtain ⟨accepted, haccepted, hrefused⟩ : Returns (o.verifyPermutation ar it g1 residual e comb) _ :=
    hshaped.verifyPermutation_returns hsum h.hosts (fun v _ => h.bearing v) h.size
  refine ⟨accepted, haccepted, fun htrue => ?_, fun hpasses => ?_⟩
  · have hfound : Found ar it o g1 (o.hosts e comb) :=
      ⟨h.hosts, comb, e, residual, h.length, h.size.symm, he, rfl, htrue ▸ haccepted⟩
    exact hfound.passes
  · by_contra hfalse
    exact hrefused (Bool.eq_false_iff.mpr hfalse) hpasses

theorem verifyPermutation_congr (h : Testable o g1 residual comb) (h' : Testable o g1 residual' comb')
    (hsum : Summable ar g1) (he : e.Perm (List.range g1.n)) (he' : e'.Perm (List.range g1.n))
    (hosts : o.hosts e comb = o.hosts e' comb') :
    o.verifyPermutation ar it g1 residual e comb = o.verifyPermutation ar it' g1 residual' e' comb' := by
  obtain ⟨b, hb, hiff⟩ : Returns (o.verifyPermutation ar it g1 residual e comb) _ :=
    verifyPermutation_iff h hsum he
  obtain ⟨b', hb', hiff'⟩ : Returns (o.verifyPermutation ar it' g1 residual' e' comb') _ :=
    verifyPermutation_iff h' hsum he'
  rw [hb, hb', Bool.eq_iff_iff.mpr (hiff.trans (hosts ▸ hiff'.symm))]

/-! ## All permutations -/

theorem graphIsomorphism_iff (h : Testable o g1 residual comb) (hsum : Summable ar g1) :
    Returns (o.graphIsomorphism ar it g1 residual comb) fun found =>
      (∀ e, found = some e → e.Perm (List.range g1.n) ∧
        o.verifyPermutation ar it g1 residual e comb = .ok true) ∧
      (found = none → ∀ e, e.Perm (List.range g1.n) → ¬ Passes ar o g1 (o.hosts e comb)) := by
  have hverify : ∀ e, e.Perm (List.range g1.n) →
      Returns (o.verifyPermutation ar it g1 residual e comb) fun accepted =>
        accepted = false → ¬ Passes ar o g1 (o.hosts e comb) := fun e he =>
    (verifyPermutation_iff h hsum he).mono fun accepted hiff hfalse hpasses => by
      rw [hiff.mpr hpasses] at hfalse
      cases hfalse
  have hreturns : Returns (o.graphIsomorphism ar it g1 residual comb) fun found =>
      found = none → ∀ e, e.Perm (List.range g1.n) → ¬ Passes ar o g1 (o.hosts e comb) := by
    rcases Nat.eq_zero_or_pos g1.n with hzero | happs
    · unfold graphIsomorphism verifyPermutation
      simp only [SymMatrix.size, h.size, hzero]
      exact ⟨some [], rfl, by simp⟩
    · exact graphIsomorphism_returns happs h.size hverify
  obtain ⟨found, hfound, hnone⟩ := hreturns
  refine ⟨found, hfound, fun e he => ?_, hnone⟩
  rw [he] at hfound
  exact (graphIsomorphism_some hfound).2

/-- Heap's algorithm tests every permutation: it gives one that is accepted where there is one, and
nothing otherwise. Where an overflow panics, the demands that go out of a host must not overflow. -/
theorem permutations_exhausted (h : Testable o g1 residual comb) (hsum : Summable ar g1) :
    (∀ e, e.Perm (List.range g1.n) → ∃ accepted, o.verifyPermutation ar it g1 residual e comb =
      .ok accepted) ∧
    ((∃ e, e.Perm (List.range g1.n) ∧ o.verifyPermutation ar it g1 residual e comb = .ok true) →
      ∃ e, e.Perm (List.range g1.n) ∧ o.verifyPermutation ar it g1 residual e comb = .ok true ∧
        o.graphIsomorphism ar it g1 residual comb = .ok (some e)) ∧
    ((¬ ∃ e, e.Perm (List.range g1.n) ∧ o.verifyPermutation ar it g1 residual e comb = .ok true) →
      o.graphIsomorphism ar it g1 residual comb = .ok none) := by
  obtain ⟨found, hfound, hsome, hnone⟩ : Returns (o.graphIsomorphism ar it g1 residual comb) _ :=
    graphIsomorphism_iff h hsum
  refine ⟨fun e he => ?_, fun hex => ?_, fun hnot => ?_⟩
  · obtain ⟨accepted, haccepted, -⟩ : Returns (o.verifyPermutation ar it g1 residual e comb) _ :=
      verifyPermutation_iff h hsum he
    exact ⟨accepted, haccepted⟩
  · obtain ⟨e, he, haccepted⟩ := hex
    cases found with
    | none =>
      have hpasses := (Returns.of_eq (verifyPermutation_iff h hsum he) haccepted).mp rfl
      exact absurd hpasses (hnone rfl e he)
    | some e' => exact ⟨e', (hsome e' rfl).1, (hsome e' rfl).2, hfound⟩
  · cases found with
    | none => exact hfound
    | some e => exact absurd ⟨e, hsome e rfl⟩ hnot

/-! ## Combinations that name the same hosts -/

theorem Reduced.clones {set : IndexSet} (h : o.Reduced comb set) {v : Nat} (hv : v ∈ set.elems) {j : Nat}
    (hj : j ≤ v / o.residualGraph.n) : v % o.residualGraph.n + o.residualGraph.n * j ∈ set.elems := by
  induction hd : v / o.residualGraph.n - j generalizing j with
  | zero =>
    obtain rfl : j = v / o.residualGraph.n := by omega
    rwa [Nat.mod_add_div]
  | succ d ih =>
    have hnext := ih (j := j + 1) (by omega) (by omega)
    have hdown := h.down _ hnext (by rw [Nat.mul_succ]; omega)
    rwa [Nat.mul_succ, ← Nat.add_assoc, Nat.add_sub_cancel] at hdown

/-- The set has as many clones of a host as the combination, the first ones. -/
theorem Reduced.mem_iff {set : IndexSet} (h : o.Reduced comb set) (hN : 0 < o.residualGraph.n) (v : Nat) :
    v ∈ set.elems ↔ v / o.residualGraph.n < (o.named comb).count (v % o.residualGraph.n) := by
  have hcount : (o.named comb).count (v % o.residualGraph.n) =
      (set.elems.filter fun u => u % o.residualGraph.n = v % o.residualGraph.n).length := by
    rw [Orchestrator.named, ← h.named.count_eq, List.count, List.countP_map, List.countP_eq_length_filter]
    exact congrArg List.length (List.filter_congr fun u _ => by simp [Bool.beq_eq_decide_eq])
  have hclones : ∀ q, ((List.range q).map fun j => v % o.residualGraph.n + o.residualGraph.n * j).Nodup := by
    intro q
    refine List.Nodup.map_on (fun i _ j _ hij => ?_) List.nodup_range
    exact Nat.eq_of_mul_eq_mul_left hN (Nat.add_left_cancel hij)
  rw [hcount]
  constructor
  · intro hv
    have hsub : ((List.range (v / o.residualGraph.n + 1)).map fun j =>
        v % o.residualGraph.n + o.residualGraph.n * j) ⊆
          set.elems.filter fun u => u % o.residualGraph.n = v % o.residualGraph.n := by
      intro u hu
      obtain ⟨j, hj, rfl⟩ := List.mem_map.mp hu
      refine List.mem_filter.mpr ⟨h.clones hv (Nat.le_of_lt_succ (List.mem_range.mp hj)), ?_⟩
      simp
    simpa using (List.subperm_of_subset (hclones _) hsub).length_le
  · intro hlt
    by_contra hv
    have hsub : (set.elems.filter fun u => u % o.residualGraph.n = v % o.residualGraph.n) ⊆
        (List.range (v / o.residualGraph.n)).map fun j => v % o.residualGraph.n + o.residualGraph.n * j := by
      intro u hu
      obtain ⟨hu, hmod⟩ := List.mem_filter.mp hu
      have hmod : u % o.residualGraph.n = v % o.residualGraph.n := of_decide_eq_true hmod
      refine List.mem_map.mpr ⟨u / o.residualGraph.n, List.mem_range.mpr ?_, ?_⟩
      · by_contra hle
        have hclone := h.clones hu (Nat.le_of_not_lt hle)
        rw [hmod, Nat.mod_add_div] at hclone
        exact hv hclone
      · rw [← hmod, Nat.mod_add_div]
    have hle := (List.subperm_of_subset (set.elems_nodup.filter _) hsub).length_le
    rw [List.length_map, List.length_range] at hle
    omega

theorem Reduced.same_iff {set set' : IndexSet} (hN : 0 < o.residualGraph.n) (h : o.Reduced comb set)
    (h' : o.Reduced comb' set') : set.same set' = true ↔ (o.named comb).Perm (o.named comb') := by
  constructor
  · intro hsame
    have hperm := (IndexSet.perm_of_same hsame).map fun v => v % o.residualGraph.n
    exact h.named.symm.trans (hperm.trans h'.named)
  · intro hperm
    refine IndexSet.same_of_perm
      ((List.perm_ext_iff_of_nodup set.elems_nodup set'.elems_nodup).mpr fun v => ?_)
    rw [h.mem_iff hN, h'.mem_iff hN, hperm.count_eq]

theorem isSome_iff_not_refused (h : Testable o g1 residual comb) (hsum : Summable ar g1) :
    Returns (o.graphIsomorphism ar it g1 residual comb) fun found =>
      found.isSome = true ↔ ¬ Refused ar o g1 comb := by
  refine (graphIsomorphism_iff h hsum).mono fun found hfound => ?_
  obtain ⟨hsome, hnone⟩ := hfound
  cases found with
  | none =>
    refine iff_of_false (by simp) (not_not.mpr fun p hp => ?_)
    obtain ⟨e, he, rfl⟩ := exists_equivalence h.length hp
    exact hnone rfl e he
  | some e =>
    obtain ⟨he, haccepted⟩ := hsome e rfl
    have hpasses := (Returns.of_eq (verifyPermutation_iff h hsum he) haccepted).mp rfl
    exact iff_of_true rfl fun hrefused => hrefused _ (hosts_perm h.length he) hpasses

/-- The set of a combination stands for the hosts that it names, and combinations that name the same
hosts give the same answers. -/
theorem pruning_sound (hN : 0 < o.residualGraph.n) (comb comb' : List Nat) :
    ∃ set set', o.combinationSet comb = .ok set ∧ o.combinationSet comb' = .ok set' ∧
    (set.same set' = true ↔ (o.named comb).Perm (o.named comb')) ∧
    (set.same set' = true → ∀ (ar : Arith) (it it' : Iter) (g1 residual residual' : SymMatrix Nat),
      Testable o g1 residual comb → Testable o g1 residual' comb' → Summable ar g1 →
      ∃ found found', o.graphIsomorphism ar it g1 residual comb = .ok found ∧
        o.graphIsomorphism ar it' g1 residual' comb' = .ok found' ∧ found.isSome = found'.isSome) ∧
    ∀ (ar : Arith) (it it' : Iter) (g1 residual residual' : SymMatrix Nat) (e e' : List Nat),
      Testable o g1 residual comb → Testable o g1 residual' comb' → Summable ar g1 →
      e.Perm (List.range g1.n) → e'.Perm (List.range g1.n) → o.hosts e comb = o.hosts e' comb' →
      o.verifyPermutation ar it g1 residual e comb = o.verifyPermutation ar it' g1 residual' e' comb' := by
  obtain ⟨set, hset, hreduced⟩ := combinationSet_returns hN comb
  obtain ⟨set', hset', hreduced'⟩ := combinationSet_returns hN comb'
  have hsame := hreduced.same_iff hN hreduced'
  refine ⟨set, set', hset, hset', hsame, fun heq ar it it' g1 residual residual' h h' hsum => ?_,
    fun ar it it' g1 residual residual' e e' h h' hsum he he' hosts =>
      verifyPermutation_congr h h' hsum he he' hosts⟩
  have hperm := hsame.mp heq
  obtain ⟨found, hfound, hiff⟩ : Returns (o.graphIsomorphism ar it g1 residual comb) _ :=
    isSome_iff_not_refused h hsum
  obtain ⟨found', hfound', hiff'⟩ : Returns (o.graphIsomorphism ar it' g1 residual' comb') _ :=
    isSome_iff_not_refused h' hsum
  refine ⟨found, found', hfound, hfound', Bool.eq_iff_iff.mpr (hiff.trans (Iff.trans ?_ hiff'.symm))⟩
  exact not_congr ⟨fun hrefused => hrefused.congr hperm.symm, fun hrefused => hrefused.congr hperm⟩

/-! ## Three apps on two hosts -/

theorem new_testable {cgraph : Cgraph.CGraph ClusterNodeInfo} {port maxLoad : Nat}
    (h : Orchestrator.new it cgraph port maxLoad = .ok o) (hmapped : o.Mapped) (hN : 0 < o.residualGraph.n)
    (hsize : residual.n = g1.n) (hlen : comb.length = g1.n) : Testable o g1 residual comb := by
  refine ⟨hmapped, hN, fun node _ => ?_, hsize, hlen⟩
  unfold Orchestrator.new at h
  obtain ⟨⟨residualGraph, hostMapping⟩, -, h⟩ := of_bind_eq_ok h
  cases h
  exact Nat.zero_le _

def demoDemand (large small : Nat) : Run (SymMatrix Nat) :=
  SymMatrix.newFn 3 fun row col => pure (if row = col then u32Max else if col = 2 then small else large)

theorem permutations_exhausted_demo : ∃ (o : Orchestrator) (g1 : SymMatrix Nat) (e : List Nat),
    o.verifyPermutation .exact .inOrder g1 g1 [0, 1, 2] [0, 1, 3] = .ok false ∧ e.Perm (List.range g1.n) ∧
      o.graphIsomorphism .exact .inOrder g1 g1 [0, 1, 3] = .ok (some e) := by
  obtain ⟨graph, -, o, ho, ⟨hN, hlen⟩, g1, -, hn, hfirst, hlater⟩ :
      Returns (demoCluster [0, 1] 1000) fun graph =>
        Returns (Orchestrator.new .inOrder graph 9092 4) fun o =>
          (o.residualGraph.n = 2 ∧ o.hostMapping.length = 2) ∧
            Returns (demoDemand 2000 100) fun g1 => g1.n = 3 ∧
            o.verifyPermutation .exact .inOrder g1 g1 [0, 1, 2] [0, 1, 3] = .ok false ∧
            o.verifyPermutation .exact .inOrder g1 g1 [1, 2, 0] [0, 1, 3] = .ok true := by
    decide +kernel
  have htest : Testable o g1 g1 [0, 1, 3] :=
    new_testable ho (hlen.trans hN.symm) (by omega) rfl (by rw [hn]; rfl)
  have hperm : [1, 2, 0].Perm (List.range g1.n) := by
    rw [hn]
    decide
  obtain ⟨-, hfound, -⟩ := @permutations_exhausted .exact .inOrder o g1 g1 [0, 1, 3] htest
    (fun h => by cases h)
  obtain ⟨e, he, -, hsearch⟩ := hfound ⟨_, hperm, hlater⟩
  exact ⟨o, g1, e, hfirst, he, hsearch⟩

theorem pruning_sound_demo : ∃ (o : Orchestrator) (g1 : SymMatrix Nat) (found found' : Option (List Nat)),
    o.graphIsomorphism .exact .inOrder g1 g1 [0, 1] = .ok found ∧
      o.graphIsomorphism .exact .inOrder g1 g1 [1, 2] = .ok found' ∧ found.isSome = found'.isSome := by
  obtain ⟨graph, -, o, ho, ⟨hN, hlen⟩, network, -, ⟨g1, apps⟩, -, hn⟩ :
      Returns (demoCluster [0, 1] 1000) fun graph =>
        Returns (Orchestrator.new .inOrder graph 9092 4) fun o =>
          (o.residualGraph.n = 2 ∧ o.hostMapping.length = 2) ∧ Returns (demoTopology 2 100) fun network =>
            Returns (network.bandwidthMatrix .inOrder Node.isApp) fun r => r.1.n = 2 := by
    decide +kernel
  have htest : ∀ comb : List Nat, comb.length = 2 → Testable o g1 g1 comb := fun comb hcomb =>
    new_testable ho (hlen.trans hN.symm) (by omega) rfl (hcomb.trans hn.symm)
  obtain ⟨set, set', -, -, hsame, hfound, -⟩ := pruning_sound (o := o) (by omega) [0, 1] [1, 2]
  have hperm : (o.named [0, 1]).Perm (o.named [1, 2]) := by
    rw [named, named, hN]
    decide
  obtain ⟨found, found', h, h', hiff⟩ := hfound (hsame.mpr hperm) .exact .inOrder .inOrder g1 g1 g1
    (htest _ rfl) (htest _ rfl) (fun h => by cases h)
  exact ⟨o, g1, found, found', h, h', hiff⟩

end Orchestrator

end Kollaps
