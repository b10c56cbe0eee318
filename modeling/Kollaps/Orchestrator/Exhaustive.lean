import Kollaps.Lib.Heap
import Kollaps.Orchestrator.Combinations
import Kollaps.Orchestrator.Runs

/-!
# What the search goes through

A combination stands for all placements that use each host as often. The search tests every one of
them, and leaves out no combination that matters. Only a combination of all clones has no next one,
and the code does not expect that.
-/

namespace Kollaps

open Run

namespace Orchestrator

variable {ar : Arith} {it : Iter} {o : Orchestrator} {g1 : SymMatrix Nat} {p : List Nat}

structure Passes (ar : Arith) (o : Orchestrator) (g1 : SymMatrix Nat) (p : List Nat) : Prop where
  length : p.length = g1.n
  checked : ∀ host ∈ p, ∃ node total, Checked ar o g1 p host node total

/-- Where an overflow panics, the demands that go out of one host never overflow. -/
def Summable (ar : Arith) (g1 : SymMatrix Nat) : Prop :=
  ar = .checked → ∀ p host, p.length = g1.n → flow g1 (appsOn p host) (appsOff p host) ≤ u32Max

theorem add_returns {a b : Nat} (h : ar = .checked → a + b ≤ u32Max) :
    Returns (ar.add a b) fun c => ar = .checked → c = a + b := by
  cases ar with
  | checked => simp [Arith.add, h rfl]
  | wrapping | exact => simp [Arith.add]

theorem sum_returns {f : Nat → Run Nat} {g : Nat → Nat} {l : List Nat} {a : Nat}
    (hf : ∀ x ∈ l, f x = .ok (g x))
    (h : ar = .checked → a + (l.map g).sum ≤ u32Max) :
    Returns (l.foldlM (fun total x => do ar.add total (← f x)) a) fun total =>
      ar = .checked → total = a + (l.map g).sum := by
  refine Returns.foldlM (fun pre total => ar = .checked → total = a + (pre.map g).sum) (by simp)
    fun pre x post total hl htotal => ?_
  rw [hf x (by simp [hl]), bind_ok]
  refine (add_returns fun har => ?_).mono fun c hc har => ?_
  · have := h har
    rw [hl, List.map_append, List.sum_append, List.map_cons, List.sum_cons] at this
    rw [htotal har]
    omega
  · rw [hc har, htotal har, List.map_append, List.sum_append, List.map_singleton,
      List.sum_singleton, Nat.add_assoc]

theorem Summable.outflow (h : Summable ar g1) (hlen : p.length = g1.n) (host : Nat) :
    ∃ total, outflow ar g1 p host = .ok total := by
  have hoff : ∀ other ∈ appsOff p host, other < g1.n := fun other hother =>
    hlen ▸ List.mem_range.mp (List.mem_filter.mp hother).1
  have hreturns : Returns (Orchestrator.outflow ar g1 p host) fun _ => True := by
    refine (Returns.foldlM (fun pre total => ar = .checked →
      total = flow g1 pre (appsOff p host)) (by simp [flow])
      fun pre app post total hl htotal => ?_).mono fun _ _ => trivial
    have hsplit : flow g1 (appsOn p host) (appsOff p host) = flow g1 pre (appsOff p host) +
        ((appsOff p host).map fun other => g1.entry app other).sum + flow g1 post (appsOff p host) := by
      rw [hl, flow, flow, flow, List.map_append, List.sum_append, List.map_cons, List.sum_cons, Nat.add_assoc]
    have happ : app < g1.n := hlen ▸ (mem_appsOn.mp (show app ∈ appsOn p host by simp [hl])).1
    refine (sum_returns (fun other hother => SymMatrix.index_eq g1 happ (hoff other hother))
      fun har => ?_).mono fun c hc har => ?_
    · have := h har p host hlen
      rw [htotal har]
      omega
    · rw [hc har, htotal har, flow, flow, List.map_append, List.sum_append, List.map_singleton,
        List.sum_singleton]
  obtain ⟨total, htotal, -⟩ := hreturns
  exact ⟨total, htotal⟩

/-- No app asks for more than `c` to another one. -/
def AtMost (g1 : SymMatrix Nat) (c : Nat) : Prop :=
  ∀ i, i < g1.n → ∀ j, j < g1.n → i = j ∨ g1.entry i j ≤ c

instance (g1 : SymMatrix Nat) (c : Nat) : Decidable (AtMost g1 c) :=
  inferInstanceAs (Decidable (∀ i, i < g1.n → ∀ j, j < g1.n → i = j ∨ g1.entry i j ≤ c))

theorem summable_of_atMost {c : Nat} (h : AtMost g1 c)
    (hc : g1.n * (g1.n * c) ≤ u32Max) : Summable ar g1 := by
  intro _ p host hlen
  have hon : (appsOn p host).length ≤ g1.n := by
    rw [← hlen, ← List.length_range (n := p.length)]
    exact List.length_filter_le _ _
  have hoff : (appsOff p host).length ≤ g1.n := by
    rw [← hlen, ← List.length_range (n := p.length)]
    exact List.length_filter_le _ _
  have hlt : ∀ app ∈ List.range p.length, app < g1.n := fun app happ => hlen ▸ List.mem_range.mp happ
  have hrow : ∀ app ∈ appsOn p host,
    ((appsOff p host).map fun other => g1.entry app other).sum ≤ g1.n * c := by
    intro app happ
    refine (List.sum_le_card_nsmul _ c fun x hx => ?_).trans ?_
    · obtain ⟨other, hother, rfl⟩ := List.mem_map.mp hx
      rw [appsOff, List.mem_filter, decide_eq_true_eq] at hother
      refine (h _ (hlt app (List.mem_filter.mp happ).1) _ (hlt other hother.1)).resolve_left ?_
      rintro rfl
      exact hother.2 (mem_appsOn.mp happ).2
    · rw [List.length_map, smul_eq_mul]
      exact Nat.mul_le_mul_right c hoff
  refine ((List.sum_le_card_nsmul _ (g1.n * c) fun x hx => ?_).trans ?_).trans hc
  · obtain ⟨app, happ, rfl⟩ := List.mem_map.mp hx
    exact hrow app happ
  · rw [List.length_map, smul_eq_mul]
    exact Nat.mul_le_mul_right _ hon

def Mapped (o : Orchestrator) : Prop := o.hostMapping.length = o.residualGraph.n

theorem Mapped.node (h : o.Mapped) {host : Nat} (hhost : host < o.residualGraph.n) :
    ∃ node, o.hostMapping[host]? = some node :=
  ⟨_, List.getElem?_eq_getElem (show host < o.hostMapping.length from h.symm ▸ hhost)⟩

theorem Passes.lt (h : Passes ar o g1 p) (hmapped : o.Mapped) : ∀ host ∈ p, host < o.residualGraph.n := by
  intro host hhost
  obtain ⟨node, total, hchecked⟩ := h.checked host hhost
  rw [← hmapped]
  exact (List.getElem?_eq_some_iff.mp hchecked.mapped).1

/-! ## The test of one placement -/

/-- The host has room, so its load can be taken off the maximum. -/
def Roomy (o : Orchestrator) (host : Nat) : Prop :=
  ∃ node, o.hostMapping[host]? = some node ∧ o.totalLoad node < o.maxLoad

def Bearing (o : Orchestrator) (host : Nat) : Prop :=
  ∃ node, o.hostMapping[host]? = some node ∧ o.totalLoad node ≤ o.maxLoad

theorem Roomy.bearing {host : Nat} (h : o.Roomy host) : o.Bearing host :=
  h.imp fun _ hnode => ⟨hnode.1, Nat.le_of_lt hnode.2⟩

variable {equivalence mapper : List Nat}

theorem Shaped.lt_hosts (h : Shaped o g1 equivalence mapper p) (hN : 0 < o.residualGraph.n) :
    ∀ host ∈ p, host < o.residualGraph.n := by
  rw [h.places]
  intro host hhost
  obtain ⟨e, -, rfl⟩ := List.mem_map.mp hhost
  exact Nat.mod_lt _ hN

theorem Shaped.verifyHost_returns (h : Shaped o g1 equivalence mapper p) (hsum : Summable ar g1)
    (hN : 0 < o.residualGraph.n) {host : Nat} (hhost : host < o.residualGraph.n) (hload : o.Bearing host) :
    Returns (o.verifyHost ar it g1 equivalence mapper host) fun accepted =>
      accepted = false → ¬ ∃ node total, Checked ar o g1 p host node total := by
  obtain ⟨node, hnode, hload⟩ := hload
  obtain ⟨total, htotal⟩ := hsum.outflow h.length_eq host
  rw [h.verifyHost_eq, getActualLoad_eq hnode, bind_ok, usizeSub_of_le hload, bind_ok]
  split <;> rename_i hfull
  · rw [returns_pure]
    rintro - ⟨node', total', hchecked⟩
    have hroom := hchecked.room
    rw [← Option.some.inj (hnode.symm.trans hchecked.mapped), count_eq] at hroom
    omega
  · have hlinks : ∀ other ∈ p.filter (fun other => other ≠ host), (do
        let residual ← o.residualGraph.index host other
        pure (decide (total ≤ residual)) : Run Bool) =
          .ok (decide (total ≤ o.residualGraph.entry host other)) := by
      intro other hother
      rw [SymMatrix.index_eq _ hhost (h.lt_hosts hN other (List.mem_filter.mp hother).1)]
      rfl
    rw [htotal, bind_ok, allM_ok hlinks, returns_ok]
    rintro hfalse ⟨node', total', hchecked⟩
    obtain ⟨other, hother, hover⟩ := List.all_eq_false.mp hfalse
    rw [List.mem_filter, decide_eq_true_eq] at hother
    obtain ⟨residual, hresidual, hle⟩ := hchecked.fits other hother.1 hother.2
    rw [SymMatrix.index_eq _ hhost (h.lt_hosts hN other hother.1)] at hresidual
    have hasked := htotal.symm.trans hchecked.asked
    cases hresidual
    cases hasked
    exact hover (decide_eq_true hle)

theorem verifyHosts_returns {residuals : List Nat} {checkedHosts : IndexSet}
    (h : ∀ i ∈ residuals, ∃ m, get mapper i = .ok m ∧
      Returns (o.verifyHost ar it g1 equivalence mapper (m % o.residualGraph.n)) fun accepted =>
        accepted = false → ¬ Passes ar o g1 p) :
    Returns (verifyHosts ar it o g1 equivalence mapper residuals checkedHosts) fun accepted =>
      accepted = false → ¬ Passes ar o g1 p := by
  induction residuals generalizing checkedHosts with
  | nil => exact (returns_pure _ _).mpr (by simp)
  | cons i rest ih =>
    rw [List.forall_mem_cons] at h
    obtain ⟨⟨m, hm, hhost⟩, hrest⟩ := h
    unfold verifyHosts
    rw [hm, bind_ok]
    simp only
    split
    · exact ih hrest
    · refine hhost.bind fun accepted haccepted => ?_
      cases accepted with
      | true => exact ih hrest
      | false => exact (returns_pure _ _).mpr fun _ => haccepted rfl

theorem Shaped.verifyPermutation_returns (h : Shaped o g1 equivalence mapper p) (hsum : Summable ar g1)
    (hN : 0 < o.residualGraph.n) (hload : ∀ v ∈ mapper, o.Bearing (v % o.residualGraph.n))
    {residual : SymMatrix Nat} (hsize : residual.n = g1.n) :
    Returns (o.verifyPermutation ar it g1 residual equivalence mapper) fun accepted =>
      accepted = false → ¬ Passes ar o g1 p := by
  refine verifyHosts_returns fun i hi => ?_
  have hlt : i < mapper.length := by
    rw [h.length, ← hsize]
    exact List.mem_range.mp hi
  have hmem : mapper[i] % o.residualGraph.n ∈ p := by
    rw [h.places, hosts, List.mem_map]
    refine ⟨i, h.perm.mem_iff.mpr (List.mem_range.mpr (h.length ▸ hlt)), ?_⟩
    rw [List.getD_eq_getElem?_getD, List.getElem?_eq_getElem hlt, Option.getD_some]
  refine ⟨mapper[i], get_eq hlt, ?_⟩
  refine (h.verifyHost_returns hsum hN (Nat.mod_lt _ hN) (hload _ (List.getElem_mem hlt))).mono ?_
  exact fun accepted haccepted hfalse hpasses => haccepted hfalse (hpasses.checked _ hmem)

/-! ## All permutations of a combination -/

theorem swap_map {k a b : Nat} (σ : Equiv.Perm Nat) (ha : a < k) (hb : b < k) :
    swap ((List.range k).map σ) a b = .ok ((List.range k).map (σ * Equiv.swap a b)) := by
  have hget : ∀ c, c < k → get ((List.range k).map σ) c = .ok (σ c) := by
    intro c hc
    rw [get_eq_ok, List.getElem?_map, List.getElem?_range hc]
    rfl
  unfold swap
  rw [hget a ha, bind_ok, hget b hb, bind_ok, set_eq (by simpa using ha), bind_ok,
    set_eq (by simpa using hb)]
  refine congrArg Except.ok (List.ext_getElem (by simp) fun i hi _ => ?_)
  simp only [List.getElem_set, List.getElem_map, List.getElem_range, Equiv.Perm.mul_apply,
    Equiv.swap_apply_def]
  by_cases hib : b = i
  · by_cases hia : i = a <;> simp [hib, hia]
  · by_cases hia : a = i
    · simp [hia, hib]
    · simp [hia, hib, Ne.symm hib, Ne.symm hia]

theorem exists_arrangement {k : Nat} {e : List Nat} (h : e.Perm (List.range k)) :
    ∃ σ, Heap.Within k σ ∧ e = (List.range k).map σ := by
  have hlen : e.length = k := by rw [h.length_eq, List.length_range]
  have hlt : ∀ i (hi : i < e.length), e[i] < k := fun i hi =>
    List.mem_range.mp (h.mem_iff.mp (List.getElem_mem hi))
  have hin : ∀ i (hi : i < e.length), e.getD i i = e[i] := fun i hi => by
    rw [List.getD_eq_getElem?_getD, List.getElem?_eq_getElem hi, Option.getD_some]
  have hout : ∀ i, k ≤ i → e.getD i i = i := fun i hi => by
    rw [List.getD_eq_getElem?_getD, List.getElem?_eq_none (by omega), Option.getD_none]
  have hbij : Function.Bijective fun i => e.getD i i := by
    constructor
    · intro i j hij
      simp only at hij
      by_cases hi : i < e.length <;> by_cases hj : j < e.length
      · rw [hin i hi, hin j hj] at hij
        exact (h.nodup_iff.mpr List.nodup_range).getElem_inj_iff.mp hij
      · have := hlt i hi
        rw [hin i hi, hout j (by omega)] at hij
        omega
      · have := hlt j hj
        rw [hin j hj, hout i (by omega)] at hij
        omega
      · rwa [hout i (by omega), hout j (by omega)] at hij
    · intro x
      by_cases hx : x < k
      · obtain ⟨i, hi, hix⟩ := List.getElem_of_mem (h.mem_iff.mpr (List.mem_range.mpr hx))
        exact ⟨i, (hin i hi).trans hix⟩
      · exact ⟨x, hout x (by omega)⟩
  refine ⟨Equiv.ofBijective _ hbij, hout, List.ext_getElem (by simp [hlen]) fun i hi _ => ?_⟩
  simp only [List.getElem_map, List.getElem_range, Equiv.ofBijective_apply]
  exact (hin i hi).symm

/-- Heap's algorithm has come to `s`, and the placements before it were refused. -/
structure Exchanging (ar : Arith) (o : Orchestrator) (g1 : SymMatrix Nat) (mapper : List Nat)
    (s : Exchange) : Prop where
  index : 0 < s.exchangeIndex ∧ s.exchangeIndex ≤ g1.n
  length : s.exchangeCounter.length = g1.n
  zero : ∀ j, j < s.exchangeIndex → s.exchangeCounter.getD j 0 = 0
  le : ∀ j, j < g1.n → s.exchangeCounter.getD j 0 ≤ j
  visited : ∃ pre, Heap.turns g1.n = pre ++ Heap.upcoming s.exchangeCounter g1.n s.exchangeIndex ∧
    s.equivalence = (List.range g1.n).map (Heap.arrange pre) ∧
    ∀ pre', pre' <+: pre → ¬ Passes ar o g1 (o.hosts ((List.range g1.n).map (Heap.arrange pre')) mapper)

/-- How many exchanges are left, and then how far the index has to go. -/
def Exchange.left (k : Nat) (s : Exchange) : Nat :=
  (Heap.upcoming s.exchangeCounter k s.exchangeIndex).length * (k + 1) + (k - s.exchangeIndex)

theorem counter_set {counter : List Nat} {i j x : Nat} (hi : i < counter.length) :
    (counter.set i x).getD j 0 = if i = j then x else counter.getD j 0 := by
  rw [List.getD_eq_getElem?_getD, List.getElem?_set]
  split
  · rfl
  · rw [← List.getD_eq_getElem?_getD]

theorem Exchanging.exchanged {s : Exchange} {Q : Option (List Nat) → Prop} (hs : Exchanging ar o g1 mapper s)
    (hlt : s.exchangeIndex < g1.n) (hexchange : s.exchangeCounter.getD s.exchangeIndex 0 < s.exchangeIndex) :
    ∃ equivalence, equivalence.Perm (List.range g1.n) ∧
      swap s.equivalence (if s.exchangeIndex % 2 = 0 then 0 else s.exchangeCounter.getD s.exchangeIndex 0)
        s.exchangeIndex = .ok equivalence ∧
      (¬ Passes ar o g1 (o.hosts equivalence mapper) →
        Round (Exchanging ar o g1 mapper) (Exchange.left g1.n) Q s
          (.inl ⟨equivalence, s.exchangeCounter.set s.exchangeIndex
            (s.exchangeCounter.getD s.exchangeIndex 0 + 1), 1⟩)) := by
  obtain ⟨⟨hpos, hle⟩, hlen, hzero, hcounter, pre, hturns, hequivalence, hrefused⟩ := hs
  have hin : s.exchangeIndex < s.exchangeCounter.length := by omega
  have hnext := Heap.upcoming_exchange hpos hlt hexchange hin hzero
  have hother : (if s.exchangeIndex % 2 = 0 then 0 else s.exchangeCounter.getD s.exchangeIndex 0) < g1.n := by
    split <;> omega
  have hswap := swap_map (Heap.arrange pre) hother hlt
  have harrange : Heap.arrange pre * Equiv.swap (if s.exchangeIndex % 2 = 0 then 0 else
      s.exchangeCounter.getD s.exchangeIndex 0) s.exchangeIndex =
      Heap.arrange (pre ++ [Heap.exchange s.exchangeIndex (s.exchangeCounter.getD s.exchangeIndex 0)]) := by
    rw [Heap.arrange_append, Heap.arrange_cons, Heap.arrange_nil, mul_one]
    rfl
  rw [harrange, ← hequivalence] at hswap
  have hleft : Exchange.left g1.n s = (Heap.upcoming (s.exchangeCounter.set s.exchangeIndex
      (s.exchangeCounter.getD s.exchangeIndex 0 + 1)) g1.n 1).length * (g1.n + 1) + (g1.n + 1) +
      (g1.n - s.exchangeIndex) := by
    rw [Exchange.left, hnext, List.length_cons, Nat.succ_mul]
  rw [hnext, ← List.singleton_append, ← List.append_assoc] at hturns
  have hwithin := Heap.within_arrange fun p hp =>
    Heap.lt_of_mem_turns (hturns ▸ List.mem_append_left _ hp)
  refine ⟨_, hwithin.perm, hswap,
    fun hnot => ⟨⟨⟨Nat.succ_pos 0, hpos.trans_le hle⟩, by rw [List.length_set, hlen],
    fun j hj => ?_, fun j hj => ?_, _, hturns, rfl, fun pre' hpre' => ?_⟩, ?_⟩⟩
  · replace hj : j < 1 := hj
    rw [counter_set hin, if_neg (by omega)]
    exact hzero j (by omega)
  · rw [counter_set hin]
    split
    · omega
    · exact hcounter j hj
  · rcases List.prefix_concat_iff.mp hpre' with rfl | hpre'
    · exact hnot
    · exact hrefused pre' hpre'
  · rw [hleft, Exchange.left]
    simp only
    omega

theorem Exchanging.skipped {s : Exchange} {Q : Option (List Nat) → Prop} (hs : Exchanging ar o g1 mapper s)
    (hlt : s.exchangeIndex < g1.n)
    (hexchange : ¬ s.exchangeCounter.getD s.exchangeIndex 0 < s.exchangeIndex) :
    Round (Exchanging ar o g1 mapper) (Exchange.left g1.n) Q s
      (.inl ⟨s.equivalence, s.exchangeCounter.set s.exchangeIndex 0, s.exchangeIndex + 1⟩) := by
  obtain ⟨⟨hpos, hle⟩, hlen, hzero, hcounter, pre, hturns, hequivalence, hrefused⟩ := hs
  have hin : s.exchangeIndex < s.exchangeCounter.length := by omega
  have hupcoming : Heap.upcoming s.exchangeCounter g1.n s.exchangeIndex =
      Heap.upcoming (s.exchangeCounter.set s.exchangeIndex 0) g1.n (s.exchangeIndex + 1) := by
    rw [Heap.upcoming_set (Nat.lt_succ_self _), Heap.upcoming_of_lt hlt,
      Nat.sub_eq_zero_of_le (Nat.le_of_not_lt hexchange)]
    rfl
  refine ⟨⟨⟨Nat.succ_pos _, hlt⟩, by rw [List.length_set, hlen], fun j hj => ?_, fun j hj => ?_, pre,
    ?_, hequivalence, hrefused⟩, ?_⟩
  · replace hj : j < s.exchangeIndex + 1 := hj
    rw [counter_set hin]
    split
    · rfl
    · exact hzero j (by omega)
  · rw [counter_set hin]
    split
    · exact Nat.zero_le j
    · exact hcounter j hj
  · rw [hturns, hupcoming]
  · rw [Exchange.left, Exchange.left, hupcoming]
    simp only
    omega

theorem Exchanging.over {s : Exchange} (hs : Exchanging ar o g1 mapper s) (hlt : ¬ s.exchangeIndex < g1.n)
    {e : List Nat} (he : e.Perm (List.range g1.n)) : ¬ Passes ar o g1 (o.hosts e mapper) := by
  obtain ⟨pre, hturns, -, hrefused⟩ := hs.visited
  obtain ⟨σ, hσ, rfl⟩ := exists_arrangement he
  obtain ⟨pre', hpre', rfl⟩ := Heap.visited_of_within hσ
  refine hrefused pre' ?_
  rwa [hturns, Heap.upcoming_of_le (Nat.le_of_not_lt hlt), List.append_nil] at hpre'

theorem exchangeRound_returns {residual : SymMatrix Nat} {s : Exchange} (hs : Exchanging ar o g1 mapper s)
    (hverify : ∀ e, e.Perm (List.range g1.n) →
      Returns (o.verifyPermutation ar it g1 residual e mapper) fun accepted =>
        accepted = false → ¬ Passes ar o g1 (o.hosts e mapper)) :
    Returns (o.exchangeRound ar it g1 residual mapper s)
      (Round (Exchanging ar o g1 mapper) (Exchange.left g1.n)
      (fun found => found = none → ∀ e, e.Perm (List.range g1.n) →
        ¬ Passes ar o g1 (o.hosts e mapper)) s) := by
  unfold exchangeRound
  rw [SymMatrix.size]
  split <;> rename_i hlt
  · have hin : s.exchangeIndex < s.exchangeCounter.length := hs.length ▸ hlt
    have hget : get s.exchangeCounter s.exchangeIndex = .ok (s.exchangeCounter.getD s.exchangeIndex 0) := by
      rw [get_eq_ok, List.getD_eq_getElem?_getD, List.getElem?_eq_getElem hin, Option.getD_some]
    rw [hget, bind_ok]
    split <;> rename_i hexchange
    · obtain ⟨equivalence, hperm, hswap, hround⟩ := hs.exchanged hlt hexchange
      simp only [hswap, bind_ok]
      refine (hverify _ hperm).bind fun accepted haccepted => ?_
      cases accepted with
      | true => exact (returns_pure _ _).mpr (by simp [Round])
      | false =>
        rw [set_eq hin, bind_ok]
        exact (returns_pure _ _).mpr (hround (haccepted rfl))
    · rw [set_eq hin, bind_ok]
      exact (returns_pure _ _).mpr (hs.skipped hlt hexchange)
  · rw [returns_pure]
    exact fun _ e he => hs.over hlt he

theorem graphIsomorphism_returns {residual : SymMatrix Nat} (happs : 0 < g1.n) (hsize : residual.n = g1.n)
    (hverify : ∀ e, e.Perm (List.range g1.n) →
      Returns (o.verifyPermutation ar it g1 residual e mapper) fun accepted =>
        accepted = false → ¬ Passes ar o g1 (o.hosts e mapper)) :
    Returns (o.graphIsomorphism ar it g1 residual mapper) fun found =>
      found = none → ∀ e, e.Perm (List.range g1.n) → ¬ Passes ar o g1 (o.hosts e mapper) := by
  unfold graphIsomorphism
  rw [SymMatrix.size, SymMatrix.size, if_neg (not_not.mpr hsize.symm)]
  refine (hverify _ (List.Perm.refl _)).bind fun accepted haccepted => ?_
  cases accepted with
  | true => exact (returns_pure _ _).mpr (by simp)
  | false =>
    have hcounter : ∀ j, (List.replicate g1.n 0).getD j 0 = 0 := by
      intro j
      rw [List.getD_eq_getElem?_getD, List.getElem?_replicate]
      split <;> rfl
    have hturns : Heap.upcoming (List.replicate g1.n 0) g1.n 1 = Heap.turns g1.n := by
      rw [Heap.upcoming_one happs (Nat.le_refl _) fun j _ => hcounter j, Heap.upcoming_of_le (Nat.le_refl _),
        List.append_nil]
    refine Returns.loop (Exchanging ar o g1 mapper) (Exchange.left g1.n) ?_ ?_
      fun s hs => exchangeRound_returns hs hverify
    · refine ⟨⟨Nat.succ_pos 0, happs⟩, List.length_replicate, fun j _ => hcounter j,
        fun j _ => by rw [hcounter]; exact Nat.zero_le j, [], by rw [hturns, List.nil_append], ?_,
        fun pre' hpre' => ?_⟩
      · simp
      · rw [List.prefix_nil.mp hpre']
        simpa using haccepted rfl
    · rw [Exchange.left, hturns, ← Heap.length_turns, Nat.succ_mul]
      simp only
      omega

/-! ## One combination -/

variable {comb : List Nat} {testedComb : List IndexSet}

/-- How often a combination, or the set made of it, names each host. -/
def named (o : Orchestrator) (comb : List Nat) : List Nat := comb.map fun v => v % o.residualGraph.n

def Refused (ar : Arith) (o : Orchestrator) (g1 : SymMatrix Nat) (comb : List Nat) : Prop :=
  ∀ p, p.Perm (o.named comb) → ¬ Passes ar o g1 p

theorem Refused.congr {comb' : List Nat} (h : Refused ar o g1 comb)
    (hperm : (o.named comb').Perm (o.named comb)) : Refused ar o g1 comb' :=
  fun p hp => h p (hp.trans hperm)

theorem named_eq (hlen : comb.length = g1.n) :
    o.named comb = (List.range g1.n).map fun e => comb.getD e 0 % o.residualGraph.n := by
  refine List.ext_getElem (by simp [named, hlen]) fun i hi _ => ?_
  have hlt : i < comb.length := by simpa [named] using hi
  simp only [named, List.getElem_map, List.getElem_range]
  rw [List.getD_eq_getElem?_getD, List.getElem?_eq_getElem hlt, Option.getD_some]

theorem hosts_perm (hlen : comb.length = g1.n) (he : equivalence.Perm (List.range g1.n)) :
    (o.hosts equivalence comb).Perm (o.named comb) := named_eq hlen ▸ he.map _

theorem exists_equivalence (hlen : comb.length = g1.n) (hp : p.Perm (o.named comb)) :
    ∃ e, e.Perm (List.range g1.n) ∧ o.hosts e comb = p := by
  rw [named_eq hlen] at hp
  have hmap := congrFun (congrFun
    (List.eq_map_comp_perm fun e => comb.getD e 0 % o.residualGraph.n) p) (List.range g1.n)
  obtain ⟨e, rfl, he⟩ := (iff_of_eq hmap).mpr hp
  exact ⟨e, he, rfl⟩

theorem Found.passes (h : Found ar it o g1 p) : Passes ar o g1 p := ⟨h.length, fun _ => h.checked⟩

/-- A host of a placement that passes has room for one more app at least. -/
theorem Passes.roomy (h : Passes ar o g1 p) : ∀ host ∈ p, o.Roomy host := by
  intro host hhost
  obtain ⟨node, total, hchecked⟩ := h.checked host hhost
  have hcount := List.count_pos_iff.mpr hhost
  exact ⟨node, hchecked.mapped, by have := hchecked.room; omega⟩

theorem remaining_returns (hmapped : o.Mapped) (hN : 0 < o.residualGraph.n) (set : IndexSet) :
    Returns (o.remaining it set) fun room =>
      room = true ↔ ∀ v ∈ set.elems, o.Roomy (v % o.residualGraph.n) := by
  have hroom : ∀ v ∈ it.order set.elems, (do
      let load ← o.getActualLoad it (v % o.residualGraph.size)
      pure (decide (load < o.maxLoad)) : Run Bool) =
        .ok (o.hostMapping[v % o.residualGraph.n]?.any fun node => o.totalLoad node < o.maxLoad) := by
    intro v _
    obtain ⟨node, hnode⟩ := hmapped.node (Nat.mod_lt v hN)
    rw [SymMatrix.size, getActualLoad_eq hnode, hnode]
    rfl
  unfold remaining
  rw [allM_ok hroom, returns_ok, List.all_eq_true]
  simp only [it.mem_order, Option.any_eq_true, decide_eq_true_eq, Roomy]

theorem testCombination_returns (hmapped : o.Mapped) (hN : 0 < o.residualGraph.n) (happs : 0 < g1.n)
    (hsum : Summable ar g1) (hlen : comb.length = g1.n)
    (htested : ∀ set ∈ testedComb, Refused ar o g1 set.elems) :
    Returns (o.testCombination ar it g1 comb testedComb) fun tested =>
      (∀ q, tested = .inl q → q.Perm (o.named comb) ∧ Passes ar o g1 q) ∧
        ∀ testedComb', tested = .inr testedComb' → Refused ar o g1 comb ∧
          ∀ set ∈ testedComb', Refused ar o g1 set.elems := by
  unfold testCombination
  refine (combinationSet_returns hN comb).bind fun set hset => ?_
  refine (remaining_returns hmapped hN set).bind fun room hroom => ?_
  have hmem : ∀ v ∈ comb, v % o.residualGraph.n ∈ o.named set.elems := fun v hv =>
    hset.named.mem_iff.mpr (List.mem_map_of_mem hv)
  split <;> rename_i htest
  · rw [Bool.and_eq_true] at htest
    have hnamed : ∀ v ∈ comb, o.Roomy (v % o.residualGraph.n) := by
      intro v hv
      obtain ⟨u, hu, huv⟩ := List.mem_map.mp (hmem v hv)
      exact huv ▸ hroom.mp htest.2 u hu
    refine (SymMatrix.newFn_spec (P := fun _ _ _ => True) fun i j hij hj => ?_).bind fun subGraph hsub => ?_
    · rw [get_eq (by omega), bind_ok, get_eq hj, bind_ok]
      exact ⟨_, SymMatrix.index_eq _ (Nat.mod_lt _ hN) (Nat.mod_lt _ hN), trivial⟩
    · have hverify : ∀ e, e.Perm (List.range g1.n) →
          Returns (o.verifyPermutation ar it g1 subGraph e comb) fun accepted =>
            accepted = false → ¬ Passes ar o g1 (o.hosts e comb) := by
        intro e he
        have hshaped : Shaped o g1 e comb _ := ⟨he, hlen, rfl⟩
        exact hshaped.verifyPermutation_returns hsum hN (fun v hv => (hnamed v hv).bearing)
          (hsub.1.trans hlen)
      obtain ⟨found, hfound, hnone⟩ := graphIsomorphism_returns happs (hsub.1.trans hlen) hverify
      rw [hfound, bind_ok]
      cases found with
      | none =>
        have hrefused : Refused ar o g1 comb := by
          intro p hp
          obtain ⟨e, he, rfl⟩ := exists_equivalence hlen hp
          exact hnone rfl e he
        refine (returns_pure _ _).mpr ⟨by simp, ?_⟩
        rintro _ ⟨⟩
        refine ⟨hrefused, fun s hs => ?_⟩
        rcases List.mem_append.mp hs with hs | hs
        · exact htested s hs
        · rw [List.mem_singleton.mp hs]
          exact hrefused.congr hset.named
      | some equivalence =>
        obtain ⟨hsize, hperm, hverified⟩ := graphIsomorphism_some hfound
        have hshaped : Shaped o g1 equivalence comb _ := ⟨hperm, hlen, rfl⟩
        simp only [hshaped.others_eq, bind_ok]
        refine (returns_pure _ _).mpr ⟨?_, by simp⟩
        rintro _ ⟨⟩
        have hplaced : Found ar it o g1 (o.hosts equivalence comb) :=
          ⟨hN, comb, equivalence, subGraph, hlen, hsize, hperm, rfl, hverified⟩
        exact ⟨hosts_perm hlen hperm, hplaced.passes⟩
  · -- The combination was tested before, or a host is full.
    refine (returns_pure _ _).mpr ⟨by simp, ?_⟩
    rintro _ ⟨⟩
    refine ⟨fun p hp hpasses => ?_, htested⟩
    have hroomy : room = true := by
      refine hroom.mpr fun v hv => hpasses.roomy _ (hp.mem_iff.mpr (hset.named.mem_iff.mp ?_))
      exact List.mem_map_of_mem hv
    rw [hroomy, Bool.and_true, Bool.not_eq_true', Bool.not_eq_false, List.any_eq_true] at htest
    obtain ⟨s, hs, hsame⟩ := htest
    have hperm := (IndexSet.perm_of_same hsame).map fun v => v % o.residualGraph.n
    exact htested s hs p (hp.trans (hset.named.symm.trans hperm)) hpasses

/-! ## All combinations of a level -/

/-- The combinations that `next_comb` goes through. -/
structure Within (n k : Nat) (comb : List Nat) : Prop where
  length : comb.length = k
  increasing : Increasing n comb
  first : comb.headI ≤ n - k

theorem Within.next {n k : Nat} {comb : List Nat} (h : Within n k comb) (hk : 0 < k) (hkn : k ≤ n) :
    Returns (nextComb comb k n) fun next =>
      (next = none ∧ ∀ other, Within n k other → ¬ comb < other) ∨
      ∃ after, next = some after ∧ Within n k after ∧ comb < after ∧
        (∀ other, Within n k other → comb < other → ¬ other < after) ∧
        (n + 2) ^ k - Increasing.value n after < (n + 2) ^ k - Increasing.value n comb := by
  obtain ⟨hlen, hinc, hfirst⟩ := h
  refine (nextComb_returns hk hkn hlen hinc hfirst).mono fun next hnext => ?_
  obtain ⟨pre, a, r, hcomb, har, hnext⟩ := hnext
  have hr : pre.length + 1 + r = k := by
    rw [hcomb] at hlen
    simp at hlen
    omega
  rcases hnext with ⟨rfl, rfl, ha⟩ | ⟨rfl, hpre⟩
  · refine Or.inl ⟨rfl, fun other hother hlt => ?_⟩
    obtain ⟨hlen', hinc', hfirst'⟩ := hother
    cases other with
    | nil => exact List.not_lt_nil _ hlt
    | cons b other =>
      have hr' : other.length = r := by simpa [← hr, Nat.add_comm] using hlen'
      rw [hcomb, List.nil_append, List.cons_lt_cons_iff] at hlt
      rcases hlt with hlt | ⟨-, hlt⟩
      · exact absurd hfirst' (by simp only [List.headI_cons]; omega)
      · exact hinc'.tail.not_range'_lt (hr' ▸ hlt)
  · have hinc' := hcomb ▸ hinc
    refine Or.inr ⟨_, rfl, ⟨?_, hinc'.next har, ?_⟩, ?_, fun other hother habove => ?_, ?_⟩
    · rw [List.length_append, List.length_range']
      omega
    · cases pre with
      | nil => exact Nat.succ_le_of_lt (hpre rfl)
      | cons x pre => rwa [hcomb] at hfirst
    · rw [hcomb]
      exact Increasing.lt_next pre _ a r
    · exact hother.increasing.not_lt_next (hother.length.trans hr.symm) (hcomb ▸ habove)
    · have hgrow := hinc'.value_lt_next
      have hvalue := (hinc'.next har).value_lt
      rw [← hcomb] at hgrow
      rw [List.length_append, List.length_range', ← Nat.add_assoc, Nat.add_right_comm, hr] at hvalue
      omega

theorem within_range {n k : Nat} (hk : 0 < k) (hkn : k ≤ n) : Within n k (List.range k) := by
  refine ⟨List.length_range, ⟨List.pairwise_lt_range, fun v hv => ?_⟩, ?_⟩
  · have := List.mem_range.mp hv
    omega
  · obtain ⟨i, rfl⟩ : ∃ i, k = i + 1 := ⟨k - 1, by omega⟩
    rw [List.range_succ_eq_map]
    exact Nat.zero_le _

theorem Within.not_lt_range {n k : Nat} {comb : List Nat} (h : Within n k comb) : ¬ comb < List.range k := by
  have hmin := h.increasing.not_lt_range' fun v _ => Nat.zero_le v
  rwa [h.length, ← List.range_eq_range'] at hmin

/-- The search has come to a combination, and has refused all before it. -/
structure Searching (ar : Arith) (o : Orchestrator) (g1 : SymMatrix Nat) (n : Nat)
    (s : List Nat × List IndexSet) : Prop where
  comb : Within n g1.n s.1
  tested : ∀ set ∈ s.2, Refused ar o g1 set.elems
  before : ∀ comb, Within n g1.n comb → comb < s.1 → Refused ar o g1 comb

def Searched (ar : Arith) (o : Orchestrator) (g1 : SymMatrix Nat) (n : Nat) :
    List Nat ⊕ List IndexSet → Prop
  | .inl q => Passes ar o g1 q
  | .inr testedComb => (∀ set ∈ testedComb, Refused ar o g1 set.elems) ∧
      ∀ comb, Within n g1.n comb → Refused ar o g1 comb

theorem combinationRound_returns (hmapped : o.Mapped) (hN : 0 < o.residualGraph.n) (happs : 0 < g1.n)
    (hsum : Summable ar g1) {n : Nat} (hn : g1.n ≤ n) {s : List Nat × List IndexSet}
    (hs : Searching ar o g1 n s) : Returns (o.combinationRound ar it g1 n s)
      (Round (Searching ar o g1 n) (fun s => (n + 2) ^ g1.n - Increasing.value n s.1)
        (Searched ar o g1 n) s) := by
  obtain ⟨hcomb, htested, hbefore⟩ := hs
  unfold combinationRound
  refine (testCombination_returns hmapped hN happs hsum hcomb.length htested).bind fun tested hresult => ?_
  cases tested with
  | inl q => exact (returns_pure _ _).mpr (hresult.1 q rfl).2
  | inr testedComb =>
    obtain ⟨hrefused, htested'⟩ := hresult.2 testedComb rfl
    have hupto : ∀ comb, Within n g1.n comb → ¬ s.1 < comb → Refused ar o g1 comb := by
      intro comb hwithin hlt
      rcases lt_trichotomy comb s.1 with hbelow | rfl | habove
      · exact hbefore comb hwithin hbelow
      · exact hrefused
      · exact absurd habove hlt
    refine (hcomb.next happs hn).bind fun next hnext => ?_
    rcases hnext with ⟨rfl, hlast⟩ | ⟨after, rfl, hafter, -, hbetween, hvalue⟩
    · exact (returns_pure _ _).mpr ⟨htested', fun comb hwithin => hupto comb hwithin (hlast comb hwithin)⟩
    · refine (returns_pure _ _).mpr ⟨⟨hafter, htested', fun comb hwithin hlt => ?_⟩, hvalue⟩
      exact hupto comb hwithin fun habove => hbetween comb hwithin habove hlt

/-! ## All levels -/

theorem searchingSetSize_eq (hN : 0 < o.residualGraph.n) (clones : Nat) :
    (if clones > 0 then o.residualGraph.n - 1 + o.residualGraph.n * clones else o.residualGraph.n - 1) =
      o.residualGraph.n * (clones + 1) - 1 := by
  rw [Nat.mul_succ]
  split <;> rename_i hclones
  · omega
  · rw [Nat.eq_zero_of_not_pos hclones, Nat.mul_zero, Nat.zero_add]

theorem level_returns (hmapped : o.Mapped) (hN : 0 < o.residualGraph.n) (happs : 0 < g1.n)
    (hsum : Summable ar g1) {n : Nat} (hn : g1.n ≤ n)
    (htested : ∀ set ∈ testedComb, Refused ar o g1 set.elems) :
    Returns (loop ((n + 2) ^ g1.n + 1) (o.combinationRound ar it g1 n) (List.range g1.n, testedComb))
      (Searched ar o g1 n) := by
  refine Returns.loop (Searching ar o g1 n) (fun s => (n + 2) ^ g1.n - Increasing.value n s.1) ?_
    (Nat.lt_succ_of_le (Nat.sub_le _ _)) fun s => combinationRound_returns hmapped hN happs hsum hn
  exact ⟨within_range happs hn, htested, fun comb hwithin hlt => absurd hlt hwithin.not_lt_range⟩

/-- The search through all levels: what it finds passes, and it finds something where anything passes
that uses no host more often than there are clones on the last level. -/
theorem findIsoInternal_returns (hmapped : o.Mapped) (hN : 0 < o.residualGraph.n) (happs : 0 < g1.n)
    (hsum : Summable ar g1) {levels clones : Nat} (hroom : g1.n < o.residualGraph.n * (clones + 1))
    (hclones : 0 < clones + levels) (htested : ∀ set ∈ testedComb, Refused ar o g1 set.elems) :
    Returns (o.findIsoInternal ar it g1 (levels + 1) clones testedComb) fun found =>
      found = none → ∀ p, (∀ host, p.count host ≤ clones + levels + 1) → ¬ Passes ar o g1 p := by
  induction levels generalizing clones testedComb with
  | zero =>
    unfold findIsoInternal
    rw [usizeSub_of_le (show 1 ≤ o.residualGraph.size from hN), bind_ok]
    simp only [SymMatrix.size, searchingSetSize_eq hN]
    refine (level_returns hmapped hN happs hsum (by omega) htested).bind fun result hresult => ?_
    cases result with
    | inl q => exact (returns_pure _ _).mpr (by simp)
    | inr testedComb =>
      refine (returns_pure _ _).mpr fun _ p hcount hpasses => ?_
      have hlt := hpasses.lt hmapped
      have hlen := hpasses.length
      have hwithin : Within (o.residualGraph.n * (clones + 1) - 1) g1.n
          (clonesFor o.residualGraph.n (clones + 1) p) := by
        refine ⟨(length_clonesFor hN hlt hcount).trans hlen, clonesFor_increasing p, ?_⟩
        rw [← hlen]
        exact headI_clonesFor hN (by omega) hlt hcount (by omega) (by omega)
      exact hresult.2 _ hwithin p (clonesFor_perm hN hlt hcount).symm hpasses
  | succ levels ih =>
    have hnext : o.residualGraph.n * (clones + 1) ≤ o.residualGraph.n * (clones + 1 + 1) :=
      Nat.mul_le_mul_left _ (Nat.le_succ _)
    unfold findIsoInternal
    rw [usizeSub_of_le (show 1 ≤ o.residualGraph.size from hN), bind_ok]
    simp only [SymMatrix.size, searchingSetSize_eq hN]
    refine (level_returns hmapped hN happs hsum (by omega) htested).bind fun result hresult => ?_
    cases result with
    | inl q => exact (returns_pure _ _).mpr (by simp)
    | inr testedComb =>
      refine (ih (hroom.trans_le hnext) (by omega) hresult.1).mono fun found hfound hnone p hcount => ?_
      exact hfound hnone p fun host => (hcount host).trans (by omega)

/-! ## A level without a next combination -/

/-- `n - k` of `next_comb`, when the combination has all the numbers. -/
theorem nextComb_all {k : Nat} (hk : 0 < k) : nextComb (List.range k) k (k - 1) = .error .arith := by
  have hlt : k - 1 < (List.range k).length := by
    rw [List.length_range]
    omega
  have hget : get ((List.range k).set (k - 1) ((List.range k)[k - 1] + 1)) (k - 1) =
      .ok ((List.range k)[k - 1] + 1) := by
    rw [get_eq_ok, List.getElem?_set_self hlt]
  have hsub : usizeSub (k - 1) k = .error .arith := if_neg (by omega)
  unfold nextComb
  rw [usizeSub_of_le (show 1 ≤ k from hk), bind_ok, get_eq hlt, bind_ok, set_eq hlt, bind_ok, loop]
  simp only [hget, bind_ok, hsub, bind_error]

theorem findIsoInternal_full (hmapped : o.Mapped) (hN : 0 < o.residualGraph.n) (happs : 0 < g1.n)
    (hsum : Summable ar g1) {levels clones : Nat} (hfull : g1.n = o.residualGraph.n * (clones + 1)) :
    (∃ q, o.findIsoInternal ar it g1 (levels + 1) clones [] = .ok (some q) ∧
        q.Perm (o.named (List.range g1.n)) ∧ Passes ar o g1 q) ∨
      (o.findIsoInternal ar it g1 (levels + 1) clones [] = .error .arith ∧
        Refused ar o g1 (List.range g1.n)) := by
  have htest : Returns (o.testCombination ar it g1 (List.range g1.n) []) _ :=
    testCombination_returns hmapped hN happs hsum List.length_range (by simp)
  obtain ⟨tested, htested, hfound, hrefused⟩ := htest
  unfold findIsoInternal
  rw [usizeSub_of_le (show 1 ≤ o.residualGraph.size from hN), bind_ok]
  simp only [SymMatrix.size, searchingSetSize_eq hN, ← hfull]
  rw [loop, combinationRound, htested, bind_ok]
  cases tested with
  | inl q => exact Or.inl ⟨q, rfl, hfound q rfl⟩
  | inr testedComb =>
    refine Or.inr ⟨?_, (hrefused testedComb rfl).1⟩
    simp only [SymMatrix.size, nextComb_all happs, bind_error]

/-! ## Completeness -/

theorem named_range {N b : Nat} (hN : 0 < N) (hlt : ∀ host ∈ p, host < N)
    (hcount : ∀ host, host < N → p.count host = b) : ((List.range (N * b)).map fun v => v % N).Perm p := by
  have hle : ∀ host, p.count host ≤ b := by
    intro host
    by_cases hhost : host < N
    · exact Nat.le_of_eq (hcount host hhost)
    · rw [List.count_eq_zero_of_not_mem fun hmem => hhost (hlt host hmem)]
      exact Nat.zero_le b
  have hall : clonesFor N b p = List.range (N * b) := by
    refine List.filter_eq_self.mpr fun v hv => ?_
    rw [hcount _ (Nat.mod_lt v hN)]
    exact decide_eq_true (Nat.div_lt_of_lt_mul (List.mem_range.mp hv))
  exact hall ▸ clonesFor_perm hN hlt hle

theorem count_named_range {N b : Nat} (hN : 0 < N)
    (hperm : p.Perm ((List.range (N * b)).map fun v => v % N)) {host : Nat} (hhost : host < N) :
    p.count host = b := by
  have hsame : ∀ v ∈ List.range (N * b), ((fun x => x == host) ∘ fun v => v % N) v = true ↔
      decide (v % N = host ∧ v / N < b) = true := by
    intro v hv
    have hdiv := Nat.div_lt_of_lt_mul (List.mem_range.mp hv)
    simp [hdiv]
  rw [hperm.count_eq, List.count, List.countP_map, List.countP_congr hsame, countP_clones hN, if_pos hhost,
    Nat.min_self]

/-- The search finds a placement where one passes that uses no host too often, and never panics,
unless the first combination has all the clones. Then it panics unless one passes that uses every
host equally often. -/
theorem search_complete_iff {ar : Arith} {it : Iter} {o : Orchestrator} {g1 : SymMatrix Nat}
    (hmapped : o.Mapped)
    (hN : 0 < o.residualGraph.n) (happs : 0 < g1.n) (hsum : Summable ar g1) :
    ((∃ found, o.findIsomorphism ar it g1 = .ok found) ∧
      ((∃ p, Passes ar o g1 p ∧ ∀ host, p.count host ≤ g1.n - o.residualGraph.n + 5) →
        ∃ q, o.findIsomorphism ar it g1 = .ok (some q))) ↔
    (g1.n ≠ o.residualGraph.n ∧ o.residualGraph.n ≠ 1) ∨
      ∃ p, Passes ar o g1 p ∧ ∀ host, host < o.residualGraph.n → p.count host = g1.n / o.residualGraph.n := by
  have hclones :
    (max 0 ((g1.n : Int) - (o.residualGraph.n : Int))).toNat = g1.n - o.residualGraph.n := by omega
  have hfind : o.findIsomorphism ar it g1 = o.findIsoInternal ar it g1 5 (g1.n - o.residualGraph.n) [] := by
    unfold findIsomorphism
    rw [SymMatrix.size, SymMatrix.size, hclones]
  rw [hfind]
  by_cases hspare : g1.n ≠ o.residualGraph.n ∧ o.residualGraph.n ≠ 1
  · have hroom : g1.n < o.residualGraph.n * (g1.n - o.residualGraph.n + 1) := by
      have htwo : 2 * (g1.n - o.residualGraph.n) ≤ o.residualGraph.n * (g1.n - o.residualGraph.n) :=
        Nat.mul_le_mul_right _ (by omega)
      rw [Nat.mul_succ]
      omega
    have hreturns : Returns (o.findIsoInternal ar it g1 5 (g1.n - o.residualGraph.n) []) _ :=
      findIsoInternal_returns hmapped hN happs hsum hroom (Nat.succ_pos _) (by simp)
    obtain ⟨found, hfound, hnone⟩ := hreturns
    refine iff_of_true ⟨⟨found, hfound⟩, ?_⟩ (Or.inl hspare)
    rintro ⟨p, hpasses, hcount⟩
    cases found with
    | none => exact absurd hpasses (hnone rfl p hcount)
    | some q => exact ⟨q, hfound⟩
  · have hfull : g1.n = o.residualGraph.n * (g1.n - o.residualGraph.n + 1) := by
      by_cases hone : o.residualGraph.n = 1
      · rw [hone]
        omega
      · have heq : g1.n = o.residualGraph.n := by
          by_contra hne
          exact hspare ⟨hne, hone⟩
        rw [heq, Nat.sub_self, Nat.zero_add, Nat.mul_one]
    have hdiv : g1.n / o.residualGraph.n = g1.n - o.residualGraph.n + 1 := by
      conv_lhs => rw [hfull]
      exact Nat.mul_div_cancel_left _ hN
    have hall : o.named (List.range g1.n) =
        (List.range (o.residualGraph.n * (g1.n - o.residualGraph.n + 1))).map fun v =>
          v % o.residualGraph.n := by
      rw [named, ← hfull]
    rcases findIsoInternal_full hmapped hN happs hsum hfull with ⟨q, hq, hperm, hpasses⟩ | ⟨hpanic, hrefused⟩
    · refine iff_of_true ⟨⟨_, hq⟩, fun _ => ⟨q, hq⟩⟩ (Or.inr ⟨q, hpasses, fun host hhost => ?_⟩)
      rw [hdiv]
      exact count_named_range hN (hall ▸ hperm) hhost
    · refine iff_of_false ?_ ?_
      · rintro ⟨⟨found, hfound⟩, -⟩
        cases hpanic.symm.trans hfound
      · rintro (h | ⟨p, hpasses, hcount⟩)
        · exact hspare h
        · rw [hdiv] at hcount
          exact hrefused p (hall ▸ (named_range hN (hpasses.lt hmapped) hcount).symm) hpasses

/-- All apps on one host pass where it has room for them: they ask for nothing on a link. -/
theorem passes_replicate (hsum : Summable ar g1) {host : Nat} {node : ClusterNodeInfo}
    (hnode : o.hostMapping[host]? = some node) (hroom : o.totalLoad node + g1.n ≤ o.maxLoad) :
    Passes ar o g1 (List.replicate g1.n host) := by
  refine ⟨List.length_replicate, fun h hh => ?_⟩
  obtain ⟨-, rfl⟩ := List.mem_replicate.mp hh
  obtain ⟨total, htotal⟩ := hsum.outflow (p := List.replicate g1.n h) List.length_replicate h
  refine ⟨node, total, hnode, ?_, htotal, fun other hother hne => absurd (List.mem_replicate.mp hother).2 hne⟩
  rwa [List.count_replicate_self]

/-- Three apps on two hosts that have too little bandwidth between them: they go to one host. -/
theorem search_complete_demo : ∃ (o : Orchestrator) (g1 : SymMatrix Nat) (q : List Nat),
    o.residualGraph.n = 2 ∧ g1.n = 3 ∧ o.findIsomorphism .checked .inOrder g1 = .ok (some q) := by
  obtain ⟨graph, -, o, -, ⟨hN, hlen, node, hnode, hload⟩, network, -, ⟨g1, apps⟩, -, happs, hle⟩ :
      Returns (demoCluster [0, 1] 1000) fun graph =>
        Returns (Orchestrator.new .inOrder graph 9092 4) fun o => (o.residualGraph.n = 2 ∧
            o.hostMapping.length = 2 ∧
              Returns (get o.hostMapping 0) fun node => o.totalLoad node + 3 ≤ o.maxLoad) ∧
          Returns (demoTopology 3 2000) fun network =>
            Returns (network.bandwidthMatrix .inOrder Node.isApp) fun r => r.1.n = 3 ∧
              AtMost r.1 2000 := by
    decide +kernel
  have hsum : Summable .checked g1 := summable_of_atMost hle (by rw [happs]; decide)
  have hpasses : Passes .checked o g1 (List.replicate g1.n 0) :=
    passes_replicate hsum (get_eq_ok.mp hnode) (happs ▸ hload)
  have hcount : ∀ host, (List.replicate g1.n 0).count host ≤ g1.n - o.residualGraph.n + 5 := by
    intro host
    have hle := List.count_le_length (a := host) (l := List.replicate g1.n 0)
    rw [List.length_replicate] at hle
    rw [hN]
    omega
  have hone : g1.n ≠ o.residualGraph.n ∧ o.residualGraph.n ≠ 1 := by
    rw [happs, hN]
    decide
  obtain ⟨-, hcomplete⟩ : (∃ found, o.findIsomorphism .checked .inOrder g1 = .ok found) ∧ _ :=
    (search_complete_iff (hlen.trans hN.symm) (hN ▸ Nat.succ_pos 1) (happs ▸ Nat.succ_pos 2) hsum).mpr
      (Or.inl hone)
  obtain ⟨q, hq⟩ := hcomplete ⟨_, hpasses, hcount⟩
  exact ⟨o, g1, q, hN, happs, hq⟩

/-- Two apps on two hosts that have too little bandwidth between them could go to one host, but the
search panics after its first combination. -/
theorem search_panics : ∃ (o : Orchestrator) (g1 : SymMatrix Nat) (p : List Nat), o.Mapped ∧
    o.residualGraph.n = 2 ∧ g1.n = 2 ∧ Passes .checked o g1 p ∧
    (∀ host, p.count host ≤ g1.n - o.residualGraph.n + 5) ∧
    o.findIsomorphism .checked .inOrder g1 = .error .arith := by
  obtain ⟨graph, -, o, -, ⟨hN, hlen, node, hnode, hload⟩, network, -, ⟨g1, apps⟩, -, happs, hle, hpanic⟩ :
      Returns (demoCluster [0, 1] 1000) fun graph =>
        Returns (Orchestrator.new .inOrder graph 9092 4) fun o => (o.residualGraph.n = 2 ∧
            o.hostMapping.length = 2 ∧
              Returns (get o.hostMapping 0) fun node => o.totalLoad node + 2 ≤ o.maxLoad) ∧
          Returns (demoTopology 2 2000) fun network =>
            Returns (network.bandwidthMatrix .inOrder Node.isApp) fun r => r.1.n = 2 ∧
              AtMost r.1 2000 ∧
              o.findIsomorphism .checked .inOrder r.1 = .error .arith := by
    decide +kernel
  have hsum : Summable .checked g1 := summable_of_atMost hle (by rw [happs]; decide)
  refine ⟨o, g1, List.replicate g1.n 0, hlen.trans hN.symm, hN, happs,
    passes_replicate hsum (get_eq_ok.mp hnode) (happs ▸ hload), fun host => ?_, hpanic⟩
  have := List.count_le_length (a := host) (l := List.replicate g1.n 0)
  rw [List.length_replicate] at this
  omega

end Orchestrator

end Kollaps
