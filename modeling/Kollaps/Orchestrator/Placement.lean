import Kollaps.Orchestrator.Reservations
import Mathlib.Algebra.BigOperators.Ring.Finset

/-!
# What a placement was checked for

`verify_permutation` looks at one host after the other: is there room for its apps, and is what
they ask for as a whole left on the link to each of the other hosts. The orchestrator then takes
the bandwidth pair by pair.
-/

namespace Kollaps

open Run

namespace Orchestrator

variable {ar : Arith} {it : Iter} {o : Orchestrator} {g1 matrix : SymMatrix Nat} {p : List Nat}

def totalLoad (o : Orchestrator) (host : ClusterNodeInfo) : Nat :=
  ((o.currentLoad.lookup host).map fun map => (map.elems.map Prod.snd).sum).getD 0

def appsOn (p : List Nat) (host : Nat) : List Nat :=
  (List.range p.length).filter fun app => p.getD app 0 = host

def appsOff (p : List Nat) (host : Nat) : List Nat :=
  (List.range p.length).filter fun app => p.getD app 0 ≠ host

/-- What some apps ask for to others, as a whole. -/
def flow (matrix : SymMatrix Nat) (apps others : List Nat) : Nat :=
  (apps.map fun app => (others.map fun other => matrix.entry app other).sum).sum

theorem mem_appsOn {host app : Nat} : app ∈ appsOn p host ↔ app < p.length ∧ p.getD app 0 = host := by
  simp [appsOn]

theorem getActualLoad_eq {host : Nat} {node : ClusterNodeInfo} (h : o.hostMapping[host]? = some node) :
    o.getActualLoad it host = .ok (o.totalLoad node) := by
  have hsum : ∀ l :
    List (Uuid × Nat), ∀ a, l.foldl (fun acc p => acc + p.2) a = a + (l.map Prod.snd).sum := by
    intro l
    induction l with
    | nil => simp
    | cons x l ih =>
      intro a
      rw [List.foldl_cons, ih, List.map_cons, List.sum_cons, Nat.add_assoc]
  unfold getActualLoad totalLoad
  rw [get_eq_ok.mpr h, bind_ok, KeySet.get?_eq_lookup]
  cases o.currentLoad.lookup node with
  | none => rfl
  | some map =>
    show (Except.ok _ : Run Nat) = _
    rw [hsum, Nat.zero_add, ((it.perm map.elems).map Prod.snd).sum_eq]
    rfl

theorem count_eq (host : Nat) : p.count host = (appsOn p host).length := by
  unfold appsOn
  induction p using List.reverseRecOn with
  | nil => rfl
  | append_singleton p h ih =>
    have hsame : (List.range p.length).filter (fun app => decide ((p ++ [h]).getD app 0 = host)) =
        (List.range p.length).filter fun app => decide (p.getD app 0 = host) := by
      refine List.filter_congr fun app happ => ?_
      rw [List.mem_range] at happ
      rw [List.getD_eq_getElem?_getD, List.getElem?_append_left happ, ← List.getD_eq_getElem?_getD]
    rw [List.count_append, ih, List.length_append, List.length_singleton, List.range_succ,
      List.filter_append, hsame, List.length_append]
    congr 1
    by_cases hh : h = host <;> simp [hh]

/-! ## One host -/

def outflow (ar : Arith) (g1 : SymMatrix Nat) (p : List Nat) (host : Nat) : Run Nat :=
  (appsOn p host).foldlM (fun total app => (appsOff p host).foldlM (fun total other => do
    ar.add total (← g1.index app other)) total) 0

/-- The equivalence and the combination of the search, which give the hosts `p`. -/
structure Shaped (o : Orchestrator) (g1 : SymMatrix Nat) (equivalence mapper p : List Nat) : Prop where
  perm : equivalence.Perm (List.range g1.n)
  length : mapper.length = g1.n
  places : p = o.hosts equivalence mapper

variable {equivalence mapper : List Nat}

namespace Shaped

theorem length_eq (h : Shaped o g1 equivalence mapper p) : p.length = g1.n := by
  rw [h.places, hosts, List.length_map, h.perm.length_eq, List.length_range]

theorem lt (h : Shaped o g1 equivalence mapper p) {e : Nat} (he : e ∈ equivalence) : e < mapper.length := by
  rw [h.length]
  exact List.mem_range.mp (h.perm.mem_iff.mp he)

theorem hostOf_eq (h : Shaped o g1 equivalence mapper p) {app : Nat} (happ : app < g1.n) :
    o.hostOf equivalence mapper app = .ok (p.getD app 0) := by
  have hlt : app < equivalence.length := by
    rw [h.perm.length_eq, List.length_range]
    exact happ
  have hmapper := h.lt (List.getElem_mem hlt)
  unfold hostOf
  rw [get_eq hlt, bind_ok, get_eq hmapper, bind_ok, h.places, hosts, List.getD_eq_getElem?_getD,
    List.getElem?_map, List.getElem?_eq_getElem hlt, Option.map_some, Option.getD_some,
    List.getD_eq_getElem?_getD, List.getElem?_eq_getElem hmapper, Option.getD_some]
  rfl

theorem others_eq (h : Shaped o g1 equivalence mapper p) : equivalence.mapM (fun other => do
      let m ← get mapper other
      pure (m % o.residualGraph.size)) = .ok p := by
  rw [h.places]
  refine mapM_ok fun e he => ?_
  rw [get_eq (h.lt he), bind_ok, List.getD_eq_getElem?_getD, List.getElem?_eq_getElem (h.lt he)]
  rfl

theorem verifyHost_eq (h : Shaped o g1 equivalence mapper p) (host : Nat) :
    o.verifyHost ar it g1 equivalence mapper host = (do
      let load ← o.getActualLoad it host
      let room ← usizeSub o.maxLoad load
      if room < (appsOn p host).length then pure false
      else do
        let total ← outflow ar g1 p host
        (p.filter fun other => other ≠ host).allM fun other => do
          let residual ← o.residualGraph.index host other
          pure (decide (total ≤ residual))) := by
  have hon : (List.range g1.size).filterM (fun app =>
      return (← o.hostOf equivalence mapper app) = host) = .ok (appsOn p host) := by
    rw [appsOn, h.length_eq]
    exact filterM_ok fun app happ => by rw [h.hostOf_eq (List.mem_range.mp happ)]; rfl
  have hoff : (List.range g1.size).filterM (fun app =>
      return (← o.hostOf equivalence mapper app) ≠ host) = .ok (appsOff p host) := by
    rw [appsOff, h.length_eq]
    exact filterM_ok fun app happ => by rw [h.hostOf_eq (List.mem_range.mp happ)]; rfl
  unfold verifyHost outflow
  simp only [hon, hoff, bind_ok, h.others_eq]

end Shaped

theorem outflow_eq (har : ar ≠ .wrapping) (hlen : p.length = g1.n) {host total : Nat}
    (h : outflow ar g1 p host = .ok total) : total = flow g1 (appsOn p host) (appsOff p host) := by
  have hoff : ∀ app ∈ appsOn p host, ∀ others : List Nat, (∀ other ∈ others, other < g1.n) → ∀ a t,
      others.foldlM (fun total other => do ar.add total (← g1.index app other)) a = .ok t →
        t = a + (others.map fun other => g1.entry app other).sum := by
    intro app happ others
    induction others with
    | nil =>
      intro _ a t h
      cases h
      rfl
    | cons other others ih =>
      intro hlt a t h
      rw [List.foldlM_cons, SymMatrix.index_eq _ (hlen ▸ (mem_appsOn.mp happ).1)
        (hlt other List.mem_cons_self)] at h
      obtain ⟨b, hb, h⟩ := of_bind_eq_ok h
      rw [bind_ok] at hb
      rw [ih (fun x hx => hlt x (List.mem_cons_of_mem _ hx)) b t h, Arith.add_eq_ok har hb, List.map_cons,
        List.sum_cons, Nat.add_assoc]
  have hlt : ∀ other ∈ appsOff p host, other < g1.n := by
    intro other hother
    rw [← hlen]
    exact List.mem_range.mp (List.mem_filter.mp hother).1
  have hon : ∀ apps : List Nat, (∀ app ∈ apps, app ∈ appsOn p host) → ∀ a t,
      apps.foldlM (fun total app => (appsOff p host).foldlM (fun total other => do
        ar.add total (← g1.index app other)) total) a = .ok t → t = a + flow g1 apps (appsOff p host) := by
    intro apps
    induction apps with
    | nil =>
      intro _ a t h
      cases h
      rfl
    | cons app apps ih =>
      intro hmem a t h
      rw [List.foldlM_cons] at h
      obtain ⟨b, hb, h⟩ := of_bind_eq_ok h
      rw [ih (fun x hx => hmem x (List.mem_cons_of_mem _ hx)) b t h,
        hoff app (hmem app List.mem_cons_self) _ hlt a b hb, flow, flow, List.map_cons, List.sum_cons,
        Nat.add_assoc]
  have := hon (appsOn p host) (fun _ h => h) 0 total h
  omega

/-! ## All hosts -/

theorem of_verifyHosts {residuals : List Nat} {checkedHosts : IndexSet}
    (h : verifyHosts ar it o g1 equivalence mapper residuals checkedHosts = .ok true) :
    ∀ i ∈ residuals, ∃ m, get mapper i = .ok m ∧ (m % o.residualGraph.size ∈ checkedHosts.elems ∨
      o.verifyHost ar it g1 equivalence mapper (m % o.residualGraph.size) = .ok true) := by
  induction residuals generalizing checkedHosts with
  | nil => simp
  | cons i rest ih =>
    unfold verifyHosts at h
    obtain ⟨m, hm, h⟩ := of_bind_eq_ok h
    simp only at h
    have hcontains : checkedHosts.contains (m % o.residualGraph.size) = true ↔
        m % o.residualGraph.size ∈ checkedHosts.elems := by
      rw [KeySet.contains_iff, KeySet.keys, List.map_id']
    intro j hj
    split at h <;> rename_i hold
    · rcases List.mem_cons.mp hj with rfl | hj
      · exact ⟨m, hm, Or.inl (hcontains.mp hold)⟩
      · exact ih h j hj
    · obtain ⟨b, hb, h⟩ := of_bind_eq_ok h
      cases b with
      | false => cases h
      | true =>
        rcases List.mem_cons.mp hj with rfl | hj
        · exact ⟨m, hm, Or.inr hb⟩
        · obtain ⟨m', hm', hchecked⟩ := ih h j hj
          refine ⟨m', hm', ?_⟩
          rcases hchecked with hmem | hv
          · rcases KeySet.mem_insert_iff.mp hmem with hmem | hmem
            · exact Or.inl hmem
            · exact Or.inr (hmem ▸ hb)
          · exact Or.inr hv

/-- A host that the search has checked, for the apps of a placement. -/
structure Checked (ar : Arith) (o : Orchestrator) (g1 : SymMatrix Nat) (p : List Nat) (host : Nat)
    (node : ClusterNodeInfo) (total : Nat) : Prop where
  mapped : o.hostMapping[host]? = some node
  room : o.totalLoad node + p.count host ≤ o.maxLoad
  asked : outflow ar g1 p host = .ok total
  fits : ∀ other ∈ p, other ≠ host → ∃ residual, o.residualGraph.index host other = .ok residual ∧
    total ≤ residual

theorem Shaped.checked (h : Shaped o g1 equivalence mapper p) {host : Nat}
    (hv : o.verifyHost ar it g1 equivalence mapper host = .ok true) :
    ∃ node total, Checked ar o g1 p host node total := by
  rw [h.verifyHost_eq] at hv
  obtain ⟨load, hload, hv⟩ := of_bind_eq_ok hv
  obtain ⟨room, hroom, hv⟩ := of_bind_eq_ok hv
  split at hv <;> rename_i hfull
  · cases hv
  · obtain ⟨total, htotal, hlinks⟩ := of_bind_eq_ok hv
    obtain ⟨node, hnode⟩ : ∃ node, o.hostMapping[host]? = some node := by
      unfold getActualLoad at hload
      obtain ⟨node, hnode, -⟩ := of_bind_eq_ok hload
      exact ⟨node, get_eq_ok.mp hnode⟩
    rw [getActualLoad_eq hnode] at hload
    cases hload
    refine ⟨node, total, hnode, ?_, htotal, fun other hother hne => ?_⟩
    · obtain ⟨hle, rfl⟩ := usizeSub_eq_ok.mp hroom
      rw [count_eq]
      omega
    · have hother := of_allM_eq_true hlinks other (List.mem_filter.mpr ⟨hother, decide_eq_true hne⟩)
      obtain ⟨residual, hresidual, hle⟩ := of_bind_eq_ok hother
      exact ⟨residual, hresidual, of_decide_eq_true (Except.ok.inj hle)⟩

theorem Found.checked (h : Found ar it o g1 p) {host : Nat} (hhost : host ∈ p) :
    ∃ node total, Checked ar o g1 p host node total := by
  obtain ⟨combination, equivalence, residual, hlen, hsize, hperm, hp, hverified⟩ := h.verified
  have hshaped : Shaped o g1 equivalence combination p := ⟨hperm, hlen, hp⟩
  rw [hp] at hhost
  obtain ⟨e, he, rfl⟩ := List.mem_map.mp hhost
  have hlt := hshaped.lt he
  obtain ⟨m, hm, hchecked⟩ := of_verifyHosts hverified e
    (List.mem_range.mpr (by rw [SymMatrix.size, ← hsize, ← hlen]; exact hlt))
  rw [get_eq hlt] at hm
  cases hm
  have hv := hchecked.resolve_left (by simp [KeySet.empty])
  rw [List.getD_eq_getElem?_getD, List.getElem?_eq_getElem hlt, Option.getD_some]
  exact hshaped.checked hv

/-! ## What two hosts exchange -/

theorem sum_filter_range (q : Nat → Bool) (f : Nat → Nat) (n : Nat) :
    (((List.range n).filter q).map f).sum = ∑ i ∈ Finset.range n, if q i = true then f i else 0 := by
  induction n with
  | zero => rfl
  | succ n ih =>
    rw [List.range_succ, List.filter_append, List.map_append, List.sum_append, ih, Finset.sum_range_succ]
    cases hq : q n <;> simp [hq]

theorem flow_on_le {host other : Nat} (hne : other ≠ host) :
    flow g1 (appsOn p host) (appsOn p other) ≤ flow g1 (appsOn p host) (appsOff p host) := by
  unfold flow
  refine List.sum_le_sum fun app _ => ?_
  unfold appsOn appsOff
  rw [sum_filter_range, sum_filter_range]
  refine Finset.sum_le_sum fun j _ => ?_
  generalize p.getD j 0 = place
  by_cases hj : place = other
  · simp [hj, hne]
  · simp [hj]

/-- What the apps on two hosts ask for is left on the link between these. -/
theorem Found.flow_le (har : ar ≠ .wrapping) (h : Found ar it o g1 p) {host other : Nat} (hhost : host ∈ p)
    (hother : other ∈ p) (hne : host ≠ other) :
    flow g1 (appsOn p host) (appsOn p other) ≤ o.residualGraph.entry host other := by
  obtain ⟨node, total, hchecked⟩ := h.checked hhost
  obtain ⟨residual, hresidual, hle⟩ := hchecked.fits other hother (Ne.symm hne)
  rw [SymMatrix.index_eq _ (h.lt _ hhost) (h.lt _ hother)] at hresidual
  cases hresidual
  rw [outflow_eq har h.length hchecked.asked] at hle
  exact (flow_on_le (Ne.symm hne)).trans hle

theorem sum_pairsBelow (f : Nat × Nat → Nat) (n : Nat) :
    ((pairsBelow n).map f).sum = ∑ i ∈ Finset.range n, ∑ j ∈ Finset.range i, f (i, j) := by
  have hrow : ∀ (g : Nat → Nat) (k : Nat), ((List.range k).map g).sum = ∑ j ∈ Finset.range k, g j :=
    fun _ _ => rfl
  induction n with
  | zero => rfl
  | succ n ih =>
    have hsucc : pairsBelow (n + 1) = pairsBelow n ++ (List.range n).map fun j => (n, j) := by
      rw [pairsBelow, List.range_succ, List.flatMap_append, List.flatMap_singleton, pairsBelow]
    rw [hsucc, List.map_append, List.sum_append, ih, List.map_map, hrow, Finset.sum_range_succ]
    rfl

theorem sum_both (f : Nat → Nat → Nat) (n : Nat) :
    (∑ i ∈ Finset.range n, ∑ j ∈ Finset.range i, (f i j + f j i)) + ∑ i ∈ Finset.range n, f i i =
      ∑ i ∈ Finset.range n, ∑ j ∈ Finset.range n, f i j := by
  induction n with
  | zero => rfl
  | succ n ih =>
    simp only [Finset.sum_range_succ, Finset.sum_add_distrib] at ih ⊢
    omega

theorem total_eq_sum (i j : Nat) (cells : List Cell) :
    Cell.total i j cells = (cells.map fun c => if c.On i j then c.amount else 0).sum := by
  induction cells with
  | nil => rfl
  | cons c cells ih => rw [Cell.total_cons, ih, List.map_cons, List.sum_cons]

theorem amount_on {i j : Nat} (hne : i ≠ j) (c : Cell) : (if c.On i j then c.amount else 0) =
    (if c.row = i ∧ c.col = j then c.amount else 0) + if c.col = i ∧ c.row = j then c.amount else 0 := by
  by_cases h1 : c.row = i ∧ c.col = j
  · have h2 : ¬ (c.col = i ∧ c.row = j) := fun h2 => hne (h1.1.symm.trans h2.2)
    rw [if_pos (show c.On i j from Or.inl ⟨h1.1.symm, h1.2.symm⟩), if_pos h1, if_neg h2, Nat.add_zero]
  · rw [if_neg h1, Nat.zero_add]
    by_cases h2 : c.col = i ∧ c.row = j
    · rw [if_pos (show c.On i j from Or.inr ⟨h2.1.symm, h2.2.symm⟩), if_pos h2]
    · rw [if_neg h2, if_neg]
      rintro (h | h)
      · exact h1 ⟨h.1.symm, h.2.symm⟩
      · exact h2 ⟨h.1.symm, h.2.symm⟩

theorem total_pairsBelow (hlen : p.length = matrix.n) {host other : Nat} (hne : host ≠ other) :
    Cell.total host other ((pairsBelow matrix.n).map (cellOf matrix p)) =
      flow matrix (appsOn p host) (appsOn p other) := by
  rw [total_eq_sum, List.map_map, sum_pairsBelow]
  have hflow : flow matrix (appsOn p host) (appsOn p other) =
      ∑ i ∈ Finset.range matrix.n, ∑ j ∈ Finset.range matrix.n,
        if p.getD i 0 = host ∧ p.getD j 0 = other then matrix.entry i j else 0 := by
    unfold flow appsOn
    rw [sum_filter_range, hlen]
    refine Finset.sum_congr rfl fun i _ => ?_
    simp only [sum_filter_range, decide_eq_true_eq]
    by_cases hi : p.getD i 0 = host
    · simp only [hi, if_true, true_and]
    · simp only [hi, if_false, false_and, Finset.sum_const_zero]
  have hdiag : ∑ i ∈ Finset.range matrix.n,
      (if p.getD i 0 = host ∧ p.getD i 0 = other then matrix.entry i i else 0) = 0 := by
    refine Finset.sum_eq_zero fun i _ => if_neg ?_
    rintro ⟨h1, h2⟩
    exact hne (h1.symm.trans h2)
  rw [hflow, ← sum_both, hdiag, Nat.add_zero]
  refine Finset.sum_congr rfl fun i _ => Finset.sum_congr rfl fun j _ => ?_
  rw [Function.comp_apply, amount_on hne, matrix.entry_comm j i]
  rfl

/-- Two apps on one host do not matter for the link between two hosts. -/
theorem total_apart {n host other : Nat} (hne : host ≠ other) :
    Cell.total host other ((apart n p).map (cellOf matrix p)) =
      Cell.total host other ((pairsBelow n).map (cellOf matrix p)) := by
  unfold apart
  induction pairsBelow n with
  | nil => rfl
  | cons pair pairs ih =>
    rw [List.map_cons, Cell.total_cons, ← ih]
    by_cases hpair : p.getD pair.1 0 = p.getD pair.2 0
    · rw [List.filter_cons_of_neg (by simpa using hpair), if_neg, Nat.zero_add]
      rintro (⟨h1, h2⟩ | ⟨h1, h2⟩)
      · exact hne (h1.trans (hpair.trans h2.symm))
      · exact hne (h1.trans (hpair.symm.trans h2.symm))
    · rw [List.filter_cons_of_pos (by simpa using hpair), List.map_cons, Cell.total_cons]

theorem apart_ends (hlen : p.length = matrix.n) {c : Cell}
    (hc : c ∈ (apart matrix.n p).map (cellOf matrix p)) :
    c.row ∈ p ∧ c.col ∈ p ∧ c.row ≠ c.col := by
  obtain ⟨pair, hpair, rfl⟩ := List.mem_map.mp hc
  rw [apart, List.mem_filter, mem_pairsBelow] at hpair
  obtain ⟨⟨h1, h2⟩, hne⟩ := hpair
  have hget : ∀ i, i < p.length → p.getD i 0 ∈ p := fun i hi => by
    rw [List.getD_eq_getElem?_getD, List.getElem?_eq_getElem hi]
    exact List.getElem_mem hi
  exact ⟨hget _ (by omega), hget _ (by omega), of_decide_eq_true hne⟩

theorem Found.reserves (h : Found ar it o matrix p) :
    Returns (forRange matrix.size o.residualGraph fun i residualGraph =>
      forRange i residualGraph (reserve ar matrix p i)) fun _ => True := by
  have hin : Cell.Within o.residualGraph.n ((apart matrix.n p).map (cellOf matrix p)) := by
    intro c hc
    obtain ⟨hrow, hcol, -⟩ := apart_ends h.length hc
    exact ⟨h.lt _ hrow, h.lt _ hcol⟩
  rw [reserveAll_eq h.length]
  by_cases har : ar = .wrapping
  · rw [har]
    exact SymMatrix.subAll_wrapping hin
  · refine SymMatrix.subAll_returns har hin fun c hc => ?_
    obtain ⟨hrow, hcol, hne⟩ := apart_ends h.length hc
    rw [total_apart hne, total_pairsBelow h.length hne]
    exact h.flow_le har hrow hcol hne

end Orchestrator

end Kollaps
