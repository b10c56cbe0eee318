import Kollaps.Orchestrator.Calls

/-!
# What is taken from the residual graph and given back

The loops of the orchestrator go over pairs of apps. Each pair names a cell of the residual
graph, and what a loop changes is read off the list of its cells.
-/

namespace Kollaps

open Run

/-- A place of a matrix, and an amount. -/
structure Cell where
  row : Nat
  col : Nat
  amount : Nat
deriving DecidableEq

namespace Cell

/-- The cell is the place `(i, j)` of a symmetric matrix. -/
def On (i j : Nat) (c : Cell) : Prop := (i = c.row ∧ j = c.col) ∨ (i = c.col ∧ j = c.row)

instance (i j : Nat) : DecidablePred (On i j) := fun c =>
  inferInstanceAs (Decidable ((i = c.row ∧ j = c.col) ∨ (i = c.col ∧ j = c.row)))

theorem on_self (c : Cell) : c.On c.row c.col := Or.inl ⟨rfl, rfl⟩

def total (i j : Nat) : List Cell → Nat
  | [] => 0
  | c :: cells => (if c.On i j then c.amount else 0) + total i j cells

@[simp] theorem total_nil (i j : Nat) : total i j [] = 0 := rfl

@[simp] theorem total_cons (i j : Nat) (c : Cell) (cells : List Cell) :
    total i j (c :: cells) = (if c.On i j then c.amount else 0) + total i j cells := rfl

@[simp] theorem total_append (i j : Nat) (cells cells' : List Cell) :
    total i j (cells ++ cells') = total i j cells + total i j cells' := by
  induction cells with
  | nil => simp
  | cons c cells ih => rw [List.cons_append, total_cons, total_cons, ih, Nat.add_assoc]

def Within (n : Nat) (cells : List Cell) : Prop := ∀ c ∈ cells, c.row < n ∧ c.col < n

end Cell

open Cell

namespace SymMatrix

variable {ar : Arith} {m m' : SymMatrix Nat}

/-! ## Giving back -/

def addAll (ar : Arith) (m : SymMatrix Nat) (cells : List Cell) : Run (SymMatrix Nat) :=
  cells.foldlM (fun m c => m.addAt ar c.row c.col c.amount) m

def Fits (m : SymMatrix Nat) (cells : List Cell) : Prop :=
  ∀ c ∈ cells, m.entry c.row c.col + total c.row c.col cells ≤ u32Max

theorem addAt_spec {c : Cell} {s : Nat} (hrow : c.row < m.n) (hcol : c.col < m.n)
    (hs : ar.add (m.entry c.row c.col) c.amount = .ok s) :
    Returns (m.addAt ar c.row c.col c.amount) fun m' => m'.n = m.n ∧ ∀ i j, i < m.n → j < m.n →
      m'.entry i j = if c.On i j then s else m.entry i j := by
  unfold addAt
  rw [index_eq m hrow hcol, bind_ok, hs, bind_ok]
  exact setIndex_spec m hrow hcol s

theorem addAt_ok {c : Cell} (hrow : c.row < m.n) (hcol : c.col < m.n)
    (h : m.addAt ar c.row c.col c.amount = .ok m') :
    ∃ s, ar.add (m.entry c.row c.col) c.amount = .ok s ∧ m'.n = m.n ∧ ∀ i j, i < m.n → j < m.n →
      m'.entry i j = if c.On i j then s else m.entry i j := by
  have hadd := h
  unfold addAt at hadd
  rw [index_eq m hrow hcol, bind_ok] at hadd
  obtain ⟨s, hs, -⟩ := of_bind_eq_ok hadd
  exact ⟨s, hs, (addAt_spec hrow hcol hs).of_eq h⟩

theorem entry_on {c : Cell} {i j : Nat} (h : c.On i j) : m.entry i j = m.entry c.row c.col := by
  rcases h with ⟨rfl, rfl⟩ | ⟨rfl, rfl⟩
  · rfl
  · exact m.entry_comm _ _

theorem addAll_n {cells : List Cell} (h : m.addAll ar cells = .ok m') : m'.n = m.n :=
  foldlM_ok_inv (fun s => s.n = m.n) rfl (fun _ _ _ _ hs h => (Orchestrator.addAt_n h).trans hs) h

theorem addAll_agrees {cells : List Cell} (hin : Within m.n cells) (h : m.addAll ar cells = .ok m')
    {i j : Nat} (hi : i < m.n) (hj : j < m.n) : ar.Agrees (m'.entry i j) (m.entry i j + total i j cells) := by
  induction cells generalizing m with
  | nil =>
    cases h
    exact Arith.Agrees.refl ar _
  | cons c cells ih =>
    unfold addAll at h
    rw [List.foldlM_cons] at h
    obtain ⟨m₁, h₁, h⟩ := of_bind_eq_ok h
    obtain ⟨hrow, hcol⟩ := hin c List.mem_cons_self
    obtain ⟨s, hs, hn, hentry⟩ := addAt_ok hrow hcol h₁
    have hrest := ih (fun c' hc' => hn ▸ hin c' (List.mem_cons_of_mem _ hc')) h (hn ▸ hi) (hn ▸ hj)
    refine hrest.trans ?_
    rw [hentry i j hi hj, total_cons, ← Nat.add_assoc]
    refine Arith.Agrees.add_right ?_ _
    by_cases hc : c.On i j
    · rw [if_pos hc, if_pos hc, entry_on hc]
      exact Arith.add_agrees hs
    · rw [if_neg hc, if_neg hc]
      exact Arith.Agrees.refl ar _

theorem addAll_entry (har : ar ≠ .wrapping) {cells : List Cell} (hin : Within m.n cells)
    (h : m.addAll ar cells = .ok m') {i j : Nat} (hi : i < m.n) (hj : j < m.n) :
    m'.entry i j = m.entry i j + total i j cells :=
  (Arith.agrees_iff har).mp (addAll_agrees hin h hi hj)

theorem addAll_of_fits {cells : List Cell} (hin : Within m.n cells)
    (hfits : ar = .checked → m.Fits cells) : Returns (m.addAll ar cells) fun _ => True := by
  induction cells generalizing m with
  | nil => exact ⟨m, rfl, trivial⟩
  | cons c cells ih =>
    obtain ⟨hrow, hcol⟩ := hin c List.mem_cons_self
    obtain ⟨s, hs⟩ : ∃ s, ar.add (m.entry c.row c.col) c.amount = .ok s := by
      cases ar with
      | checked =>
        have h := hfits rfl c List.mem_cons_self
        rw [total_cons, if_pos c.on_self] at h
        exact ⟨_, if_pos (by omega)⟩
      | wrapping | exact => exact ⟨_, rfl⟩
    obtain ⟨m₁, h₁, hn, hentry⟩ := addAt_spec hrow hcol hs
    unfold addAll at ih ⊢
    rw [List.foldlM_cons, h₁, bind_ok]
    refine ih (fun c' hc' => hn ▸ hin c' (List.mem_cons_of_mem _ hc')) fun har c' hc' => ?_
    subst har
    obtain ⟨hr, hk⟩ := hin c' (List.mem_cons_of_mem _ hc')
    have h := hfits rfl c' (List.mem_cons_of_mem _ hc')
    rw [total_cons] at h
    rw [hentry _ _ hr hk]
    split <;> rename_i hc
    · rw [if_pos hc, entry_on hc] at h
      rw [Arith.add_eq_ok (by simp) hs]
      omega
    · rwa [if_neg hc, Nat.zero_add] at h

theorem addAll_returns {cells : List Cell} (hin : Within m.n cells) :
    Returns (m.addAll ar cells) (fun _ => True) ↔ (ar = .checked → m.Fits cells) := by
  refine ⟨fun ⟨m', h, _⟩ har c hc => ?_, addAll_of_fits hin⟩
  subst har
  obtain ⟨hrow, hcol⟩ := hin c hc
  rw [← addAll_entry (by simp) hin h hrow hcol]
  -- What was added to once is a sum that did not overflow.
  refine (foldlM_ok_done (fun done s => s.n = m.n ∧ ∀ c ∈ done, s.entry c.row c.col ≤ u32Max)
    ⟨rfl, by simp⟩ (fun pre c post s s' hx hs hstep => ?_) h).2 c hc
  have hmem : ∀ c' ∈ pre ++ [c], c'.row < s.n ∧ c'.col < s.n := fun c' hc' => by
    rw [hs.1]
    refine hin c' ?_
    rw [hx]
    simp only [List.mem_append, List.mem_cons, List.not_mem_nil, or_false] at hc' ⊢
    tauto
  obtain ⟨hr, hk⟩ := hmem c (by simp)
  obtain ⟨sum, hsum, hn, hentry⟩ := addAt_ok hr hk hstep
  refine ⟨hn.trans hs.1, fun c' hc' => ?_⟩
  rw [hentry _ _ (hmem c' hc').1 (hmem c' hc').2]
  split <;> rename_i hon
  · simp only [Arith.add] at hsum
    split at hsum
    · cases hsum
      assumption
    · cases hsum
  · rcases List.mem_append.mp hc' with hc' | hc'
    · exact hs.2 c' hc'
    · rw [List.mem_singleton.mp hc'] at hon
      exact absurd c.on_self hon

/-! ## Taking -/

def subAll (ar : Arith) (m : SymMatrix Nat) (cells : List Cell) : Run (SymMatrix Nat) :=
  cells.foldlM (fun m c => m.subAt ar c.row c.col c.amount) m

theorem subAt_spec {c : Cell} {s : Nat} (hrow : c.row < m.n) (hcol : c.col < m.n)
    (hs : ar.sub (m.entry c.row c.col) c.amount = .ok s) :
    Returns (m.subAt ar c.row c.col c.amount) fun m' => m'.n = m.n ∧ ∀ i j, i < m.n → j < m.n →
      m'.entry i j = if c.On i j then s else m.entry i j := by
  unfold subAt
  rw [index_eq m hrow hcol, bind_ok, hs, bind_ok]
  exact setIndex_spec m hrow hcol s

theorem subAll_entry (har : ar ≠ .wrapping) {cells : List Cell} (hin : Within m.n cells)
    (h : m.subAll ar cells = .ok m') {i j : Nat} (hi : i < m.n) (hj : j < m.n) :
    m'.entry i j + total i j cells = m.entry i j := by
  induction cells generalizing m with
  | nil =>
    cases h
    rfl
  | cons c cells ih =>
    unfold subAll at h
    rw [List.foldlM_cons] at h
    obtain ⟨m₁, h₁, h⟩ := of_bind_eq_ok h
    obtain ⟨hrow, hcol⟩ := hin c List.mem_cons_self
    have hsub := h₁
    unfold subAt at hsub
    rw [index_eq m hrow hcol, bind_ok] at hsub
    obtain ⟨s, hs, -⟩ := of_bind_eq_ok hsub
    obtain ⟨hn, hentry⟩ := (subAt_spec hrow hcol hs).of_eq h₁
    obtain ⟨hle, rfl⟩ := Arith.sub_eq_ok har hs
    have hrest := ih (fun c' hc' => hn ▸ hin c' (List.mem_cons_of_mem _ hc')) h (hn ▸ hi) (hn ▸ hj)
    rw [hentry i j hi hj] at hrest
    rw [total_cons]
    split at hrest <;> rename_i hc
    · rw [if_pos hc, entry_on (m := m) hc]
      omega
    · rw [if_neg hc]
      omega

theorem subAll_returns (har : ar ≠ .wrapping) {cells : List Cell} (hin : Within m.n cells)
    (hroom : ∀ c ∈ cells, total c.row c.col cells ≤ m.entry c.row c.col) :
    Returns (m.subAll ar cells) fun _ => True := by
  induction cells generalizing m with
  | nil => exact ⟨m, rfl, trivial⟩
  | cons c cells ih =>
    obtain ⟨hrow, hcol⟩ := hin c List.mem_cons_self
    have hle := hroom c List.mem_cons_self
    rw [total_cons, if_pos c.on_self] at hle
    have hs : ar.sub (m.entry c.row c.col) c.amount = .ok (m.entry c.row c.col - c.amount) := by
      cases ar with
      | wrapping => exact absurd rfl har
      | checked | exact => exact if_pos (by omega)
    obtain ⟨m₁, h₁, hn, hentry⟩ := subAt_spec hrow hcol hs
    unfold subAll at ih ⊢
    rw [List.foldlM_cons, h₁, bind_ok]
    refine ih (fun c' hc' => hn ▸ hin c' (List.mem_cons_of_mem _ hc')) fun c' hc' => ?_
    obtain ⟨hr, hk⟩ := hin c' (List.mem_cons_of_mem _ hc')
    have h := hroom c' (List.mem_cons_of_mem _ hc')
    rw [total_cons] at h
    rw [hentry _ _ hr hk]
    split <;> rename_i hc
    · rw [if_pos hc, entry_on hc] at h
      omega
    · rwa [if_neg hc, Nat.zero_add] at h

theorem subAll_wrapping {cells : List Cell} (hin : Within m.n cells) :
    Returns (m.subAll .wrapping cells) fun _ => True := by
  refine (Returns.foldlM_inv (fun m' => m'.n = m.n) rfl fun c hc m' hm' => ?_).mono fun _ _ => trivial
  obtain ⟨hrow, hcol⟩ := hin c hc
  have hsub : Returns (Arith.sub .wrapping (m'.entry c.row c.col) c.amount) fun _ => True := ⟨_, rfl, trivial⟩
  obtain ⟨s, hs, -⟩ := hsub
  exact (subAt_spec (by omega) (by omega) hs).mono fun m'' h => h.1.trans hm'

end SymMatrix

/-! ## The pairs of apps -/

namespace Orchestrator

variable {ar : Arith} {matrix r : SymMatrix Nat} {p : List Nat}

/-- The cell of two apps: their hosts, and what they ask for. -/
def cellOf (matrix : SymMatrix Nat) (p : List Nat) (pair : Nat × Nat) : Cell :=
  ⟨p.getD pair.1 0, p.getD pair.2 0, matrix.entry pair.1 pair.2⟩

/-- The pairs of an app that stops. -/
def pairsOf (n app : Nat) : List (Nat × Nat) :=
  ((List.range n).filter fun i => i ≠ app).map fun i => (app, i)

theorem mem_pairsOf {n app : Nat} {pair : Nat × Nat} :
    pair ∈ pairsOf n app ↔ pair.1 = app ∧ pair.2 < n ∧ pair.2 ≠ app := by
  simp only [pairsOf, List.mem_map, List.mem_filter, List.mem_range, decide_eq_true_eq, Prod.ext_iff]
  constructor
  · rintro ⟨i, ⟨hi, hne⟩, rfl, rfl⟩
    exact ⟨rfl, hi, hne⟩
  · rintro ⟨rfl, hi, hne⟩
    exact ⟨pair.2, ⟨hi, hne⟩, rfl, rfl⟩

theorem within_map {n : Nat} {pairs : List (Nat × Nat)} (hlt : ∀ h ∈ p, h < n)
    (hpairs : ∀ pair ∈ pairs, pair.1 < p.length ∧ pair.2 < p.length) :
    Within n (pairs.map (cellOf matrix p)) := by
  intro c hc
  obtain ⟨pair, hpair, rfl⟩ := List.mem_map.mp hc
  obtain ⟨h1, h2⟩ := hpairs pair hpair
  simp only [cellOf, List.getD_eq_getElem?_getD, List.getElem?_eq_getElem h1,
    List.getElem?_eq_getElem h2, Option.getD_some]
  exact ⟨hlt _ (List.getElem_mem h1), hlt _ (List.getElem_mem h2)⟩

theorem release_eq {i j : Nat} (hlen : p.length = matrix.n) (hi : i < matrix.n) (hj : j < matrix.n)
    (hne : i ≠ j) : release ar matrix p i j r =
      r.addAt ar (cellOf matrix p (i, j)).row (cellOf matrix p (i, j)).col
        (cellOf matrix p (i, j)).amount := by
  unfold release
  rw [if_neg hne, get_eq (by omega), bind_ok, get_eq (by omega), bind_ok, SymMatrix.index_eq _ hi hj, bind_ok]
  simp only [cellOf, List.getD_eq_getElem?_getD]
  rw [List.getElem?_eq_getElem (by omega), List.getElem?_eq_getElem (by omega)]
  rfl

/-- The loop of `stop_app_emulation_on`. -/
theorem releaseApp_eq {app : Nat} (hlen : p.length = matrix.n) (happ : app < matrix.n) :
    forRange matrix.size r (fun i residualGraph =>
      if i = app then pure residualGraph else release ar matrix p app i residualGraph) =
        r.addAll ar ((pairsOf matrix.n app).map (cellOf matrix p)) := by
  unfold SymMatrix.addAll pairsOf forRange SymMatrix.size
  rw [List.map_map, List.foldlM_map, List.foldlM_filter]
  refine foldlM_congr (fun i hi r => ?_) r
  rw [List.mem_range] at hi
  by_cases hne : i = app
  · simp [hne]
  · simp only [if_neg hne, release_eq hlen happ hi (Ne.symm hne)]
    simp [hne]

/-- The loops of `stop_emulation`. -/
theorem releaseAll_eq (hlen : p.length = matrix.n) :
    forRange matrix.size r (fun i residualGraph =>
      forRange i residualGraph (release ar matrix p i)) =
        r.addAll ar ((pairsBelow matrix.n).map (cellOf matrix p)) := by
  unfold SymMatrix.addAll SymMatrix.size
  rw [forRange_below, List.foldlM_map]
  refine foldlM_congr (fun pair hpair r => ?_) r
  obtain ⟨h1, h2⟩ := mem_pairsBelow.mp hpair
  exact release_eq hlen h1 (by omega) (by omega)

def apart (n : Nat) (p : List Nat) : List (Nat × Nat) :=
  (pairsBelow n).filter fun pair => p.getD pair.1 0 ≠ p.getD pair.2 0

/-- The loops of `new_emulation`. -/
theorem reserveAll_eq (hlen : p.length = matrix.n) :
    forRange matrix.size r (fun i residualGraph =>
      forRange i residualGraph (reserve ar matrix p i)) =
        r.subAll ar ((apart matrix.n p).map (cellOf matrix p)) := by
  unfold SymMatrix.subAll SymMatrix.size apart
  rw [forRange_below, List.foldlM_map, List.foldlM_filter]
  refine foldlM_congr (fun pair hpair r => ?_) r
  obtain ⟨h1, h2⟩ := mem_pairsBelow.mp hpair
  have hne : pair.1 ≠ pair.2 := by omega
  unfold reserve
  rw [get_eq (by omega), bind_ok, get_eq (by omega), bind_ok]
  simp only [cellOf, List.getD_eq_getElem?_getD]
  rw [List.getElem?_eq_getElem (by omega), List.getElem?_eq_getElem (by omega)]
  simp only [hne, false_or, Option.getD_some, decide_not, Bool.not_eq_true', decide_eq_false_iff_not,
    ite_not]
  split
  · rfl
  · rw [SymMatrix.index_eq _ h1 (by omega), bind_ok]

end Orchestrator

end Kollaps
