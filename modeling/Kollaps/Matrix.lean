import Kollaps.Lib.Run
import Mathlib.Data.Rat.Floor
import Mathlib.Tactic.FieldSimp
import Mathlib.Tactic.Linarith
import Mathlib.Tactic.Push

/-!
# Symmetric matrices

A `SymMatrix` keeps the upper triangle of a matrix in one vector. The `f64` and `i32`
arithmetic of the two index functions is exact here.
-/

namespace Kollaps

open Run

/-- `x as usize` and `x as u32` on a float: truncates, and a negative number gives zero. -/
def truncate (x : ℚ) : Nat := ⌊x⌋.toNat

theorem truncate_natCast (n : Nat) : truncate (n : ℚ) = n := by
  rw [truncate, Int.floor_natCast, Int.toNat_natCast]

namespace SymMatrix

/-! ## Indices -/

def sizeVec (n : Nat) : Nat := truncate ((n : ℚ) * (((n : ℚ) + 1) / 2))

def outToInIndex (row col n : Nat) : Nat :=
  let (row, col) := if row > col then (col, row) else (row, col)
  let rowOffset :=
    if row > 0 then
      let r : Int := -1
      let u1 : Int := n
      let n' : Int := row
      let un : Int := u1 + (n' - 1) * r
      truncate ((n' : ℚ) * (((u1 : ℚ) + (un : ℚ)) / 2))
    else 0
  rowOffset + (col - row)

/-- One round of the row search: the next row, or the row found and where it starts. -/
def inToOutRound (i n : Nat) (nextRow : Nat) : Run (Nat ⊕ (Nat × Nat)) := do
  let nextRowAdj : Int := (nextRow : Int) + 1
  let un : Int := (n : Int) + (nextRowAdj - 1) * -1
  let nextRowIndex := truncate ((nextRowAdj : ℚ) * (((n : ℚ) + (un : ℚ)) / 2))
  let currentRowIndex ← usizeSub nextRowIndex un.toNat
  if i < nextRowIndex ∧ i ≥ currentRowIndex then pure (.inr (nextRow, currentRowIndex))
  else pure (.inl (nextRow + 1))

def inToOutIndex (i n : Nat) : Run (Nat × Nat) := do
  let (row, currentRowIndex) ← loop (n + 1) (inToOutRound i n) 0
  let offset ← usizeSub i currentRowIndex
  pure (row, offset + row)

/-- Where row `r` of the triangle starts in the vector. -/
def rowStart (n : Nat) : Nat → Nat
  | 0 => 0
  | r + 1 => rowStart n r + (n - r)

theorem two_mul_rowStart (n r : Nat) (h : r ≤ n) : 2 * rowStart n r + r * r = r * (2 * n + 1) := by
  induction r with
  | zero => simp [rowStart]
  | succ r ih =>
    have := ih (by omega)
    obtain ⟨d, rfl⟩ : ∃ d, n = r + 1 + d := ⟨n - (r + 1), by omega⟩
    rw [rowStart, show r + 1 + d - r = d + 1 by omega]
    nlinarith

theorem rowStart_cast (n r : Nat) (h : r ≤ n) :
    (rowStart n r : ℚ) = (r : ℚ) * ((n : ℚ) + ((n : ℚ) + 1 - (r : ℚ))) / 2 := by
  have h2 : (2 : ℚ) * rowStart n r + r * r = r * (2 * n + 1) := by
    exact_mod_cast two_mul_rowStart n r h
  linarith

theorem rowStart_mono (n : Nat) {r s : Nat} (h : r ≤ s) : rowStart n r ≤ rowStart n s := by
  induction s with
  | zero => rw [Nat.le_zero.mp h]
  | succ s ih =>
    rcases Nat.lt_or_ge r (s + 1) with hr | hr
    · have := ih (by omega)
      rw [rowStart]; omega
    · rw [show r = s + 1 by omega]

theorem sizeVec_eq (n : Nat) : sizeVec n = rowStart n n := by
  rw [sizeVec, ← truncate_natCast (rowStart n n), rowStart_cast n n (le_refl n)]
  congr 1
  linarith

theorem outToInIndex_comm (row col n : Nat) : outToInIndex row col n = outToInIndex col row n := by
  unfold outToInIndex
  rcases Nat.lt_trichotomy row col with h | rfl | h
  · rw [if_neg (by omega), if_pos h]
  · rfl
  · rw [if_pos h, if_neg (by omega)]

theorem outToInIndex_eq {row col n : Nat} (h : row ≤ col) (hr : row ≤ n) :
    outToInIndex row col n = rowStart n row + (col - row) := by
  unfold outToInIndex
  rw [if_neg (by omega)]
  simp only
  split
  · congr 1
    rw [← truncate_natCast (rowStart n row), rowStart_cast n row hr]
    congr 1
    push_cast
    ring
  · rw [show row = 0 by omega]; rfl

theorem outToInIndex_lt {row col n : Nat} (hr : row < n) (hc : col < n) :
    outToInIndex row col n < sizeVec n := by
  wlog h : row ≤ col generalizing row col with hw
  · rw [outToInIndex_comm]; exact hw hc hr (by omega)
  rw [outToInIndex_eq h (by omega), sizeVec_eq]
  have := rowStart_mono n (show row + 1 ≤ n by omega)
  rw [rowStart] at this
  omega

theorem outToInIndex_inj {r c r' c' n : Nat} (h : r ≤ c) (h' : r' ≤ c') (hc : c < n) (hc' : c' < n)
    (he : outToInIndex r c n = outToInIndex r' c' n) : r = r' ∧ c = c' := by
  rw [outToInIndex_eq h (by omega), outToInIndex_eq h' (by omega)] at he
  rcases Nat.lt_trichotomy r r' with hlt | rfl | hlt
  · have := rowStart_mono n (show r + 1 ≤ r' by omega)
    rw [rowStart] at this; omega
  · exact ⟨rfl, by omega⟩
  · have := rowStart_mono n (show r' + 1 ≤ r by omega)
    rw [rowStart] at this; omega

theorem inToOutRound_eq {i n r : Nat} (hr : r < n) :
    inToOutRound i n r = .ok (if i < rowStart n (r + 1) ∧ i ≥ rowStart n r then
      .inr (r, rowStart n r) else .inl (r + 1)) := by
  have hx : (((r : Int) + 1 : Int) : ℚ) *
      (((n : ℚ) + (((n : Int) + ((r : Int) + 1 - 1) * -1 : Int) : ℚ)) / 2) =
      ((rowStart n (r + 1) : Nat) : ℚ) := by
    rw [rowStart_cast n (r + 1) (by omega)]
    push_cast
    ring
  have hu : ((n : Int) + ((r : Int) + 1 - 1) * -1).toNat = n - r := by omega
  have hs : usizeSub (rowStart n (r + 1)) (n - r) = .ok (rowStart n r) := by
    rw [usizeSub_of_le (by rw [rowStart]; omega), rowStart]
    congr 1; omega
  unfold inToOutRound
  simp only [hx, truncate_natCast, hu, hs, bind_ok]
  split <;> rfl

/-- The row search ends on the row whose stretch of the vector holds the index. -/
theorem loop_inToOutRound {i n : Nat} (hi : i < rowStart n n) :
    Returns (loop (n + 1) (inToOutRound i n) 0) fun p =>
      p.1 < n ∧ p.2 = rowStart n p.1 ∧ rowStart n p.1 ≤ i ∧ i < rowStart n (p.1 + 1) := by
  apply Returns.loop (fun r => r ≤ n ∧ rowStart n r ≤ i) (fun r => n - r) ⟨by omega, Nat.zero_le _⟩
    (by omega)
  rintro r ⟨hr, hle⟩
  have hlt : r < n := by
    rcases Nat.lt_or_ge r n with h | h
    · exact h
    · rw [show r = n by omega] at hle; omega
  rw [inToOutRound_eq hlt, returns_ok]
  split <;> rename_i h
  · exact ⟨hlt, rfl, hle, h.1⟩
  · exact ⟨⟨by omega, by omega⟩, show n - (r + 1) < n - r by omega⟩

theorem inToOutIndex_spec {i n : Nat} (hi : i < sizeVec n) :
    Returns (inToOutIndex i n) fun p => p.1 ≤ p.2 ∧ p.2 < n ∧ outToInIndex p.1 p.2 n = i := by
  rw [sizeVec_eq] at hi
  unfold inToOutIndex
  refine (loop_inToOutRound hi).bind fun p hp => ?_
  obtain ⟨row, start⟩ := p
  obtain ⟨hrow, hstart, hle, hlt⟩ := hp
  simp only at hrow hstart hle hlt ⊢
  subst hstart
  rw [usizeSub_of_le hle, bind_ok, returns_pure]
  rw [rowStart] at hlt
  refine ⟨by omega, by omega, ?_⟩
  rw [outToInIndex_eq (by omega) (by omega)]
  show rowStart n row + (i - rowStart n row + row - row) = i
  omega

end SymMatrix

/-! ## The matrix -/

structure SymMatrix (α : Type) where
  n : Nat
  data : List α
  size_data : data.length = SymMatrix.sizeVec n
deriving DecidableEq

namespace SymMatrix

variable {α β : Type}

def size (m : SymMatrix α) : Nat := m.n

def index (m : SymMatrix α) (row col : Nat) : Run α := get m.data (outToInIndex row col m.n)

def setIndex (m : SymMatrix α) (row col : Nat) (a : α) : Run (SymMatrix α) :=
  if outToInIndex row col m.n < m.data.length then
    .ok ⟨m.n, m.data.set (outToInIndex row col m.n) a, by rw [List.length_set, m.size_data]⟩
  else .error .index

/-- Pushes `f 0`, `f 1`, ... onto an empty vector. -/
def pushAll (f : Nat → Run α) : (k : Nat) → Run {l : List α // l.length = k}
  | 0 => .ok ⟨[], rfl⟩
  | k + 1 => do
    let l ← pushAll f k
    let a ← f k
    pure ⟨l.1 ++ [a], by simp [l.2]⟩

def newFn (n : Nat) (f : Nat → Nat → Run α) : Run (SymMatrix α) := do
  let data ← pushAll (fun i => do
    let (row, col) ← inToOutIndex i n
    f row col) (sizeVec n)
  pure ⟨n, data.1, data.2⟩

def growFn (m : SymMatrix α) (by_ : Nat) (f : Nat → Nat → Run α) : Run (SymMatrix α) :=
  newFn (m.n + by_) fun row col =>
    if row ≥ m.n ∨ col ≥ m.n then f row col else m.index row col

def removeId (m : SymMatrix α) (id : Nat) : Run (SymMatrix α) := do
  let n ← usizeSub m.n 1
  newFn n fun row col =>
    let row := if row ≥ id then row + 1 else row
    let col := if col ≥ id then col + 1 else col
    m.index row col

def map (f : α → β) (m : SymMatrix α) : SymMatrix β :=
  ⟨m.n, m.data.map f, by rw [List.length_map, m.size_data]⟩

/-- The value at a place, for places inside the matrix. -/
def entry [Inhabited α] (m : SymMatrix α) (i j : Nat) : α :=
  m.data.getD (outToInIndex i j m.n) default

variable [Inhabited α]

theorem entry_comm (m : SymMatrix α) (i j : Nat) : m.entry i j = m.entry j i := by
  rw [entry, entry, outToInIndex_comm]

theorem index_eq (m : SymMatrix α) {i j : Nat} (hi : i < m.n) (hj : j < m.n) :
    m.index i j = .ok (m.entry i j) := by
  have h : outToInIndex i j m.n < m.data.length := by
    rw [m.size_data]; exact outToInIndex_lt hi hj
  rw [index, get_eq h, entry, List.getD_eq_getElem?_getD, List.getElem?_eq_getElem h, Option.getD_some]

theorem entry_map [Inhabited β] (f : α → β) (m : SymMatrix α) {i j : Nat} (hi : i < m.n) (hj : j < m.n) :
    (m.map f).entry i j = f (m.entry i j) := by
  have h : outToInIndex i j m.n < m.data.length := by
    rw [m.size_data]; exact outToInIndex_lt hi hj
  simp [entry, map, List.getD_eq_getElem?_getD, h]

theorem ext_entry {m m' : SymMatrix α} (hn : m'.n = m.n)
    (h : ∀ i j, i < m.n → j < m.n → m'.entry i j = m.entry i j) : m' = m := by
  obtain ⟨n, data, hsize⟩ := m
  obtain ⟨n', data', hsize'⟩ := m'
  obtain rfl : n' = n := hn
  have hdata : data' = data := by
    apply List.ext_getElem (by rw [hsize, hsize'])
    intro k hk' hk
    obtain ⟨p, -, hle, hlt, rfl⟩ := inToOutIndex_spec (hsize ▸ hk)
    simpa [entry, List.getD_eq_getElem?_getD, hk, hk'] using h p.1 p.2 (hle.trans_lt hlt) hlt
  subst hdata
  rfl

theorem setIndex_spec (m : SymMatrix α) {i j : Nat} (hi : i < m.n) (hj : j < m.n) (a : α) :
    Returns (m.setIndex i j a) fun m' => m'.n = m.n ∧ ∀ i' j', i' < m.n → j' < m.n →
      m'.entry i' j' = if (i' = i ∧ j' = j) ∨ (i' = j ∧ j' = i) then a else m.entry i' j' := by
  have h : outToInIndex i j m.n < m.data.length := by
    rw [m.size_data]; exact outToInIndex_lt hi hj
  rw [setIndex, if_pos h, returns_ok]
  refine ⟨rfl, fun i' j' hi' hj' => ?_⟩
  have h' : outToInIndex i' j' m.n < m.data.length := by
    rw [m.size_data]; exact outToInIndex_lt hi' hj'
  have hiff : outToInIndex i j m.n = outToInIndex i' j' m.n ↔
      (i' = i ∧ j' = j) ∨ (i' = j ∧ j' = i) := by
    constructor
    · intro he
      rcases Nat.le_total i j with hij | hij <;> rcases Nat.le_total i' j' with hij' | hij'
      · have := outToInIndex_inj hij hij' hj hj' he; omega
      · rw [outToInIndex_comm i'] at he
        have := outToInIndex_inj hij hij' hj hi' he; omega
      · rw [outToInIndex_comm i] at he
        have := outToInIndex_inj hij hij' hi hj' he; omega
      · rw [outToInIndex_comm i, outToInIndex_comm i'] at he
        have := outToInIndex_inj hij hij' hi hi' he; omega
    · rintro (⟨rfl, rfl⟩ | ⟨rfl, rfl⟩)
      · rfl
      · exact outToInIndex_comm _ _ _
  simp only [entry, List.getD_eq_getElem?_getD, List.getElem?_set, ← hiff]
  split <;> simp_all

theorem pushAll_spec {f : Nat → Run α} {k : Nat} {P : Nat → α → Prop}
    (h : ∀ i, i < k → Returns (f i) (P i)) :
    Returns (pushAll f k) fun l => ∀ i, i < k → P i (l.1.getD i default) := by
  induction k with
  | zero => simp [pushAll]
  | succ k ih =>
    rw [pushAll]
    refine (ih fun i hi => h i (by omega)).bind fun l hl => ?_
    refine (h k (by omega)).bind fun a ha => ?_
    rw [returns_pure]
    intro i hi
    have hlen := l.2
    rcases Nat.lt_or_ge i k with hlt | hge
    · rw [List.getD_eq_getElem?_getD, List.getElem?_append_left (by omega),
        ← List.getD_eq_getElem?_getD]
      exact hl i hlt
    · obtain rfl : i = k := by omega
      simpa [List.getD_eq_getElem?_getD, List.getElem?_append_right, hlen] using ha

theorem newFn_spec {n : Nat} {f : Nat → Nat → Run α} {P : Nat → Nat → α → Prop}
    (h : ∀ i j, i ≤ j → j < n → Returns (f i j) (P i j)) :
    Returns (newFn n f) fun m => m.n = n ∧ ∀ i j, i ≤ j → j < n → P i j (m.entry i j) := by
  unfold newFn
  have hall : ∀ i, i < sizeVec n → Returns (do
      let (row, col) ← inToOutIndex i n
      f row col) fun a => ∀ r c, r ≤ c → c < n → outToInIndex r c n = i → P r c a := by
    intro i hi
    refine (inToOutIndex_spec hi).bind fun p hp => ?_
    obtain ⟨hle, hlt, hin⟩ := hp
    refine (h p.1 p.2 hle hlt).mono fun a ha r c hrc hc he => ?_
    obtain ⟨rfl, rfl⟩ := outToInIndex_inj hrc hle hc hlt (he.trans hin.symm)
    exact ha
  refine (pushAll_spec hall).bind fun l hl => ?_
  rw [returns_pure]
  refine ⟨rfl, fun i j hij hj => ?_⟩
  exact hl _ (outToInIndex_lt (by omega) hj) i j hij hj rfl

theorem growFn_spec {m : SymMatrix α} {k : Nat} {f : Nat → Nat → Run α} {P : Nat → Nat → α → Prop}
    (h : ∀ i j, i ≤ j → m.n ≤ j → j < m.n + k → Returns (f i j) (P i j)) :
    Returns (m.growFn k f) fun m' => m'.n = m.n + k ∧
      (∀ i j, i < m.n → j < m.n → m'.entry i j = m.entry i j) ∧
      ∀ i j, i ≤ j → m.n ≤ j → j < m.n + k → P i j (m'.entry i j) := by
  refine (newFn_spec (P := fun i j a => (j < m.n → a = m.entry i j) ∧ (m.n ≤ j → P i j a))
    fun i j hij hj => ?_).mono ?_
  · split
    · exact (h i j hij (by omega) hj).mono fun a ha => ⟨fun _ => by omega, fun _ => ha⟩
    · rw [index_eq m (by omega) (by omega), returns_ok]
      exact ⟨fun _ => rfl, fun _ => by omega⟩
  · rintro m' ⟨hn, hP⟩
    refine ⟨hn, fun i j hi hj => ?_, fun i j hij h1 h2 => (hP i j hij h2).2 h1⟩
    rcases Nat.le_total i j with hij | hij
    · exact (hP i j hij (by omega)).1 hj
    · rw [m'.entry_comm, m.entry_comm]
      exact (hP j i hij (by omega)).1 hi

/-! ## What a matrix was made of -/

theorem pushAll_ok {f : Nat → Run α} {k : Nat} {l : {l : List α // l.length = k}} (h : pushAll f k = .ok l) :
    ∀ i, i < k → f i = .ok (l.1.getD i default) := by
  induction k with
  | zero => simp
  | succ k ih =>
    rw [pushAll] at h
    obtain ⟨l₁, h₁, h⟩ := of_bind_eq_ok h
    obtain ⟨a, ha, h⟩ := of_bind_eq_ok h
    cases h
    intro i hi
    have hlen := l₁.2
    rw [List.getD_eq_getElem?_getD]
    rcases Nat.lt_or_ge i k with hlt | hge
    · rw [List.getElem?_append_left (by omega), ← List.getD_eq_getElem?_getD]
      exact ih h₁ i hlt
    · obtain rfl : i = k := by omega
      rw [List.getElem?_append_right (by omega), hlen, Nat.sub_self]
      exact ha

theorem newFn_ok {n : Nat} {f : Nat → Nat → Run α} {m : SymMatrix α} (h : newFn n f = .ok m) :
    m.n = n ∧ ∀ i j, i ≤ j → j < n → f i j = .ok (m.entry i j) := by
  obtain ⟨data, hdata, h⟩ := of_bind_eq_ok h
  cases h
  refine ⟨rfl, fun i j hij hj => ?_⟩
  have hlt := outToInIndex_lt (show i < n by omega) hj
  have hcell := pushAll_ok hdata _ hlt
  obtain ⟨⟨row, col⟩, hindex, hle, hcol, hback⟩ := inToOutIndex_spec hlt
  obtain ⟨rfl, rfl⟩ := outToInIndex_inj hle hij hcol hj hback
  rw [hindex, bind_ok] at hcell
  exact hcell

omit [Inhabited α] in
theorem pushAll_noErr {f : Nat → Run α} {k : Nat} (h : ∀ i, i < k → NoErr (f i)) : NoErr (pushAll f k) := by
  induction k with
  | zero => exact NoErr.ok _
  | succ k ih =>
    rw [pushAll]
    exact (ih fun i hi => h i (by omega)).bind fun _ => (h k (by omega)).bind fun _ => NoErr.ok _

omit [Inhabited α] in
theorem newFn_noErr {n : Nat} {f : Nat → Nat → Run α}
    (h : ∀ row col, row ≤ col → col < n → NoErr (f row col)) : NoErr (newFn n f) := by
  refine (pushAll_noErr fun i hi => ?_).bind fun _ => NoErr.ok _
  obtain ⟨⟨row, col⟩, hindex, hle, hcol, -⟩ := inToOutIndex_spec hi
  rw [hindex, bind_ok]
  exact h row col hle hcol

theorem growFn_ok {m m' : SymMatrix α} {k : Nat} {f : Nat → Nat → Run α} (h : m.growFn k f = .ok m') :
    m'.n = m.n + k ∧ (∀ i j, i < m.n → j < m.n → m'.entry i j = m.entry i j) ∧
      ∀ i j, i ≤ j → m.n ≤ j → j < m.n + k → f i j = .ok (m'.entry i j) := by
  obtain ⟨hn, hf⟩ := newFn_ok h
  have hold : ∀ i j, i ≤ j → j < m.n → m'.entry i j = m.entry i j := by
    intro i j hij hj
    have hcell := hf i j hij (by omega)
    rw [if_neg (by omega), index_eq m (by omega) hj] at hcell
    exact (Except.ok.inj hcell).symm
  refine ⟨hn, fun i j hi hj => ?_, fun i j hij h1 h2 => ?_⟩
  · rcases Nat.le_total i j with hij | hij
    · exact hold i j hij hj
    · rw [m'.entry_comm, m.entry_comm]
      exact hold j i hij hi
  · have hcell := hf i j hij h2
    rwa [if_pos (by omega)] at hcell

/-- The old index of a row that is left after row `id` went. -/
def shift (id i : Nat) : Nat := if i ≥ id then i + 1 else i

theorem removeId_spec {m : SymMatrix α} {id : Nat} (hid : id < m.n) :
    Returns (m.removeId id) fun m' => m'.n = m.n - 1 ∧
      ∀ i j, i < m.n - 1 → j < m.n - 1 → m'.entry i j = m.entry (shift id i) (shift id j) := by
  unfold removeId
  rw [usizeSub_of_le (by omega), bind_ok]
  refine (newFn_spec (P := fun i j a => a = m.entry (shift id i) (shift id j))
    fun i j hij hj => ?_).mono ?_
  · have hi' : shift id i < m.n := by unfold shift; split <;> omega
    have hj' : shift id j < m.n := by unfold shift; split <;> omega
    exact ⟨_, index_eq m hi' hj', rfl⟩
  · rintro m' ⟨hn, hP⟩
    refine ⟨hn, fun i j hi hj => ?_⟩
    rcases Nat.le_total i j with hij | hij
    · exact hP i j hij hj
    · rw [m'.entry_comm, m.entry_comm]
      exact hP j i hij hi

end SymMatrix

end Kollaps
