import Kollaps.Matrix
import Mathlib.Data.List.Nodup

/-!
# The closure of a symmetric matrix

`new_fn` takes an `FnMut`: the closure may change what it captures. Here it carries a state
from one call to the next, and a closure that writes its calls down shows which there were.
-/

namespace Kollaps

open Run

namespace SymMatrix

variable {α σ : Type}

theorem length_push {k : Nat} (l : {l : List α // l.length = k}) (a : α) : (l.1 ++ [a]).length = k + 1 := by
  rw [List.length_append, l.2, List.length_singleton]

def push {k : Nat} (l : {l : List α // l.length = k}) (a : α) : {l : List α // l.length = k + 1} :=
  ⟨l.1 ++ [a], length_push l a⟩

def pushAllMut (f : Nat → σ → Run (α × σ)) : (k : Nat) → σ → Run ({l : List α // l.length = k} × σ)
  | 0, s => .ok (⟨[], List.length_nil⟩, s)
  | k + 1, s => do
    let before ← pushAllMut f k s
    let last ← f k before.2
    pure (push before.1 last.1, last.2)

/-- `new_fn`, and what the closure captured after its last call. -/
def newFnMut (n : Nat) (f : Nat → Nat → σ → Run (α × σ)) (s : σ) : Run (SymMatrix α × σ) := do
  let r ← pushAllMut (fun i s => do
    let (row, col) ← inToOutIndex i n
    f row col s) (sizeVec n) s
  pure (⟨n, r.1.1, r.1.2⟩, r.2)

theorem pushAllMut_fst {g : Nat → σ → Run (α × σ)} {f : Nat → Run α}
    (h : ∀ i s, Prod.fst <$> g i s = f i) (k : Nat) (s : σ) :
    Prod.fst <$> pushAllMut g k s = pushAll f k := by
  induction k generalizing s with
  | zero => rfl
  | succ k ih =>
    rw [pushAllMut, pushAll, ← ih s]
    cases pushAllMut g k s with
    | error e => rfl
    | ok before =>
      have hlast := h k before.2
      show Prod.fst <$> (g k before.2 >>= _) = f k >>= _
      rw [← hlast]
      cases g k before.2 <;> rfl

/-- Where the state makes no difference to the values, the matrix is that of `newFn`. -/
theorem newFnMut_fst {g : Nat → Nat → σ → Run (α × σ)} {f : Nat → Nat → Run α}
    (h : ∀ row col s, Prod.fst <$> g row col s = f row col) (n : Nat) (s : σ) :
    Prod.fst <$> newFnMut n g s = newFn n f := by
  have hcell : ∀ i s, Prod.fst <$> (do
      let (row, col) ← inToOutIndex i n
      g row col s) = (do
        let (row, col) ← inToOutIndex i n
        f row col) := by
    intro i s
    cases inToOutIndex i n with
    | error e => rfl
    | ok p => exact h p.1 p.2 s
  unfold newFnMut newFn
  rw [← pushAllMut_fst hcell (sizeVec n) s]
  cases pushAllMut _ (sizeVec n) s <;> rfl

def recording (f : Nat → Nat → α) (row col : Nat) (calls : List (Nat × Nat)) :
    Run (α × List (Nat × Nat)) :=
  pure (f row col, calls ++ [(row, col)])

/-! ## The cells in the order of the vector -/

/-- The place that is kept at index `i` of the vector. -/
def cell (n i : Nat) : Nat × Nat := (inToOutIndex i n).toOption.getD (0, 0)

theorem inToOutIndex_eq {n i : Nat} (hi : i < sizeVec n) : inToOutIndex i n = .ok (cell n i) := by
  obtain ⟨p, hp, -⟩ := inToOutIndex_spec hi
  rw [cell, hp]
  rfl

theorem cell_spec {n i : Nat} (hi : i < sizeVec n) :
    (cell n i).1 ≤ (cell n i).2 ∧ (cell n i).2 < n ∧
      outToInIndex (cell n i).1 (cell n i).2 n = i :=
  (inToOutIndex_spec hi).of_eq (inToOutIndex_eq hi)

theorem cell_outToInIndex {n row col : Nat} (hle : row ≤ col) (hlt : col < n) :
    cell n (outToInIndex row col n) = (row, col) := by
  obtain ⟨h1, h2, h3⟩ := cell_spec (outToInIndex_lt (show row < n by omega) hlt)
  obtain ⟨hr, hc⟩ := outToInIndex_inj h1 hle h2 hlt h3
  exact Prod.ext hr hc

def calls (n : Nat) : List (Nat × Nat) := (List.range (sizeVec n)).map (cell n)

theorem nodup_calls (n : Nat) : (calls n).Nodup := by
  unfold calls
  refine List.Nodup.map_on (fun i hi j hj he => ?_) List.nodup_range
  rw [List.mem_range] at hi hj
  rw [← (cell_spec hi).2.2, he, (cell_spec hj).2.2]

theorem mem_calls {n : Nat} {p : Nat × Nat} : p ∈ calls n ↔ p.1 ≤ p.2 ∧ p.2 < n := by
  unfold calls
  simp only [List.mem_map, List.mem_range]
  constructor
  · rintro ⟨i, hi, rfl⟩
    exact ⟨(cell_spec hi).1, (cell_spec hi).2.1⟩
  · rintro ⟨hle, hlt⟩
    exact ⟨outToInIndex p.1 p.2 n, outToInIndex_lt (by omega) hlt, cell_outToInIndex hle hlt⟩

/-! ## What the closure sees -/

theorem pushAllMut_recording (n : Nat) (f : Nat → Nat → α) {k : Nat} (hk : k ≤ sizeVec n)
    (s : List (Nat × Nat)) :
    Returns (pushAllMut (fun i s => do
      let (row, col) ← inToOutIndex i n
      recording f row col s) k s) fun r =>
        r.1.1 = ((List.range k).map (cell n)).map (fun p => f p.1 p.2) ∧
        r.2 = s ++ (List.range k).map (cell n) := by
  induction k with
  | zero => simp [pushAllMut]
  | succ k ih =>
    rw [pushAllMut]
    refine (ih (by omega)).bind fun r hr => ?_
    obtain ⟨hl, hs⟩ := hr
    simp only [inToOutIndex_eq (show k < sizeVec n by omega), bind_ok, recording]
    show Returns (pure _) _
    rw [returns_pure]
    simp [push, hl, hs, List.range_succ]

theorem newFnMut_recording (n : Nat) (f : Nat → Nat → α) :
    Returns (newFnMut n (recording f) []) fun r =>
      r.1.n = n ∧ r.1.data = (calls n).map (fun p => f p.1 p.2) ∧ r.2 = calls n := by
  unfold newFnMut
  refine (pushAllMut_recording n f (le_refl _) []).bind fun r hr => ?_
  obtain ⟨hl, hs⟩ := hr
  rw [returns_pure]
  exact ⟨rfl, hl, by rw [hs, List.nil_append, calls]⟩

theorem index_calls {m : SymMatrix α} {f : Nat → Nat → α} (h : m.data = (calls m.n).map fun p => f p.1 p.2)
    {i j : Nat} (hi : i < m.n) (hj : j < m.n) : m.index i j = .ok (f (min i j) (max i j)) := by
  wlog hij : i ≤ j generalizing i j with hw
  · rw [index, outToInIndex_comm, min_comm, max_comm]
    exact hw hj hi (by omega)
  have hlt := outToInIndex_lt hi hj
  unfold index
  rw [get_eq (by rw [m.size_data]; exact hlt)]
  simp only [h, calls, List.getElem_map, List.getElem_range, cell_outToInIndex hij hj]
  rw [min_eq_left hij, max_eq_right hij]

/-! ## A matrix is a symmetric function -/

theorem setIndex_index (m : SymMatrix α) {i j : Nat} (a : α) (hi : i < m.n) (hj : j < m.n) :
    Returns (m.setIndex i j a) fun m' => m'.n = m.n ∧
      ∀ i' j', i' < m.n → j' < m.n → m'.index i' j' =
        if (i' = i ∧ j' = j) ∨ (i' = j ∧ j' = i) then .ok a else m.index i' j' := by
  have : Inhabited α := ⟨a⟩
  refine (m.setIndex_spec hi hj a).mono fun m' h => ?_
  obtain ⟨hn, hentry⟩ := h
  refine ⟨hn, fun i' j' hi' hj' => ?_⟩
  rw [m'.index_eq (by omega) (by omega), hentry i' j' hi' hj', m.index_eq hi' hj']
  split <;> rfl

theorem growFn_index (m : SymMatrix α) (k : Nat) (f : Nat → Nat → α) :
    Returns (m.growFn k fun row col => pure (f row col)) fun m' => m'.n = m.n + k ∧
      (∀ i j, i < m.n → j < m.n → m'.index i j = m.index i j) ∧
      ∀ i j, i < m.n + k → j < m.n + k → m.n ≤ i ∨ m.n ≤ j →
        m'.index i j = .ok (f (min i j) (max i j)) := by
  have : Inhabited α := ⟨f 0 0⟩
  refine (growFn_spec (P := fun i j a => a = f i j) fun i j _ _ _ => ?_).mono fun m' h => ?_
  · rw [returns_pure]
  · obtain ⟨hn, hold, hnew⟩ := h
    refine ⟨hn, fun i j hi hj => ?_, fun i j hi hj hor => ?_⟩
    · rw [m'.index_eq (by omega) (by omega), hold i j hi hj, m.index_eq hi hj]
    · rw [m'.index_eq (by omega) (by omega)]
      congr 1
      rcases Nat.le_total i j with hij | hij
      · rw [hnew i j hij (by omega) hj, min_eq_left hij, max_eq_right hij]
      · rw [m'.entry_comm, hnew j i hij (by omega) hi, min_eq_right hij, max_eq_left hij]

theorem removeId_index (m : SymMatrix α) {id : Nat} (hid : id < m.n) :
    Returns (m.removeId id) fun m' => m'.n = m.n - 1 ∧ ∀ i j, i < m.n - 1 → j < m.n - 1 →
      m'.index i j = m.index (shift id i) (shift id j) := by
  have hlt : 0 < m.data.length := by
    rw [m.size_data]
    have := outToInIndex_lt hid hid
    omega
  have : Inhabited α := ⟨m.data[0]⟩
  refine (removeId_spec hid).mono fun m' h => ?_
  obtain ⟨hn, hentry⟩ := h
  refine ⟨hn, fun i j hi hj => ?_⟩
  rw [m'.index_eq (by omega) (by omega), hentry i j hi hj, m.index_eq]
  · unfold shift; split <;> omega
  · unfold shift; split <;> omega

theorem symmetric_function :
    (∀ (n : Nat) (f : Nat → Nat → α), Returns (newFnMut n (recording f) []) fun r =>
      newFn n (fun row col => pure (f row col)) = .ok r.1 ∧ r.1.size = n ∧
      (r.2.Nodup ∧ ∀ p, p ∈ r.2 ↔ p.1 ≤ p.2 ∧ p.2 < n) ∧
      ∀ i j, i < n → j < n → r.1.index i j = .ok (f (min i j) (max i j)) ∧
        r.1.index j i = .ok (f (min i j) (max i j))) ∧
    (∀ (m : SymMatrix α) (i j : Nat) (a : α), i < m.size → j < m.size →
      Returns (m.setIndex i j a) fun m' => m'.size = m.size ∧
        m'.index i j = .ok a ∧ m'.index j i = .ok a ∧
        ∀ i' j', i' < m.size → j' < m.size → ¬ (i' = i ∧ j' = j) → ¬ (i' = j ∧ j' = i) →
          m'.index i' j' = m.index i' j') ∧
    (∀ (m : SymMatrix α) (k : Nat) (f : Nat → Nat → α),
      Returns (m.growFn k fun row col => pure (f row col)) fun m' => m'.size = m.size + k ∧
        (∀ i j, i < m.size → j < m.size → m'.index i j = m.index i j) ∧
        ∀ i j, i < m.size + k → j < m.size + k → m.size ≤ i ∨ m.size ≤ j →
          m'.index i j = .ok (f (min i j) (max i j))) ∧
    ∀ (m : SymMatrix α) (id : Nat), id < m.size →
      Returns (m.removeId id) fun m' => m'.size = m.size - 1 ∧
        ∀ i j, i < m.size - 1 → j < m.size - 1 →
          m'.index i j = m.index (if i < id then i else i + 1) (if j < id then j else j + 1) := by
  have hshift : ∀ id i, shift id i = if i < id then i else i + 1 := by
    intro id i
    unfold shift
    split <;> split <;> omega
  refine ⟨fun n f => ?_, fun m i j a hi hj => ?_, fun m k f => m.growFn_index k f, fun m id hid => ?_⟩
  · have hfst :=
      newFnMut_fst (g := recording f) (f := fun row col => pure (f row col)) (fun _ _ _ => rfl) n []
    obtain ⟨r, hr, rfl, hdata, hcalls⟩ := newFnMut_recording n f
    rw [hr] at hfst
    refine ⟨r, hr, hfst.symm, rfl, ?_⟩
    rw [hcalls]
    refine ⟨⟨nodup_calls _, fun p => mem_calls⟩, fun i j hi hj => ⟨index_calls hdata hi hj, ?_⟩⟩
    rw [min_comm, max_comm]
    exact index_calls hdata hj hi
  · refine (m.setIndex_index a hi hj).mono fun m' h => ?_
    obtain ⟨hn, hindex⟩ := h
    refine ⟨hn, ?_, ?_, fun i' j' hi' hj' h1 h2 => ?_⟩
    · rw [hindex i j hi hj, if_pos (Or.inl ⟨rfl, rfl⟩)]
    · rw [hindex j i hj hi, if_pos (Or.inr ⟨rfl, rfl⟩)]
    · rw [hindex i' j' hi' hj', if_neg (by tauto)]
  · simpa only [SymMatrix.size, hshift] using m.removeId_index hid

end SymMatrix

end Kollaps
