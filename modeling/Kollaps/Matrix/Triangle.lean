import Kollaps.Matrix.Closure
import Mathlib.Data.Set.Function

/-!
# The triangle and the vector

`out_to_in_index` numbers the places of the upper triangle row by row, and `in_to_out_index`
reads a number back. Both work on a product of floats that is a whole number.
-/

namespace Kollaps

open Run

namespace SymMatrix

def triangle (n : Nat) : Set (Nat × Nat) := {p | p.1 ≤ p.2 ∧ p.2 < n}

/-! ## The product -/

/-- The sum of the first `r` row lengths `n`, `n - 1`, ..., as the source multiplies it. -/
def rowProduct (n r : Nat) : ℚ :=
  (r : ℚ) * (((n : ℚ) + (((n : Int) + ((r : Int) - 1) * -1 : Int) : ℚ)) / 2)

theorem rowProduct_eq {n r : Nat} (h : r ≤ n) : rowProduct n r = rowStart n r := by
  rw [rowProduct, rowStart_cast n r h]
  push_cast
  ring

theorem truncate_rowProduct {n r : Nat} (h : r ≤ n) : truncate (rowProduct n r) = rowStart n r := by
  rw [rowProduct_eq h, truncate_natCast]

theorem sizeVec_cast (n : Nat) : (sizeVec n : ℚ) = (n : ℚ) * (((n : ℚ) + 1) / 2) := by
  rw [sizeVec_eq, rowStart_cast n n (le_refl n)]
  ring

/-- The offset of row zero is not multiplied out, and its product is zero. -/
theorem outToInIndex_eq_truncate {row col : Nat} (n : Nat) (h : row ≤ col) :
    outToInIndex row col n = truncate (rowProduct n row) + (col - row) := by
  unfold outToInIndex
  rw [if_neg (by omega)]
  simp only
  split
  · rfl
  · obtain rfl : row = 0 := by omega
    rw [truncate_rowProduct (Nat.zero_le n), rowStart]

theorem inToOutRound_eq_truncate (i n r : Nat) :
    inToOutRound i n r = (do
      let currentRowIndex ← usizeSub (truncate (rowProduct n (r + 1))) (n - r)
      if i < truncate (rowProduct n (r + 1)) ∧ i ≥ currentRowIndex then pure (.inr (r, currentRowIndex))
      else pure (.inl (r + 1))) := by
  have hun : ((n : Int) + ((r : Int) + 1 - 1) * -1).toNat = n - r := by omega
  unfold inToOutRound rowProduct
  simp only [hun, Nat.cast_add, Nat.cast_one, Int.cast_add, Int.cast_one, Int.cast_natCast]

/-! ## The two maps -/

theorem two_mul_sizeVec (n : Nat) : 2 * sizeVec n = n * (n + 1) := by
  have h := two_mul_rowStart n n (le_refl n)
  rw [← sizeVec_eq] at h
  nlinarith

theorem sizeVec_eq_div (n : Nat) : sizeVec n = n * (n + 1) / 2 := by
  have h := two_mul_sizeVec n
  omega

theorem invOn_cell (n : Nat) :
    Set.InvOn (cell n) (fun p => outToInIndex p.1 p.2 n) (triangle n) (Set.Iio (sizeVec n)) := by
  refine ⟨fun p hp => ?_, fun i hi => ?_⟩
  · exact cell_outToInIndex hp.1 hp.2
  · exact (cell_spec hi).2.2

theorem bijOn_outToInIndex (n : Nat) :
    Set.BijOn (fun p => outToInIndex p.1 p.2 n) (triangle n) (Set.Iio (sizeVec n)) := by
  refine (invOn_cell n).bijOn (fun p hp => ?_) fun i hi => ?_
  · exact outToInIndex_lt (hp.1.trans_lt hp.2) hp.2
  · exact ⟨(cell_spec hi).1, (cell_spec hi).2.1⟩

theorem inToOutIndex_outToInIndex {n : Nat} {p : Nat × Nat} (hp : p ∈ triangle n) :
    inToOutIndex (outToInIndex p.1 p.2 n) n = .ok p := by
  rw [inToOutIndex_eq (outToInIndex_lt (hp.1.trans_lt hp.2) hp.2), cell_outToInIndex hp.1 hp.2]

/-- The triangle and the vector are in bijection by the two index functions. No subtraction
underflows on the way back, the row search ends in the triangle, and the truncations are exact. -/
theorem outToInIndex_bijection (n : Nat) :
    (∀ row col, outToInIndex row col n = outToInIndex col row n) ∧
      Set.BijOn (fun p => outToInIndex p.1 p.2 n) (triangle n) (Set.Iio (n * (n + 1) / 2)) ∧
      (∀ p ∈ triangle n, inToOutIndex (outToInIndex p.1 p.2 n) n = .ok p) ∧
      (∀ i < n * (n + 1) / 2,
        Returns (loop (n + 1) (inToOutRound i n) 0) (fun found => found.1 < n) ∧
        Returns (inToOutIndex i n) fun p => p ∈ triangle n ∧ outToInIndex p.1 p.2 n = i) ∧
      (∀ r ≤ n, (truncate (rowProduct n r) : ℚ) = rowProduct n r) ∧
      (∀ row col, row ≤ col → outToInIndex row col n = truncate (rowProduct n row) + (col - row)) ∧
      (∀ i r, inToOutRound i n r = do
        let currentRowIndex ← usizeSub (truncate (rowProduct n (r + 1))) (n - r)
        if i < truncate (rowProduct n (r + 1)) ∧ i ≥ currentRowIndex then
          pure (.inr (r, currentRowIndex))
        else pure (.inl (r + 1))) ∧
      (sizeVec n : ℚ) = (n : ℚ) * (((n : ℚ) + 1) / 2) ∧ sizeVec n = n * (n + 1) / 2 := by
  rw [← sizeVec_eq_div]
  refine ⟨fun row col => outToInIndex_comm row col n, bijOn_outToInIndex n,
    fun p hp => inToOutIndex_outToInIndex hp, fun i hi => ⟨?_, ?_⟩, fun r hr => ?_,
    fun row col h => outToInIndex_eq_truncate n h, fun i r => inToOutRound_eq_truncate i n r,
    sizeVec_cast n, rfl⟩
  · exact (loop_inToOutRound (sizeVec_eq n ▸ hi)).mono fun found hfound => hfound.1
  · exact (inToOutIndex_spec hi).mono fun p hp => ⟨⟨hp.1, hp.2.1⟩, hp.2.2⟩
  · rw [truncate_rowProduct hr, rowProduct_eq hr]

end SymMatrix

end Kollaps
