import Mathlib.Algebra.Order.Archimedean.Basic
import Mathlib.Data.Int.Log
import Mathlib.Data.Rat.Floor
import Mathlib.Tactic.FieldSimp
import Mathlib.Tactic.Linarith

/-!
# Binary floating point

The values of a binary format, rounded to the nearest one and a tie to the even one. The zeros of
both signs are one value here, as they are for every comparison.
-/

namespace Kollaps

namespace Binary

structure Format where
  precision : Nat
  minExponent : Int
  maxExponent : Int
  precision_pos : 0 < precision

def Format.binary32 : Format := ⟨24, -126, 127, by decide⟩

def Format.binary64 : Format := ⟨53, -1022, 1023, by decide⟩

variable {f : Format}

def Format.minPlace (f : Format) : Int := f.minExponent - (f.precision - 1)

/-- What a finite value can be. -/
def Format.Fits (f : Format) (q : ℚ) : Prop :=
  |q| < 2 ^ (f.maxExponent + 1) ∧
    ∃ n k : Int, |n| < 2 ^ f.precision ∧ f.minPlace ≤ k ∧ q = n * (2 : ℚ) ^ k

/-! ## Rounding -/

/-- The nearest integer, of two the even one. -/
def roundEven (x : ℚ) : Int :=
  if x - ⌊x⌋ < 1 / 2 then ⌊x⌋
  else if 1 / 2 < x - ⌊x⌋ then ⌊x⌋ + 1
  else if ⌊x⌋ % 2 = 0 then ⌊x⌋ else ⌊x⌋ + 1

@[simp] theorem roundEven_intCast (n : Int) : roundEven (n : ℚ) = n := by
  simp [roundEven]

theorem roundEven_cases (x : ℚ) :
    roundEven x = ⌊x⌋ ∨ (roundEven x = ⌊x⌋ + 1 ∧ (⌊x⌋ : ℚ) < x) := by
  unfold roundEven
  split_ifs with h h' h''
  · exact Or.inl rfl
  · exact Or.inr ⟨rfl, by linarith⟩
  · exact Or.inl rfl
  · exact Or.inr ⟨rfl, by linarith⟩

theorem abs_roundEven_le {x : ℚ} {n : Int} (h : |x| ≤ n) : |roundEven x| ≤ n := by
  obtain ⟨hlo, hhi⟩ := abs_le.mp h
  have hfloor : -n ≤ ⌊x⌋ := Int.le_floor.mpr (by push_cast; exact hlo)
  have hle : (⌊x⌋ : ℚ) ≤ x := Int.floor_le x
  rw [abs_le]
  rcases roundEven_cases x with he | ⟨he, hlt⟩
  · rw [he]
    exact ⟨hfloor, by exact_mod_cast hle.trans hhi⟩
  · have hn : ⌊x⌋ < n := by exact_mod_cast hlt.trans_le hhi
    rw [he]
    omega

/-- The exponent of the last place of the numbers around `q`. -/
def Format.place (f : Format) (q : ℚ) : Int := max (Int.log 2 |q| + 1 - f.precision) f.minPlace

def Format.nearest (f : Format) (q : ℚ) : ℚ := roundEven (q / 2 ^ f.place q) * 2 ^ f.place q

theorem two_zpow_pos (k : Int) : (0 : ℚ) < 2 ^ k := zpow_pos (by norm_num) k

theorem Format.abs_div_le (f : Format) (q : ℚ) : |q / 2 ^ f.place q| ≤ ((2 ^ f.precision : Int) : ℚ) := by
  have hlog : |q| < 2 ^ (Int.log 2 |q| + 1) := by
    exact_mod_cast Int.lt_zpow_succ_log_self (by norm_num) |q|
  have hle : Int.log 2 |q| + 1 ≤ f.precision + f.place q := by
    unfold place
    omega
  rw [abs_div, abs_of_pos (two_zpow_pos _), div_le_iff₀ (two_zpow_pos _)]
  push_cast
  rw [← zpow_natCast, ← zpow_add₀ (by norm_num)]
  exact hlog.le.trans (zpow_le_zpow_right₀ (by norm_num) hle)

/-- Unless it is too large, what rounding gives is a value of the format. -/
theorem Format.fits_nearest (f : Format) {q : ℚ} (h : |f.nearest q| < 2 ^ (f.maxExponent + 1)) :
    f.Fits (f.nearest q) := by
  refine ⟨h, ?_⟩
  have hle := abs_roundEven_le (f.abs_div_le q)
  unfold nearest
  generalize roundEven (q / 2 ^ f.place q) = n at hle ⊢
  have hplace : f.minPlace ≤ f.place q := le_max_right _ _
  rcases hle.lt_or_eq with hlt | heq
  · exact ⟨n, f.place q, hlt, hplace, rfl⟩
  · -- One place further up there is room again.
    obtain ⟨p, hp⟩ := Nat.exists_eq_succ_of_ne_zero f.precision_pos.ne'
    rw [hp, pow_succ] at heq ⊢
    have hpow : (0 : Int) < 2 ^ p := by positivity
    have htwice : ∃ m : Int, n = m * 2 ∧ |m| = 2 ^ p := by
      rcases abs_choice n with hn | hn
      · exact ⟨2 ^ p, by omega, abs_of_pos hpow⟩
      · exact ⟨-2 ^ p, by omega, by rw [abs_neg, abs_of_pos hpow]⟩
    obtain ⟨m, rfl, hm⟩ := htwice
    refine ⟨m, f.place q + 1, by omega, by omega, ?_⟩
    rw [zpow_add_one₀ (by norm_num)]
    push_cast
    ring

theorem Format.place_le {f : Format} {n k : Int} (hn : |n| < 2 ^ f.precision) (hk : f.minPlace ≤ k)
    (hne : n ≠ 0) : f.place (n * (2 : ℚ) ^ k) ≤ k := by
  have hpos : 0 < |n * (2 : ℚ) ^ k| := abs_pos.mpr (mul_ne_zero (by exact_mod_cast hne) (two_zpow_pos k).ne')
  have hlt : |n * (2 : ℚ) ^ k| < ((2 : Nat) : ℚ) ^ (f.precision + k : Int) := by
    rw [abs_mul, abs_of_pos (two_zpow_pos k), Nat.cast_ofNat, zpow_add₀ (by norm_num), zpow_natCast]
    refine mul_lt_mul_of_pos_right ?_ (two_zpow_pos k)
    exact_mod_cast hn
  have hlog := (Int.lt_zpow_iff_log_lt (by norm_num) hpos).mp hlt
  unfold place
  omega

theorem Format.nearest_of_fits {f : Format} {q : ℚ} (h : f.Fits q) : f.nearest q = q := by
  obtain ⟨-, n, k, hn, hk, rfl⟩ := h
  rcases eq_or_ne n 0 with rfl | hne
  · have hzero : roundEven 0 = 0 := by exact_mod_cast roundEven_intCast 0
    simp [nearest, hzero]
  · have hplace := place_le hn hk hne
    obtain ⟨d, hd⟩ := Int.eq_ofNat_of_zero_le (Int.sub_nonneg.mpr hplace)
    have hdiv : n * (2 : ℚ) ^ k / 2 ^ f.place (n * (2 : ℚ) ^ k) = ((n * 2 ^ d : Int) : ℚ) := by
      rw [mul_div_assoc, ← zpow_sub₀ (by norm_num), hd]
      push_cast
      rw [zpow_natCast]
    unfold nearest
    rw [hdiv, roundEven_intCast, ← hdiv, div_mul_cancel₀ _ (two_zpow_pos _).ne']

theorem Format.fits_zero (f : Format) : f.Fits 0 :=
  ⟨by simpa using two_zpow_pos _, 0, f.minPlace, by simp, le_refl _, by simp⟩

/-- A number with few digits in base two, and a power of two that leaves room for it. -/
theorem Format.fits_natCast (f : Format) {n k : Nat} (hn : n < 2 ^ f.precision)
    (hmin : f.minPlace ≤ 0) (hmax : (f.precision + k : Int) ≤ f.maxExponent + 1) :
    f.Fits (n * 2 ^ k : Nat) := by
  refine ⟨?_, n, k, by exact_mod_cast hn, by omega, by push_cast; rw [zpow_natCast]⟩
  rw [abs_of_nonneg (Nat.cast_nonneg _)]
  calc ((n * 2 ^ k : Nat) : ℚ) < ((2 ^ f.precision * 2 ^ k : Nat) : ℚ) := by
        exact_mod_cast Nat.mul_lt_mul_of_pos_right hn (Nat.two_pow_pos k)
    _ = 2 ^ (f.precision + k : Int) := by
        push_cast
        rw [zpow_add₀ (by norm_num), zpow_natCast, zpow_natCast]
    _ ≤ 2 ^ (f.maxExponent + 1) := zpow_le_zpow_right₀ (by norm_num) hmax

/-! ## Values -/

inductive Value (f : Format) where
  | finite (q : ℚ) (fits : f.Fits q)
  | infinite (negative : Bool)
  | nan
deriving DecidableEq, Repr

namespace Value

def round (f : Format) (q : ℚ) : Value f :=
  if h : |f.nearest q| < 2 ^ (f.maxExponent + 1) then .finite (f.nearest q) (f.fits_nearest h)
  else .infinite (decide (q < 0))

theorem round_of_fits {q : ℚ} (h : f.Fits q) : round f q = .finite q h := by
  unfold round
  simp only [Format.nearest_of_fits h]
  rw [dif_pos h.1]

instance : Zero (Value f) := ⟨.finite 0 f.fits_zero⟩

def add : Value f → Value f → Value f
  | .finite a _, .finite b _ => round f (a + b)
  | .finite _ _, .infinite negative => .infinite negative
  | .infinite negative, .finite _ _ => .infinite negative
  | .infinite m, .infinite n => if m = n then .infinite m else .nan
  | _, _ => .nan

instance : Add (Value f) := ⟨add⟩

def isNegative : Value f → Bool
  | .finite q _ => decide (q < 0)
  | .infinite negative => negative
  | .nan => false

def mul : Value f → Value f → Value f
  | .finite a _, .finite b _ => round f (a * b)
  | .finite a _, .infinite negative =>
    if a = 0 then .nan else .infinite (decide (a < 0) != negative)
  | .infinite negative, .finite b _ =>
    if b = 0 then .nan else .infinite (negative != decide (b < 0))
  | .infinite m, .infinite n => .infinite (m != n)
  | _, _ => .nan

instance : Mul (Value f) := ⟨mul⟩

/-- A conversion to an unsigned number: towards zero, and within the bounds. -/
def asUnsigned (max : Nat) : Value f → Nat
  | .finite q _ => min q.floor.toNat max
  | .infinite negative => if negative then 0 else max
  | .nan => 0

theorem asUnsigned_le (max : Nat) (v : Value f) : v.asUnsigned max ≤ max := by
  cases v with
  | finite q h => exact Nat.min_le_right _ _
  | infinite negative => cases negative <;> simp [asUnsigned]
  | nan => exact Nat.zero_le _

example : (round .binary32 16777217, round .binary32 (1 / 10 ^ 46)) =
    (round .binary32 16777216, 0) := by decide +kernel

end Value

end Binary

/-- `f32` -/
abbrev F32 := Binary.Value .binary32

end Kollaps
