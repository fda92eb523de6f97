import Mathlib.Data.Nat.Size
import Mathlib.Order.Bounds.Basic
import Mathlib.Tactic.Ring

/-!
# Two's Complement Width, and Bit Length by Halving

An integer `x` is a two's complement number of `k` bits when `-2 ^ (k - 1) ≤ x < 2 ^ (k - 1)`.
The sign is folded away by taking `x` itself, or `-x - 1` when it is negative; the least
width of `x` is then one more than the bit length of the folded number
(`isLeast_twosComplement`).

`halvingSize k n` finds the bit length of an `n` below `2 ^ 2 ^ k` by a binary search: it
looks whether anything is left above the lower half of the bits, counts that half if so,
and goes on with the half that holds the highest bit (`halvingSize_eq_size`).
-/

namespace OsAndC

/-- `x` is a two's complement number of `k` bits. -/
def TwosComplement (k : ℕ) (x : ℤ) : Prop := 1 ≤ k ∧ -2 ^ (k - 1) ≤ x ∧ x < 2 ^ (k - 1)

/-- The number with its sign folded away: `x`, or `-x - 1` if `x` is negative. -/
def foldSign : ℤ → ℕ
  | .ofNat n => n
  | .negSucc n => n

/-- The bounds on both sides of zero are one bound on the folded number. -/
theorem foldSign_lt_two_pow {x : ℤ} {m : ℕ} :
    foldSign x < 2 ^ m ↔ -2 ^ m ≤ x ∧ x < 2 ^ m := by
  have hcast : ((2 ^ m : ℕ) : ℤ) = 2 ^ m := by norm_num
  cases x with
  | ofNat n =>
      rw [← hcast]
      simp only [foldSign, Int.ofNat_eq_natCast]
      omega
  | negSucc n =>
      rw [← hcast]
      simp only [foldSign]
      omega

/-- The least width of an integer is the bit length of the folded number and a sign bit. -/
theorem isLeast_twosComplement (x : ℤ) :
    IsLeast {k | TwosComplement k x} (Nat.size (foldSign x) + 1) := by
  constructor
  · exact ⟨by omega, foldSign_lt_two_pow.mp (Nat.size_le.mp le_rfl)⟩
  · rintro k ⟨hk, hx⟩
    have := Nat.size_le.mpr (foldSign_lt_two_pow.mpr hx)
    omega

/-! ### The search -/

/-- The bit length of a number below `2 ^ 2 ^ k`, by `k` halvings of the bits. -/
def halvingSize : ℕ → ℕ → ℕ
  | 0, n => n
  | k + 1, n =>
    if n / 2 ^ 2 ^ k = 0 then halvingSize k n
    else 2 ^ k + halvingSize k (n / 2 ^ 2 ^ k)

/-- A number that reaches above its lowest `c` bits is `c` bits longer than what is above
them. -/
theorem size_div_two_pow {n c : ℕ} (h : 2 ^ c ≤ n) :
    Nat.size n = c + Nat.size (n / 2 ^ c) := by
  refine eq_of_forall_ge_iff fun m => ?_
  rw [Nat.size_le]
  rcases le_or_gt c m with hcm | hcm
  · obtain ⟨d, rfl⟩ := Nat.exists_eq_add_of_le hcm
    rw [add_le_add_iff_left, Nat.size_le, Nat.div_lt_iff_lt_mul (Nat.two_pow_pos _), pow_add,
      mul_comm]
  · have := Nat.pow_le_pow_right (n := 2) (by omega) hcm.le
    omega

/-- The search finds the bit length. -/
theorem halvingSize_eq_size {k n : ℕ} (h : n < 2 ^ 2 ^ k) : halvingSize k n = Nat.size n := by
  induction k generalizing n with
  | zero =>
      obtain rfl | rfl : n = 0 ∨ n = 1 := by omega
      · rfl
      · rfl
  | succ k ih =>
      have hsq : 2 ^ 2 ^ (k + 1) = 2 ^ 2 ^ k * 2 ^ 2 ^ k := by
        rw [← pow_add]
        congr 1
        ring
      have hupper : n / 2 ^ 2 ^ k < 2 ^ 2 ^ k := by
        rw [Nat.div_lt_iff_lt_mul (Nat.two_pow_pos _), ← hsq]
        exact h
      rw [halvingSize]
      split
      case isTrue hz =>
        exact ih (by simpa using (Nat.div_eq_zero_iff.mp hz).resolve_left (Nat.two_pow_pos _).ne')
      case isFalse hz =>
        rw [ih hupper, ← size_div_two_pow]
        by_contra hlt
        exact hz (Nat.div_eq_of_lt (by omega))

end OsAndC
