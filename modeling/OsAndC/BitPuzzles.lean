import OsAndC.DataLab

/-!
# The Other Data Lab Functions

A translation of the functions of `22-Lab1-datalab-bits.c` in front of `howManyBits`. Each of
them computes with bits what its comment says with numbers: `logicalNeg` the operator `!`,
`conditional` a choice, `isLessOrEqual` the order of all integers, also where their
difference wraps around, and `allOddBits` a test of sixteen bits at once.
-/

namespace OsAndC

/-! ### The program -/

def bitXor (x y : Int32) : Int32 :=
  let bothMask := ~~~(x &&& y)
  let neitherMask := ~~~(~~~x &&& ~~~y)
  bothMask &&& neitherMask

def tmin : Int32 := (1 : Int32) <<< 31

def allOddBits (x : Int32) : Int32 :=
  let pattern : Int32 := 170
  let mask := pattern &&& (x >>> 24) &&& (x >>> 16) &&& (x >>> 8) &&& x
  logicalNot (mask ^^^ pattern)

def negate (x : Int32) : Int32 := ~~~x + 1

def conditional (x y z : Int32) : Int32 :=
  let normalised := logicalNot x
  let mask := ~~~normalised + 1
  (~~~mask &&& y) ||| (mask &&& z)

def isLessOrEqual (x y : Int32) : Int32 :=
  let diff := y + (~~~x + 1)
  let diffIsNegative := (1 : Int32) &&& (diff >>> 31)
  let isLessThan := logicalNot diffIsNegative
  let isDifferentSign := (1 : Int32) &&& ((x >>> 31) ^^^ (y >>> 31))
  let isNegAndPos := isDifferentSign &&& (x >>> 31)
  let isPosAndNeg := isDifferentSign &&& (y >>> 31)
  (isNegAndPos ||| isLessThan) &&& logicalNot isPosAndNeg

def logicalNeg (x : Int32) : Int32 :=
  let truthy := (x >>> 31) ||| ((~~~x + 1) >>> 31)
  ~~~truthy &&& 1

variable {x y z : Int32} {i : ℕ}

/-! ### Masks -/

/-- `negate` is the negation of two's complement, which `tmin` maps to itself. -/
theorem negate_eq (x : Int32) : negate x = -x := (Int32.neg_eq_not_add x).symm

/-- `bitXor` is exclusive or. -/
theorem bitXor_eq (x y : Int32) : bitXor x y = x ^^^ y := by
  refine Int32.toBitVec_inj.mp (BitVec.eq_of_getLsbD_eq fun i hi => ?_)
  simp only [bitXor, Int32.toBitVec_and, Int32.toBitVec_not, Int32.toBitVec_xor,
    BitVec.getLsbD_and, BitVec.getLsbD_not, BitVec.getLsbD_xor, hi, decide_true, Bool.true_and]
  cases x.toBitVec.getLsbD i <;> cases y.toBitVec.getLsbD i <;> rfl

/-- `tmin` is the smallest `int`. -/
theorem tmin_le (x : Int32) : tmin ≤ x := Int32.le_iff_toInt_le.mpr x.le_toInt

/-- The arithmetic shift spreads the sign over all bits. -/
theorem shiftRight_sign (x : Int32) : x >>> 31 = if x.toInt < 0 then -1 else 0 := by
  have hshift : (x >>> 31).toInt = x.toInt / (2 ^ 31 : ℕ) :=
    toInt_shiftRight (c := 31) rfl (by omega)
  have hlo := x.le_toInt
  have hhi := x.toInt_lt
  split
  case isTrue hneg => exact Int32.toInt_inj.mp (hshift.trans (show _ = (-1 : ℤ) by omega))
  case isFalse hpos => exact Int32.toInt_inj.mp (hshift.trans (show _ = (0 : ℤ) by omega))

/-- Only 0 has no sign bit in itself or in its negation. -/
theorem logicalNeg_eq (x : Int32) : logicalNeg x = logicalNot x := by
  have hlo := x.le_toInt
  have hhi := x.toInt_lt
  have hneg : (~~~x + 1).toInt = (-x.toInt).bmod (2 ^ 32) := by
    rw [← Int32.neg_eq_not_add, Int32.toInt_neg]
  by_cases hx : x = 0
  · rw [hx]
    rfl
  · have hne : x.toInt ≠ 0 := fun h => hx (Int32.toInt_inj.mp h)
    rw [logicalNot, if_neg hx]
    simp only [logicalNeg, shiftRight_sign, hneg]
    by_cases hsign : x.toInt < 0
    · rw [if_pos hsign, Int32.neg_one_or]
      rfl
    · have hsign' : (-x.toInt).bmod (2 ^ 32) < 0 := by
        rw [Int.bmod_def]
        omega
      rw [if_pos hsign', Int32.or_neg_one]
      rfl

/-- `conditional` is the conditional operator of C. -/
theorem conditional_eq (x y z : Int32) : conditional x y z = if x ≠ 0 then y else z := by
  have hmask : ~~~logicalNot x + 1 = if x ≠ 0 then 0 else -1 := by
    unfold logicalNot
    by_cases hx : x = 0
    · rw [if_pos hx, if_neg (not_not.mpr hx)]
      rfl
    · rw [if_neg hx, if_pos hx]
      rfl
  simp only [conditional, hmask]
  split
  case isTrue => rw [Int32.not_zero, Int32.neg_one_and, Int32.zero_and, Int32.or_zero]
  case isFalse => rw [Int32.not_neg_one, Int32.zero_and, Int32.neg_one_and, Int32.zero_or]

/-! ### The order -/

/-- The sign of the difference decides, unless the two numbers have different signs. -/
theorem le_iff_sign (x y : Int32) : x ≤ y ↔
    if x.toInt < 0 ↔ y.toInt < 0 then ¬ (y + (~~~x + 1)).toInt < 0 else x.toInt < 0 := by
  have hx := x.le_toInt
  have hx' := x.toInt_lt
  have hy := y.le_toInt
  have hy' := y.toInt_lt
  rw [Int32.le_iff_toInt_le, ← Int32.neg_eq_not_add, Int32.toInt_add, Int32.toInt_neg,
    Int.add_bmod_bmod, Int.bmod_def]
  split <;> omega

/-- `isLessOrEqual` is `<=` on all pairs of `int`s, also where the difference overflows. -/
theorem isLessOrEqual_eq (x y : Int32) : isLessOrEqual x y = if x ≤ y then 1 else 0 := by
  simp only [isLessOrEqual, shiftRight_sign, le_iff_sign x y]
  by_cases hx : x.toInt < 0 <;> by_cases hy : y.toInt < 0 <;>
    by_cases hd : (y + (~~~x + 1)).toInt < 0 <;> simp only [hx, hy, hd] <;> decide

/-! ### Sixteen bits at once -/

/-- A shift by less than the width moves the bits down. -/
theorem getLsbD_shiftRight {k : Int32} {c : ℕ} (hk : k.toBitVec.smod 32 = BitVec.ofNat 32 c)
    (hc : c + i < 32) : (x >>> k).toBitVec.getLsbD i = x.toBitVec.getLsbD (c + i) := by
  have hnat : (BitVec.ofNat 32 c).toNat = c := by
    rw [BitVec.toNat_ofNat]
    omega
  rw [Int32.toBitVec_shiftRight, hk, BitVec.sshiftRight', hnat, BitVec.getLsbD_sshiftRight,
    if_pos hc]
  simp
  omega

/-- The pattern `0xAA` has the odd bits of a byte. -/
theorem getLsbD_pattern (hi : i < 32) :
    (170 : Int32).toBitVec.getLsbD i = decide (i < 8 ∧ i % 2 = 1) := by
  revert i
  decide

/-- `allOddBits` tests whether all odd bits are 1. -/
theorem allOddBits_eq (x : Int32) :
    allOddBits x = if ∀ i < 32, i % 2 = 1 → x.toBitVec.getLsbD i then 1 else 0 := by
  have hbits : ∀ i < 32, ((170 : Int32) &&& (x >>> 24) &&& (x >>> 16) &&& (x >>> 8) &&&
      x).toBitVec.getLsbD i = (decide (i < 8 ∧ i % 2 = 1) && x.toBitVec.getLsbD (24 + i) &&
        x.toBitVec.getLsbD (16 + i) && x.toBitVec.getLsbD (8 + i) && x.toBitVec.getLsbD i) := by
    intro i hi
    simp only [Int32.toBitVec_and, BitVec.getLsbD_and, getLsbD_pattern hi]
    by_cases h8 : i < 8
    · rw [getLsbD_shiftRight (c := 24) (by decide) (by omega),
        getLsbD_shiftRight (c := 16) (by decide) (by omega),
        getLsbD_shiftRight (c := 8) (by decide) (by omega)]
    · simp [h8]
  refine if_congr ?_ rfl rfl
  rw [Int32.xor_eq_zero_iff, ← Int32.toBitVec_inj]
  refine ⟨fun h i hi hodd => ?_, fun h => BitVec.eq_of_getLsbD_eq fun i hi => ?_⟩
  · -- bit `i % 8` of the pattern is left only if `x` has all four bits that are shifted there
    have hbit := hbits (i % 8) (by omega)
    have hodd8 : i % 8 < 8 ∧ i % 8 % 2 = 1 := by omega
    rw [h, getLsbD_pattern (by omega), decide_eq_true hodd8] at hbit
    simp only [Bool.true_and, Eq.comm (a := true), Bool.and_eq_true] at hbit
    obtain ⟨⟨⟨h24, h16⟩, h8⟩, h0⟩ := hbit
    have hi' : i = 24 + i % 8 ∨ i = 16 + i % 8 ∨ i = 8 + i % 8 ∨ i = i % 8 := by omega
    rcases hi' with hi' | hi' | hi' | hi' <;> rw [hi'] <;> assumption
  · rw [hbits i hi, getLsbD_pattern hi]
    by_cases hpat : i < 8 ∧ i % 2 = 1
    · rw [h (24 + i) (by omega) (by omega), h (16 + i) (by omega) (by omega),
        h (8 + i) (by omega) (by omega), h i hi hpat.2]
      simp
    · simp [hpat]

example : [allOddBits 0xFFFFFFFD, allOddBits 0xAAAAAAAA, isLessOrEqual 4 5, conditional 2 4 5,
    logicalNeg 3, logicalNeg 0] = [0, 1, 1, 4, 0, 1] := by decide

end OsAndC
