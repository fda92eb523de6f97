import OsAndC.BitLength

/-!
# The Data Lab Function `howManyBits`

A translation of `howManyBits` of `22-Lab1-datalab-bits.c`. An `int` is an `Int32`: sums
wrap around, and `>>` is the arithmetic shift.

Its five stages are the halvings of `halvingSize`, from 16 bits down to one, on the number
with its sign folded away.
-/

namespace OsAndC

/-- `!x`. -/
def logicalNot (x : Int32) : Int32 := if x = 0 then 1 else 0

/-- The minimum number of bits required to represent `x` in two's complement. -/
def howManyBits (x : Int32) : Int32 :=
  let absMask : Int32 := ~~~((1 : Int32) &&& (x >>> 31)) + 1
  let abs : Int32 := (~~~absMask &&& x) ||| (absMask &&& ~~~x)
  let hasBits1 := logicalNot (logicalNot (abs >>> 16))
  let res1 := hasBits1 <<< 4
  let abs1 := abs >>> res1
  let hasBits2 := logicalNot (logicalNot (abs1 >>> 8))
  let res2 := hasBits2 <<< 3
  let abs2 := abs1 >>> res2
  let hasBits3 := logicalNot (logicalNot (abs2 >>> 4))
  let res3 := hasBits3 <<< 2
  let abs3 := abs2 >>> res3
  let hasBits4 := logicalNot (logicalNot (abs3 >>> 2))
  let res4 := hasBits4 <<< 1
  let abs4 := abs3 >>> res4
  let hasBits5 := logicalNot (logicalNot (abs4 >>> 1))
  let res5 := hasBits5
  let abs5 := abs4 >>> res5
  let unsignedBitsRequired := res1 + res2 + res3 + res4 + res5 + abs5
  unsignedBitsRequired + 1

variable {a b k res x : Int32} {m n c j : ℕ}

/-! ### Shifts and sums of small numbers -/

/-- A right shift rounds down. -/
theorem toInt_shiftRight (hk : k.toInt = c) (hc : c < 32) :
    (a >>> k).toInt = a.toInt / (2 ^ c : ℕ) := by
  have hmod : (k.toBitVec.smod 32).toInt = c := by
    rw [BitVec.toInt_smod, show k.toBitVec.toInt = c from hk]
    exact Int.fmod_eq_of_lt (by omega) (show (c : ℤ) < 32 by omega)
  have hnat : (k.toBitVec.smod 32).toNat = c := by
    have hlt := (k.toBitVec.smod 32).isLt
    rw [BitVec.toInt_eq_toNat_bmod, Int.bmod_def] at hmod
    omega
  have hshift : (a >>> k).toBitVec.toInt = a.toBitVec.toInt >>> (k.toBitVec.smod 32).toNat := by
    rw [Int32.toBitVec_shiftRight, BitVec.toInt_sshiftRight']
  rw [hnat, Int.shiftRight_eq_div_pow] at hshift
  exact_mod_cast hshift

/-- A sum that does not reach the sign bit. -/
theorem toInt_add_of_lt (ha : a.toInt = m) (hb : b.toInt = n) (h : m + n < 2 ^ 31) :
    (a + b).toInt = (m + n : ℕ) := by
  rw [Int32.toInt_add, ha, hb, Int.bmod_def]
  omega

/-- `!!x` is the truth value of `x`, and shifting it gives zero or a power of two. -/
theorem logicalNot_logicalNot_shiftLeft (e : Int32) (hk : 1 <<< e = k) :
    logicalNot (logicalNot x) <<< e = if x = 0 then 0 else k := by
  unfold logicalNot
  split
  · exact Int32.zero_shiftLeft
  · exact hk

/-! ### The sign -/

/-- The mask is all ones exactly for the negative numbers. -/
theorem absMask_eq (x : Int32) :
    ~~~((1 : Int32) &&& (x >>> 31)) + 1 = if x.toInt < 0 then -1 else 0 := by
  have hshift : (x >>> 31).toInt = x.toInt / (2 ^ 31 : ℕ) :=
    toInt_shiftRight (c := 31) rfl (by omega)
  have hlo := x.le_toInt
  have hhi := x.toInt_lt
  split
  case isTrue hneg =>
    have : x >>> 31 = -1 := Int32.toInt_inj.mp (hshift.trans (show _ = (-1 : ℤ) by omega))
    rw [this]
    rfl
  case isFalse hpos =>
    have : x >>> 31 = 0 := Int32.toInt_inj.mp (hshift.trans (show _ = (0 : ℤ) by omega))
    rw [this]
    rfl

/-- Selecting `x` or its complement by the mask folds the sign away. -/
theorem abs_eq (hmask : a = if x.toInt < 0 then -1 else 0) :
    ((~~~a &&& x) ||| (a &&& ~~~x)).toInt = foldSign x.toInt := by
  have hlo := x.le_toInt
  have hhi := x.toInt_lt
  subst hmask
  split
  case isTrue hneg =>
    have hcompl : (~~~x).toInt = -x.toInt - 1 := by
      rw [Int32.toInt_not, Int.bmod_def]
      omega
    rw [Int32.not_neg_one, Int32.zero_and, Int32.zero_or, Int32.neg_one_and, hcompl]
    obtain ⟨n, hn⟩ := Int.eq_negSucc_of_lt_zero hneg
    rw [hn, foldSign]
    omega
  case isFalse hpos =>
    rw [Int32.not_zero, Int32.neg_one_and, Int32.zero_and, Int32.or_zero]
    obtain ⟨n, hn⟩ := Int.eq_ofNat_of_zero_le (not_lt.mp hpos)
    rw [hn]
    rfl

/-! ### The stages -/

/-- One stage of the search: what it counts, and what it leaves to the next stage. -/
theorem halvingSize_stage (hk : k.toInt = (2 ^ j : ℕ)) (hj : j < 5) (ha : a.toInt = n)
    (hres : res = if a >>> k = 0 then 0 else k) :
    ∃ r n', res.toInt = (r : ℕ) ∧ (a >>> res).toInt = (n' : ℕ) ∧
      halvingSize (j + 1) n = r + halvingSize j n' := by
  have hc : 2 ^ j < 32 := Nat.pow_lt_pow_right (n := 5) (by omega) hj
  have hshift : (a >>> k).toInt = (n / 2 ^ 2 ^ j : ℕ) := by
    rw [toInt_shiftRight hk hc, ha, Int.natCast_div]
  subst hres
  split
  case isTrue hz =>
    have hn : n / 2 ^ 2 ^ j = 0 := by
      rw [hz, Int32.toInt_zero] at hshift
      exact_mod_cast hshift.symm
    refine ⟨0, n, rfl, ?_, ?_⟩
    · rw [Int32.shiftRight_zero, ha]
    · rw [halvingSize, if_pos hn, Nat.zero_add]
  case isFalse hz =>
    have hn : n / 2 ^ 2 ^ j ≠ 0 := by
      intro hn
      rw [hn] at hshift
      exact hz (Int32.toInt_inj.mp hshift)
    refine ⟨2 ^ j, n / 2 ^ 2 ^ j, hk, hshift, ?_⟩
    rw [halvingSize, if_neg hn]

/-- The five stages count the bits of the folded number, and a bit is added for the sign. -/
theorem howManyBits_eq (x : Int32) :
    (howManyBits x).toInt = (Nat.size (foldSign x.toInt) + 1 : ℕ) := by
  unfold howManyBits
  extract_lets absMask abs hasBits1 res1 abs1 hasBits2 res2 abs2 hasBits3 res3 abs3 hasBits4
    res4 abs4 hasBits5 res5 abs5 unsignedBitsRequired
  have hbound : foldSign x.toInt < 2 ^ 31 := foldSign_lt_two_pow.mpr ⟨x.le_toInt, x.toInt_lt⟩
  have hsearch : halvingSize 5 (foldSign x.toInt) = Nat.size (foldSign x.toInt) :=
    halvingSize_eq_size (hbound.trans (by omega))
  have hsize : Nat.size (foldSign x.toInt) ≤ 31 := Nat.size_le.mpr hbound
  have habs : abs.toInt = foldSign x.toInt := abs_eq (absMask_eq x)
  have hres1 : res1 = if abs >>> 16 = 0 then 0 else 16 := logicalNot_logicalNot_shiftLeft 4 rfl
  have hres2 : res2 = if abs1 >>> 8 = 0 then 0 else 8 := logicalNot_logicalNot_shiftLeft 3 rfl
  have hres3 : res3 = if abs2 >>> 4 = 0 then 0 else 4 := logicalNot_logicalNot_shiftLeft 2 rfl
  have hres4 : res4 = if abs3 >>> 2 = 0 then 0 else 2 := logicalNot_logicalNot_shiftLeft 1 rfl
  have hres5 : res5 = if abs4 >>> 1 = 0 then 0 else 1 := by
    simpa only [Int32.shiftLeft_zero] using logicalNot_logicalNot_shiftLeft 0 rfl
  obtain ⟨r1, n1, hr1, hn1, hs1⟩ := halvingSize_stage (j := 4) rfl (by omega) habs hres1
  obtain ⟨r2, n2, hr2, hn2, hs2⟩ := halvingSize_stage (j := 3) rfl (by omega) hn1 hres2
  obtain ⟨r3, n3, hr3, hn3, hs3⟩ := halvingSize_stage (j := 2) rfl (by omega) hn2 hres3
  obtain ⟨r4, n4, hr4, hn4, hs4⟩ := halvingSize_stage (j := 1) rfl (by omega) hn3 hres4
  obtain ⟨r5, n5, hr5, hn5, hs5⟩ := halvingSize_stage (j := 0) rfl (by omega) hn4 hres5
  have hsum : r1 + r2 + r3 + r4 + r5 + n5 = Nat.size (foldSign x.toInt) := by
    rw [← hsearch, hs1, hs2, hs3, hs4, hs5, halvingSize]
    ring
  have h12 := toInt_add_of_lt hr1 hr2 (by omega)
  have h13 := toInt_add_of_lt h12 hr3 (by omega)
  have h14 := toInt_add_of_lt h13 hr4 (by omega)
  have h15 := toInt_add_of_lt h14 hr5 (by omega)
  have h16 := toInt_add_of_lt h15 hn5 (by omega)
  rw [← hsum]
  exact toInt_add_of_lt (n := 1) h16 rfl (by omega)

/-- `howManyBits` returns the least two's complement width of its argument. -/
theorem howManyBits_isLeast (x : Int32) :
    ∃ k : ℕ, (howManyBits x).toInt = k ∧
      IsLeast {k : ℕ | 1 ≤ k ∧ -2 ^ (k - 1) ≤ x.toInt ∧ x.toInt < 2 ^ (k - 1)} k :=
  ⟨_, howManyBits_eq x, isLeast_twosComplement x.toInt⟩

example : [12, 298, -5, 0, -1, 0x80000000].map howManyBits = [5, 10, 4, 1, 1, 32] := by decide

end OsAndC
