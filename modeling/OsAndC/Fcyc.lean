import OsAndC.KSmallest
import Mathlib.Algebra.Ring.Nat
import Mathlib.Data.List.Induction
import Mathlib.Logic.Function.Iterate

/-!
# The Timing Package: `fcyc.c` and `clock.c`

A translation of `fcyc`, which times a function by the K-best scheme: it takes samples until
the `kbest` smallest of them are close to each other, or until there are `maxsamples`. The
code only compares samples, so they are taken from any linear order with a 0; `close a b`
stands for the test `(1 + epsilon) * a >= b`, and `measure` for one run of the function
between `start_counter` and `get_counter`, or their compensating versions, on a state of the
machine.

`addSample_holds` says that `add_sample` keeps the array `values` at the `kbest` smallest
samples in order, with zeros behind them, and `fcyc_spec` what `fcyc` computes: the minimum of
the samples up to the first moment at which they are enough.

The cycle counter of the x86 is read as two words, and `get_counter` subtracts them with a
borrow. `fcyc_cycles` puts the two together. Its samples are exact: below `2 ^ 53`, so is the
`double` that `get_counter` returns.
-/

namespace OsAndC

/-! ### The program -/

/-- The parameters, as the functions `set_fcyc_...` set them. -/
structure FcycParams (α : Type) where
  kbest : ℕ
  maxsamples : ℕ
  close : α → α → Bool

/-- The array `values` and `samplecount`. -/
structure Sampler (α : Type) where
  values : List α
  samplecount : ℕ
  deriving DecidableEq, Repr

variable {α σ : Type}

/-- `init_sampler`, with an array from `calloc`. -/
def initSampler [Zero α] (kbest : ℕ) : Sampler α := ⟨List.replicate kbest 0, 0⟩

/-- The loop of the insertion sort, from `pos` on. -/
def insertionLoop [LT α] [DecidableLT α] : ℕ → List α → List α
  | 0, values => values
  | pos + 1, values =>
      match values[pos]?, values[pos + 1]? with
      | some a, some b =>
          if a > b then insertionLoop pos ((values.set pos b).set (pos + 1) a) else values
      | _, _ => values

/-- `add_sample`. There is no `values[kbest-1]` in an empty array. -/
def addSample [LT α] [DecidableLT α] (kbest : ℕ) (val : α) (s : Sampler α) : Option (Sampler α) :=
  if s.samplecount < kbest then
    some ⟨insertionLoop s.samplecount (s.values.set s.samplecount val), s.samplecount + 1⟩
  else do
    let last ← s.values[kbest - 1]?
    if val < last then
      some ⟨insertionLoop (kbest - 1) (s.values.set (kbest - 1) val), s.samplecount + 1⟩
    else
      some ⟨s.values, s.samplecount + 1⟩

/-- `has_converged`. -/
def hasConverged (p : FcycParams α) (s : Sampler α) : Option Bool :=
  if s.samplecount ≥ p.kbest then do
    let first ← s.values[0]?
    let last ← s.values[p.kbest - 1]?
    return p.close first last
  else
    some false

/-- The loop of `fcyc`, with at most `n` rounds; `w` is the state of the machine. -/
def fcycLoop [LT α] [DecidableLT α] (p : FcycParams α) (measure : σ → α × σ) :
    ℕ → Sampler α → σ → Option (Sampler α × σ)
  | 0, _, _ => none
  | n + 1, s, w => do
      let s ← addSample p.kbest (measure w).1 s
      if !(← hasConverged p s) && s.samplecount < p.maxsamples then
        fcycLoop p measure n s (measure w).2
      else
        some (s, (measure w).2)

/-- `fcyc`: the result and the machine after it. -/
def fcyc [LT α] [DecidableLT α] [Zero α] (p : FcycParams α) (measure : σ → α × σ) (w : σ) :
    Option (α × σ) := do
  let (s, w) ← fcycLoop p measure (p.maxsamples + 1) (initSampler p.kbest) w
  return (← s.values[0]?, w)

/-! ### The array of samples -/

section Samples

variable [LinearOrder α] {k n : ℕ} {a x : α} {l rest xs : List α} {s : Sampler α}

/-- **The insertion loop** puts the last of the sorted entries where it belongs. -/
theorem insertionLoop_eq (x : α) (rest : List α) (hl : l.Pairwise (· ≤ ·)) :
    insertionLoop l.length (l ++ x :: rest) = insertAfter x l ++ rest := by
  induction l using List.reverseRecOn generalizing rest with
  | nil => rfl
  | append_singleton l a ih =>
      obtain ⟨hl, -, hle⟩ := List.pairwise_append.mp hl
      have ha : (l ++ [a] ++ x :: rest)[l.length]? = some a := by simp
      have hx : (l ++ [a] ++ x :: rest)[l.length + 1]? = some x := by simp
      rw [List.length_append, List.length_singleton, insertionLoop, ha, hx]
      by_cases hax : a > x
      · -- `a` makes room, and the loop goes on below it
        have hswap : ((l ++ [a] ++ x :: rest).set l.length x).set (l.length + 1) a =
            l ++ x :: a :: rest := by simp
        simp only [hax, ↓reduceIte, hswap, ih _ hl, insertAfter_concat hax]
        rw [List.append_assoc, List.singleton_append]
      · have hall : ∀ b ∈ l ++ [a], b ≤ x := by
          intro b hb
          rcases List.mem_append.mp hb with hb | hb
          · exact (hle b hb a (List.mem_singleton_self a)).trans (not_lt.mp hax)
          · exact List.mem_singleton.mp hb ▸ not_lt.mp hax
        simp only [hax, ↓reduceIte, insertAfter_of_forall_le hall]
        rw [List.append_assoc _ [x], List.singleton_append]

/-- The array holds the `k` smallest of the samples `xs`, with zeros behind them. -/
structure Sampler.Holds [Zero α] (k : ℕ) (xs : List α) (s : Sampler α) : Prop where
  count : s.samplecount = xs.length
  values_eq : s.values = kSmallest k xs ++ List.replicate (k - xs.length) 0

/-- At first no sample has been taken. -/
theorem initSampler_holds [Zero α] : (initSampler k : Sampler α).Holds k [] :=
  ⟨rfl, by simp [initSampler, kSmallest]⟩

/-- A full array has a last entry. -/
theorem exists_last (hk : 1 ≤ k) (hxs : k ≤ xs.length) :
    ∃ l a, kSmallest k xs = l ++ [a] ∧ l.length + 1 = k := by
  have hlen : (kSmallest k xs).length = k := (length_kSmallest k xs).trans (min_eq_left hxs)
  rcases List.eq_nil_or_concat' (kSmallest k xs) with hnil | ⟨l, a, hl⟩
  · rw [hnil] at hlen
    exact absurd hlen (Nat.ne_of_lt hk)
  · refine ⟨l, a, hl, ?_⟩
    rw [← hlen, hl, List.length_append, List.length_singleton]

/-- **A sample is added**: the array stays what it is for. -/
theorem addSample_holds [Zero α] (hk : 1 ≤ k) (hs : s.Holds k xs) :
    ∃ s', addSample k x s = some s' ∧ s'.Holds k (xs ++ [x]) := by
  obtain ⟨hcount, hvalues⟩ := hs
  have hcount' : xs.length + 1 = (xs ++ [x]).length := by
    rw [List.length_append, List.length_singleton]
  rw [addSample, hcount]
  by_cases hfull : xs.length < k
  · -- the sample takes the first free place
    have hlen : (kSmallest k xs).length = xs.length :=
      (length_kSmallest k xs).trans (min_eq_right hfull.le)
    have hzeros : List.replicate (k - xs.length) (0 : α) =
        0 :: List.replicate (k - (xs.length + 1)) 0 := by
      rw [← List.replicate_succ]
      congr 1
      omega
    have hset : s.values.set xs.length x =
        kSmallest k xs ++ x :: List.replicate (k - (xs.length + 1)) 0 := by
      rw [hvalues, hzeros, List.set_append_right _ _ hlen.le, hlen, Nat.sub_self,
        List.set_cons_zero]
    have hloop := insertionLoop_eq x (List.replicate (k - (xs.length + 1)) 0)
      (kSmallest_sorted k xs)
    rw [hlen] at hloop
    refine ⟨_, if_pos hfull, hcount', ?_⟩
    rw [hset, hloop, kSmallest_concat hfull, hcount']
  · obtain ⟨l, a, hl, hlk⟩ := exists_last hk (not_lt.mp hfull)
    have hfree : k - xs.length = 0 := Nat.sub_eq_zero_of_le (not_lt.mp hfull)
    have hfree' : k - (xs ++ [x]).length = 0 := by omega
    have hpos : k - 1 = l.length := by omega
    rw [hl, hfree, List.replicate_zero, List.append_nil] at hvalues
    have hlast : s.values[k - 1]? = some a := by
      rw [hvalues, hpos, List.getElem?_concat_length]
    rw [if_neg hfull, hlast]
    by_cases hxa : x < a
    · have hset : s.values.set (k - 1) x = l ++ x :: [] := by
        rw [hvalues, hpos, List.set_append_right _ _ le_rfl, Nat.sub_self, List.set_cons_zero]
      have hsorted : l.Pairwise (· ≤ ·) := by
        have hsorted := kSmallest_sorted k xs
        rw [hl] at hsorted
        exact (List.pairwise_append.mp hsorted).1
      refine ⟨_, if_pos hxa, hcount', ?_⟩
      rw [hset, hpos, insertionLoop_eq x [] hsorted, kSmallest_concat_lt hl hlk hxa, hfree']
      rfl
    · refine ⟨_, if_neg hxa, hcount', ?_⟩
      rw [kSmallest_concat_ge hl hlk (not_lt.mp hxa), hfree', hvalues, List.replicate_zero,
        List.append_nil]

/-- The `k` smallest samples are close to each other. -/
def FcycParams.Converged (p : FcycParams α) (xs : List α) : Prop :=
  p.kbest ≤ xs.length ∧ ∃ a ∈ (kSmallest p.kbest xs).head?,
    ∃ b ∈ (kSmallest p.kbest xs).getLast?, p.close a b

/-- `has_converged` tests whether the samples have converged. -/
theorem hasConverged_iff [Zero α] {p : FcycParams α} (hk : 1 ≤ p.kbest)
    (hs : s.Holds p.kbest xs) :
    ∃ b, hasConverged p s = some b ∧ (b = true ↔ p.Converged xs) := by
  obtain ⟨hcount, hvalues⟩ := hs
  rw [hasConverged, hcount]
  by_cases hfull : p.kbest ≤ xs.length
  · obtain ⟨l, b, hl, hlk⟩ := exists_last hk hfull
    obtain ⟨a, ha⟩ : ∃ a, (kSmallest p.kbest xs).head? = some a := by
      rw [hl]
      cases l <;> exact ⟨_, rfl⟩
    have hlast : (kSmallest p.kbest xs).getLast? = some b := by
      rw [hl, List.getLast?_concat]
    have hpos : p.kbest - 1 = l.length := by omega
    rw [Nat.sub_eq_zero_of_le hfull, List.replicate_zero, List.append_nil] at hvalues
    have hfirst : s.values[0]? = some a := by
      rw [hvalues, ← List.head?_eq_getElem?, ha]
    have hback : s.values[p.kbest - 1]? = some b := by
      rw [hvalues, hl, hpos, List.getElem?_concat_length]
    refine ⟨p.close a b, ?_, ?_⟩
    · rw [if_pos hfull, hfirst, hback]
      rfl
    · simp [FcycParams.Converged, hfull, ha, hlast]
  · refine ⟨false, if_neg hfull, ?_⟩
    simp [FcycParams.Converged, hfull]

end Samples

/-! ### Samples until they are enough -/

/-- The machine after `n` measurements. -/
def after (measure : σ → α × σ) (w : σ) : ℕ → σ
  | 0 => w
  | n + 1 => (measure (after measure w n)).2

/-- The first `n` measurements. -/
def samples (measure : σ → α × σ) (w : σ) : ℕ → List α
  | 0 => []
  | n + 1 => samples measure w n ++ [(measure (after measure w n)).1]

/-- There are as many samples as measurements. -/
theorem length_samples (measure : σ → α × σ) (w : σ) (n : ℕ) :
    (samples measure w n).length = n := by
  induction n with
  | zero => rfl
  | succ n ih => rw [samples, List.length_append, List.length_singleton, ih]

variable [LinearOrder α] [Zero α] {p : FcycParams α} {s : Sampler α} {m n : ℕ}

/-- No more samples are taken. -/
def FcycParams.Enough (p : FcycParams α) (xs : List α) : Prop :=
  p.Converged xs ∨ p.maxsamples ≤ xs.length

/-- **The loop of `fcyc`**, after `m` samples that were not enough. -/
theorem fcycLoop_spec (hk : 1 ≤ p.kbest) (measure : σ → α × σ) (w : σ)
    (hfuel : p.maxsamples < m + n) (hn : 0 < n) (hs : s.Holds p.kbest (samples measure w m))
    (hm : ∀ j, 1 ≤ j → j ≤ m → ¬ p.Enough (samples measure w j)) :
    ∃ r s', IsLeast {j | 1 ≤ j ∧ p.Enough (samples measure w j)} r ∧
      s'.Holds p.kbest (samples measure w r) ∧
      fcycLoop p measure n s (after measure w m) = some (s', after measure w r) := by
  induction n generalizing m s with
  | zero => exact absurd hn (Nat.lt_irrefl 0)
  | succ n ih =>
      obtain ⟨s', hadd, hs'⟩ := addSample_holds (x := (measure (after measure w m)).1) hk hs
      have hs' : s'.Holds p.kbest (samples measure w (m + 1)) := hs'
      obtain ⟨b, hconv, hb⟩ := hasConverged_iff hk hs'
      have hcount : s'.samplecount = m + 1 := hs'.count.trans (length_samples measure w (m + 1))
      have henough : p.Enough (samples measure w (m + 1)) ↔ b = true ∨ p.maxsamples ≤ m + 1 := by
        rw [FcycParams.Enough, hb, length_samples]
      have hround : fcycLoop p measure (n + 1) s (after measure w m) =
          if (!b && decide (m + 1 < p.maxsamples)) = true then
            fcycLoop p measure n s' (after measure w (m + 1))
          else some (s', after measure w (m + 1)) := by
        rw [fcycLoop, hadd, Option.bind_eq_bind, Option.bind_some, hconv, Option.bind_eq_bind,
          Option.bind_some, hcount, after]
      by_cases hgo : (!b && decide (m + 1 < p.maxsamples)) = true
      · have hgo' : b = false ∧ m + 1 < p.maxsamples := by simpa using hgo
        have hnot : ¬ p.Enough (samples measure w (m + 1)) := by
          rw [henough, hgo'.1]
          simpa using hgo'.2
        rw [hround, if_pos hgo]
        refine ih (by omega) (by omega) hs' fun j hj hjm => ?_
        rcases Nat.of_le_succ hjm with hjm | rfl
        · exact hm j hj hjm
        · exact hnot
      · have hyes : p.Enough (samples measure w (m + 1)) := by
          rw [henough]
          by_contra hno
          obtain ⟨hb', hlt⟩ := not_or.mp hno
          exact hgo (by simpa [hb'] using hlt)
        refine ⟨m + 1, s', ⟨⟨Nat.le_add_left 1 m, hyes⟩, fun j hj => ?_⟩, hs', ?_⟩
        · by_contra hlt
          exact hm j hj.1 (by omega) hj.2
        · rw [hround, if_neg hgo]

/-- **`fcyc`** takes samples up to the first moment at which they are enough, and its result
is the smallest of them. -/
theorem fcyc_spec (p : FcycParams α) (measure : σ → α × σ) (w : σ) (hk : 1 ≤ p.kbest) :
    ∃ n x, IsLeast {m | 1 ≤ m ∧ p.Enough (samples measure w m)} n ∧
      IsLeast {x | x ∈ samples measure w n} x ∧
      fcyc p measure w = some (x, after measure w n) := by
  obtain ⟨n, s, hn, hs, hloop⟩ := fcycLoop_spec (n := p.maxsamples + 1) (m := 0) hk measure w
    (by omega) (Nat.succ_pos _) initSampler_holds (by omega)
  have hlen : 1 ≤ (samples measure w n).length := (length_samples measure w n).ge.trans' hn.1.1
  obtain ⟨x, hx⟩ : ∃ x, (kSmallest p.kbest (samples measure w n)).head? = some x := by
    cases hxs : kSmallest p.kbest (samples measure w n) with
    | nil =>
        have hzero := length_kSmallest p.kbest (samples measure w n)
        rw [hxs, List.length_nil] at hzero
        omega
    | cons x l => exact ⟨x, rfl⟩
  refine ⟨n, x, hn, isLeast_head hx, ?_⟩
  have hfirst : s.values[0]? = some x := by
    rw [← List.head?_eq_getElem?, hs.values_eq, List.head?_append, hx]
    rfl
  have hloop : fcycLoop p measure (p.maxsamples + 1) (initSampler p.kbest) w =
    some (s, after measure w n) := hloop
  rw [fcyc, hloop, Option.bind_eq_bind, Option.bind_some]
  simp only [hfirst]
  rfl

/-! ### The cycle counter -/

/-- `access_counter`: the high and the low word of the counter. -/
def accessCounter (tsc : UInt64) : UInt32 × UInt32 := ((tsc >>> 32).toUInt32, tsc.toUInt32)

/-- `get_counter`, when `start_counter` has stored `cyc_hi` and `cyc_lo`. -/
def getCounter (cyc : UInt32 × UInt32) (tsc : UInt64) : ℕ :=
  let ncyc := accessCounter tsc
  let lo := ncyc.2 - cyc.2
  let borrow : UInt32 := if lo > ncyc.2 then 1 else 0
  let hi := ncyc.1 - cyc.1 - borrow
  hi.toNat * 2 ^ 30 * 4 + lo.toNat

/-- One sample: a run of `f`, which takes a number of cycles, between the two readings. -/
def countCycles (f : σ → ℕ × σ) : UInt64 × σ → ℕ × UInt64 × σ
  | (tsc, w) =>
      let tsc' := tsc + UInt64.ofNat (f w).1
      (getCounter (accessCounter tsc) tsc', tsc', (f w).2)

/-- **The subtraction with a borrow** is the one of the whole counter. -/
theorem getCounter_eq (c c' : UInt64) : getCounter (accessCounter c) c' = (c' - c).toNat := by
  have hhi : ∀ c : UInt64, (accessCounter c).1.toNat = c.toNat / 2 ^ 32 := by
    intro c
    have := c.toNat_lt
    simp [accessCounter, Nat.shiftRight_eq_div_pow]
    omega
  have hlo : ∀ c : UInt64, (accessCounter c).2.toNat = c.toNat % 2 ^ 32 := by
    intro c
    simp [accessCounter]
  have hc := c.toNat_lt
  have hc' := c'.toNat_lt
  unfold getCounter
  extract_lets ncyc lo borrow hi
  have hlow : lo.toNat = (2 ^ 32 - c.toNat % 2 ^ 32 + c'.toNat % 2 ^ 32) % 2 ^ 32 := by
    rw [UInt32.toNat_sub, hlo, hlo]
  -- the low words are subtracted with a carry exactly if the difference is the larger one
  have hborrow : borrow.toNat = if c'.toNat % 2 ^ 32 < c.toNat % 2 ^ 32 then 1 else 0 := by
    have hlt : lo > ncyc.2 ↔ c'.toNat % 2 ^ 32 < c.toNat % 2 ^ 32 := by
      rw [gt_iff_lt, UInt32.lt_iff_toNat_lt, hlow, hlo]
      omega
    by_cases h : lo > ncyc.2
    · rw [if_pos (hlt.mp h), show borrow = 1 from if_pos h]
      rfl
    · rw [if_neg fun h' => h (hlt.mpr h'), show borrow = 0 from if_neg h]
      rfl
  have hhigh : hi.toNat = (2 ^ 32 - borrow.toNat +
      (2 ^ 32 - c.toNat / 2 ^ 32 + c'.toNat / 2 ^ 32) % 2 ^ 32) % 2 ^ 32 := by
    rw [UInt32.toNat_sub, UInt32.toNat_sub, hhi, hhi]
  rw [hhigh, hborrow, hlow, UInt64.toNat_sub]
  split_ifs <;> omega

/-- A sample is the number of cycles the run took. -/
theorem countCycles_eq (f : σ → ℕ × σ) (c : UInt64 × σ) (hf : (f c.2).1 < 2 ^ 64) :
    (countCycles f c).1 = (f c.2).1 := by
  obtain ⟨tsc, w⟩ := c
  have hdiff : tsc + UInt64.ofNat (f w).1 - tsc = UInt64.ofNat (f w).1 := by
    rw [UInt64.add_comm, UInt64.add_sub_cancel]
  change getCounter (accessCounter tsc) (tsc + UInt64.ofNat (f w).1) = (f w).1
  rw [getCounter_eq, hdiff, UInt64.toNat_ofNat_of_lt' hf]

/-- The cycle counter has no effect on the function that is measured. -/
theorem after_countCycles (f : σ → ℕ × σ) (tsc : UInt64) (w : σ) (n : ℕ) :
    (after (countCycles f) (tsc, w) n).2 = after f w n := by
  induction n with
  | zero => rfl
  | succ n ih =>
      rw [after, after, ← ih]
      rfl

/-- Its readings differ by what the function takes, even when the counter wraps around. -/
theorem samples_countCycles {f : σ → ℕ × σ} (hf : ∀ w, (f w).1 < 2 ^ 64) (tsc : UInt64) (w : σ)
    (n : ℕ) : samples (countCycles f) (tsc, w) n = samples f w n := by
  induction n with
  | zero => rfl
  | succ n ih => rw [samples, samples, ih, countCycles_eq f _ (hf _), after_countCycles]

/-- **`fcyc` on the cycle counter**, which may wrap around: the result is the least number of
cycles that a run of `f` took, up to the first moment at which there are enough samples. -/
theorem fcyc_cycles (p : FcycParams ℕ) (f : σ → ℕ × σ) (tsc : UInt64) (w : σ) (hk : 1 ≤ p.kbest)
    (hf : ∀ w, (f w).1 < 2 ^ 53) :
    ∃ n x tsc', IsLeast {m | 1 ≤ m ∧ p.Enough (samples f w m)} n ∧
      IsLeast {x | x ∈ samples f w n} x ∧
      fcyc p (countCycles f) (tsc, w) = some (x, tsc', after f w n) := by
  obtain ⟨n, x, hn, hx, hrun⟩ := fcyc_spec p (countCycles f) (tsc, w) hk
  simp only [samples_countCycles fun w => (hf w).trans (by decide : 2 ^ 53 < 2 ^ 64)] at hn hx
  refine ⟨n, x, (after (countCycles f) (tsc, w) n).1, hn, hx, ?_⟩
  rw [hrun, ← after_countCycles f tsc w n]

/-- The default parameters, without rounding. -/
def defaultParams : FcycParams ℕ := ⟨3, 20, fun a b => decide (100 * b ≤ 101 * a)⟩

/-- A function that is slow at first. -/
def sampleRun (n : ℕ) : ℕ × ℕ := (1000 + 30 / (n + 1), n + 1)

/-- The counter wraps around in the first run. -/
theorem fcyc_cycles_wrapping :
    fcyc defaultParams (countCycles sampleRun) (0xFFFFFFFFFFFFFF00, 0) = some (1007, 3806, 4) ∧
    ∃ n x tsc', IsLeast {m | 1 ≤ m ∧ defaultParams.Enough (samples sampleRun 0 m)} n ∧
      IsLeast {x | x ∈ samples sampleRun 0 n} x ∧
      fcyc defaultParams (countCycles sampleRun) (0xFFFFFFFFFFFFFF00, 0) =
        some (x, tsc', after sampleRun 0 n) := by
  refine ⟨by decide, fcyc_cycles defaultParams sampleRun _ 0 (by decide) fun w => ?_⟩
  have hle : 30 / (w + 1) ≤ 30 := Nat.div_le_self 30 (w + 1)
  change 1000 + 30 / (w + 1) < 2 ^ 53
  omega

end OsAndC
