import Mathlib.Data.Set.Function
import Mathlib.Order.Interval.Set.Defs
import Mathlib.Tactic.IntervalCases

/-!
# Byte Memories with 32-bit Words

A memory is a function from addresses to bytes. `load32` and `store32` read and write a
little-endian 32-bit word at an address, `Mem.copy` moves a range of bytes. Which
addresses may be accessed is the business of the machine that uses the memory; here every
access is total.

Two memories are compared through `Set.EqOn`: an update of the memory is described by the
set outside which it changes nothing (`store32_eqOn`, `copy_eqOn`), and a word is a
function of its four bytes (`load32_congr`). Aligned words do not overlap, which is the
equation `load32_store32`: reading an aligned word after an aligned store is a case
distinction on the two addresses.
-/

namespace OsAndC

/-- A byte-addressed memory. -/
abbrev Mem := ℕ → UInt8

namespace Mem

/-- The little-endian 32-bit word at address `a`. -/
def load32 (m : Mem) (a : ℕ) : ℕ :=
  (m a).toNat + 256 * (m (a + 1)).toNat + 65536 * (m (a + 2)).toNat +
    16777216 * (m (a + 3)).toNat

/-- The memory after the 32-bit word `v` (reduced modulo `2 ^ 32`) is stored at `a`. -/
def store32 (m : Mem) (a v : ℕ) : Mem := fun c =>
  if a ≤ c ∧ c < a + 4 then UInt8.ofNat (v / 256 ^ (c - a)) else m c

/-- The memory after `n` bytes are copied from `src` to `dst`, all read before any is
written. -/
def copy (m : Mem) (dst src n : ℕ) : Mem := fun c =>
  if dst ≤ c ∧ c < dst + n then m (src + (c - dst)) else m c

/-- A word is below `2 ^ 32`. -/
theorem load32_lt (m : Mem) (a : ℕ) : load32 m a < 2 ^ 32 := by
  have h0 := (m a).toNat_lt
  have h1 := (m (a + 1)).toNat_lt
  have h2 := (m (a + 2)).toNat_lt
  have h3 := (m (a + 3)).toNat_lt
  simp only [load32]
  omega

/-- A small word has a zero byte. -/
theorem eq_zero_of_load32_lt {m : Mem} {a : ℕ} (h : load32 m a < 256) : m (a + 1) = 0 := by
  rw [load32] at h
  refine UInt8.toNat_inj.mp ?_
  rw [UInt8.toNat_zero]
  omega

/-- A word depends on its four bytes only. -/
theorem load32_congr {m m' : Mem} {a : ℕ} (h : ∀ c, a ≤ c → c < a + 4 → m' c = m c) :
    load32 m' a = load32 m a := by
  simp only [load32, h a (by omega) (by omega), h (a + 1) (by omega) (by omega),
    h (a + 2) (by omega) (by omega), h (a + 3) (by omega) (by omega)]

/-- A stored word is read back. -/
theorem load32_store32_self (m : Mem) (a v : ℕ) :
    load32 (store32 m a v) a = v % 2 ^ 32 := by
  simp only [load32, store32, le_refl, true_and, Nat.lt_add_right_iff_pos, Nat.zero_lt_succ,
    if_true, Nat.sub_self, Nat.le_add_right, Nat.add_lt_add_iff_left, Nat.add_sub_cancel_left,
    Nat.reduceLT, Nat.reducePow, UInt8.toNat_ofNat', Nat.div_one]
  omega

/-- A store changes nothing outside its four bytes. -/
theorem store32_of_notMem {m : Mem} {a v c : ℕ} (h : c < a ∨ a + 4 ≤ c) :
    store32 m a v c = m c := by
  rw [store32, if_neg (by omega)]

/-- A store changes nothing outside its four bytes, as an equation of memories. -/
theorem store32_eqOn (m : Mem) (a v : ℕ) :
    Set.EqOn (store32 m a v) m (Set.Ico a (a + 4))ᶜ := by
  intro c hc
  simp only [Set.mem_compl_iff, Set.mem_Ico] at hc
  exact store32_of_notMem (by omega)

/-- Reading a word disjoint from a stored one. -/
theorem load32_store32_of_disjoint {m : Mem} {a b v : ℕ} (h : b + 4 ≤ a ∨ a + 4 ≤ b) :
    load32 (store32 m a v) b = load32 m b :=
  load32_congr fun _ _ _ => store32_of_notMem (by omega)

/-- Reading an aligned word after an aligned store: aligned words do not overlap. -/
theorem load32_store32 {m : Mem} {a b v : ℕ} (ha : a % 4 = 0) (hb : b % 4 = 0) :
    load32 (store32 m a v) b = if b = a then v % 2 ^ 32 else load32 m b := by
  split_ifs with h
  · rw [h, load32_store32_self]
  · exact load32_store32_of_disjoint (by omega)

/-- Copied bytes are those of the source. -/
theorem copy_apply {m : Mem} {dst src n i : ℕ} (h : i < n) :
    copy m dst src n (dst + i) = m (src + i) := by
  rw [copy, if_pos (by omega), Nat.add_sub_cancel_left]

/-- A copy changes nothing outside its destination. -/
theorem copy_eqOn (m : Mem) (dst src n : ℕ) :
    Set.EqOn (copy m dst src n) m (Set.Ico dst (dst + n))ᶜ := by
  intro c hc
  simp only [Set.mem_compl_iff, Set.mem_Ico] at hc
  rw [copy, if_neg (by omega)]

/-- Two memories that agree outside `S` agree on every word that does not meet `S`. -/
theorem load32_eq_of_eqOn {m m' : Mem} {S : Set ℕ} {a : ℕ} (h : Set.EqOn m' m Sᶜ)
    (hS : ∀ c ∈ S, c < a ∨ a + 4 ≤ c) : load32 m' a = load32 m a :=
  load32_congr fun c h₁ h₂ => h fun hc => by
    have := hS c hc
    omega

end Mem

end OsAndC
