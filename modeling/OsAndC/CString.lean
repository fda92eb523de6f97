import Mathlib.Data.List.GetD
import Mathlib.Data.List.TakeWhile
import OsAndC.ByteMemory

/-!
# C Strings and Byte Ranges in Memory

A `CString` is a byte string without a NUL, as a C program gets it from outside. In memory a
string has no length: `Mem.scan` finds it by looking for the first NUL, and finds none where
there is no NUL in the bytes it may look at. `Mem.strncpy` stores a string in a field of
fixed size, cut off or padded with NULs, so the field holds the string in the sense of
`Mem.Padded`; such a field can be scanned exactly when the string is shorter than the field
(`Mem.Padded.scan_eq`, `Mem.Padded.le_scan_length`).

`Mem.bytes` and `Mem.write` move whole ranges between memory and lists of bytes.
-/

namespace OsAndC

/-- A string of C: bytes other than NUL. -/
structure CString where
  bytes : List UInt8
  zero_notMem : 0 ∉ bytes

/-- The string in front of the first NUL. -/
def CString.of (l : List UInt8) : CString where
  bytes := l.takeWhile (· ≠ 0)
  zero_notMem h := by simpa using List.mem_takeWhile_imp h

namespace Mem

/-- The `n` bytes from `a` on. -/
def bytes (m : Mem) (a n : ℕ) : List UInt8 := (List.range n).map fun i => m (a + i)

/-- The memory after the bytes `l` are written at `a`. -/
def write (m : Mem) (a : ℕ) (l : List UInt8) : Mem := fun c =>
  if a ≤ c ∧ c < a + l.length then l.getD (c - a) 0 else m c

/-- `strncpy(dst, src, n)`: at most `n` bytes of the string, and NULs up to `n` bytes. -/
def strncpy (m : Mem) (dst : ℕ) (src : CString) (n : ℕ) : Mem :=
  m.write dst (src.bytes.take n ++ List.replicate (n - src.bytes.length) 0)

/-- The string at `a`, if one of the next `n` bytes is NUL. -/
def scan (m : Mem) : ℕ → ℕ → Option (List UInt8)
  | _, 0 => none
  | a, n + 1 => if m a = 0 then some [] else (m.scan (a + 1) n).map (m a :: ·)

/-- The `n` bytes from `a` on hold the string `l`, cut off or padded with NULs. -/
def Padded (m : Mem) (a n : ℕ) (l : List UInt8) : Prop := ∀ i < n, m (a + i) = l.getD i 0

variable {m m' : Mem} {a b i k n : ℕ} {l : List UInt8} {s : CString}

/-! ### Ranges -/

/-- A range of `n` bytes. -/
@[simp] theorem length_bytes : (m.bytes a n).length = n := by
  rw [bytes, List.length_map, List.length_range]

/-- Each of them is the byte at its address. -/
theorem bytes_getD (hi : i < n) : (m.bytes a n).getD i 0 = m (a + i) := by
  rw [List.getD_eq_getElem _ _ (by rwa [length_bytes])]
  simp only [bytes, List.getElem_map, List.getElem_range]

/-- Bytes that are written are there. -/
theorem write_apply (hi : i < l.length) : m.write a l (a + i) = l.getD i 0 := by
  rw [write, if_pos (by omega), Nat.add_sub_cancel_left]

/-- A write changes nothing outside its range. -/
theorem write_of_notMem {c : ℕ} (h : c < a ∨ a + l.length ≤ c) : m.write a l c = m c := by
  rw [write, if_neg (by omega)]

/-- A range of another memory, written at `a`. -/
theorem write_bytes_apply (hi : i < n) : m.write a (m'.bytes b n) (a + i) = m' (b + i) := by
  rw [write_apply (by rwa [length_bytes]), bytes_getD hi]

/-- A word inside a copied range is the word of the original. -/
theorem load32_write_bytes (m m' : Mem) (hk : k + 4 ≤ n) :
    (m.write a (m'.bytes b n)).load32 (a + k) = m'.load32 (b + k) := by
  simp only [load32, Nat.add_assoc]
  rw [write_bytes_apply (by omega), write_bytes_apply (by omega), write_bytes_apply (by omega),
    write_bytes_apply (by omega)]

/-! ### Fields -/

/-- `strncpy` writes `n` bytes, whatever the length of the string. -/
theorem length_strncpy : (s.bytes.take n ++ List.replicate (n - s.bytes.length) 0).length = n := by
  rw [List.length_append, List.length_take, List.length_replicate]
  omega

/-- `strncpy` fills its field. -/
theorem strncpy_padded : (m.strncpy a s n).Padded a n s.bytes := by
  intro i hi
  rw [strncpy, write_apply (by rwa [length_strncpy])]
  by_cases hs : i < s.bytes.length
  · rw [List.getD_append _ _ _ _ (by rw [List.length_take]; omega), List.getD_eq_getElem _ _ hs,
      List.getD_eq_getElem _ _ (by rw [List.length_take]; omega), List.getElem_take]
  · rw [List.getD_append_right _ _ _ _ (by rw [List.length_take]; omega),
      List.getD_replicate _ (by rw [List.length_take]; omega),
      List.getD_eq_default _ _ (by omega)]

/-- And nothing outside of them. -/
theorem strncpy_of_notMem {c : ℕ} (h : c < a ∨ a + n ≤ c) : m.strncpy a s n c = m c := by
  rw [strncpy, write_of_notMem (by rwa [length_strncpy])]

/-- The bytes of the field are all that counts. -/
theorem Padded.congr (h : m.Padded a n l) (hm : ∀ i < n, m' (a + i) = m (a + i)) :
    m'.Padded a n l := fun i hi => (hm i hi).trans (h i hi)

/-! ### Scanning -/

/-- A string that ends with a NUL is found. -/
theorem scan_eq (hl : ∀ i < l.length, m (a + i) = l.getD i 0) (h0 : 0 ∉ l)
    (hend : m (a + l.length) = 0) (hn : l.length < n) : m.scan a n = some l := by
  induction l generalizing a n with
  | nil =>
      cases n with
      | zero => cases hn
      | succ n => exact if_pos hend
  | cons x l ih =>
      cases n with
      | zero => cases hn
      | succ n =>
          rw [List.mem_cons, not_or] at h0
          rw [List.length_cons] at hl hend hn
          have hx : m a = x := hl 0 (Nat.zero_lt_succ _)
          have hrest := ih (a := a + 1) (n := n) (fun i hi => ?_) h0.2 ?_ (by omega)
          · rw [scan, hx, if_neg (Ne.symm h0.1), hrest]
            rfl
          · have hi' := hl (i + 1) (by omega)
            rwa [← Nat.add_assoc, Nat.add_right_comm] at hi'
          · rwa [← Nat.add_assoc, Nat.add_right_comm] at hend

/-- A scan passes over all bytes that are not NUL. -/
theorem le_scan_length (hk : ∀ i < k, m (a + i) ≠ 0) (h : m.scan a n = some l) :
    k ≤ l.length := by
  induction k generalizing a n l with
  | zero => exact Nat.zero_le _
  | succ k ih =>
      cases n with
      | zero => cases h
      | succ n =>
          have hx : m a ≠ 0 := hk 0 (Nat.zero_lt_succ _)
          rw [scan, if_neg hx] at h
          obtain ⟨l', hl', rfl⟩ := Option.map_eq_some_iff.mp h
          have hle := ih (a := a + 1) (fun i hi => ?_) hl'
          · rw [List.length_cons]
            omega
          · have hi' := hk (i + 1) (by omega)
            rwa [← Nat.add_assoc, Nat.add_right_comm] at hi'

/-- A field that is longer than its string is scanned exactly. -/
theorem Padded.scan_eq (h : m.Padded a n s.bytes) (hs : s.bytes.length < n) (hk : n ≤ k) :
    m.scan a k = some s.bytes := by
  refine Mem.scan_eq (fun i hi => h i (by omega)) s.zero_notMem ?_ (by omega)
  rw [h _ hs, List.getD_eq_default _ _ (le_refl _)]

/-- A scan that starts in front of a NUL ends. -/
theorem exists_scan (hi : i < n) (h0 : m (a + i) = 0) : ∃ l, m.scan a n = some l := by
  induction n generalizing a i with
  | zero => cases hi
  | succ n ih =>
      rw [scan]
      split_ifs with ha
      · exact ⟨[], rfl⟩
      · cases i with
        | zero => exact absurd h0 ha
        | succ i =>
            have hrest : m (a + 1 + i) = 0 := by rwa [Nat.add_right_comm, Nat.add_assoc]
            obtain ⟨l, hl⟩ := ih (Nat.lt_of_succ_lt_succ hi) hrest
            exact ⟨m a :: l, by rw [hl]; rfl⟩

/-- Whatever is found from a field on, it has at least the bytes that were stored there. -/
theorem Padded.le_scan_length (h : m.Padded a n s.bytes) (hscan : m.scan a k = some l) :
    min s.bytes.length n ≤ l.length := by
  refine Mem.le_scan_length (fun i hi h0 => s.zero_notMem ?_) hscan
  rw [← h0, h i (by omega), List.getD_eq_getElem _ _ (by omega)]
  exact List.getElem_mem _

end Mem

end OsAndC
