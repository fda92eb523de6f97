import Mathlib.Data.Nat.Bitwise
import OsAndC.ByteMemory
import OsAndC.Running

/-!
# The Machine under the Allocator

The allocator of `22-Lab3-malloclab` runs on the simulated memory system of `memlib.c`: one
arena of `MAX_HEAP` bytes obtained from the C library, and a break pointer `mem_brk` that
`mem_sbrk` moves upwards. This module models that memory system together with the two
static variables of `mm.c`, `heap_ptr` and `free_list`, in one state, `Machine`. An `Arena`
carries what the C library promises about the block `mem_init` gets from it, and a
`Machine` carries the proof that `mem_brk` lies inside its arena, so no other break can be
built.

Pointers are 32-bit and are natural numbers here; the null pointer is `0`. `get_val` and
`set_val` access a 32-bit word. An access that is misaligned or leaves the arena is
undefined in C (a null dereference is one of these) and stops the model with a `Fault`. An
access inside the arena but at or above `mem_brk` is defined in C, although the allocator
has no business there; it goes through and is recorded in `stray`.

`stray` and `sbrks` are bookkeeping that the program does not have: the accesses outside
`[mem_heap_lo, mem_brk)` and the calls of `mem_sbrk`, latest first. They are written here
and read by no modelled function.
-/

namespace OsAndC

/-! ### Arena and machine -/

/-- `MAX_HEAP` of `config.h`: 20 MB. -/
def maxHeap : ℕ := 20 * 2 ^ 20

/-- What `malloc(MAX_HEAP)` returns in `mem_init`: a non-null, 8-aligned block that fits,
with its one-past-the-end pointer, in a 32-bit address space. -/
structure Arena where
  base : ℕ
  base_pos : 0 < base
  aligned : base % 8 = 0
  fits : base + maxHeap < 2 ^ 32

/-- A memory access of `len` bytes starting at `addr`. -/
inductive Access
  | load (addr len : ℕ)
  | store (addr len : ℕ)
  deriving DecidableEq, Repr

/-- The ways in which a run of the C code has no defined continuation. -/
inductive Fault
  /-- An access that leaves the arena: a null or wild pointer. -/
  | outside (x : Access)
  /-- A word access at an address that is not a multiple of 4. -/
  | misaligned (x : Access)
  /-- A `memcpy` between overlapping ranges. -/
  | overlap
  /-- A loop that never ends. -/
  | diverges
  deriving DecidableEq, Repr

/-- A call of `mem_sbrk`: its argument, and whether the heap was extended. -/
structure SbrkCall where
  incr : ℤ
  granted : Bool
  deriving DecidableEq, Repr

/-- The static variables of `memlib.c` and `mm.c` and the memory, with the bookkeeping of
`sbrks` and `stray`. -/
structure Machine where
  arena : Arena
  mem : Mem
  memBrk : ℕ
  heapPtr : ℕ
  freeList : ℕ
  sbrks : List SbrkCall
  stray : List Access
  base_le_brk : arena.base ≤ memBrk
  brk_le_max : memBrk ≤ arena.base + maxHeap

/-- A C function on the machine: it returns, or stops with a fault in some state. -/
abbrev M := EStateM Fault Machine

namespace Machine

variable (s : Machine)

/-- `mem_heap_lo`: the first heap byte, `mem_start_brk`. -/
def memHeapLo : ℕ := s.arena.base

/-- `mem_max_addr`. -/
def memMaxAddr : ℕ := s.arena.base + maxHeap

/-- `mem_heapsize`. -/
def memHeapsize : ℕ := s.memBrk - s.memHeapLo

/-- The word at address `a`. -/
def word (a : ℕ) : ℕ := s.mem.load32 a

/-- The machine after the word `v` is stored at `a`. -/
def store (a v : ℕ) : Machine := { s with mem := s.mem.store32 a v }

/-- `n` bytes from `a` on lie in the arena. -/
def InArena (a n : ℕ) : Prop := s.memHeapLo ≤ a ∧ a + n ≤ s.memMaxAddr

/-- `n` bytes from `a` on lie in `[mem_heap_lo, mem_brk)`. -/
def InHeap (a n : ℕ) : Prop := s.memHeapLo ≤ a ∧ a + n ≤ s.memBrk

instance (a n : ℕ) : Decidable (s.InArena a n) := inferInstanceAs (Decidable (_ ∧ _))

instance (a n : ℕ) : Decidable (s.InHeap a n) := inferInstanceAs (Decidable (_ ∧ _))

variable {s}

/-- The heap is a part of the memory obtained at the start. -/
theorem InHeap.inArena {a n : ℕ} (h : s.InHeap a n) : s.InArena a n := by
  have := s.brk_le_max
  simp only [InHeap] at h
  simp only [InArena, memMaxAddr]
  omega

/-- No heap byte is near the null pointer. -/
theorem InHeap.eight_le {a n : ℕ} (h : s.InHeap a n) : 8 ≤ a := by
  have h₁ := s.arena.base_pos
  have h₂ := s.arena.aligned
  have h₃ := h.1
  simp only [memHeapLo] at h₃
  omega

/-- No address of the heap is beyond 32 bits. -/
theorem InHeap.lt {a n : ℕ} (h : s.InHeap a n) : a + n < 2 ^ 32 := by
  have h₁ := h.2
  have h₂ := s.brk_le_max
  have h₃ := s.arena.fits
  omega

end Machine

/-! ### `memlib.c` -/

/-- `(void *)-1`. -/
def minusOne : ℕ := 2 ^ 32 - 1

/-- `mem_init` on the arena `ar`, whose bytes hold `m`: the heap is empty, and the static
variables of `mm.c` have their initial value `NULL`. -/
def memInit (ar : Arena) (m : Mem) : Machine where
  arena := ar
  mem := m
  memBrk := ar.base
  heapPtr := 0
  freeList := 0
  sbrks := []
  stray := []
  base_le_brk := le_refl _
  brk_le_max := Nat.le_add_right _ _

/-- `mem_reset_brk`. -/
def memResetBrk : M Unit := modify fun s =>
  { s with
    memBrk := s.arena.base
    base_le_brk := le_refl _
    brk_le_max := Nat.le_add_right _ _ }

/-- `mem_sbrk(incr)`: the old break, or `(void *)-1` when `incr` is negative or the new
break would pass `mem_max_addr`. The sum `mem_brk + incr` is not reduced modulo `2 ^ 32`: a
pointer sum that leaves the address space is undefined in C. -/
def memSbrk (incr : ℤ) : M ℕ := do
  let s ← get
  if h : incr < 0 ∨ (s.memMaxAddr : ℤ) < s.memBrk + incr then
    set { s with sbrks := ⟨incr, false⟩ :: s.sbrks }
    return minusOne
  else
    set { s with
      memBrk := s.memBrk + incr.toNat
      sbrks := ⟨incr, true⟩ :: s.sbrks
      base_le_brk := le_trans s.base_le_brk (Nat.le_add_right _ _)
      brk_le_max := by
        simp only [Machine.memMaxAddr] at h
        omega }
    return s.memBrk

/-! ### Memory accesses -/

/-- The check behind every access: a fault outside the arena, a `stray` entry outside the
heap. -/
def checked (x : Access) (addr len : ℕ) : M Unit := do
  let s ← get
  if s.InHeap addr len then
    return ()
  else if s.InArena addr len then
    set { s with stray := x :: s.stray }
  else
    throw (.outside x)

/-- `get_val(ptr)`. -/
def getVal (ptr : ℕ) : M ℕ := do
  if ptr % 4 = 0 then
    checked (.load ptr 4) ptr 4
    return (← get).word ptr
  else
    throw (.misaligned (.load ptr 4))

/-- `set_val(ptr, val)`. -/
def setVal (ptr val : ℕ) : M Unit := do
  if ptr % 4 = 0 then
    checked (.store ptr 4) ptr 4
    modify fun s => s.store ptr val
  else
    throw (.misaligned (.store ptr 4))

/-- `memcpy(dst, src, n)`: undefined on overlapping ranges. -/
def memcpy (dst src n : ℕ) : M Unit := do
  if dst + n ≤ src ∨ src + n ≤ dst then
    checked (.load src n) src n
    checked (.store dst n) dst n
    modify fun s => { s with mem := s.mem.copy dst src n }
  else
    throw .overlap

/-! ### What an access does -/

variable {s : Machine} {a b n v : ℕ}

/-- An access inside the heap goes through and leaves no record. -/
theorem checked_inHeap {x : Access} (h : s.InHeap a n) : checked x a n s = .ok () s := by
  change (if s.InHeap a n then (pure () : M Unit) else _) s = _
  rw [if_pos h]
  rfl

/-- One outside the heap that still hits the arena goes through and is recorded. -/
theorem checked_inArena {x : Access} (h : s.InArena a n) (h' : ¬ s.InHeap a n) :
    checked x a n s = .ok () { s with stray := x :: s.stray } := by
  change (if s.InHeap a n then (pure () : M Unit) else
    if s.InArena a n then set { s with stray := x :: s.stray } else throw (.outside x)) s = _
  rw [if_neg h', if_pos h]
  rfl

/-- One outside the arena stops the run. -/
theorem checked_outside {x : Access} (h : ¬ s.InArena a n) :
    checked x a n s = .error (.outside x) s := by
  change (if s.InHeap a n then (pure () : M Unit) else
    if s.InArena a n then set { s with stray := x :: s.stray } else throw (.outside x)) s = _
  rw [if_neg fun h' => h h'.inArena, if_neg h]
  rfl

/-- A word of the heap is read without any effect. -/
theorem getVal_eq (ha : a % 4 = 0) (h : s.InHeap a 4) : getVal a s = .ok (s.word a) s := by
  rw [getVal, if_pos ha, run_bind_ok (checked_inHeap h)]
  rfl

/-- Storing a word of the heap has no effect but the store. -/
theorem setVal_eq (ha : a % 4 = 0) (h : s.InHeap a 4) :
    setVal a v s = .ok () (s.store a v) := by
  rw [setVal, if_pos ha, run_bind_ok (checked_inHeap h)]
  rfl

/-- Copying between disjoint ranges of the heap has no effect but the copy. -/
theorem memcpy_eq (hd : a + n ≤ b ∨ b + n ≤ a) (ha : s.InHeap a n) (hb : s.InHeap b n) :
    memcpy a b n s = .ok () { s with mem := s.mem.copy a b n } := by
  rw [memcpy, if_pos hd, run_bind_ok (checked_inHeap hb), run_bind_ok (checked_inHeap ha)]
  rfl

namespace Machine

/-- A store does not move the head of the free list. -/
@[simp] theorem store_freeList : (s.store a v).freeList = s.freeList := rfl

/-- Nor the end of the heap. -/
@[simp] theorem store_inHeap : (s.store a v).InHeap b n ↔ s.InHeap b n := Iff.rfl

/-- Reading an aligned word after an aligned store. -/
theorem word_store (ha : a % 4 = 0) (hb : b % 4 = 0) :
    (s.store a v).word b = if b = a then v % 2 ^ 32 else s.word b :=
  Mem.load32_store32 ha hb

/-- A word has 32 bits. -/
theorem word_lt : s.word a < 2 ^ 32 := Mem.load32_lt _ _

/-- The heap starts where the arena does. -/
theorem memHeapLo_congr {s' : Machine} (h : s'.arena = s.arena) : s'.memHeapLo = s.memHeapLo :=
  congrArg Arena.base h

end Machine

/-! ### Frames -/

/-- `s'` differs from `s` at most in the bytes of `S` and in `free_list`. -/
structure Frame (S : Set ℕ) (s s' : Machine) : Prop where
  arena : s'.arena = s.arena
  memBrk : s'.memBrk = s.memBrk
  heapPtr : s'.heapPtr = s.heapPtr
  sbrks : s'.sbrks = s.sbrks
  stray : s'.stray = s.stray
  mem : Set.EqOn s'.mem s.mem Sᶜ

namespace Frame

variable {S T : Set ℕ} {s' s'' : Machine}

/-- Nothing has been stored. -/
theorem refl (S : Set ℕ) (s : Machine) : Frame S s s :=
  ⟨rfl, rfl, rfl, rfl, rfl, Set.eqOn_refl _ _⟩

/-- Stores after stores. -/
theorem trans (h : Frame S s s') (h' : Frame S s' s'') : Frame S s s'' :=
  ⟨h'.arena.trans h.arena, h'.memBrk.trans h.memBrk, h'.heapPtr.trans h.heapPtr,
    h'.sbrks.trans h.sbrks, h'.stray.trans h.stray, h'.mem.trans h.mem⟩

/-- What stores in `S` alone stores in a larger set alone. -/
theorem mono (h : Frame S s s') (hST : S ⊆ T) : Frame T s s' :=
  ⟨h.arena, h.memBrk, h.heapPtr, h.sbrks, h.stray,
    h.mem.mono (Set.compl_subset_compl.mpr hST)⟩

/-- A word that does not meet `S` is unchanged. -/
theorem word (h : Frame S s s') (hS : ∀ c ∈ S, c < a ∨ a + 4 ≤ c) : s'.word a = s.word a :=
  Mem.load32_eq_of_eqOn h.mem hS

/-- The arena stays where it is. -/
theorem memHeapLo (h : Frame S s s') : s'.memHeapLo = s.memHeapLo :=
  Machine.memHeapLo_congr h.arena

/-- The heap is as large as before. -/
theorem inHeap (h : Frame S s s') : s'.InHeap a n ↔ s.InHeap a n := by
  simp only [Machine.InHeap]
  rw [h.memHeapLo, h.memBrk]

/-- A store changes its four bytes. -/
theorem store (s : Machine) (a v : ℕ) : Frame (Set.Ico a (a + 4)) s (s.store a v) :=
  ⟨rfl, rfl, rfl, rfl, rfl, Mem.store32_eqOn _ _ _⟩

/-- A store inside `S`. -/
theorem store_of_subset (hS : ∀ c, a ≤ c → c < a + 4 → c ∈ S) : Frame S s (s.store a v) :=
  (Frame.store s a v).mono fun c hc => hS c hc.1 hc.2

/-- Moving the head of the free list stores nothing. -/
theorem setFreeList (s : Machine) (p : ℕ) : Frame S s { s with freeList := p } :=
  ⟨rfl, rfl, rfl, rfl, rfl, Set.eqOn_refl _ _⟩

end Frame

/-! ### What a call of `mem_sbrk` does -/

/-- A request that `mem_sbrk` refuses: it is negative as an `int`, or it does not fit in
the arena. -/
def Machine.Refuses (s : Machine) (incr : ℤ) : Prop :=
  incr < 0 ∨ (s.memMaxAddr : ℤ) < s.memBrk + incr

/-- A call that is refused changes nothing but the record of calls. -/
theorem memSbrk_refused {incr : ℤ} (h : s.Refuses incr) :
    memSbrk incr s = .ok minusOne { s with sbrks := ⟨incr, false⟩ :: s.sbrks } := by
  simp only [Machine.Refuses] at h
  rw [memSbrk, run_get_bind, dif_pos h]
  rfl

/-- A granted request moves the break and touches nothing else. -/
theorem memSbrk_granted {incr : ℤ} (h : ¬ s.Refuses incr) :
    ∃ s', memSbrk incr s = .ok s.memBrk s' ∧ s'.arena = s.arena ∧ s'.mem = s.mem ∧
      s'.memBrk = s.memBrk + incr.toNat ∧ s'.heapPtr = s.heapPtr ∧ s'.freeList = s.freeList ∧
      s'.sbrks = ⟨incr, true⟩ :: s.sbrks ∧ s'.stray = s.stray := by
  simp only [Machine.Refuses] at h
  rw [memSbrk, run_get_bind, dif_neg h]
  exact ⟨_, rfl, rfl, rfl, rfl, rfl, rfl, rfl, rfl⟩

end OsAndC
