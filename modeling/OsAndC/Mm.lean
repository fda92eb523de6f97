import OsAndC.Machine

/-!
# The Allocator of `mm.c`

A translation of `mm.c`, function by function, onto `Machine`: the macros that read and
write tags and links, `find_fit`, `place`, `extend_heap`, `coalesce`, the two list
operations, and the four entry points `mm_init`, `mm_malloc`, `mm_free` and `mm_realloc`.

A block is named by the address of its payload. One word in front of it is the header, the
last word of the block is the footer, and both hold the block size with the allocated bit
in bit 0. The first two payload words of a free block are its links in the free list.

`size_t` is 32 bits wide, so every sum, difference and product of sizes is reduced modulo
`2 ^ 32`; `~0x7` is `0xFFFFFFF8`. Addresses are natural numbers and are not reduced: what
`get_header_ptr`, `get_footer_ptr` and the two functions for the neighbours compute is the
address in C as long as it lies in the address space, and a difference below 0 is cut off
at 0, where every access is a fault, as it is anywhere outside the arena.

The `while` loop of `find_fit` runs on fuel: each turn reads a link inside the arena, so
after more turns than the arena has bytes some block has been met twice, and the loop, which
writes nothing, never ends.

From `place` on, the functions are written over `ListOps`, the functions through which the
allocator follows links; those of `mm.c` are `ListOps.source`, and with them the others are
what the names at the end of the translation stand for.
-/

namespace OsAndC

/-! ### Macros -/

/-- `WSIZE`. -/
def wsize : ℕ := 4

/-- `DSIZE`. -/
def dsize : ℕ := 8

/-- `CHUNKSIZE`. -/
def chunksize : ℕ := 2 ^ 12

/-- `size_t` subtraction. -/
def sizeSub (a b : ℕ) : ℕ := (a + 2 ^ 32 - b) % 2 ^ 32

/-- The conversion of a `size_t` to the `int` parameter of `mem_sbrk`. -/
def toInt (n : ℕ) : ℤ := if n < 2 ^ 31 then n else (n : ℤ) - 2 ^ 32

/-- `align(size)`: round up to a multiple of `ALIGNMENT`. -/
def align (size : ℕ) : ℕ := (size + (8 - 1)) % 2 ^ 32 &&& 0xFFFFFFF8

/-- `calc_block_size(data_size)`. -/
def calcBlockSize (dataSize : ℕ) : ℕ := (wsize + wsize + align dataSize) % 2 ^ 32

/-- `MIN_BLOCK_SIZE`. -/
def minBlockSize : ℕ := calcBlockSize 1

/-- `make_header(block_size, is_allocated)`. -/
def makeHeader (blockSize isAllocated : ℕ) : ℕ := blockSize ||| isAllocated

/-- `get_size(ptr)`. -/
def getSize (ptr : ℕ) : M ℕ := do return (← getVal ptr) &&& 0xFFFFFFF8

/-- `is_allocated(ptr)`. -/
def isAllocated (ptr : ℕ) : M Bool := do return (← getVal ptr) &&& 0x1 != 0

/-- `is_free(ptr)`. -/
def isFree (ptr : ℕ) : M Bool := do return !(← isAllocated ptr)

/-- `get_header_ptr(block_ptr)`, cut off at 0. -/
def getHeaderPtr (blockPtr : ℕ) : ℕ := blockPtr - wsize

/-- `get_footer_ptr(block_ptr)`, an address that is not reduced, and cut off at 0. -/
def getFooterPtr (blockPtr : ℕ) : M ℕ := do
  return blockPtr + (← getSize (getHeaderPtr blockPtr)) - dsize

/-- `get_next_block_ptr(block_ptr)`, an address that is not reduced. -/
def getNextBlockPtr (blockPtr : ℕ) : M ℕ := do
  return blockPtr + (← getSize (getHeaderPtr blockPtr))

/-- `get_prev_block_ptr(block_ptr)`, cut off at 0. -/
def getPrevBlockPtr (blockPtr : ℕ) : M ℕ := do
  return blockPtr - (← getSize (blockPtr - dsize))

/-- `get_next_free_block_ptr(block_ptr)`. -/
def getNextFreeBlockPtr (blockPtr : ℕ) : M ℕ := getVal blockPtr

/-- `get_prev_free_block_ptr(block_ptr)`. -/
def getPrevFreeBlockPtr (blockPtr : ℕ) : M ℕ := getVal (blockPtr + wsize)

/-! ### The free list -/

/-- The assignment `free_list = block_ptr`. -/
def setFreeList (blockPtr : ℕ) : M Unit := modify fun s => { s with freeList := blockPtr }

def setNextFreeBlockPtr (blockPtr next : ℕ) : M Unit :=
  if blockPtr = 0 then return () else setVal blockPtr next

def setPrevFreeBlockPtr (blockPtr next : ℕ) : M Unit :=
  if blockPtr = 0 then return () else setVal (blockPtr + wsize) next

def addToFreeList (blockPtr : ℕ) : M Unit := do
  setNextFreeBlockPtr blockPtr (← get).freeList
  setPrevFreeBlockPtr (← get).freeList blockPtr
  setPrevFreeBlockPtr blockPtr 0
  setFreeList blockPtr

def removeFromFreeList (blockPtr : ℕ) : M Unit := do
  let prev ← getPrevFreeBlockPtr blockPtr
  let next ← getNextFreeBlockPtr blockPtr
  if prev ≠ 0 then
    setNextFreeBlockPtr prev next
    setPrevFreeBlockPtr next prev
  else
    setPrevFreeBlockPtr next 0
    setFreeList next

/-! ### The search for a fit -/

/-- The `while` loop of `find_fit`. -/
def findFitLoop (size : ℕ) : ℕ → ℕ → M ℕ
  | 0, _ => throw .diverges
  | fuel + 1, blockPtr => do
      if blockPtr ≠ 0 then
        if (← getSize (getHeaderPtr blockPtr)) ≥ size then
          return blockPtr
        else
          findFitLoop size fuel (← getNextFreeBlockPtr blockPtr)
      else
        return 0

def findFit (size : ℕ) : M ℕ := do
  findFitLoop size maxHeap (← get).freeList

/-! ### Placement, extension and coalescing -/

/-- The four-way branch of `coalesce`, which rewrites the tags and returns the new `bp`. -/
def mergeTags (prevAlloc nextAlloc : Bool) (size bp : ℕ) : M ℕ := do
  if prevAlloc && nextAlloc then
    return bp
  else if prevAlloc && !nextAlloc then
    let size := (size + (← getSize (getHeaderPtr (← getNextBlockPtr bp)))) % 2 ^ 32
    setVal (getHeaderPtr bp) (makeHeader size 0)
    setVal (← getFooterPtr bp) (makeHeader size 0)
    return bp
  else if !prevAlloc && nextAlloc then
    let size := (size + (← getSize (getHeaderPtr (← getPrevBlockPtr bp)))) % 2 ^ 32
    setVal (← getFooterPtr bp) (makeHeader size 0)
    setVal (getHeaderPtr (← getPrevBlockPtr bp)) (makeHeader size 0)
    getPrevBlockPtr bp
  else
    let size := (size + ((← getSize (getHeaderPtr (← getPrevBlockPtr bp))) +
      (← getSize (← getFooterPtr (← getNextBlockPtr bp))))) % 2 ^ 32
    setVal (getHeaderPtr (← getPrevBlockPtr bp)) (makeHeader size 0)
    setVal (← getFooterPtr (← getNextBlockPtr bp)) (makeHeader size 0)
    getPrevBlockPtr bp

/-- The functions through which the allocator follows links. -/
structure ListOps where
  findFit : ℕ → M ℕ
  add : ℕ → M Unit
  remove : ℕ → M Unit
  setNext : ℕ → ℕ → M Unit
  setPrev : ℕ → ℕ → M Unit

namespace ListOps

/-- The functions of `mm.c`. -/
abbrev source : ListOps where
  findFit := OsAndC.findFit
  add := addToFreeList
  remove := removeFromFreeList
  setNext := setNextFreeBlockPtr
  setPrev := setPrevFreeBlockPtr

variable (ops : ListOps)

/-- `place`. -/
def place (ptr size : ℕ) : M Unit := do
  let curSize ← getSize (getHeaderPtr ptr)
  let remainingSize := sizeSub curSize size
  if remainingSize ≥ minBlockSize then
    setVal (getHeaderPtr ptr) (makeHeader size 1)
    setVal (← getFooterPtr ptr) (makeHeader size 1)
    let nextBlockPtr ← getNextBlockPtr ptr
    setVal (getHeaderPtr nextBlockPtr) (makeHeader remainingSize 0)
    setVal (← getFooterPtr nextBlockPtr) (makeHeader remainingSize 0)
    ops.add nextBlockPtr
  else
    setVal (getHeaderPtr ptr) (makeHeader curSize 1)
    setVal (← getFooterPtr ptr) (makeHeader curSize 1)

/-- `coalesce`. -/
def coalesce (bp : ℕ) : M ℕ := do
  let prevAlloc ← isAllocated (← getFooterPtr (← getPrevBlockPtr bp))
  let nextAlloc ← isAllocated (getHeaderPtr (← getNextBlockPtr bp))
  let size ← getSize (getHeaderPtr bp)
  (unless nextAlloc do ops.remove (← getNextBlockPtr bp))
  (unless prevAlloc do ops.remove (← getPrevBlockPtr bp))
  (do if ← isFree (getHeaderPtr bp) then ops.remove bp)
  let bp ← mergeTags prevAlloc nextAlloc size bp
  ops.add bp
  return bp

/-- `extend_heap`. -/
def extendHeap (words : ℕ) : M ℕ := do
  let size := if words % 2 ≠ 0 then (words + 1) * wsize % 2 ^ 32 else words * wsize % 2 ^ 32
  let bp ← memSbrk (toInt size)
  if bp = minusOne then
    return 0
  else
    setVal (getHeaderPtr bp) (makeHeader size 0)
    setVal (← getFooterPtr bp) (makeHeader size 0)
    setVal (getHeaderPtr (← getNextBlockPtr bp)) (makeHeader 0 1)
    ops.add bp
    ops.coalesce bp

/-! ### The entry points -/

/-- `mm_init` from the return of `extend_heap` on: the new block is made the list. -/
def initList (firstRealBlockPtr : ℕ) : M ℤ := do
  if firstRealBlockPtr = 0 then
    return -1
  else
    setFreeList firstRealBlockPtr
    ops.setNext (← get).freeList 0
    ops.setPrev (← get).freeList 0
    return 0

/-- `mm_init`. -/
def mmInit : M ℤ := do
  let heapPtr ← memSbrk (4 * wsize)
  modify fun s => { s with heapPtr := heapPtr }
  if heapPtr = minusOne then
    return -1
  else
    setVal heapPtr 0
    setVal (heapPtr + 1 * wsize) (makeHeader dsize 1)
    setVal (heapPtr + 2 * wsize) (makeHeader dsize 1)
    setVal (heapPtr + 3 * wsize) (makeHeader 0 1)
    modify fun s => { s with heapPtr := s.heapPtr + 2 * wsize }
    ops.initList (← ops.extendHeap (chunksize / wsize))

/-- `mm_malloc`. -/
def mmMalloc (size : ℕ) : M ℕ := do
  if size = 0 then
    return 0
  else
    let blockSize := calcBlockSize size
    let fit ← ops.findFit blockSize
    let blockPtr ← (if fit = 0 then ops.extendHeap (max blockSize chunksize / wsize) else pure fit)
    ops.remove blockPtr
    ops.place blockPtr blockSize
    return blockPtr

/-- `mm_free`. -/
def mmFree (ptr : ℕ) : M Unit := do
  let size ← getSize (getHeaderPtr ptr)
  setVal (getHeaderPtr ptr) (makeHeader size 0)
  setVal (← getFooterPtr ptr) (makeHeader size 0)
  ops.add ptr
  let _ ← ops.coalesce ptr

/-- The in-place growth of `mm_realloc`: whether the block at `ptr` could be extended over
the next block to hold `requiredBlockSize` bytes, in which case it has been. -/
def growInPlace (ptr curBlockSize requiredBlockSize : ℕ) : M Bool := do
  let nextBlockPtr ← getNextBlockPtr ptr
  if ← isFree (getHeaderPtr nextBlockPtr) then
    let nextBlockSize ← getSize (getHeaderPtr nextBlockPtr)
    let combinedSize := (curBlockSize + nextBlockSize) % 2 ^ 32
    if combinedSize ≥ requiredBlockSize then
      ops.remove nextBlockPtr
      setVal (getHeaderPtr ptr) (makeHeader combinedSize 1)
      ops.place ptr requiredBlockSize
      return true
    else
      return false
  else
    return false

/-- `mm_realloc`. -/
def mmRealloc (ptr size : ℕ) : M ℕ := do
  if size = 0 then
    ops.mmFree ptr
    return 0
  else if ptr = 0 then
    ops.mmMalloc size
  else
    let curBlockSize ← getSize (getHeaderPtr ptr)
    let requiredBlockSize := calcBlockSize size
    if requiredBlockSize ≤ curBlockSize then
      return ptr
    else if ← ops.growInPlace ptr curBlockSize requiredBlockSize then
      return ptr
    else
      let newPtr ← ops.mmMalloc size
      if newPtr = 0 then
        return 0
      else
        memcpy newPtr ptr (min curBlockSize size)
        ops.mmFree ptr
        return newPtr

variable {n p : ℕ}

/-- `mm_realloc` to size 0 is `mm_free`. -/
theorem mmRealloc_zero (hn : n = 0) : ops.mmRealloc p n = (do ops.mmFree p; return 0) := if_pos hn

/-- `mm_realloc` of the null pointer is `mm_malloc`. -/
theorem mmRealloc_null (hn : 0 < n) : ops.mmRealloc 0 n = ops.mmMalloc n := by
  rw [mmRealloc, if_neg (Nat.ne_of_gt hn), if_pos rfl]

end ListOps

/-! ### The functions of `mm.c` -/

abbrev place : ℕ → ℕ → M Unit := ListOps.source.place

abbrev coalesce : ℕ → M ℕ := ListOps.source.coalesce

abbrev extendHeap : ℕ → M ℕ := ListOps.source.extendHeap

abbrev mmInit : M ℤ := ListOps.source.mmInit

abbrev mmMalloc : ℕ → M ℕ := ListOps.source.mmMalloc

abbrev mmFree : ℕ → M Unit := ListOps.source.mmFree

abbrev growInPlace : ℕ → ℕ → ℕ → M Bool := ListOps.source.growInPlace

abbrev mmRealloc : ℕ → ℕ → M ℕ := ListOps.source.mmRealloc

/-! ### Bit arithmetic -/

/-- The mask `~0x7` rounds a word down to a multiple of 8. -/
theorem and_mask {v : ℕ} (h : v < 2 ^ 32) : v &&& 0xFFFFFFF8 = v / 8 * 8 := by
  apply Nat.eq_of_testBit_eq
  intro i
  have hmask : (0xFFFFFFF8 : ℕ) = (2 ^ 29 - 1) * 2 ^ 3 := by norm_num
  rw [Nat.testBit_and, hmask, show v / 8 * 8 = v / 2 ^ 3 * 2 ^ 3 from rfl,
    Nat.testBit_mul_two_pow, Nat.testBit_mul_two_pow, Nat.testBit_div_two_pow,
    Nat.testBit_two_pow_sub_one]
  by_cases hi : 3 ≤ i
  · simp only [hi, decide_true, Bool.true_and, Nat.sub_add_cancel]
    by_cases h29 : i - 3 < 29
    · simp only [h29, decide_true, Bool.and_true]
    · have hv : v.testBit i = false :=
        Nat.testBit_lt_two_pow (lt_of_lt_of_le h (Nat.pow_le_pow_right (by omega) (by omega)))
      simp only [hv, Bool.false_and]
  · simp only [hi, decide_false, Bool.false_and, Bool.and_false]

/-- A multiple of 8 and the allocated bit do not overlap. -/
theorem makeHeader_eq {size b : ℕ} (hs : size % 8 = 0) (hb : b < 8) :
    makeHeader size b = size + b := by
  have h8 : size = 2 ^ 3 * (size / 8) := by omega
  rw [makeHeader, h8, Nat.two_pow_add_eq_or_of_lt hb]

/-- Rounding up to a multiple of 8, for a request that does not wrap. -/
theorem align_eq {n : ℕ} (h : n + 7 < 2 ^ 32) : align n = (n + 7) / 8 * 8 := by
  rw [align, Nat.mod_eq_of_lt h, and_mask h]

/-- Two links, a header and a footer. -/
@[simp] theorem minBlockSize_eq : minBlockSize = 16 := by decide

/-- A difference that does not wrap around. -/
theorem sizeSub_eq {a b : ℕ} (ha : a < 2 ^ 32) (h : b ≤ a) : sizeSub a b = a - b := by
  simp only [sizeSub]
  omega

/-- A number below 2^31 is what the conversion to `int` leaves. -/
theorem toInt_eq {n : ℕ} (h : n < 2 ^ 31) : toInt n = n := if_pos h

end OsAndC
