import OsAndC.Mm

/-!
# List Operations under Watch

`watched watch` are the list operations of `mm.c` with a call of `watch` in front of each use
of a link: of a pointer that has been read from `free_list` or from a link word and is not
null. A `watch` that does not let a pointer pass makes the run fail where such a pointer is
dereferenced. With these operations in place of its own (`ListOps`), the allocator is the same
program under watch.
-/

namespace OsAndC

namespace ListOps

variable (watch : ℕ → M Unit)

/-- `set_next_free_block_ptr` of a block that a link leads to. -/
def setNextWatched (blockPtr next : ℕ) : M Unit :=
  if blockPtr = 0 then
    return ()
  else do
    watch blockPtr
    setVal blockPtr next

/-- `set_prev_free_block_ptr` of a block that a link leads to. -/
def setPrevWatched (blockPtr next : ℕ) : M Unit :=
  if blockPtr = 0 then
    return ()
  else do
    watch blockPtr
    setVal (blockPtr + wsize) next

/-- `add_to_free_list`, which follows the old `free_list`. -/
def addWatched (blockPtr : ℕ) : M Unit := do
  setNextFreeBlockPtr blockPtr (← get).freeList
  setPrevWatched watch (← get).freeList blockPtr
  setPrevFreeBlockPtr blockPtr 0
  setFreeList blockPtr

/-- `remove_from_free_list`, which follows both links of the block. -/
def removeWatched (blockPtr : ℕ) : M Unit := do
  let prev ← getPrevFreeBlockPtr blockPtr
  let next ← getNextFreeBlockPtr blockPtr
  if prev ≠ 0 then
    setNextWatched watch prev next
    setPrevWatched watch next prev
  else
    setPrevWatched watch next 0
    setFreeList next

/-- The loop of `find_fit`, which follows `free_list` and then the `next` links. -/
def findFitLoopWatched (size : ℕ) : ℕ → ℕ → M ℕ
  | 0, _ => throw .diverges
  | fuel + 1, blockPtr => do
      if blockPtr ≠ 0 then
        watch blockPtr
        if (← getSize (getHeaderPtr blockPtr)) ≥ size then
          return blockPtr
        else
          findFitLoopWatched size fuel (← getNextFreeBlockPtr blockPtr)
      else
        return 0

/-- The functions of `mm.c`, each link shown to `watch` when it is followed. -/
def watched : ListOps where
  findFit size := do findFitLoopWatched watch size maxHeap (← get).freeList
  add := addWatched watch
  remove := removeWatched watch
  setNext := setNextWatched watch
  setPrev := setPrevWatched watch

end ListOps

end OsAndC
