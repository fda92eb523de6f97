import OsAndC.Mm

/-!
# Stray Accesses Stay Recorded

Only the check in front of an access writes `stray`, and it only adds to it. So an access
that has strayed is on record when the function that made it returns (`mmInit_lasting`,
`mmMalloc_lasting`, `mmFree_lasting`, `mmRealloc_lasting`): a function that returns with an
empty `stray` has made no access outside the heap at any time.
-/

namespace OsAndC

/-- What is on record when the program is started is on record when it returns. -/
def Lasting {α : Type} (m : M α) : Prop := ∀ x, Keeps (fun s => x ∈ s.stray) m fun _ => True

variable {α β : Type} {m m' : M α} {f : α → M β} {a n v : ℕ}

namespace Lasting

/-- A value alone records nothing. -/
theorem pure {a : α} : Lasting (Pure.pure a : M α) := fun _ => Keeps.pure trivial

/-- The record lasts through programs in sequence. -/
theorem bind (hm : Lasting m) (hf : ∀ a, Lasting (f a)) : Lasting (m >>= f) :=
  fun x => (hm x).bind fun a _ => hf a x

/-- And through a branch. -/
theorem ite {c : Prop} [Decidable c] (hm : Lasting m) (hm' : Lasting m') :
    Lasting (if c then m else m') :=
  fun x => Keeps.ite (fun _ => hm x) fun _ => hm' x

/-- Looking at the machine leaves the record. -/
theorem read : Lasting (get : M Machine) := by
  intro x s a s' hx hrun
  cases hrun
  exact ⟨hx, trivial⟩

/-- So does a change of anything but the record. -/
theorem update {g : Machine → Machine} (hg : ∀ s, (g s).stray = s.stray) :
    Lasting (modify g : M Unit) :=
  fun x => Keeps.update fun s hx => by rwa [hg]

/-- A program that stops does not return. -/
theorem fail {e : Fault} : Lasting (throw e : M α) := by
  intro x s a s' _ hrun
  cases hrun

end Lasting

/-! ### Accesses -/

/-- The check records the access or nothing. -/
theorem checked_lasting {x : Access} : Lasting (checked x a n) := by
  intro y s u s' hy hrun
  by_cases hin : s.InHeap a n
  · rw [checked_inHeap hin] at hrun
    cases hrun
    exact ⟨hy, trivial⟩
  · by_cases hin' : s.InArena a n
    · rw [checked_inArena hin' hin] at hrun
      cases hrun
      exact ⟨List.mem_cons_of_mem x hy, trivial⟩
    · rw [checked_outside hin'] at hrun
      cases hrun

/-- A load leaves what is on record. -/
theorem getVal_lasting : Lasting (getVal a) :=
  .ite (checked_lasting.bind fun _ => Lasting.read.bind fun _ => .pure) .fail

/-- So does a store. -/
theorem setVal_lasting : Lasting (setVal a v) :=
  .ite (checked_lasting.bind fun _ => .update fun _ => rfl) .fail

/-- So does a copy. -/
theorem memcpy_lasting {b : ℕ} : Lasting (memcpy a b n) :=
  .ite (checked_lasting.bind fun _ => checked_lasting.bind fun _ => .update fun _ => rfl) .fail

/-- So does moving the break. -/
theorem memSbrk_lasting {incr : ℤ} : Lasting (memSbrk incr) := by
  intro y s q s' hy hrun
  by_cases hgr : s.Refuses incr
  · rw [memSbrk_refused hgr] at hrun
    cases hrun
    exact ⟨hy, trivial⟩
  · obtain ⟨t, ht, -, -, -, -, -, -, hstray⟩ := memSbrk_granted hgr
    rw [ht] at hrun
    cases hrun
    exact ⟨show y ∈ s'.stray by rwa [hstray], trivial⟩

/-! ### Tags and links -/

/-- Reading a size leaves what is on record. -/
theorem getSize_lasting : Lasting (getSize a) := getVal_lasting.bind fun _ => .pure

/-- So does reading the allocated bit. -/
theorem isAllocated_lasting : Lasting (isAllocated a) := getVal_lasting.bind fun _ => .pure

/-- And its negation. -/
theorem isFree_lasting : Lasting (isFree a) := isAllocated_lasting.bind fun _ => .pure

/-- So does looking for the footer. -/
theorem getFooterPtr_lasting : Lasting (getFooterPtr a) := getSize_lasting.bind fun _ => .pure

/-- So does looking for the next block. -/
theorem getNextBlockPtr_lasting : Lasting (getNextBlockPtr a) :=
  getSize_lasting.bind fun _ => .pure

/-- And for the previous one. -/
theorem getPrevBlockPtr_lasting : Lasting (getPrevBlockPtr a) :=
  getSize_lasting.bind fun _ => .pure

/-- Assigning `free_list` is no access. -/
theorem setFreeList_lasting : Lasting (setFreeList a) := .update fun _ => rfl

/-- Writing a link leaves what is on record. -/
theorem setNextFreeBlockPtr_lasting : Lasting (setNextFreeBlockPtr a v) :=
  .ite .pure setVal_lasting

/-- So does writing the other one. -/
theorem setPrevFreeBlockPtr_lasting : Lasting (setPrevFreeBlockPtr a v) :=
  .ite .pure setVal_lasting

/-- The record lasts through `add_to_free_list`. -/
theorem addToFreeList_lasting : Lasting (addToFreeList a) :=
  Lasting.read.bind fun _ => setNextFreeBlockPtr_lasting.bind fun _ =>
    Lasting.read.bind fun _ => setPrevFreeBlockPtr_lasting.bind fun _ =>
      setPrevFreeBlockPtr_lasting.bind fun _ => setFreeList_lasting

/-- And through `remove_from_free_list`. -/
theorem removeFromFreeList_lasting : Lasting (removeFromFreeList a) :=
  getVal_lasting.bind fun _ => getVal_lasting.bind fun _ =>
    .ite (setNextFreeBlockPtr_lasting.bind fun _ => setPrevFreeBlockPtr_lasting)
      (setPrevFreeBlockPtr_lasting.bind fun _ => setFreeList_lasting)

/-! ### The allocator -/

/-- The loop of `find_fit`. -/
theorem findFitLoop_lasting {fuel : ℕ} : Lasting (findFitLoop n fuel a) := by
  induction fuel generalizing a with
  | zero => exact .fail
  | succ fuel ih =>
      exact .ite (getSize_lasting.bind fun _ => .ite .pure (getVal_lasting.bind fun _ => ih)) .pure

/-- The record lasts through `find_fit`. -/
theorem findFit_lasting : Lasting (findFit n) := Lasting.read.bind fun _ => findFitLoop_lasting

/-- It lasts through `place`. -/
theorem place_lasting : Lasting (place a n) := by
  refine getSize_lasting.bind fun _ => .ite ?_ ?_
  · exact setVal_lasting.bind fun _ => getFooterPtr_lasting.bind fun _ =>
      setVal_lasting.bind fun _ => getNextBlockPtr_lasting.bind fun _ =>
        setVal_lasting.bind fun _ => getFooterPtr_lasting.bind fun _ =>
          setVal_lasting.bind fun _ => addToFreeList_lasting
  · exact setVal_lasting.bind fun _ => getFooterPtr_lasting.bind fun _ => setVal_lasting

/-- It lasts through the four cases of `coalesce`. -/
theorem mergeTags_lasting {p q : Bool} : Lasting (mergeTags p q n a) := by
  refine .ite .pure (.ite ?_ (.ite ?_ ?_))
  · exact getNextBlockPtr_lasting.bind fun _ => getSize_lasting.bind fun _ =>
      setVal_lasting.bind fun _ => getFooterPtr_lasting.bind fun _ =>
        setVal_lasting.bind fun _ => .pure
  · exact getPrevBlockPtr_lasting.bind fun _ => getSize_lasting.bind fun _ =>
      getFooterPtr_lasting.bind fun _ => setVal_lasting.bind fun _ =>
        getPrevBlockPtr_lasting.bind fun _ => setVal_lasting.bind fun _ => getPrevBlockPtr_lasting
  · exact getPrevBlockPtr_lasting.bind fun _ => getSize_lasting.bind fun _ =>
      getNextBlockPtr_lasting.bind fun _ => getFooterPtr_lasting.bind fun _ =>
        getSize_lasting.bind fun _ => getPrevBlockPtr_lasting.bind fun _ =>
          setVal_lasting.bind fun _ => getNextBlockPtr_lasting.bind fun _ =>
            getFooterPtr_lasting.bind fun _ => setVal_lasting.bind fun _ => getPrevBlockPtr_lasting

/-- It lasts through `coalesce`. -/
theorem coalesce_lasting : Lasting (coalesce a) := by
  refine getPrevBlockPtr_lasting.bind fun _ => getFooterPtr_lasting.bind fun _ =>
    isAllocated_lasting.bind fun prevAlloc => getNextBlockPtr_lasting.bind fun _ =>
      isAllocated_lasting.bind fun nextAlloc => getSize_lasting.bind fun _ => ?_
  refine Lasting.bind ?_ fun _ => Lasting.bind ?_ fun _ => Lasting.bind ?_ fun _ =>
    mergeTags_lasting.bind fun _ => addToFreeList_lasting.bind fun _ => .pure
  · exact .ite .pure (getNextBlockPtr_lasting.bind fun _ => removeFromFreeList_lasting)
  · exact .ite .pure (getPrevBlockPtr_lasting.bind fun _ => removeFromFreeList_lasting)
  · exact isFree_lasting.bind fun _ => .ite removeFromFreeList_lasting .pure

/-- It lasts through `extend_heap`. -/
theorem extendHeap_lasting : Lasting (extendHeap n) :=
  memSbrk_lasting.bind fun _ => .ite .pure <| setVal_lasting.bind fun _ =>
    getFooterPtr_lasting.bind fun _ => setVal_lasting.bind fun _ =>
      getNextBlockPtr_lasting.bind fun _ => setVal_lasting.bind fun _ =>
        addToFreeList_lasting.bind fun _ => coalesce_lasting

/-- What has strayed in `mm_init` is on record when it returns. -/
theorem mmInit_lasting : Lasting mmInit := by
  refine memSbrk_lasting.bind fun _ => Lasting.bind (.update fun _ => rfl) fun _ => .ite .pure ?_
  refine setVal_lasting.bind fun _ => setVal_lasting.bind fun _ => setVal_lasting.bind fun _ =>
    setVal_lasting.bind fun _ => Lasting.bind (.update fun _ => rfl) fun _ =>
      extendHeap_lasting.bind fun _ => .ite .pure ?_
  exact setFreeList_lasting.bind fun _ => Lasting.read.bind fun _ =>
    setNextFreeBlockPtr_lasting.bind fun _ => Lasting.read.bind fun _ =>
      setPrevFreeBlockPtr_lasting.bind fun _ => .pure

/-- The same for `mm_malloc`. -/
theorem mmMalloc_lasting : Lasting (mmMalloc n) :=
  .ite .pure <| findFit_lasting.bind fun _ => Lasting.bind (.ite extendHeap_lasting .pure) fun _ =>
    removeFromFreeList_lasting.bind fun _ => place_lasting.bind fun _ => .pure

/-- The same for `mm_free`. -/
theorem mmFree_lasting : Lasting (mmFree a) :=
  getSize_lasting.bind fun _ => setVal_lasting.bind fun _ => getFooterPtr_lasting.bind fun _ =>
    setVal_lasting.bind fun _ => addToFreeList_lasting.bind fun _ =>
      coalesce_lasting.bind fun _ => .pure

/-- The same for the growth in place. -/
theorem growInPlace_lasting : Lasting (growInPlace a n v) :=
  getNextBlockPtr_lasting.bind fun _ => isFree_lasting.bind fun _ => .ite
    (getSize_lasting.bind fun _ => .ite
      (removeFromFreeList_lasting.bind fun _ => setVal_lasting.bind fun _ =>
        place_lasting.bind fun _ => .pure) .pure) .pure

/-- The same for `mm_realloc`. -/
theorem mmRealloc_lasting : Lasting (mmRealloc a n) := by
  refine .ite (mmFree_lasting.bind fun _ => .pure) (.ite mmMalloc_lasting ?_)
  refine getSize_lasting.bind fun _ => .ite .pure (growInPlace_lasting.bind fun _ => .ite .pure ?_)
  exact mmMalloc_lasting.bind fun _ => .ite .pure <| memcpy_lasting.bind fun _ =>
    mmFree_lasting.bind fun _ => .pure

end OsAndC
