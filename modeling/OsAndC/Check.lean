import Mathlib.Order.Interval.Finset.Nat
import OsAndC.Orbit
import OsAndC.Walk

/-!
# The Heap Checker

`mm_check` walks along the `next` links from `free_list` and looks for the faults its
comment names. `mmCheck` models it on any memory, in order or corrupted; it only reads, and
every word can be read. Following a chain that runs in circles the loop would never end,
which the model reports as `none`: a block once found free has both links in the heap, so
after more turns than the heap has bytes some block has been met twice.

`FaultFree s l` is what the checker looks for, on the blocks `l` of the chain, and
`mmCheck_exact` says that it finds exactly that. In every state of a legal run there is
nothing to find.
-/

namespace OsAndC

open Layout

/-! ### `mm_check` -/

/-- What `mm_check` reports before it returns `-1`. -/
inductive Illegal
  /-- The free list points to a block with non-null previous element. -/
  | headHasPrev
  /-- An allocated block on the free list. -/
  | allocatedOnList
  /-- A next reference pointing outside the heap. -/
  | nextOutside
  /-- A prev reference pointing outside the heap. -/
  | prevOutside
  /-- More than one item on the free list with a NULL prev reference. -/
  | manyNilPrev
  /-- More than one item on the free list with a NULL next reference. -/
  | manyNilNext
  deriving DecidableEq, Repr

namespace Machine

variable (s : Machine)

/-- `mem_heap_hi`: the last heap byte. -/
def memHeapHi : ℕ := s.memBrk - 1

/-- The addresses from `mem_heap_lo` to `mem_heap_hi`. -/
def heapAddrs : Finset ℕ := Finset.Icc s.memHeapLo s.memHeapHi

/-- The test `p < mem_heap_lo() || p > mem_heap_hi()`. -/
def OffHeap (p : ℕ) : Prop := p < s.memHeapLo ∨ p > s.memHeapHi

instance (p : ℕ) : Decidable (s.OffHeap p) := inferInstanceAs (Decidable (_ ∨ _))

end Machine

/-- The `while` loop of `mm_check`: the two counters, or a report. -/
def mmCheckLoop (s : Machine) : ℕ → ℕ → ℕ → ℕ → Option (Except Illegal (ℕ × ℕ))
  | 0, _, _, _ => none
  | fuel + 1, blockPtr, numNilPrev, numNilNext =>
      if blockPtr ≠ 0 then
        if tagAlloc (s.header blockPtr) then
          some (.error .allocatedOnList)
        else if !tagAlloc (s.header blockPtr) then
          let np := s.word blockPtr
          let pp := s.word (blockPtr + wsize)
          if np ≠ 0 ∧ s.OffHeap np then
            some (.error .nextOutside)
          else if pp ≠ 0 ∧ s.OffHeap pp then
            some (.error .prevOutside)
          else
            mmCheckLoop s fuel (s.word blockPtr)
              (if pp = 0 then numNilPrev + 1 else numNilPrev)
              (if np = 0 then numNilNext + 1 else numNilNext)
        else
          mmCheckLoop s fuel (s.word blockPtr) numNilPrev numNilNext
      else
        some (.ok (numNilPrev, numNilNext))

/-- `mm_check` up to the value it returns. -/
def mmCheckReport (s : Machine) : Option (Except Illegal Unit) :=
  if s.freeList ≠ 0 ∧ s.word (s.freeList + wsize) ≠ 0 then
    some (.error .headHasPrev)
  else
    match mmCheckLoop s (maxHeap + 1) s.freeList 0 0 with
    | none => none
    | some (.error e) => some (.error e)
    | some (.ok (numNilPrev, numNilNext)) =>
        if numNilPrev > 1 then
          some (.error .manyNilPrev)
        else if numNilNext > 1 then
          some (.error .manyNilNext)
        else
          some (.ok ())

/-- `mm_check`: `0`, or `-1` after a report. -/
def mmCheck (s : Machine) : Option ℤ :=
  (mmCheckReport s).map fun r => match r with
    | .ok _ => 0
    | .error _ => -1

/-! ### What it looks for -/

/-- What one block of the chain must satisfy. -/
structure NodeOk (s : Machine) (a : ℕ) : Prop where
  free : tagAlloc (s.header a) = false
  next : s.word a = 0 ∨ s.word a ∈ s.heapAddrs
  prev : s.word (a + wsize) = 0 ∨ s.word (a + wsize) ∈ s.heapAddrs

/-- None of the faults is there: the first block has no predecessor, no block of the chain
`l` is allocated or has a link that leaves the heap, and no block but the first lacks a
predecessor. -/
structure FaultFree (s : Machine) (l : List ℕ) : Prop where
  head : s.freeList = 0 ∨ s.word (s.freeList + wsize) = 0
  nodes : ∀ a ∈ l, NodeOk s a
  others : ∀ a ∈ l, a ≠ s.freeList → s.word (a + wsize) ≠ 0

variable {s : Machine} {h : Layout} {a p n fuel : ℕ} {l : List ℕ}

/-! ### Addresses of the heap -/

/-- The addresses at which `mm_check` goes on. -/
theorem Machine.mem_heapAddrs : a ∈ s.heapAddrs ↔ ¬ s.OffHeap a := by
  rw [heapAddrs, Finset.mem_Icc, OffHeap]
  omega

/-- The NULL pointer is none of them. -/
theorem Machine.zero_notMem_heapAddrs : 0 ∉ s.heapAddrs := by
  have hpos := s.arena.base_pos
  rw [heapAddrs, Finset.mem_Icc, memHeapLo]
  omega

/-- And there are not more of them than the heap has bytes. -/
theorem Machine.card_heapAddrs : s.heapAddrs.card ≤ maxHeap := by
  have hmax := s.brk_le_max
  have hpos := s.arena.base_pos
  rw [heapAddrs, Nat.card_Icc, memHeapHi, memHeapLo]
  omega

/-- Both links of a block that passes the test are followed safely. -/
theorem NodeOk.tests (hn : NodeOk s a) : ¬ (s.word a ≠ 0 ∧ s.OffHeap (s.word a)) ∧
    ¬ (s.word (a + wsize) ≠ 0 ∧ s.OffHeap (s.word (a + wsize))) := by
  refine ⟨fun ⟨h0, hoff⟩ => ?_, fun ⟨h0, hoff⟩ => ?_⟩
  · exact Machine.mem_heapAddrs.mp (hn.next.resolve_left h0) hoff
  · exact Machine.mem_heapAddrs.mp (hn.prev.resolve_left h0) hoff

/-- A block that passes the tests of a round is in order. -/
theorem nodeOk_of_tests (hfree : tagAlloc (s.header a) = false)
    (hnext : ¬ (s.word a ≠ 0 ∧ s.OffHeap (s.word a)))
    (hprev : ¬ (s.word (a + wsize) ≠ 0 ∧ s.OffHeap (s.word (a + wsize)))) : NodeOk s a := by
  refine ⟨hfree, ?_, ?_⟩
  · rw [Machine.mem_heapAddrs]
    tauto
  · rw [Machine.mem_heapAddrs]
    tauto

/-! ### The loop -/

/-- One turn of the loop on a block without faults. -/
theorem mmCheckLoop_turn (ha : a ≠ 0) (hn : NodeOk s a) :
    mmCheckLoop s (fuel + 1) a p n = mmCheckLoop s fuel (s.word a)
      (if s.word (a + wsize) = 0 then p + 1 else p) (if s.word a = 0 then n + 1 else n) := by
  obtain ⟨h₁, h₂⟩ := hn.tests
  rw [mmCheckLoop, if_pos ha, if_neg (by simp [hn.free]), if_pos (by simp [hn.free])]
  simp only [if_neg h₁, if_neg h₂]

/-- One turn of the loop on any other block. -/
theorem mmCheckLoop_fault (ha : a ≠ 0) (hn : ¬ NodeOk s a) :
    ∃ e, mmCheckLoop s (fuel + 1) a p n = some (.error e) := by
  rw [mmCheckLoop, if_pos ha]
  cases hfree : tagAlloc (s.header a) with
  | true => exact ⟨.allocatedOnList, rfl⟩
  | false =>
      simp only [Bool.false_eq_true, if_false, Bool.not_false, if_true]
      by_cases hnext : s.word a ≠ 0 ∧ s.OffHeap (s.word a)
      · exact ⟨.nextOutside, if_pos hnext⟩
      · rw [if_neg hnext]
        by_cases hprev : s.word (a + wsize) ≠ 0 ∧ s.OffHeap (s.word (a + wsize))
        · exact ⟨.prevOutside, if_pos hprev⟩
        · exact absurd (nodeOk_of_tests hfree hnext hprev) hn

/-- On a chain without faults the loop counts the null links. -/
theorem mmCheckLoop_ok (ho : Orbit s.word s.heapAddrs a l) (ha : a = 0 ∨ a ∈ s.heapAddrs)
    (hfuel : l.length < fuel) (hall : ∀ b ∈ l, NodeOk s b) :
    mmCheckLoop s fuel a p n = some (.ok (p + l.countP (fun b => s.word (b + wsize) = 0),
      n + l.countP (fun b => s.word b = 0))) := by
  induction ho generalizing p n fuel with
  | stop hstop =>
      obtain rfl := ha.resolve_right hstop
      cases fuel with
      | zero => cases hfuel
      | succ fuel => rfl
  | @visit a l hmem _ ih =>
      cases fuel with
      | zero => cases hfuel
      | succ fuel =>
          have ha0 : a ≠ 0 := fun h0 => Machine.zero_notMem_heapAddrs (h0 ▸ hmem)
          have hn := hall a List.mem_cons_self
          rw [mmCheckLoop_turn ha0 hn, ih hn.next (by rw [List.length_cons] at hfuel; omega)
            fun b hb => hall b (List.mem_cons_of_mem a hb)]
          simp only [List.countP_cons, decide_eq_true_eq]
          congr 3
          · split_ifs <;> omega
          · split_ifs <;> omega

/-- On any other chain it stops with a report. -/
theorem mmCheckLoop_error (ho : Orbit s.word s.heapAddrs a l) (hfuel : l.length < fuel)
    (hbad : ¬ ∀ b ∈ l, NodeOk s b) : ∃ e, mmCheckLoop s fuel a p n = some (.error e) := by
  induction ho generalizing p n fuel with
  | stop _ => simp at hbad
  | @visit a l hmem _ ih =>
      cases fuel with
      | zero => cases hfuel
      | succ fuel =>
          have ha0 : a ≠ 0 := fun h0 => Machine.zero_notMem_heapAddrs (h0 ▸ hmem)
          by_cases hn : NodeOk s a
          · rw [mmCheckLoop_turn ha0 hn]
            refine ih (by rw [List.length_cons] at hfuel; omega) fun hall => hbad ?_
            exact List.forall_mem_cons.mpr ⟨hn, hall⟩
          · exact mmCheckLoop_fault ha0 hn

/-! ### The counters -/

/-- Only the last block of a chain has a null `next` link. -/
theorem countP_next_le (ho : Orbit s.word s.heapAddrs a l) :
    l.countP (fun b => s.word b = 0) ≤ 1 := by
  induction ho with
  | stop _ => exact Nat.zero_le 1
  | @visit a l _ hrest ih =>
      rw [List.countP_cons]
      by_cases h0 : s.word a = 0
      · rw [h0] at hrest
        obtain rfl : l = [] := hrest.unique (.stop Machine.zero_notMem_heapAddrs)
        simp [h0]
      · simpa [h0] using ih

/-- Where the first block has no predecessor, a second null `prev` link is that of another
block. -/
theorem countP_prev_le_iff (ho : Orbit s.word s.heapAddrs a l) (hnd : l.Nodup)
    (hhead : a = 0 ∨ s.word (a + wsize) = 0) :
    l.countP (fun b => s.word (b + wsize) = 0) ≤ 1 ↔
      ∀ b ∈ l, b ≠ a → s.word (b + wsize) ≠ 0 := by
  cases ho with
  | stop _ => simp
  | visit hmem _ =>
      have ha0 : a ≠ 0 := fun h0 => Machine.zero_notMem_heapAddrs (h0 ▸ hmem)
      have hnot := (List.nodup_cons.mp hnd).1
      rw [List.countP_cons_of_pos (by simpa using hhead.resolve_left ha0), Nat.succ_le_succ_iff,
        Nat.le_zero, List.countP_eq_zero]
      simp only [List.forall_mem_cons, ne_eq, not_true_eq_false, false_implies, true_and,
        decide_eq_true_eq]
      exact forall₂_congr fun b hb => ⟨fun h₁ _ => h₁, fun h₁ => h₁ fun h0 => hnot (h0 ▸ hb)⟩

/-! ### Exactness -/

/-- The result on a chain that has been followed to its end. -/
theorem mmCheck_of_orbit (ho : Orbit s.word s.heapAddrs s.freeList l) (hnd : l.Nodup)
    (hin : s.freeList = 0 ∨ s.freeList ∈ s.heapAddrs) :
    (FaultFree s l → mmCheck s = some 0) ∧ (¬ FaultFree s l → mmCheck s = some (-1)) := by
  have hfuel : l.length < maxHeap + 1 :=
    Nat.lt_succ_of_le ((ho.length_le hnd).trans Machine.card_heapAddrs)
  by_cases hhead : s.freeList = 0 ∨ s.word (s.freeList + wsize) = 0
  swap
  · refine ⟨fun hff => absurd hff.head hhead, fun _ => ?_⟩
    rw [mmCheck, mmCheckReport, if_pos (not_or.mp hhead)]
    rfl
  have hhead' : ¬ (s.freeList ≠ 0 ∧ s.word (s.freeList + wsize) ≠ 0) := by tauto
  rw [mmCheck, mmCheckReport, if_neg hhead']
  by_cases hall : ∀ b ∈ l, NodeOk s b
  swap
  · obtain ⟨e, he⟩ := mmCheckLoop_error (p := 0) (n := 0) ho hfuel hall
    rw [he]
    exact ⟨fun hff => absurd hff.nodes hall, fun _ => rfl⟩
  rw [mmCheckLoop_ok ho hin hfuel hall]
  simp only [Nat.zero_add]
  have hnext := countP_next_le ho
  have hprev := countP_prev_le_iff ho hnd hhead
  by_cases hmany : l.countP (fun b => s.word (b + wsize) = 0) ≤ 1
  · rw [if_neg (by omega), if_neg (by omega)]
    exact ⟨fun _ => rfl, fun hff => absurd ⟨hhead, hall, hprev.mp hmany⟩ hff⟩
  · rw [if_pos (by omega)]
    exact ⟨fun hff => absurd (hprev.mpr hff.others) hmany, fun _ => rfl⟩

/-- The chain of a represented heap is its free list, without faults. -/
theorem Represents.faultFree (hr : Represents s h) (hw : Wf s.memHeapLo h) :
    Orbit s.word s.heapAddrs s.freeList h.free ∧ FaultFree s h.free := by
  have hc := hr.chain
  have hin : ∀ a ∈ h.free, a ∈ s.heapAddrs := by
    intro a ha
    obtain ⟨h₁, h₂⟩ := hc.inHeap a ha
    rw [Machine.heapAddrs, Finset.mem_Icc, Machine.memHeapHi]
    omega
  have horbit : ∀ {a l}, NextChain s a l → (∀ b ∈ l, b ∈ s.heapAddrs) →
      Orbit s.word s.heapAddrs a l := by
    intro a l hl hmem
    induction hl with
    | null => exact .stop Machine.zero_notMem_heapAddrs
    | node _ _ ih =>
        rw [List.forall_mem_cons] at hmem
        exact .visit hmem.1 (ih hmem.2)
  refine ⟨horbit hr.nextChain hin, ?_, fun a ha => ⟨?_, ?_, ?_⟩, fun a ha hne h0 => hne ?_⟩
  · by_cases hnil : s.freeList = 0
    · exact Or.inl hnil
    · right
      have hmem : s.freeList ∈ h.free := by
        rw [hc.head] at hnil ⊢
        cases hf : h.free with
        | nil => rw [hf] at hnil; exact absurd rfl hnil
        | cons x l => exact List.mem_cons_self
      exact (hc.links.prev_eq_null_iff hc.zero_notMem hc.nodup hmem).mpr hc.head.symm
  · obtain ⟨b, hb, rfl, hfree⟩ := hw.mem_free.mp ha
    rw [← hfree]
    exact (hr.blockTags b hb).1.tagAlloc_eq
  · exact (hc.links.next_mem ha).imp_right (hin _)
  · exact (hc.links.prev_mem ha).imp_right (hin _)
  · rw [hc.head]
    exact ((hc.links.prev_eq_null_iff hc.zero_notMem hc.nodup ha).mp h0).symm

/-- **`mm_check` is an exact test.** On every memory in which `free_list` is NULL or inside the
heap and the chain of `next` links, followed while it stays inside the heap, repeats no
block, `mm_check` terminates, and returns `0` if none of the faults is there and `-1`
otherwise. In every state of a legal run it returns `0`. -/
theorem mmCheck_exact :
    (∀ s : Machine, s.freeList = 0 ∨ s.freeList ∈ s.heapAddrs →
      NeverRepeats s.word s.heapAddrs s.freeList →
      ∃ l, Orbit s.word s.heapAddrs s.freeList l ∧ (mmCheck s = some 0 ↔ FaultFree s l) ∧
        (¬ FaultFree s l → mmCheck s = some (-1))) ∧
    ∀ σ, Reachable σ → mmCheck σ.machine = some 0 := by
  refine ⟨fun s hin hne => ?_, fun σ hσ => ?_⟩
  · obtain ⟨l, ho, hnd⟩ := Orbit.exists_of_neverRepeats hne
    obtain ⟨hgood, hbad⟩ := mmCheck_of_orbit ho hnd hin
    refine ⟨l, ho, ⟨fun hzero => ?_, hgood⟩, hbad⟩
    by_contra hff
    rw [hbad hff] at hzero
    cases hzero
  · obtain ⟨h, hs⟩ := hσ.simulates
    obtain ⟨ho, hff⟩ := hs.represents.faultFree hs.valid.toWf
    have hin : σ.machine.freeList = 0 ∨ σ.machine.freeList ∈ σ.machine.heapAddrs := by
      rw [hs.represents.chain.head] at ho ⊢
      cases hf : h.free with
      | nil => exact Or.inl rfl
      | cons x l => exact Or.inr (ho.subset x (by simp [hf]))
    exact (mmCheck_of_orbit ho hs.valid.nodup hin).1 hff

/-- A heap of 16 bytes full of ones, with `free_list` in the middle of it. -/
def spoiltMachine : Machine where
  arena := sampleArena
  mem := fun _ => 1
  memBrk := 4112
  heapPtr := 4104
  freeList := 4104
  sbrks := []
  stray := []
  base_le_brk := by decide
  brk_le_max := by decide

/-- A free list with a fault is found out, and the heap after one call is in order. -/
theorem mmCheck_exact_spoiltMachine :
    (∃ l, Orbit spoiltMachine.word spoiltMachine.heapAddrs 4104 l ∧
      (mmCheck spoiltMachine = some 0 ↔ FaultFree spoiltMachine l) ∧
      (¬ FaultFree spoiltMachine l → mmCheck spoiltMachine = some (-1))) ∧
    mmCheck (oneSession 100).machine = some 0 := by
  refine ⟨mmCheck_exact.1 spoiltMachine (Or.inr ?_) fun i j hij hin => ?_,
    mmCheck_exact.2 _ (oneSession_spec (by decide)).1⟩
  · rw [Machine.mem_heapAddrs]
    decide
  · exact absurd (hin 1 (by omega)) (by rw [Machine.mem_heapAddrs]; decide)

end OsAndC
