import OsAndC.Operations

/-!
# Initialisation with a Stale Free List

`mm_init` builds the heap, calls `extend_heap`, and only then gives `free_list` its value.
During that call `free_list` still holds whatever it held before: `NULL` after `mem_init`,
the head of the previous run's list after `mem_reset_brk`. The stale head is never unlinked
from anything, but its `prev` link is written three times.

`Stale s f` says where such a head can lie without hitting the new epilogue. Under it
`mmInit_spec` evaluates `mm_init`: the result is the initial layout, whatever the stale head
is, and every write through the stale head that lies behind the new break is an entry of
`stray`.
-/

namespace OsAndC

open Layout

variable {s s' : Machine} {f b v lo : ℕ}

/-- `f` is null or the address of a block of an earlier heap in the same arena, and its
link word `prev` is not the word of the new epilogue. -/
def Stale (s : Machine) (f : ℕ) : Prop :=
  f = 0 ∨ f % 8 = 0 ∧ s.memHeapLo + 16 ≤ f ∧ f + 8 ≤ s.memMaxAddr ∧ f ≠ s.memHeapLo + 4104

/-- The entry of `stray` for one write to the link word `prev` of `f`. -/
def strayPrev (s : Machine) (f : ℕ) : List Access :=
  if f = 0 ∨ s.InHeap (f + wsize) 4 then [] else [.store (f + wsize) 4]

/-- The bytes of the link word `prev` of `f`. -/
def prevBytes (f : ℕ) : Set ℕ := {c | f ≠ 0 ∧ f + 4 ≤ c ∧ c < f + 8}

/-- `Frame`, with no promise about `stray`. -/
def StrayFrame (S : Set ℕ) (s s' : Machine) : Prop := Frame S { s with stray := s'.stray } s'

namespace StrayFrame

variable {S T : Set ℕ} {s'' : Machine} {a : ℕ}

/-- Stores in the heap make no stray accesses. -/
theorem of_frame (h : Frame S s s') : StrayFrame S s s' := by
  rw [StrayFrame, h.stray]
  exact h

/-- Stretches of a run one after the other. -/
theorem trans (h : StrayFrame S s s') (h' : StrayFrame S s' s'') : StrayFrame S s s'' :=
  have hstray : Frame S { s with stray := s''.stray } { s' with stray := s''.stray } :=
    ⟨h.arena, h.memBrk, h.heapPtr, h.sbrks, rfl, h.mem⟩
  hstray.trans h'

/-- A larger set of addresses allows more. -/
theorem mono (h : StrayFrame S s s') (hST : S ⊆ T) : StrayFrame T s s' := Frame.mono h hST

/-- A word apart from the addresses is what it was. -/
theorem word (h : StrayFrame S s s') (hS : ∀ c ∈ S, c < a ∨ a + 4 ≤ c) : s'.word a = s.word a :=
  Frame.word (s := { s with stray := s'.stray }) h hS

/-- The arena stays where it is. -/
theorem memHeapLo (h : StrayFrame S s s') : s'.memHeapLo = s.memHeapLo :=
  Frame.memHeapLo (s := { s with stray := s'.stray }) h

/-- And so does the end of the heap. -/
theorem inHeap {n : ℕ} (h : StrayFrame S s s') : s'.InHeap a n ↔ s.InHeap a n :=
  Frame.inHeap (s := { s with stray := s'.stray }) h

/-- And that of the arena. -/
theorem inArena {n : ℕ} (h : StrayFrame S s s') : s'.InArena a n ↔ s.InArena a n := by
  simp only [Machine.InArena, Machine.memMaxAddr]
  rw [h.memHeapLo, h.arena]

/-- The next stray link lies where it would have lain before. -/
theorem strayPrev_eq (h : StrayFrame S s s') : strayPrev s' f = strayPrev s f := by
  simp only [strayPrev]
  simp only [h.inHeap]

end StrayFrame

/-- A write through the stale head changes its link word at most, and is recorded when it
strays. -/
theorem setPrevFreeBlockPtr_stale (hf4 : f % 4 = 0) (hin : f ≠ 0 → s.InArena (f + wsize) 4) :
    ∃ s', setPrevFreeBlockPtr f v s = .ok () s' ∧ StrayFrame (prevBytes f) s s' ∧
      s'.stray = strayPrev s f ++ s.stray ∧ s'.freeList = s.freeList := by
  have hws : wsize = 4 := rfl
  simp only [setPrevFreeBlockPtr, strayPrev]
  by_cases h0 : f = 0
  · rw [if_pos h0, if_pos (Or.inl h0)]
    exact ⟨s, rfl, Frame.refl _ s, rfl, rfl⟩
  · have ha : (f + wsize) % 4 = 0 := by omega
    have hframe : ∀ t : Machine, Frame (prevBytes f) t (t.store (f + wsize) v) := fun t =>
      Frame.store_of_subset fun c h₁ h₂ => by
        simp only [wsize] at h₁ h₂
        exact ⟨h0, h₁, by omega⟩
    rw [if_neg h0]
    by_cases hheap : s.InHeap (f + wsize) 4
    · rw [if_pos (Or.inr hheap)]
      exact ⟨_, setVal_eq ha hheap, hframe s, rfl, rfl⟩
    · rw [if_neg (not_or.mpr ⟨h0, hheap⟩)]
      rw [setVal, if_pos ha, run_bind_ok (checked_inArena (hin h0) hheap)]
      exact ⟨_, rfl, hframe { s with stray := .store (f + wsize) 4 :: s.stray }, rfl, rfl⟩

/-- The bytes a list operation on the node `b` can change when the list has the stale head
`f`. -/
def staleBytes (b f : ℕ) : Set ℕ := {c | b ≤ c ∧ c < b + 8} ∪ prevBytes f

/-- Adding a node in front of a stale head. -/
theorem addToFreeList_stale (hb : b % 8 = 0) (hb0 : 0 < b) (hin : s.InHeap b 8)
    (hf : s.freeList = f) (hf8 : f % 8 = 0) (hlt : f < 2 ^ 32)
    (hfin : f ≠ 0 → s.InArena (f + wsize) 4) :
    ∃ s', addToFreeList b s = .ok () s' ∧ StrayFrame (staleBytes b f) s s' ∧
      s'.stray = strayPrev s f ++ s.stray ∧ s'.freeList = b ∧ s'.word b = f ∧
      s'.word (b + wsize) = 0 := by
  have hws : wsize = 4 := rfl
  have hf₁ : StrayFrame (staleBytes b f) s (s.linkNext b f) :=
    .of_frame (Machine.linkNext_frame fun c _ h₁ h₂ => Or.inl ⟨h₁, by omega⟩)
  obtain ⟨s₂, hrun₂, hf₂, hstray, hfl₂⟩ := setPrevFreeBlockPtr_stale (s := s.linkNext b f) (f := f)
    (v := b) (by omega) fun h0 => hf₁.inArena.mpr (hfin h0)
  have hf₁₂ := hf₁.trans (hf₂.mono fun c hc => Or.inr hc)
  have hf₃ : StrayFrame (staleBytes b f) s₂ { s₂.linkPrev b 0 with freeList := b } :=
    .of_frame ((Machine.linkPrev_frame fun c _ h₁ h₂ => Or.inl ⟨by omega, h₂⟩).trans
      (Frame.setFreeList _ b))
  have hin₂ : s₂.InHeap b 8 := hf₁₂.inHeap.mpr hin
  have hword : ∀ a, a % 4 = 0 → a ≠ wsize →
      Machine.word { s₂.linkPrev b 0 with freeList := b } a =
        if a = b + wsize then 0 else s₂.word a := fun a ha ha4 => by
    have := Machine.word_linkPrev (s := s₂) (v := 0) (by omega : b % 4 = 0) ha ha4
    rwa [Nat.zero_mod] at this
  refine ⟨_, ?_, hf₁₂.trans hf₃, ?_, rfl, ?_, ?_⟩
  · rw [addToFreeList, run_get_bind, hf,
      run_bind_ok (setNextFreeBlockPtr_eq (by omega) fun _ => hin), run_get_bind,
      Machine.linkNext_freeList, hf, run_bind_ok hrun₂,
      run_bind_ok (setPrevFreeBlockPtr_eq (by omega) fun _ => hin₂)]
    rfl
  · have hlinks : ∀ t : Machine, (t.linkPrev b 0).stray = t.stray ∧
        (t.linkNext b f).stray = t.stray := fun t => by
      simp only [Machine.linkPrev, Machine.linkNext]
      exact ⟨by split_ifs <;> rfl, by split_ifs <;> rfl⟩
    change (s₂.linkPrev b 0).stray = _
    rw [(hlinks s₂).1, hstray, hf₁.strayPrev_eq, (hlinks s).2]
  · rw [hword b (by omega) (by omega), if_neg (by omega),
      hf₂.word fun c hc => ?_, Machine.word_linkNext (by omega) (by omega) (by omega), if_pos rfl,
      Nat.mod_eq_of_lt hlt]
    obtain ⟨h0, h₁, h₂⟩ := hc
    omega
  · rw [hword (b + wsize) (by omega) (by omega), if_pos rfl]

/-- Removing a node that was added in front of a stale head. -/
theorem removeFromFreeList_stale (hb : b % 8 = 0) (hin : s.InHeap b 8) (hnext : s.word b = f)
    (hprev : s.word (b + wsize) = 0) (hf8 : f % 8 = 0)
    (hfin : f ≠ 0 → s.InArena (f + wsize) 4) :
    ∃ s', removeFromFreeList b s = .ok () s' ∧ StrayFrame (prevBytes f) s s' ∧
      s'.stray = strayPrev s f ++ s.stray ∧ s'.freeList = f := by
  have hws : wsize = 4 := rfl
  obtain ⟨h₁, h₂⟩ := hin
  have hload : getPrevFreeBlockPtr b s = .ok 0 s := by
    rw [← hprev]
    exact getVal_eq (by omega) ⟨by omega, by omega⟩
  have hload' : getNextFreeBlockPtr b s = .ok f s := by
    rw [← hnext]
    exact getVal_eq (by omega) ⟨h₁, by omega⟩
  obtain ⟨s₁, hrun, hf₁, hstray, -⟩ := setPrevFreeBlockPtr_stale (s := s) (f := f) (v := 0)
    (by omega) hfin
  refine ⟨{ s₁ with freeList := f }, ?_, hf₁.trans (.of_frame (Frame.setFreeList s₁ f)), hstray,
    rfl⟩
  rw [removeFromFreeList, run_bind_ok hload, run_bind_ok hload', if_neg (not_not.mpr rfl),
    run_bind_ok hrun]
  rfl

/-- `coalesce` on the only block of a heap unlinks the block and links it again. -/
theorem coalesce_alone {h : Layout} {c : Block} (hw : Wf s.memHeapLo h) (ht : TagsOf s h)
    (hbs : h.blocks = [c]) (hc : c.alloc = false) :
    coalesce c.addr s =
      (do removeFromFreeList c.addr; addToFreeList c.addr; return c.addr) s := by
  have hbs' : h.blocks = [] ++ c :: [] := hbs
  have hp : Tag s (s.memHeapLo + 8 - wsize) 8 true ∧ Tag s (s.memHeapLo + 8 + 8 - dsize) 8 true :=
    ht.prologueTags
  have hend : s.memHeapLo + 8 + 8 = c.addr := prevOf_end hw hbs'
  have hnaddr : h.brk = c.addr + c.size := nextOf_addr hw hbs'
  have hct := ht.blockTags c (by rw [hbs]; simp)
  have hfoot : Tag s (c.addr - dsize) 8 true := hend ▸ hp.2
  have hprev : getPrevBlockPtr c.addr s = .ok (s.memHeapLo + 8) s := by
    have := hfoot.getPrevBlockPtr_eq
    rwa [show c.addr - 8 = s.memHeapLo + 8 by omega] at this
  have hnext : getNextBlockPtr c.addr s = .ok h.brk s := hnaddr ▸ hct.1.getNextBlockPtr_eq
  rw [coalesce, ListOps.coalesce, run_bind_ok hprev, run_bind_ok hp.1.getFooterPtr_eq,
    run_bind_ok hp.2.isAllocated_eq, run_bind_ok hnext, getHeaderPtr,
    run_bind_ok ht.epilogueHeader.isAllocated_eq, getHeaderPtr, run_bind_ok hct.1.getSize_eq]
  simp only [if_true]
  rw [run_bind_ok (run_pure () s), run_bind_ok (run_pure () s)]
  refine run_bind_congr ?_
  rw [run_bind_ok hct.1.isFree_eq, hc]
  rfl

/-- The heap with prologue and epilogue and no block. -/
def bare (lo : ℕ) : Layout := ⟨[], [], lo + 16⟩

/-- A heap of the prologue and the epilogue is in order. -/
theorem bare_valid (hlo : lo % 8 = 0) : Valid lo (bare lo) :=
  ⟨⟨hlo, trivial, by simp [bare], rfl, List.Perm.refl _⟩, List.isChain_nil⟩

/-- The first part of `mm_init`: prologue and epilogue are written. -/
theorem mmInit_prologue (hbrk : s.memBrk = s.arena.base) :
    ∃ s', (∀ ops : ListOps,
        ops.mmInit s = (do ops.initList (← ops.extendHeap (chunksize / wsize))) s') ∧
      TagsOf s' (bare s.memHeapLo) ∧ s'.arena = s.arena ∧ s'.freeList = s.freeList ∧
      s'.sbrks = ⟨16, true⟩ :: s.sbrks ∧ s'.stray = s.stray := by
  have hgr : ¬ s.Refuses (4 * wsize) := by
    simp only [Machine.Refuses, Machine.memMaxAddr, maxHeap, wsize]
    omega
  obtain ⟨s₁, hrun₁, harena, -, hbrk₁, -, hfl, hsb, hstray⟩ := memSbrk_granted hgr
  rw [hbrk] at hbrk₁ hrun₁
  have h8 := s.arena.aligned
  have hlo : s₁.memHeapLo = s.arena.base := by
    rw [Machine.memHeapLo, harena]
  have htop : s₁.memBrk = s.arena.base + 16 := hbrk₁
  let t₀ : Machine := { s₁ with heapPtr := s.arena.base }
  let t₁ := t₀.store s.arena.base 0
  let t₂ := t₁.store (s.arena.base + 4) (8 + true.toNat)
  let t₃ := t₂.store (s.arena.base + 8) (8 + true.toNat)
  let t₄ := t₃.store (s.arena.base + 12) (0 + true.toNat)
  have hin : ∀ k, k ≤ 12 → t₀.InHeap (s.arena.base + k) 4 := fun k hk =>
    ⟨hlo.le.trans (Nat.le_add_right _ _), by rw [show t₀.memBrk = _ from htop]; omega⟩
  have hin₁ : t₁.InHeap (s.arena.base + 4) 4 := hin 4 (by omega)
  have hin₂ : t₂.InHeap (s.arena.base + 8) 4 := hin 8 (by omega)
  have hin₃ : t₃.InHeap (s.arena.base + 12) 4 := hin 12 (by omega)
  have htag₁ : Tag t₄ (s.arena.base + 4) 8 true :=
    ((Tag.of_store true (by omega) rfl (by omega) hin₁).store (by omega) (by omega)).store
      (by omega) (by omega)
  have htag₂ : Tag t₄ (s.arena.base + 8) 8 true :=
    (Tag.of_store true (by omega) rfl (by omega) hin₂).store (by omega) (by omega)
  have htag₃ : Tag t₄ (s.arena.base + 12) 0 true :=
    Tag.of_store true (by omega) rfl (by omega) hin₃
  have hne : s.arena.base ≠ minusOne := by
    have := s.arena.fits
    simp only [maxHeap] at this
    simp only [minusOne]
    omega
  refine ⟨{ t₄ with heapPtr := s.arena.base + 8 }, fun ops => ?_,
    ⟨htop, ⟨?_, ?_⟩, by simp [bare], ?_⟩, harena, hfl, hsb, hstray⟩
  · have hset₀ : setVal s.arena.base 0 t₀ = .ok () t₁ := setVal_eq (by omega) (hin 0 (by omega))
    have hset₁ : setVal (s.arena.base + 1 * wsize) (makeHeader dsize 1) t₁ = .ok () t₂ :=
      setVal_makeHeader true (by omega) rfl hin₁ rfl
    have hset₂ : setVal (s.arena.base + 2 * wsize) (makeHeader dsize 1) t₂ = .ok () t₃ :=
      setVal_makeHeader true (by omega) rfl hin₂ rfl
    have hset₃ : setVal (s.arena.base + 3 * wsize) (makeHeader 0 1) t₃ = .ok () t₄ :=
      setVal_makeHeader true (by omega) rfl hin₃ rfl
    rw [ListOps.mmInit, run_bind_ok hrun₁, run_modify_bind, if_neg hne, run_bind_ok hset₀,
      run_bind_ok hset₁, run_bind_ok hset₂, run_bind_ok hset₃, run_modify_bind]
    rfl
  · rw [show Machine.memHeapLo { t₄ with heapPtr := s.arena.base + 8 } = _ from hlo]
    exact ⟨htag₁.word, htag₁.aligned, htag₁.size_mod, htag₁.inHeap⟩
  · rw [show Machine.memHeapLo { t₄ with heapPtr := s.arena.base + 8 } = _ from hlo]
    exact ⟨htag₂.word, htag₂.aligned, htag₂.size_mod, htag₂.inHeap⟩
  · exact ⟨htag₃.word, htag₃.aligned, htag₃.size_mod, htag₃.inHeap⟩

/-- `mm_init` up to the first list operation, which still works on the old `free_list`. -/
theorem mmInit_extend (hbrk : s.memBrk = s.arena.base) :
    ∃ s', (∀ ops : ListOps, ops.mmInit s = (do
        ops.add (s.memHeapLo + 16)
        ops.initList (← ops.coalesce (s.memHeapLo + 16))) s') ∧
      TagsOf s' (initial s.memHeapLo) ∧ s'.arena = s.arena ∧ s'.freeList = s.freeList ∧
      s'.sbrks = ⟨4096, true⟩ :: ⟨16, true⟩ :: s.sbrks ∧ s'.stray = s.stray := by
  obtain ⟨s₁, hrun₁, ht₁, harena₁, hfl₁, hsb₁, hstray₁⟩ := mmInit_prologue hbrk
  have hlo₁ : s₁.memHeapLo = s.memHeapLo := Machine.memHeapLo_congr harena₁
  have hfits := s.arena.fits
  have hlo : s.memHeapLo = s.arena.base := rfl
  have hgr : ¬ s₁.Refuses (toInt 4096) := by
    have h₁ : s₁.memBrk = s.memHeapLo + 16 := ht₁.brk
    rw [Machine.Refuses, Machine.memMaxAddr, maxHeap, toInt_eq (by omega), h₁, harena₁]
    omega
  rw [← hlo₁] at ht₁
  obtain ⟨s₂, hrun₂, ht₂, harena₂, -, hfl₂, hsb₂, hstray₂, -⟩ :=
    extendHeap_append (g := 4096) (bare_valid (hlo₁ ▸ s.arena.aligned)) ht₁ (by omega)
      (by omega) hgr
  refine ⟨s₂, fun ops => ?_, hlo₁ ▸ ht₂, harena₂.trans harena₁, hfl₂.trans hfl₁, ?_,
    hstray₂.trans hstray₁⟩
  · have haddr : (bare s₁.memHeapLo).brk = s.memHeapLo + 16 := hlo₁ ▸ rfl
    rw [haddr] at hrun₂
    have hext : ops.extendHeap (chunksize / wsize) s₁ = _ := hrun₂ ops
    rw [hrun₁, run_bind_congr hext, bind_assoc]
  · rw [hsb₂, hsb₁, toInt_eq (by omega)]
    rfl

/-- The stale writes hit no tag of the first layout. -/
theorem stale_tags (ht : TagsOf s (initial s.memHeapLo)) (hf : Stale s f)
    (hs : StrayFrame (staleBytes (s.memHeapLo + 16) f) s s') :
    TagsOf s' (initial s.memHeapLo) := by
  have hS : ∀ c ∈ staleBytes (s.memHeapLo + 16) f, s.memHeapLo + 16 ≤ c ∧
      (c < s.memHeapLo + 4104 ∨ s.memHeapLo + 4112 ≤ c) := by
    rintro c (⟨h₁, h₂⟩ | ⟨h0, h₁, h₂⟩)
    · exact ⟨h₁, by omega⟩
    · obtain h | ⟨h₃, h₄, -, h₅⟩ := hf
      · exact absurd h h0
      · have := s.arena.aligned
        simp only [Machine.memHeapLo] at *
        omega
  have hlift : ∀ {a n al}, Tag s a n al → Tag { s with stray := s'.stray } a n al :=
    fun h => ⟨h.word, h.aligned, h.size_mod, h.inHeap⟩
  refine ⟨hs.memBrk.trans ht.brk, ?_, fun c hc => ?_, ?_⟩
  · rw [hs.memHeapLo]
    refine Tagged.frame ⟨hlift ht.prologueTags.1, hlift ht.prologueTags.2⟩ (le_refl 8) hs
      fun c hc => ?_
    have := hS c hc
    simp only [prologue]
    omega
  · have hct := ht.blockTags c hc
    obtain rfl := List.mem_singleton.mp hc
    refine Tagged.frame ⟨hlift hct.1, hlift hct.2⟩ (by simp only []; omega) hs ?_
    intro c hc
    have := hS c hc
    simp only []
    omega
  · refine (hlift ht.epilogueHeader).frame hs ?_
    intro c hc
    have := hS c hc
    simp only [initial, wsize]
    omega

/-- The last lines of `mm_init`: whatever the list was, it now consists of the block. -/
theorem mmInit_list {bp : ℕ} (hbp : bp % 4 = 0) (hin : s.InHeap bp 8) :
    ∃ s', (do
        setFreeList bp
        setNextFreeBlockPtr (← get).freeList 0
        setPrevFreeBlockPtr (← get).freeList 0
        return 0 : M ℤ) s = .ok 0 s' ∧ FreeChain s' [bp] ∧ Frame (linkBytes [bp]) s s' := by
  have hws : wsize = 4 := rfl
  have hlow := hin.eight_le
  let s₁ : Machine := { s with freeList := bp }
  let s₂ := (s₁.linkNext bp 0).linkPrev bp 0
  have hlink : ∀ c, bp ≤ c → c < bp + 8 → c ∈ linkBytes [bp] := fun c h₁ h₂ =>
    ⟨bp, List.mem_singleton_self bp, h₁, h₂⟩
  have hf : Frame (linkBytes [bp]) s s₂ :=
    ((Frame.setFreeList s bp).trans
      (Machine.linkNext_frame fun c _ h₁ h₂ => hlink c h₁ (by omega))).trans
      (Machine.linkPrev_frame fun c _ h₁ h₂ => hlink c (by omega) h₂)
  have hword : ∀ a, a % 4 = 0 → 8 ≤ a → s₂.word a =
      if a = bp + wsize then 0 else if a = bp then 0 else s.word a := by
    intro a ha ha8
    have h₁ := Machine.word_linkPrev (s := s₁.linkNext bp 0) (v := 0) hbp ha (by omega)
    have h₂ := Machine.word_linkNext (s := s₁) (v := 0) hbp ha (by omega)
    rw [Nat.zero_mod] at h₁ h₂
    rw [h₂] at h₁
    exact h₁
  refine ⟨s₂, ?_, ⟨by simp [s₂, s₁], ⟨?_, ?_, trivial⟩, fun a ha => ?_, fun a ha => ?_,
    List.pairwise_singleton _ _⟩, hf⟩
  · rw [setFreeList, run_modify_bind, run_get_bind,
      run_bind_ok (setNextFreeBlockPtr_eq (s := s₁) hbp fun _ => hin), run_get_bind,
      Machine.linkNext_freeList,
      run_bind_ok (setPrevFreeBlockPtr_eq (s := s₁.linkNext bp 0) (a := bp) hbp
        fun _ => Machine.linkNext_inHeap.mpr hin)]
    rfl
  · exact (hword bp hbp hlow).trans (by rw [if_neg (by omega), if_pos rfl]; rfl)
  · exact (hword (bp + wsize) (by omega) (by omega)).trans (if_pos rfl)
  · rw [List.mem_singleton.mp ha]
    exact hbp
  · rw [List.mem_singleton.mp ha]
    exact hf.inHeap.mpr hin

/-- **`mm_init` on an empty heap**, with any stale head that does not hit the new epilogue:
it succeeds, the new heap is the first layout, and each of the three writes through the
stale head that lies behind the new break has strayed. -/
theorem mmInit_spec (hbrk : s.memBrk = s.arena.base) (hf : Stale s s.freeList) :
    ∃ s', mmInit s = .ok 0 s' ∧ Represents s' (initial s.memHeapLo) ∧ s'.arena = s.arena ∧
      s'.sbrks = ⟨4096, true⟩ :: ⟨16, true⟩ :: s.sbrks ∧
      s'.stray = strayPrev s' s.freeList ++ strayPrev s' s.freeList ++
        strayPrev s' s.freeList ++ s.stray := by
  have hws : wsize = 4 := rfl
  obtain ⟨s₂, hrun₂, ht₂, harena₂, hfl₂, hsb₂, hstray₂⟩ := mmInit_extend hbrk
  have hlo₂ : s₂.memHeapLo = s.memHeapLo := Machine.memHeapLo_congr harena₂
  rw [← hlo₂] at ht₂
  obtain ⟨f, hf'⟩ : ∃ f, f = s.freeList := ⟨_, rfl⟩
  rw [← hf'] at hf hfl₂ ⊢
  have hbase := s.arena.aligned
  have hpos := s.arena.base_pos
  have hfits := s.arena.fits
  have hlo : s.memHeapLo = s.arena.base := rfl
  obtain ⟨bp, hbp⟩ : ∃ bp, bp = s.memHeapLo + 16 := ⟨_, rfl⟩
  have hbrk₂ : s₂.memBrk = s.memHeapLo + 4112 := hlo₂ ▸ ht₂.brk
  have hin₂ : s₂.InHeap bp 8 := ⟨by omega, by omega⟩
  have hf8 : f % 8 = 0 := by
    rcases hf with rfl | ⟨h₁, -⟩
    · rfl
    · exact h₁
  have hflt : f < 2 ^ 32 := by
    rcases hf with rfl | ⟨-, -, h₁, -⟩
    · omega
    · simp only [Machine.memMaxAddr] at h₁
      omega
  have hfin : f ≠ 0 → s₂.InArena (f + wsize) 4 := by
    intro h0
    rcases hf with h | ⟨-, h₁, h₂, -⟩
    · exact absurd h h0
    · simp only [Machine.InArena, Machine.memMaxAddr, wsize] at *
      rw [hlo₂, harena₂]
      omega
  -- the block is added, unlinked and added again, each time in front of the stale head
  obtain ⟨s₃, hrun₃, hs₃, hst₃, hfl₃, hnext₃, hprev₃⟩ := addToFreeList_stale (b := bp) (f := f)
    (by omega) (by omega) hin₂ hfl₂ hf8 hflt hfin
  obtain ⟨s₄, hrun₄, hs₄, hst₄, hfl₄⟩ := removeFromFreeList_stale (b := bp) (by omega)
    (hs₃.inHeap.mpr hin₂) hnext₃ hprev₃ hf8 fun h0 => hs₃.inArena.mpr (hfin h0)
  have hs₂₄ : StrayFrame (staleBytes bp f) s₂ s₄ := hs₃.trans (hs₄.mono fun c hc => Or.inr hc)
  obtain ⟨s₅, hrun₅, hs₅, hst₅, -, -, -⟩ := addToFreeList_stale (b := bp) (f := f) (by omega)
    (by omega) (hs₂₄.inHeap.mpr hin₂) hfl₄ hf8 hflt fun h0 => hs₂₄.inArena.mpr (hfin h0)
  have hs₂₅ := hs₂₄.trans hs₅
  have hstale : Stale s₂ f := by
    simp only [Stale, Machine.memMaxAddr] at *
    rwa [hlo₂, harena₂]
  have hbp₂ : bp = s₂.memHeapLo + 16 := hlo₂.symm ▸ hbp
  have ht₃ : TagsOf s₃ (initial s.memHeapLo) := hlo₂ ▸ stale_tags ht₂ hstale (hbp₂ ▸ hs₃)
  have ht₅ : TagsOf s₅ (initial s.memHeapLo) := hlo₂ ▸ stale_tags ht₂ hstale (hbp₂ ▸ hs₂₅)
  have hw : Wf s.memHeapLo (initial s.memHeapLo) := (initial_valid hbase).toWf
  have hcoal := coalesce_alone (s := s₃) (c := ⟨bp, 4096, false⟩)
    (hs₃.memHeapLo.trans hlo₂ ▸ hw) ht₃ (by rw [hbp]; rfl) rfl
  simp only [] at hcoal
  -- at last the list is made to consist of the block
  have hin₅ : s₅.InHeap bp 8 := hs₂₅.inHeap.mpr hin₂
  obtain ⟨s₇, hrun₇, hl₇, hf₇⟩ := mmInit_list (by omega : bp % 4 = 0) hin₅
  have hlo₅ : s₅.memHeapLo = s.memHeapLo := hs₂₅.memHeapLo.trans hlo₂
  have ht₇ : TagsOf s₇ (initial s.memHeapLo) :=
    ht₅.frame_links (hlo₅ ▸ hw) (fun a ha => by rwa [hbp] at ha) hf₇
  have hstray : ∀ {t}, StrayFrame (staleBytes bp f) s₂ t → strayPrev t f = strayPrev s₇ f :=
    fun ht => ht.strayPrev_eq.trans (hs₂₅.trans (StrayFrame.of_frame
      (hf₇.mono fun c hc => by
        obtain ⟨a, ha, h₁, h₂⟩ := hc
        rw [List.mem_singleton.mp ha] at h₁ h₂
        exact Or.inl ⟨h₁, h₂⟩))).strayPrev_eq.symm
  have hrun₂ : mmInit s = (do
      addToFreeList (s.memHeapLo + 16)
      ListOps.source.initList (← coalesce (s.memHeapLo + 16))) s₂ := hrun₂ .source
  refine ⟨s₇, ?_, ⟨ht₇, by rw [hbp] at hl₇; exact hl₇⟩, ?_, ?_, ?_⟩
  · rw [hrun₂, ← hbp, run_bind_ok hrun₃, run_bind_congr hcoal, bind_assoc, run_bind_ok hrun₄,
      bind_assoc, run_bind_ok hrun₅, run_bind_ok (run_pure bp s₅), ListOps.initList,
      if_neg (by omega)]
    exact hrun₇
  · rw [hf₇.arena, hs₂₅.arena]
    exact harena₂
  · rw [hf₇.sbrks, hs₂₅.sbrks]
    exact hsb₂
  · rw [hf₇.stray, hst₅, hst₄, hst₃, hstray hs₂₄, hstray hs₃, hstray (.of_frame (Frame.refl _ s₂)),
      hstray₂, List.append_assoc, List.append_assoc]

end OsAndC
