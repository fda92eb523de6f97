import OsAndC.Walk

/-!
# Starting Again

The driver runs every trace on the arena of the one before: it calls `mem_reset_brk` and
then `mm_init`. `mm_init` calls `extend_heap` while `free_list` still holds the head of the
previous run's list, and `add_to_free_list` and `remove_from_free_list` write through it.

`restart_clean_iff` says exactly when this does no harm: when the old list is empty or its
head lies at most 4096 bytes above the start of the heap. The link word `prev` of a head that
lies higher is written either onto the new epilogue (`restart_epilogue`) or behind the new
break (`restart_strays`).
-/

namespace OsAndC

open Layout

/-- `mem_reset_brk` and `mm_init`, as the driver calls them before each trace. -/
def restart : M ℤ := do
  memResetBrk
  mmInit

/-- The state of the allocator after the first `mm_init`: the tags of the one free block at
the start of the heap between prologue and epilogue, and a list of that block alone. -/
structure CleanHeap (s : Machine) : Prop where
  memBrk : s.memBrk = s.memHeapLo + 4112
  prologueHeader : s.word (s.memHeapLo + 4) = 8 ||| 1
  prologueFooter : s.word (s.memHeapLo + 8) = 8 ||| 1
  header : s.word (s.memHeapLo + 12) = 4096 ||| 0
  footer : s.word (s.memHeapLo + 4104) = 4096 ||| 0
  epilogue : s.word (s.memHeapLo + 4108) = 0 ||| 1
  freeList : s.freeList = s.memHeapLo + 16
  next : s.word (s.memHeapLo + 16) = 0
  prev : s.word (s.memHeapLo + 20) = 0

/-- The restart of a session succeeds with a clean heap, and nothing is stored outside the
heap. -/
def CleanRestart (σ : Session) : Prop :=
  ∃ s', restart σ.machine = .ok 0 s' ∧ CleanHeap s' ∧ ∀ a n, Access.store a n ∉ s'.stray

variable {σ : Session} {h : Layout} {s s' : Machine} {ar : Arena} {a b e f n v : ℕ} {u : Unit}

/-- The two tag words of a free block of size `n`. -/
theorem Tagged.free_words (ht : Tagged s ⟨a, n, false⟩) :
    s.word (a - wsize) = n ||| 0 ∧ s.word (a + n - dsize) = n ||| 0 :=
  ⟨ht.1.word_eq, ht.2.word_eq⟩

/-- A machine that represents the first layout is clean. -/
theorem Represents.cleanHeap (hr : Represents s (initial s.memHeapLo)) : CleanHeap s := by
  have hws : wsize = 4 := rfl
  have hds : dsize = 8 := rfl
  have hb : Tagged s ⟨s.memHeapLo + 16, 4096, false⟩ := hr.blockTags _ (List.mem_singleton_self _)
  have hheader : s.memHeapLo + 16 - wsize = s.memHeapLo + 12 := by
    omega
  have hfooter : s.memHeapLo + 16 + 4096 - dsize = s.memHeapLo + 4104 := by
    omega
  have hend : s.memHeapLo + 4112 - wsize = s.memHeapLo + 4108 := by
    omega
  have hepilogue : Tag s (s.memHeapLo + 4112 - wsize) 0 true := hr.epilogueHeader
  obtain ⟨hhead, hfoot⟩ := hb.free_words
  rw [hheader] at hhead
  rw [hfooter] at hfoot
  rw [hend] at hepilogue
  exact {
    memBrk := hr.brk
    prologueHeader := hr.prologueTags.1.word_eq
    prologueFooter := hr.prologueTags.2.word_eq
    header := hhead
    footer := hfoot
    epilogue := hepilogue.word_eq
    freeList := hr.chain.head
    next := hr.chain.links.1
    prev := hr.chain.links.2.1 }

/-- The machine `mm_init` starts from. -/
theorem restart_eq (s : Machine) : ∃ t, restart s = mmInit t ∧ t.memBrk = t.arena.base ∧
    t.arena = s.arena ∧ t.freeList = s.freeList ∧ t.stray = s.stray ∧ t.mem = s.mem := by
  refine ⟨{ s with
    memBrk := s.arena.base
    base_le_brk := le_refl _
    brk_le_max := Nat.le_add_right _ _ }, ?_, rfl, rfl, rfl, rfl, rfl⟩
  simp only [restart, memResetBrk]
  exact run_modify_bind _ _ s

/-- The head of the list of a reachable state. -/
theorem Simulates.head (hs : Simulates σ h) (hf : σ.machine.freeList = f) (h0 : f ≠ 0) :
    f % 8 = 0 ∧ σ.machine.memHeapLo + 16 ≤ f ∧ f + 8 ≤ σ.machine.memMaxAddr := by
  have hmem : f ∈ h.free := by
    have hhead := hs.represents.chain.head
    rw [hf] at hhead
    cases hl : h.free with
    | nil =>
        rw [hl] at hhead
        exact absurd hhead h0
    | cons a l =>
        rw [hl] at hhead
        rw [hhead]
        exact List.mem_cons_self
  obtain ⟨b, hb, rfl, -⟩ := hs.valid.toWf.mem_free.mp hmem
  have hbw := hs.valid.toWf.block hb
  have hmax := σ.machine.brk_le_max
  have hbrk := hs.represents.brk
  simp only [Machine.memMaxAddr]
  omega

/-! ### A stale head away from the new epilogue -/

/-- The restart with a head that does not hit the epilogue gives a clean heap, with a stray
store for each write behind the break. -/
theorem restart_stale (hs : Simulates σ h) (hf : σ.machine.freeList = f)
    (hne : f ≠ σ.machine.memHeapLo + 4104) :
    ∃ s', restart σ.machine = .ok 0 s' ∧ CleanHeap s' ∧
      s'.memHeapLo = σ.machine.memHeapLo ∧
      s'.stray = strayPrev s' f ++ strayPrev s' f ++ strayPrev s' f := by
  obtain ⟨t, hrun, hbrk, harena, hfl, hstray, -⟩ := restart_eq σ.machine
  have hlo : t.memHeapLo = σ.machine.memHeapLo := Machine.memHeapLo_congr harena
  have hstale : Stale t t.freeList := by
    rw [hfl, hf]
    by_cases h0 : f = 0
    · exact Or.inl h0
    · obtain ⟨h₁, h₂, h₃⟩ := hs.head hf h0
      have hmax : t.memMaxAddr = σ.machine.memMaxAddr := by
        simp only [Machine.memMaxAddr]
        rw [harena]
      rw [← hlo] at h₂ hne
      rw [← hmax] at h₃
      exact Or.inr ⟨h₁, h₂, h₃, hne⟩
  obtain ⟨s', hrun', hr, harena', -, hstray'⟩ := mmInit_spec hbrk hstale
  have hlo' : s'.memHeapLo = t.memHeapLo := Machine.memHeapLo_congr harena'
  rw [← hlo'] at hr
  rw [hfl, hf, hstray, hs.stray, List.append_nil] at hstray'
  exact ⟨s', hrun.trans hrun', hr.cleanHeap, hlo'.trans hlo, hstray'⟩

/-- With an empty old list, or one whose head lies low, the restart is clean. -/
theorem restart_low (hs : Simulates σ h) (hf : σ.machine.freeList = f)
    (hlow : f = 0 ∨ f ≤ σ.machine.memHeapLo + 4096) : CleanRestart σ := by
  have hne : f ≠ σ.machine.memHeapLo + 4104 := by omega
  obtain ⟨s', hrun, hclean, hlo, hstray⟩ := restart_stale hs hf hne
  refine ⟨s', hrun, hclean, ?_⟩
  intro a n hmem
  have hin : f = 0 ∨ s'.InHeap (f + wsize) 4 := by
    by_cases h0 : f = 0
    · exact Or.inl h0
    · refine Or.inr ?_
      obtain ⟨-, h₂, -⟩ := hs.head hf h0
      rw [Machine.InHeap, wsize, hclean.memBrk, hlo]
      omega
  rw [hstray, strayPrev, if_pos hin] at hmem
  cases hmem

/-- A head behind the new break is written to. -/
theorem restart_strays (hs : Simulates σ h) (hf : σ.machine.freeList = f)
    (hhigh : σ.machine.memHeapLo + 4112 ≤ f) :
    ∃ s', restart σ.machine = .ok 0 s' ∧ s'.memBrk ≤ f + 4 ∧
      s'.stray = [.store (f + 4) 4, .store (f + 4) 4, .store (f + 4) 4] := by
  have hne : f ≠ σ.machine.memHeapLo + 4104 := by omega
  obtain ⟨s', hrun, hclean, hlo, hstray⟩ := restart_stale hs hf hne
  have hout : ¬ (f = 0 ∨ s'.InHeap (f + wsize) 4) := by
    rw [Machine.InHeap, wsize, hclean.memBrk, hlo]
    omega
  refine ⟨s', hrun, by rw [hclean.memBrk, hlo]; omega, ?_⟩
  rw [hstray, strayPrev, if_neg hout]
  rfl

/-! ### A stale head on the new epilogue -/

/-- The word at `e` is not the tag of an allocated block, and `free_list` is aligned. -/
structure Spoilt (ar : Arena) (e : ℕ) (s : Machine) : Prop where
  arena : s.arena = ar
  word : s.word e % 4 = 0
  freeList : s.freeList % 4 = 0

/-- The machines store the same. -/
structure SameStore (s s' : Machine) : Prop where
  arena : s'.arena = s.arena
  mem : s'.mem = s.mem
  freeList : s'.freeList = s.freeList

/-- A machine that stores the same is spoilt too. -/
theorem Spoilt.congr (hI : Spoilt ar e s) (hs : SameStore s s') : Spoilt ar e s' := by
  obtain ⟨harena, hword, hfl⟩ := hI
  refine ⟨hs.arena.trans harena, ?_, by rw [hs.freeList]; exact hfl⟩
  simp only [Machine.word] at *
  rw [hs.mem]
  exact hword

/-- Storing a word that is no tag of an allocated block does not mend it. -/
theorem Spoilt.store (hI : Spoilt ar e s) (he : e % 4 = 0) (ha : a % 4 = 0) (hv : v % 4 = 0) :
    Spoilt ar e (s.store a v) := by
  obtain ⟨harena, hword, hfl⟩ := hI
  refine ⟨harena, ?_, hfl⟩
  rw [Machine.word_store ha he]
  split_ifs <;> omega

/-- The check before an access changes nothing that is stored. -/
theorem checked_ok {x : Access} (h : checked x a n s = .ok u s') : SameStore s s' := by
  by_cases hin : s.InHeap a n
  · rw [checked_inHeap hin] at h
    cases h
    exact ⟨rfl, rfl, rfl⟩
  · by_cases hin' : s.InArena a n
    · rw [checked_inArena hin' hin] at h
      cases h
      exact ⟨rfl, rfl, rfl⟩
    · rw [checked_outside hin'] at h
      cases h

/-- What a store that went through has done. -/
theorem setVal_ok (h : setVal a v s = .ok u s') :
    a % 4 = 0 ∧ ∃ t, SameStore s t ∧ s' = t.store a v := by
  simp only [setVal] at h
  by_cases ha : a % 4 = 0
  · rw [if_pos ha] at h
    obtain ⟨_, t, hcheck, hstore⟩ := of_run_bind_ok h
    cases hstore
    exact ⟨ha, t, checked_ok hcheck, rfl⟩
  · rw [if_neg ha] at h
    cases h

/-- The check before an access mends nothing. -/
theorem keeps_checked {x : Access} : Keeps (Spoilt ar e) (checked x a n) fun _ => True :=
  fun _ _ _ hI hrun => ⟨hI.congr (checked_ok hrun), trivial⟩

/-- Nor does a load. -/
theorem keeps_getVal : Keeps (Spoilt ar e) (getVal a) fun _ => True :=
  Keeps.ite (fun _ => keeps_checked.bind fun _ _ => Keeps.read.bind fun _ _ => .pure trivial)
    fun _ _ _ _ _ hrun => by cases hrun

/-- Nor does reading a size, which is a multiple of 8 whatever is read. -/
theorem keeps_getSize : Keeps (Spoilt ar e) (getSize a) fun n => n % 8 = 0 := by
  refine keeps_getVal.bind fun v _ => .pure ?_
  have hmask := Nat.and_mod_two_pow (a := v) (b := 0xFFFFFFF8) (n := 3)
  simpa using hmask

/-- Nor does reading the allocated bit. -/
theorem keeps_isAllocated : Keeps (Spoilt ar e) (isAllocated a) fun _ => True :=
  keeps_getVal.bind fun _ _ => .pure trivial

/-- Or its negation. -/
theorem keeps_isFree : Keeps (Spoilt ar e) (isFree a) fun _ => True :=
  keeps_isAllocated.bind fun _ _ => .pure trivial

/-- Nor does looking for the footer. -/
theorem keeps_getFooterPtr : Keeps (Spoilt ar e) (getFooterPtr a) fun _ => True :=
  keeps_getSize.bind fun _ _ => .pure trivial

/-- The next block of an aligned one is aligned. -/
theorem keeps_getNextBlockPtr (ha : a % 4 = 0) :
    Keeps (Spoilt ar e) (getNextBlockPtr a) fun q => q % 4 = 0 :=
  keeps_getSize.bind fun _ hn => .pure (by omega)

/-- And so is the previous one. -/
theorem keeps_getPrevBlockPtr (ha : a % 4 = 0) :
    Keeps (Spoilt ar e) (getPrevBlockPtr a) fun q => q % 4 = 0 :=
  keeps_getSize.bind fun _ hn => .pure (by omega)

/-- A store of a multiple of 4 mends nothing. -/
theorem keeps_setVal (he : e % 4 = 0) (hv : v % 4 = 0) :
    Keeps (Spoilt ar e) (setVal a v) fun _ => True := by
  intro s u s' hI hrun
  obtain ⟨ha, t, hs, rfl⟩ := setVal_ok hrun
  exact ⟨(hI.congr hs).store he ha hv, trivial⟩

/-- Nor does writing an aligned link. -/
theorem keeps_setNextFreeBlockPtr (he : e % 4 = 0) (hv : v % 4 = 0) :
    Keeps (Spoilt ar e) (setNextFreeBlockPtr a v) fun _ => True :=
  Keeps.ite (fun _ => .pure trivial) fun _ => keeps_setVal he hv

/-- Nor the other one. -/
theorem keeps_setPrevFreeBlockPtr (he : e % 4 = 0) (hv : v % 4 = 0) :
    Keeps (Spoilt ar e) (setPrevFreeBlockPtr a v) fun _ => True :=
  Keeps.ite (fun _ => .pure trivial) fun _ => keeps_setVal he hv

/-- Nor does assigning an aligned address to `free_list`. -/
theorem keeps_setFreeList (ha : a % 4 = 0) : Keeps (Spoilt ar e) (setFreeList a) fun _ => True :=
  Keeps.update fun _ hI => ⟨hI.arena, hI.word, ha⟩

/-- Writing a link of a node that is not aligned does not go through. -/
theorem setNextFreeBlockPtr_ok (h : setNextFreeBlockPtr a v s = .ok u s') :
    a % 4 = 0 ∧ s'.arena = s.arena ∧ s'.freeList = s.freeList := by
  simp only [setNextFreeBlockPtr] at h
  by_cases h0 : a = 0
  · rw [if_pos h0] at h
    cases h
    exact ⟨by omega, rfl, rfl⟩
  · rw [if_neg h0] at h
    obtain ⟨h4, t, hs, rfl⟩ := setVal_ok h
    exact ⟨h4, hs.arena, hs.freeList⟩

/-- The same for the other link. -/
theorem setPrevFreeBlockPtr_ok (h : setPrevFreeBlockPtr a v s = .ok u s') : a % 4 = 0 := by
  simp only [setPrevFreeBlockPtr] at h
  by_cases h0 : a = 0
  · omega
  · rw [if_neg h0] at h
    obtain ⟨h4, -⟩ := setVal_ok h
    simp only [wsize] at h4
    omega

/-- Adding an aligned block mends nothing. -/
theorem keeps_addToFreeList (he : e % 4 = 0) (hb : b % 4 = 0) :
    Keeps (Spoilt ar e) (addToFreeList b) fun _ => True :=
  Keeps.read.bind fun _ hI => (keeps_setNextFreeBlockPtr he hI.freeList).bind fun _ _ =>
    Keeps.read.bind fun _ _ => (keeps_setPrevFreeBlockPtr he hb).bind fun _ _ =>
      (keeps_setPrevFreeBlockPtr he rfl).bind fun _ _ => keeps_setFreeList hb

/-- Whatever the links of the node are, only aligned addresses get stored: where the
predecessor is given a misaligned successor, the next step faults. -/
theorem keeps_removeFromFreeList (he : e % 4 = 0) :
    Keeps (Spoilt ar e) (removeFromFreeList b) fun _ => True := by
  refine keeps_getVal.bind fun prev _ => keeps_getVal.bind fun next _ => Keeps.ite ?_ ?_
  · intro _ s u s' hI hrun
    obtain ⟨_, s₁, hnext, hprev⟩ := of_run_bind_ok hrun
    have hn4 := setPrevFreeBlockPtr_ok hprev
    have hp4 := (setNextFreeBlockPtr_ok hnext).1
    obtain ⟨hI₁, -⟩ := keeps_setNextFreeBlockPtr he hn4 _ _ _ hI hnext
    exact keeps_setPrevFreeBlockPtr he hp4 _ _ _ hI₁ hprev
  · intro _ s u s' hI hrun
    obtain ⟨_, s₁, hprev, hlist⟩ := of_run_bind_ok hrun
    have hn4 := setPrevFreeBlockPtr_ok hprev
    obtain ⟨hI₁, -⟩ := keeps_setPrevFreeBlockPtr he rfl _ _ _ hI hprev
    exact keeps_setFreeList hn4 _ _ _ hI₁ hlist

/-- The tags of a free block are multiples of 8, and mend nothing. -/
theorem keeps_mergeTags (he : e % 4 = 0) (hb : b % 4 = 0) (hn : n % 8 = 0) (p q : Bool) :
    Keeps (Spoilt ar e) (mergeTags p q n b) fun r => r % 4 = 0 := by
  have htag : ∀ x, x % 8 = 0 → makeHeader ((n + x) % 2 ^ 32) 0 % 4 = 0 := fun x hx => by
    rw [makeHeader_eq (by omega) (by omega)]
    omega
  refine Keeps.ite (fun _ => .pure hb) fun _ => Keeps.ite (fun _ => ?_) fun _ =>
    Keeps.ite (fun _ => ?_) fun _ => ?_
  · exact (keeps_getNextBlockPtr hb).bind fun _ _ => keeps_getSize.bind fun x hx =>
      (keeps_setVal he (htag x hx)).bind fun _ _ => keeps_getFooterPtr.bind fun _ _ =>
        (keeps_setVal he (htag x hx)).bind fun _ _ => .pure hb
  · exact (keeps_getPrevBlockPtr hb).bind fun _ _ => keeps_getSize.bind fun x hx =>
      keeps_getFooterPtr.bind fun _ _ => (keeps_setVal he (htag x hx)).bind fun _ _ =>
        (keeps_getPrevBlockPtr hb).bind fun _ _ => (keeps_setVal he (htag x hx)).bind fun _ _ =>
          keeps_getPrevBlockPtr hb
  · exact (keeps_getPrevBlockPtr hb).bind fun _ _ => keeps_getSize.bind fun x hx =>
      (keeps_getNextBlockPtr hb).bind fun _ _ => keeps_getFooterPtr.bind fun _ _ =>
        keeps_getSize.bind fun y hy => (keeps_getPrevBlockPtr hb).bind fun _ _ =>
          (keeps_setVal he (htag (x + y) (by omega))).bind fun _ _ =>
            (keeps_getNextBlockPtr hb).bind fun _ _ => keeps_getFooterPtr.bind fun _ _ =>
              (keeps_setVal he (htag (x + y) (by omega))).bind fun _ _ =>
                keeps_getPrevBlockPtr hb

/-- Coalescing around an aligned block mends nothing. -/
theorem keeps_coalesce (he : e % 4 = 0) (hb : b % 4 = 0) :
    Keeps (Spoilt ar e) (coalesce b) fun r => r % 4 = 0 := by
  have hunlink : ∀ a, Keeps (Spoilt ar e) (removeFromFreeList a) fun _ => True := fun _ =>
    keeps_removeFromFreeList he
  refine (keeps_getPrevBlockPtr hb).bind fun _ _ => keeps_getFooterPtr.bind fun _ _ =>
    keeps_isAllocated.bind fun prevAlloc _ => (keeps_getNextBlockPtr hb).bind fun _ _ =>
      keeps_isAllocated.bind fun nextAlloc _ => keeps_getSize.bind fun n hn => ?_
  refine Keeps.bind (P := fun _ => True) ?_ fun _ _ =>
    Keeps.bind (P := fun _ => True) ?_ fun _ _ => Keeps.bind (P := fun _ => True) ?_ fun _ _ =>
      (keeps_mergeTags he hb hn prevAlloc nextAlloc).bind fun r hr =>
        (keeps_addToFreeList he hr).bind fun _ _ => .pure hr
  · exact Keeps.ite (fun _ => .pure trivial) fun _ =>
      (keeps_getNextBlockPtr hb).bind fun _ _ => hunlink _
  · exact Keeps.ite (fun _ => .pure trivial) fun _ =>
      (keeps_getPrevBlockPtr hb).bind fun _ _ => hunlink _
  · exact keeps_isFree.bind fun _ _ => Keeps.ite (fun _ => hunlink _) fun _ => .pure trivial

/-- Adding a node in front of a stale head writes its address over the link word `prev` of
the head. -/
theorem addToFreeList_hits (hf : s.freeList = f) (h0 : f ≠ 0) (hf4 : f % 4 = 0)
    (hb : b % 4 = 0) (hrun : addToFreeList b s = .ok u s') : Spoilt s.arena (f + 4) s' := by
  simp only [addToFreeList] at hrun
  rw [run_get_bind] at hrun
  obtain ⟨_, s₁, hnext, hrun⟩ := of_run_bind_ok hrun
  obtain ⟨-, harena₁, hfl₁⟩ := setNextFreeBlockPtr_ok hnext
  rw [run_get_bind, hfl₁, hf] at hrun
  obtain ⟨_, s₂, hprev, hrun⟩ := of_run_bind_ok hrun
  have hI : Spoilt s.arena (f + 4) s₂ := by
    simp only [setPrevFreeBlockPtr] at hprev
    rw [if_neg h0] at hprev
    obtain ⟨-, t, hs, rfl⟩ := setVal_ok hprev
    refine ⟨hs.arena.trans harena₁, ?_, ?_⟩
    · rw [wsize, Machine.word_store (by omega) (by omega), if_pos rfl]
      omega
    · rw [Machine.store_freeList, hs.freeList, hfl₁, hf]
      exact hf4
  have he : (f + 4) % 4 = 0 := by omega
  have hrest : Keeps (Spoilt s.arena (f + 4))
      (do setPrevFreeBlockPtr b 0; setFreeList b) fun _ => True :=
    (keeps_setPrevFreeBlockPtr he rfl).bind fun _ _ => keeps_setFreeList hb
  exact (hrest _ _ _ hI hrun).1

/-- A head on the new epilogue: if the restart succeeds, there is no epilogue. -/
theorem restart_epilogue (hf : σ.machine.freeList = σ.machine.memHeapLo + 4104) {r : ℤ}
    (hrun : restart σ.machine = .ok r s') : s'.word (s'.memHeapLo + 4108) % 4 = 0 := by
  obtain ⟨t, hrestart, hbrk, harena, hfl, -, -⟩ := restart_eq σ.machine
  obtain ⟨t', hinit, -, harena', hfl', -, -⟩ := mmInit_extend hbrk
  have hinit : mmInit t = _ := hinit .source
  rw [hrestart, hinit] at hrun
  have hlo : t.memHeapLo = σ.machine.memHeapLo := Machine.memHeapLo_congr harena
  have hbase : t.memHeapLo % 8 = 0 := t.arena.aligned
  obtain ⟨_, s₁, hadd, hrun⟩ := of_run_bind_ok hrun
  have hI := addToFreeList_hits (hfl'.trans (hfl.trans hf)) (by omega) (by omega) (by omega) hadd
  have he : (σ.machine.memHeapLo + 4104 + 4) % 4 = 0 := by omega
  have hrest : Keeps (Spoilt t'.arena (σ.machine.memHeapLo + 4104 + 4))
      (do
        let firstRealBlockPtr ← coalesce (t.memHeapLo + 16)
        if firstRealBlockPtr = 0 then
          return -1
        else
          setFreeList firstRealBlockPtr
          setNextFreeBlockPtr (← get).freeList 0
          setPrevFreeBlockPtr (← get).freeList 0
          return 0 : M ℤ) fun _ => True :=
    (keeps_coalesce he (by omega)).bind fun p hp => Keeps.ite (fun _ => .pure trivial) fun _ =>
      (keeps_setFreeList hp).bind fun _ _ => Keeps.read.bind fun _ _ =>
        (keeps_setNextFreeBlockPtr he rfl).bind fun _ _ => Keeps.read.bind fun _ _ =>
          (keeps_setPrevFreeBlockPtr he rfl).bind fun _ _ => .pure trivial
  obtain ⟨hs', hword, -⟩ := (hrest _ _ _ hI hrun).1
  have hlo' : s'.memHeapLo = σ.machine.memHeapLo :=
    congrArg Arena.base (hs'.trans (harena'.trans harena))
  rw [hlo']
  exact hword

/-! ### When a restart is clean -/

/-- A restart with a head on the new epilogue or behind the new break is not clean. -/
theorem restart_high (hs : Simulates σ h) (hf : σ.machine.freeList = f)
    (hhigh : σ.machine.memHeapLo + 4096 < f) : ¬ CleanRestart σ := by
  rintro ⟨s', hrun, hclean, hstores⟩
  have hbase : σ.machine.memHeapLo % 8 = 0 := hs.valid.base
  have h8 := (hs.head hf (by omega)).1
  by_cases hend : f = σ.machine.memHeapLo + 4104
  · have hspoilt := restart_epilogue (hf.trans hend) hrun
    rw [hclean.epilogue] at hspoilt
    exact absurd hspoilt (by decide)
  · obtain ⟨s'', hrun', -, hstray⟩ := restart_strays hs hf (by omega)
    rw [hrun] at hrun'
    cases hrun'
    exact hstores _ _ (by rw [hstray]; exact List.mem_cons_self)

/-- **Re-initialisation is clean exactly when the old list is empty or its head lies low.**
After any legal run, `mem_reset_brk` and `mm_init` give the heap of the first `mm_init`, and
store nothing outside it, if and only if `free_list` is null or at most 4096 bytes above the
start of the heap. -/
theorem restart_clean_iff (hσ : Reachable σ) :
    CleanRestart σ ↔ σ.machine.freeList = 0 ∨
      σ.machine.freeList ≤ σ.machine.memHeapLo + 4096 := by
  obtain ⟨h, hs⟩ := hσ.simulates
  refine ⟨fun hclean => ?_, restart_low hs rfl⟩
  by_contra hcon
  exact restart_high hs rfl (not_le.mp (not_or.mp hcon).2) hclean

/-- The restart after the heap has grown and all of it has been released. -/
theorem restart_clean_iff_drainedSession :
    CleanRestart drainedSession ↔ drainedSession.machine.freeList = 0 ∨
      drainedSession.machine.freeList ≤ drainedSession.machine.memHeapLo + 4096 :=
  restart_clean_iff drainedSession_reachable

/-- After `mm_malloc(5000)` the list starts at `9120`, behind the break of the new heap, and
the restart stores there three times. -/
theorem restart_strays_oneSession : Reachable (oneSession 5000) ∧
    (∃ s', restart (oneSession 5000).machine = .ok 0 s' ∧ s'.memBrk ≤ 9124 ∧
      s'.stray = [.store 9124 4, .store 9124 4, .store 9124 4]) ∧
    ¬ CleanRestart (oneSession 5000) := by
  obtain ⟨hr, hs, harena⟩ := oneSession_spec (n := 5000) (by decide)
  have hhead : ((initial 4096).malloc 5000).1.free.headD 0 = 9120 := by decide
  have hf : (oneSession 5000).machine.freeList = 9120 := hs.represents.chain.head.trans hhead
  have hlo : (oneSession 5000).machine.memHeapLo = 4096 := congrArg Arena.base harena
  refine ⟨hr, restart_strays hs hf (by omega), restart_high hs hf (by omega)⟩

end OsAndC
