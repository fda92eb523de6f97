import OsAndC.HeapInvariants

/-!
# First Fit and Heap Growth

`find_fit` searches the free list only, and `mm_malloc` and `mm_realloc` extend the heap on
the strength of that search. `first_fit_exact` compares the search with a plain scan of all
blocks: it ends, finds the first listed block that fits, and finds none only if the heap has
none. So `mem_sbrk` is called exactly when no free block of the heap would do.

Both hold whether or not `mem_sbrk` then refuses; `mmMalloc_callsSbrk` and
`mmRealloc_callsSbrk` cover the two outcomes.
-/

namespace OsAndC

open Layout

/-- No free block among `bs` has size `k` or more. -/
def NoFit (bs : List Block) (k : ℕ) : Prop := ∀ b ∈ bs, b.alloc = false → b.size < k

instance (bs : List Block) (k : ℕ) : Decidable (NoFit bs k) :=
  inferInstanceAs (Decidable (∀ b ∈ bs, b.alloc = false → b.size < k))

/-- `q` is the first node of `l` whose block has size `k` or more, or null if there is
none. -/
def IsFirstFit (s : Machine) (l : List ℕ) (k q : ℕ) : Prop :=
  (∃ pre post, l = pre ++ q :: post ∧ k ≤ tagSize (s.header q) ∧
      ∀ a ∈ pre, tagSize (s.header a) < k) ∨
    q = 0 ∧ ∀ a ∈ l, tagSize (s.header a) < k

/-- The block at `p` cannot take `k` bytes where it is: it is too small, and the block behind
it is allocated (or the epilogue), or the two together are too small. -/
def MustMove (s : Machine) (p k : ℕ) : Prop :=
  tagSize (s.header p) < k ∧
    (tagAlloc (s.header (p + tagSize (s.header p))) = true ∨
      tagSize (s.header p) + tagSize (s.header (p + tagSize (s.header p))) < k)

/-- Running `m` calls `mem_sbrk`: the record of its calls changes. -/
def CallsSbrk {α : Type} (m : M α) (s : Machine) : Prop := (finalState (m s)).sbrks ≠ s.sbrks

variable {σ : Session} {s : Machine} {h : Layout} {b : Block} {k n p : ℕ}

/-! ### The search -/

/-- The abstract search is the search in memory. -/
theorem Represents.isFirstFit (hr : Represents s h) (hw : Wf s.memHeapLo h) :
    IsFirstFit s h.free k ((h.fit? k).getD 0) := by
  have hsize : ∀ a ∈ h.free, tagSize (s.header a) = h.sizeAt a := by
    intro a ha
    obtain ⟨b, hb, rfl, -⟩ := hw.mem_free.mp ha
    exact (hr.tagSize_header hb).trans (hw.sizeAt hb).symm
  cases hfit : h.fit? k with
  | none =>
      refine Or.inr ⟨rfl, ?_⟩
      intro a ha
      have hk := List.find?_eq_none.mp hfit a ha
      rw [decide_eq_true_eq, not_le] at hk
      rwa [hsize a ha]
  | some q =>
      obtain ⟨hk, pre, post, hl, hpre⟩ := List.find?_eq_some_iff_append.mp hfit
      rw [decide_eq_true_eq] at hk
      refine Or.inl ⟨pre, post, hl, ?_, fun a ha => ?_⟩
      · rw [Option.getD_some, hsize q (by rw [hl]; simp)]
        exact hk
      · have hka := hpre a ha
        rw [Bool.not_eq_true', decide_eq_false_iff_not, not_le] at hka
        rw [hsize a (by rw [hl]; simp [ha])]
        exact hka

/-- The search comes back with null exactly when there is no fit. -/
theorem Layout.Valid.fit?_getD (hv : Valid s.memHeapLo h) :
    (h.fit? k).getD 0 = 0 ↔ NoFit h.blocks k := by
  refine Iff.trans ?_ hv.fit?_eq_none
  cases hfit : h.fit? k with
  | none => simp
  | some q =>
      obtain ⟨b, hb, rfl, -⟩ := hv.fit?_some hfit
      have := (hv.block hb).1
      simp only [Option.getD_some, reduceCtorEq, iff_false]
      omega

/-! ### Extending the heap -/

/-- An allocation extends the heap exactly when nothing fits. -/
theorem mmMalloc_callsSbrk (hv : Valid s.memHeapLo h) (hr : Represents s h) (hn : 0 < n)
    (hwrap : need n < 2 ^ 32) : CallsSbrk (mmMalloc n) s ↔ h.fit? (need n) = none := by
  simp only [CallsSbrk]
  by_cases hrefused : h.fit? (need n) = none ∧ s.Refuses (toInt (max (need n) 4096))
  · rw [mmMalloc_refused hv hr hn hwrap hrefused.1 hrefused.2, finalState_error]
    exact ⟨fun _ => hrefused.1, fun _ => List.cons_ne_self _ _⟩
  · obtain ⟨s', hrun, -, hsb⟩ := mmMalloc_spec hv hr hn hwrap (not_and.mp hrefused)
    rw [hrun, finalState_ok, hsb]
    simp only [Layout.sbrkCalls]
    split_ifs with hfit
    · exact ⟨fun _ => hfit, fun _ => List.cons_ne_self _ _⟩
    · exact ⟨fun h0 => absurd rfl h0, fun h0 => absurd h0 hfit⟩

/-- Resizing a live block extends the heap exactly when the block cannot stay and nothing
fits. -/
theorem mmRealloc_callsSbrk (hv : Valid s.memHeapLo h) (hr : Represents s h)
    (hb : h.Allocated b) (hn : 0 < n) (hwrap : need n < 2 ^ 32) :
    CallsSbrk (mmRealloc b.addr n) s ↔ ¬ h.Stays b.addr n ∧ h.fit? (need n) = none := by
  simp only [CallsSbrk]
  by_cases hrefused : ¬ h.Stays b.addr n ∧ h.fit? (need n) = none ∧
      s.Refuses (toInt (max (need n) 4096))
  · obtain ⟨hstay, hfit, hgr⟩ := hrefused
    rw [mmRealloc_refused hv hr hb hn hwrap hstay hfit hgr, finalState_error]
    exact ⟨fun _ => ⟨hstay, hfit⟩, fun _ => List.cons_ne_self _ _⟩
  · obtain ⟨s', hrun, -, -, hsb⟩ := mmRealloc_spec hv hr hb hn hwrap
      fun hstay hfit hgr => hrefused ⟨hstay, hfit, hgr⟩
    rw [hrun, finalState_ok, hsb]
    simp only [Layout.sbrkCalls]
    split_ifs with hstay hfit
    · exact ⟨fun h0 => absurd rfl h0, fun h0 => absurd hstay h0.1⟩
    · exact ⟨fun _ => ⟨hstay, hfit⟩, fun _ => List.cons_ne_self _ _⟩
    · exact ⟨fun h0 => absurd rfl h0, fun h0 => absurd h0.2 hfit⟩

/-- Whether a block can grow in place, seen from its own header and the next. -/
theorem Layout.Valid.canGrow_iff (hv : Valid s.memHeapLo h) (hr : Represents s h)
    (hb : b ∈ h.blocks) : h.CanGrow b.addr k ↔
      tagAlloc (s.header (b.addr + b.size)) = false ∧
        k ≤ b.size + tagSize (s.header (b.addr + b.size)) := by
  have hw := hv.toWf
  obtain ⟨xs, ys, hbs⟩ := List.append_of_mem hb
  have hnext := hr.next_header hbs
  have hna := nextOf_addr hw hbs
  rw [hna] at hnext
  have halloc : tagAlloc (s.header (b.addr + b.size)) = (nextOf h.brk ys).alloc := hnext.tagAlloc_eq
  have hsize : tagSize (s.header (b.addr + b.size)) = (nextOf h.brk ys).size := hnext.tagSize_eq
  rw [halloc, hsize]
  rw [Layout.CanGrow, hw.sizeAt hb]
  cases ys with
  | nil =>
      refine iff_of_false (fun h0 => ?_) (fun h0 => Bool.false_ne_true h0.1.symm)
      obtain ⟨d, hd, hda, -⟩ := hw.mem_free.mp h0.1
      have hend : h.brk = b.addr + b.size := hna
      have := hw.block hd
      omega
  | cons y ys =>
      have hy : y ∈ h.blocks := by rw [hbs]; simp
      have hya : y.addr = b.addr + b.size := hna
      change _ ↔ y.alloc = false ∧ k ≤ b.size + y.size
      rw [← hya, hw.sizeAt hy]
      refine and_congr_left fun _ => ⟨fun h0 => ?_, fun h0 => hw.mem_free.mpr ⟨y, hy, rfl, h0⟩⟩
      obtain ⟨d, hd, hda, hfree⟩ := hw.mem_free.mp h0
      rwa [hw.eq_of_addr hd hy hda] at hfree

/-- The layout and the memory agree on which blocks can stay. -/
theorem Layout.Valid.mustMove_iff (hv : Valid s.memHeapLo h) (hr : Represents s h)
    (hb : b ∈ h.blocks) : MustMove s b.addr (need n) ↔ ¬ h.Stays b.addr n := by
  have hsize : tagSize (s.header b.addr) = b.size := (hr.blockTags b hb).1.tagSize_eq
  rw [MustMove, Layout.Stays, hsize, not_or, hv.sizeAt hb, hv.canGrow_iff hr hb, not_and_or, not_le,
    not_le, Bool.not_eq_false]

/-- **First fit is exact, and the heap grows only when it must.** The search of the free list
ends with the first block that fits, and with null exactly when no free block of the heap
fits. `mm_malloc` calls `mem_sbrk` exactly then; `mm_realloc` on a live block only if in
addition the block is too small, also together with a free block behind it. -/
theorem first_fit_exact (hσ : Reachable σ) (hn : 0 < n) (hwrap : need n < 2 ^ 32) :
    ∃ bs l, HeapWalk σ.machine (σ.machine.memHeapLo + 16) bs ∧
      NextChain σ.machine σ.machine.freeList l ∧
      (∃ q, findFit (need n) σ.machine = .ok q σ.machine ∧
        IsFirstFit σ.machine l (need n) q ∧ (q = 0 ↔ NoFit bs (need n))) ∧
      (CallsSbrk (mmMalloc n) σ.machine ↔ NoFit bs (need n)) ∧
      ∀ p, Holds σ.live p → (CallsSbrk (mmRealloc p n) σ.machine ↔
        MustMove σ.machine p (need n) ∧ NoFit bs (need n)) := by
  obtain ⟨h, hs⟩ := hσ.simulates
  have hv := hs.valid
  have hr := hs.represents
  refine ⟨h.blocks, h.free, hr.walk hv.toWf, hr.nextChain,
    ⟨_, findFit_eq hv.toWf hr, hr.isFirstFit hv.toWf, hv.fit?_getD⟩,
    (mmMalloc_callsSbrk hv hr hn hwrap).trans hv.fit?_eq_none, fun p hp => ?_⟩
  obtain ⟨b, hb, rfl⟩ := (hs.holds p).mp hp
  rw [mmRealloc_callsSbrk hv hr hb hn hwrap, hv.fit?_eq_none, hv.mustMove_iff hr hb.1]
  rfl

/-- A search that finds nothing. -/
theorem first_fit_exact_oneSession :
    ∃ bs l, HeapWalk (oneSession 100).machine ((oneSession 100).machine.memHeapLo + 16) bs ∧
      NextChain (oneSession 100).machine (oneSession 100).machine.freeList l ∧
      (∃ q, findFit (need 4000) (oneSession 100).machine = .ok q (oneSession 100).machine ∧
        IsFirstFit (oneSession 100).machine l (need 4000) q ∧
        (q = 0 ↔ NoFit bs (need 4000))) ∧
      (CallsSbrk (mmMalloc 4000) (oneSession 100).machine ↔ NoFit bs (need 4000)) ∧
      ∀ p, Holds (oneSession 100).live p →
        (CallsSbrk (mmRealloc p 4000) (oneSession 100).machine ↔
          MustMove (oneSession 100).machine p (need 4000) ∧ NoFit bs (need 4000)) :=
  first_fit_exact (oneSession_spec (by decide)).1 (by decide) (by decide)

end OsAndC
