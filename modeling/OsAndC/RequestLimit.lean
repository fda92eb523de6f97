import OsAndC.HeapInvariants

/-!
# Requests near the Limit of `size_t`

`calc_block_size` rounds the request up to a multiple of 8 and adds 8, modulo `2 ^ 32`. For
the 15 largest requests the result wraps to 0 or 8, which every later comparison accepts.
`serves_iff` says that these are the only requests that go wrong, and that they always do:
up to `2 ^ 32 - 16` whatever `mm_malloc` and `mm_realloc` return is large enough and leaves
the heap in order; above, in every state of every legal run one of the two returns a block
that is too small.
-/

namespace OsAndC

open Layout

/-- The block at `q` has room for `n` bytes, and the heap is a sequence of tagged blocks up
to the epilogue. -/
def WellServed (s : Machine) (q n : ℕ) : Prop :=
  n + 8 ≤ tagSize (s.header q) ∧ ∃ bs, Tiled s bs

/-- Whatever `mm_malloc(n)`, or `mm_realloc` of a live block to `n` bytes, returns is large
enough. -/
def Serves (σ : Session) (n : ℕ) : Prop :=
  (∀ q s', mmMalloc n σ.machine = .ok q s' → q ≠ 0 → WellServed s' q n) ∧
    ∀ p, Holds σ.live p → ∀ q s', mmRealloc p n σ.machine = .ok q s' → q ≠ 0 →
      WellServed s' q n

variable {σ : Session} {s s' : Machine} {h h' : Layout} {b d : Block} {c : Call} {al : Bool}
  {l : List ℕ} {a k lo n p p' q : ℕ}

/-! ### Requests that do not wrap -/

/-- The new block of a step has room for the request. -/
theorem Replaces.wellServed (hrep : Replaces lo h h' p q n) (hi : Implements s s' h h' p')
    (hn : 0 < n) : WellServed s' q n := by
  obtain ⟨-, -, -, size, hsize, halloc⟩ := hrep
  have hb := (halloc ⟨q, size, true⟩).mpr (Or.inl ⟨hn, rfl⟩)
  have hhead : tagSize (s'.header q) = size := (hi.represents.blockTags _ hb.1).1.tagSize_eq
  refine ⟨?_, h'.blocks, hi.represents.tiled hi.valid.toWf⟩
  have hneed := (need_pos hn).2.2
  have := hsize hn
  omega

/-- A request whose block size does not wrap around is served properly. -/
theorem Simulates.serves (hs : Simulates σ h) (hn : 0 < n) (hwrap : need n < 2 ^ 32) :
    Serves σ n := by
  have hv := hs.valid
  have hr := hs.represents
  refine ⟨fun q s' hrun _ => ?_, fun p hp q s' hrun _ => ?_⟩
  · by_cases hgr : h.fit? (need n) = none ∧ σ.machine.Refuses (toInt (max (need n) 4096))
    · rw [mmMalloc_refused hv hr hn hwrap hgr.1 hgr.2] at hrun
      cases hrun
    · obtain ⟨s'', hrun', hi, -⟩ := mmMalloc_spec hv hr hn hwrap (not_and.mp hgr)
      rw [hrun'] at hrun
      cases hrun
      exact (malloc_replaces hv n).wellServed hi hn
  · obtain ⟨b, hb, rfl⟩ := (hs.holds p).mp hp
    by_cases hgr : ¬ h.Stays b.addr n ∧ h.fit? (need n) = none ∧
        σ.machine.Refuses (toInt (max (need n) 4096))
    · rw [mmRealloc_refused hv hr hb hn hwrap hgr.1 hgr.2.1 hgr.2.2] at hrun
      cases hrun
    · obtain ⟨s'', hrun', hi, -⟩ := mmRealloc_spec hv hr hb hn hwrap
        fun hstay hfit href => hgr ⟨hstay, hfit, href⟩
      rw [hrun'] at hrun
      cases hrun
      exact (realloc_replaces hv hb n).wellServed hi hn

/-! ### Requests that wrap -/

/-- The block size of the largest requests. -/
theorem calcBlockSize_wraps (hlow : 2 ^ 32 - 16 < n) (hlt : n < 2 ^ 32) :
    calcBlockSize n = 0 ∨ calcBlockSize n = 8 := by
  have hmod : (n + (8 - 1)) % 2 ^ 32 < 2 ^ 32 := Nat.mod_lt _ (by omega)
  rw [calcBlockSize, align, wsize, and_mask hmod]
  omega

/-- No header states a size that would do for such a request. -/
theorem not_wellServed (hlow : 2 ^ 32 - 16 < n) : ¬ WellServed s q n := by
  rintro ⟨hsize, -⟩
  have : tagSize (s.header q) ≤ 0xFFFFFFF8 := Nat.and_le_right
  omega

/-- `place` with a wrapped block size writes into the block, and one word in front of it. -/
theorem place_wrapped (hd : Fits s d) (htag : Tag s (d.addr - wsize) d.size al)
    (hl : FreeChain s l) (hk : k = 0 ∨ k = 8)
    (hsep : ∀ a ∈ l, a + 16 ≤ d.addr ∨ d.addr + d.size ≤ a) :
    ∃ s', place d.addr k s = .ok () s' := by
  obtain ⟨hd₁, hd₂, hd₃, hd₄, hd₅⟩ := hd
  have hlt := Fits.size_lt ⟨hd₁, hd₂, hd₃, hd₄, hd₅⟩
  have hcur : getSize (getHeaderPtr d.addr) s = .ok d.size s := htag.getSize_eq
  rw [place, ListOps.place, run_bind_ok hcur]
  simp only [sizeSub_eq (by omega : d.size < 2 ^ 32) (by omega : k ≤ d.size), minBlockSize_eq,
    ge_iff_le]
  by_cases h16 : 16 ≤ d.size - k
  · have hwords : (d.addr - wsize) % 4 = 0 ∧ s.InHeap (d.addr - wsize) 4 ∧
        (d.addr + k - dsize) % 4 = 0 ∧ s.InHeap (d.addr + k - dsize) 4 := by
      simp only [wsize, dsize, Machine.InHeap]
      omega
    have hk8 : k % 8 = 0 := by omega
    obtain ⟨s₁, hs₁⟩ : ∃ s₁, s₁ = s.putTags ⟨d.addr, k, true⟩ := ⟨_, rfl⟩
    have hrun₁ := setTags_eq true (i := 1) hwords hk8 (by omega) rfl
    rw [← hs₁] at hrun₁
    have hhead : Tag s₁ (d.addr - wsize) k true := by
      rw [hs₁]
      exact (Tag.of_store _ hwords.1 hk8 (by omega) hwords.2.1).store hwords.2.2.1
        (by unfold wsize dsize; simp only []; omega)
    -- all that is written lies between the footer in front of the block and its own footer
    have hf₁ : Frame {c | d.addr ≤ c + 8 ∧ c + 4 < d.addr + d.size} s s₁ := by
      rw [hs₁]
      unfold Machine.putTags wsize dsize
      simp only []
      refine Frame.trans (Frame.store_of_subset fun c h₁ h₂ => ?_)
        (Frame.store_of_subset fun c h₁ h₂ => ?_)
      · exact ⟨by omega, by omega⟩
      · exact ⟨by omega, by omega⟩
    have hrest : Fits s₁ ⟨d.addr + k, d.size - k, false⟩ := by
      refine Fits.of_frame ⟨?_, ?_, h16, ?_, ?_⟩ hf₁ <;> simp only [] <;> omega
    have hf₂ : Frame {c | d.addr ≤ c + 8 ∧ c + 4 < d.addr + d.size} s
        (s₁.putTags ⟨d.addr + k, d.size - k, false⟩) := by
      refine hf₁.trans (hrest.putTags_frame fun c h₁ _ h₃ => ?_)
      simp only [] at h₁ h₃
      exact ⟨by omega, by omega⟩
    have hl₂ := hl.frame hf₂ (by rw [hs₁]; rfl) fun a ha c hc => by
      have := hsep a ha
      obtain ⟨h₁, h₂⟩ := hc
      omega
    obtain ⟨s₃, hrun₃, -⟩ := addToFreeList_spec (b := d.addr + k) hl₂ (by omega)
      (hf₂.inHeap.mpr ⟨by omega, by omega⟩) fun a ha => by have := hsep a ha; omega
    simp only [if_pos h16]
    rw [run_of_setTags hrun₁, run_bind_ok hhead.getNextBlockPtr_eq, hrest.run_setTags (i := 0) rfl]
    exact ⟨s₃, hrun₃⟩
  · have hfits : Fits s ⟨d.addr, d.size, true⟩ := ⟨hd₁, hd₂, hd₃, hd₄, hd₅⟩
    simp only [if_neg h16]
    exact ⟨_, hfits.setTags_eq (i := 1) rfl⟩

/-- With a free block in the heap, the allocation comes back with some block. -/
theorem mmMalloc_wrapped (hv : Valid s.memHeapLo h) (hr : Represents s h) (hb : b ∈ h.blocks)
    (hfree : b.alloc = false) (hn : 0 < n) (hk : calcBlockSize n = 0 ∨ calcBlockSize n = 8) :
    ∃ q s', mmMalloc n s = .ok q s' ∧ q ≠ 0 := by
  have hw := hv.toWf
  obtain ⟨k, hk'⟩ : ∃ k, k = calcBlockSize n := ⟨_, rfl⟩
  have hfit : h.fit? k ≠ none := fun h0 => by
    have := hv.fit?_eq_none.mp h0 b hb hfree
    have := (hw.block hb).2.2.1
    omega
  obtain ⟨a, ha⟩ := Option.ne_none_iff_exists'.mp hfit
  obtain ⟨d, hd, rfl, hdfree, -⟩ := hv.fit?_some ha
  have hd0 : d.addr ≠ 0 := by
    have := (hw.block hd).1
    omega
  have hrunfit := findFit_eq (k := k) hw hr
  rw [ha, Option.getD_some] at hrunfit
  obtain ⟨s₁, hrun₁, ht₁, hl₁, hf₁⟩ := unlink_spec hw hr.toTagsOf hr.chain (List.Subset.refl _)
    (hw.mem_free.mpr ⟨d, hd, rfl, hdfree⟩)
  obtain ⟨s₂, hrun₂⟩ := place_wrapped ((hr.fits hw hd).of_frame hf₁) (ht₁.blockTags d hd).1 hl₁
    (hk' ▸ hk) fun x hx => by
      obtain ⟨hxd, hx⟩ := hw.nodup.mem_erase_iff.mp hx
      obtain ⟨c, hc, rfl, -⟩ := hw.mem_free.mp hx
      have := hw.apart hc hd hxd
      have := (hw.block hc).2.2.1
      omega
  refine ⟨d.addr, s₂, ?_, hd0⟩
  rw [mmMalloc, ListOps.mmMalloc, if_neg (by omega), ← hk', run_bind_ok hrunfit, if_neg hd0,
    run_bind_ok (run_pure d.addr s), run_bind_ok hrun₁, run_bind_ok hrun₂]
  rfl

/-- A live block is taken to be large enough. -/
theorem mmRealloc_wrapped (hv : Valid s.memHeapLo h) (hr : Represents s h) (hb : h.Allocated b)
    (hn : 0 < n) (hk : calcBlockSize n = 0 ∨ calcBlockSize n = 8) :
    mmRealloc b.addr n s = .ok b.addr s := by
  have hsize : getSize (getHeaderPtr b.addr) s = .ok b.size s :=
    (hr.blockTags b hb.1).1.getSize_eq
  have h16 := (hv.block hb.1).2.2.1
  rw [mmRealloc, ListOps.mmRealloc, if_neg (by omega), if_neg (allocated_addr_ne_zero hv.toWf hb),
    run_bind_ok hsize, if_pos (by omega)]
  rfl

/-! ### The limit -/

/-- Above the limit, one of the two calls comes back with a block that is too small. -/
theorem Simulates.not_serves (hs : Simulates σ h) (hne : h.blocks ≠ []) (hlow : 2 ^ 32 - 16 < n)
    (hlt : n < 2 ^ 32) : ¬ Serves σ n := by
  rintro ⟨hmalloc, hrealloc⟩
  have hv := hs.valid
  have hr := hs.represents
  have hk := calcBlockSize_wraps hlow hlt
  obtain ⟨b, hb⟩ := List.exists_mem_of_ne_nil _ hne
  cases halloc : b.alloc with
  | true =>
      have hrun := mmRealloc_wrapped hv hr ⟨hb, halloc⟩ (by omega) hk
      have hb0 := allocated_addr_ne_zero hv.toWf ⟨hb, halloc⟩
      have hholds := (hs.holds b.addr).mpr ⟨b, ⟨hb, halloc⟩, rfl⟩
      exact not_wellServed hlow (hrealloc b.addr hholds b.addr _ hrun hb0)
  | false =>
      obtain ⟨q, s', hrun, hq⟩ := mmMalloc_wrapped hv hr hb halloc (by omega) hk
      exact not_wellServed hlow (hmalloc q s' hrun hq)

/-- **Requests are served properly exactly up to `2 ^ 32 - 16`.** In every state of every
legal run: what `mm_malloc(n)`, and `mm_realloc` of any live block to `n` bytes, return has
room for `n` bytes and the heap is in order, if and only if `n` is at most `2 ^ 32 - 16`. -/
theorem serves_iff (hσ : Reachable σ) (hn : 0 < n) (hlt : n < 2 ^ 32) :
    Serves σ n ↔ n ≤ 2 ^ 32 - 16 := by
  obtain ⟨h, hs, hgrown⟩ := hσ.simulates_grown
  constructor
  · intro hserves
    by_contra hlow
    refine hs.not_serves (fun hnil => ?_) (by omega) hlt hserves
    have hbrk := hs.valid.brk_eq
    rw [hnil, extent_nil] at hbrk
    omega
  · intro hle
    exact hs.serves hn (by simp only [need]; omega)

/-- The largest request whose block size does not wrap around. -/
theorem serves_iff_oneSession :
    Serves (oneSession 100) (2 ^ 32 - 16) ↔ 2 ^ 32 - 16 ≤ 2 ^ 32 - 16 :=
  serves_iff (oneSession_spec (by decide)).1 (by decide) (by decide)

/-- The request `0xFFFFFFFF`, right after `mm_init`. -/
theorem not_serves_startSession : Reachable startSession ∧ ¬ Serves startSession (2 ^ 32 - 1) := by
  obtain ⟨hr, hs, -⟩ := startSession_spec
  exact ⟨hr, hs.not_serves (by decide) (by decide) (by decide)⟩

end OsAndC
