import OsAndC.Operations

/-!
# The Entry Points Refine the Abstract Allocator

`mm_malloc`, `mm_free` and `mm_realloc` on a machine that represents a valid layout, and
`mm_init` on an empty heap. Each returns, returns what the operation of `Layout` returns,
and leaves a machine that represents the resulting valid layout. `Implements` adds what the
layout does not show: no access strays from the heap, and the payload of every allocated
block, other than the one block the call was given, keeps its bytes.

The calls of `mem_sbrk` are accounted for exactly. The only thing that can go wrong is a
refusal, which the theorems about allocation exclude by hypothesis; what happens then is
`mmMalloc_refused`.
-/

namespace OsAndC

open Layout

variable {s s' s'' : Machine} {h h' h'' : Layout} {k n p : ℕ} {b c : Block}

/-- The step from `s` to `s'` carries the layout `h` to `h'`, and the payloads of allocated
blocks other than that at `p` keep their bytes. -/
structure Implements (s s' : Machine) (h h' : Layout) (p : ℕ) : Prop where
  valid : Valid s'.memHeapLo h'
  represents : Represents s' h'
  arena : s'.arena = s.arena
  stray : s'.stray = s.stray
  keeps : ∀ b, h.Allocated b → b.addr ≠ p → ∀ a, b.addr ≤ a → a + 8 < b.addr + b.size →
    s'.mem a = s.mem a

/-- Two steps in sequence, when the first keeps the allocated blocks. -/
theorem Implements.trans (hi : Implements s s' h h' 0) (hi' : Implements s' s'' h' h'' p)
    (hpos : ∀ b, h.Allocated b → b.addr ≠ 0) (hsub : ∀ b, h.Allocated b → h'.Allocated b) :
    Implements s s'' h h'' p where
  valid := hi'.valid
  represents := hi'.represents
  arena := hi'.arena.trans hi.arena
  stray := hi'.stray.trans hi.stray
  keeps := fun b hb hbp a h₁ h₂ =>
    (hi'.keeps b (hsub b hb) hbp a h₁ h₂).trans (hi.keeps b hb (hpos b hb) a h₁ h₂)

/-! ### Allocation -/

/-- A request that does not wrap gets the block size the abstract allocator gives it. -/
theorem calcBlockSize_eq (hn : need n < 2 ^ 32) : calcBlockSize n = need n := by
  simp only [need] at *
  rw [calcBlockSize, wsize, align_eq (by omega)]
  omega

/-- Placing in the stretch `zs` of the heap, of which `d` covers the space. The step `s` to
`s₁` before it may have unlinked nodes and written into that stretch. -/
theorem place_layout {s₁ : Machine} {xs zs ys : List Block} {l : List ℕ} {d : Block} {al : Bool}
    {T : Set ℕ} (hw : Wf s.memHeapLo h) (ht : TagsOf s h) (hbs : h.blocks = xs ++ zs ++ ys)
    (hf : Frame T s s₁) (hT : ∀ c ∈ T, c ∈ linkBytes h.free ∨ c ∈ d.space)
    (hd : ∀ c ∈ d.space, ∃ z ∈ zs, c ∈ z.space) (hfits : Fits s d)
    (htag : Tag s₁ (d.addr - wsize) d.size al) (hl : FreeChain s₁ l) (hsub : l ⊆ h.free)
    (hsep : ∀ a ∈ l, a + 16 ≤ d.addr ∨ d.addr + d.size ≤ a) (hk : 16 ≤ k ∧ k % 8 = 0)
    (hkd : k ≤ d.size) :
    ∃ s', place d.addr k s₁ = .ok () s' ∧
      Represents s' ⟨xs ++ d.cut k ++ ys,
        if 16 ≤ d.size - k then (d.addr + k) :: l else l, h.brk⟩ ∧
      Frame {c | c ∈ linkBytes h.free ∨ c ∈ d.space ∧ (c < d.addr ∨ d.addr + k ≤ c + 8)}
        s₁ s' := by
  obtain ⟨s', hrun, hcut, hl', hf'⟩ := place_spec (hfits.of_frame hf) htag hl hk hkd hsep
  have hlsub : ∀ c ∈ linkBytes l, c ∈ linkBytes h.free := by
    rintro c ⟨a, ha, h₁, h₂⟩
    exact ⟨a, hsub ha, h₁, h₂⟩
  have hf'' := hf'.mono (T := {c | c ∈ linkBytes h.free ∨
      c ∈ d.space ∧ (c < d.addr ∨ d.addr + k ≤ c + 8)}) fun c hc => hc.imp_left (hlsub c)
  have hframe : Frame {c | c ∈ linkBytes h.free ∨ c ∈ d.space} s s' :=
    (hf.mono hT).trans (hf''.mono fun c hc => hc.imp_right And.left)
  refine ⟨s', hrun, ⟨ht.update hw _ _ hbs hframe (fun c hc => ?_) hcut, hl'⟩, hf''⟩
  exact hc.imp (mem_linkBytes_block hw (List.Subset.refl _)) (hd c)

/-- The nodes left in the list lie outside the block that is unlinked. -/
theorem Layout.Wf.erase_apart {lo a : ℕ} (hw : Wf lo h) (hb : b ∈ h.blocks)
    (ha : a ∈ h.free.erase b.addr) : a + 16 ≤ b.addr ∨ b.addr + b.size ≤ a := by
  obtain ⟨hab, ha⟩ := hw.nodup.mem_erase_iff.mp ha
  obtain ⟨d, hd, rfl, -⟩ := hw.mem_free.mp ha
  have := hw.apart hd hb hab
  have := (hw.block hd).2.2.1
  omega

/-- Unlinking and placing refine taking a block of the list. -/
theorem take_spec (hv : Valid s.memHeapLo h) (hr : Represents s h) (hb : b ∈ h.blocks)
    (hfree : b.alloc = false) (hk : 16 ≤ k ∧ k % 8 = 0) (hkb : k ≤ b.size) :
    ∃ s₁ s', removeFromFreeList b.addr s = .ok () s₁ ∧ place b.addr k s₁ = .ok () s' ∧
      Implements s s' h (h.take b.addr k) 0 ∧ s'.sbrks = s.sbrks := by
  obtain ⟨xs, ys, hbs⟩ := List.append_of_mem hb
  have hbs' : h.blocks = xs ++ [b] ++ ys := by rw [hbs]; simp
  have hw := hv.toWf
  have hbf := hw.mem_free.mpr ⟨b, hb, rfl, hfree⟩
  obtain ⟨s₁, hrun₁, ht₁, hl₁, hf₁⟩ := unlink_spec hw hr.toTagsOf hr.chain (List.Subset.refl _) hbf
  obtain ⟨s₂, hrun₂, hr₂, hf₂⟩ := place_layout (d := b) hw hr.toTagsOf hbs' hf₁
    (fun c hc => Or.inl hc) (fun c hc => ⟨b, List.mem_singleton_self b, hc⟩) (hr.fits hw hb)
    (ht₁.blockTags b hb).1 hl₁ (fun a => List.mem_of_mem_erase) (fun a => hw.erase_apart hb) hk hkb
  have hframe : Frame h.freeSpace s s₂ := by
    have hlinks := linkBytes_subset hw (List.Subset.refl _)
    refine (hf₁.mono hlinks).trans (hf₂.mono fun c hc => ?_)
    exact hc.elim (fun hc => hlinks hc) fun hc => ⟨b, hb, hfree, hc.1⟩
  have heq : h.take b.addr k = _ :=
    place_eq (h := { h with free := h.free.erase b.addr }) hw.tiles hbs
  refine ⟨s₁, s₂, hrun₁, hrun₂, ⟨?_, heq ▸ hr₂, hframe.arena, hframe.stray, ?_⟩, hframe.sbrks⟩
  · rw [hframe.memHeapLo]
    exact hv.take hb hfree hk hkb
  · exact fun c hc _ a h₁ h₂ => hframe.mem (payload_notMem_freeSpace hw hc h₁ h₂)

/-- The calls of `mem_sbrk` an allocation of `n` bytes makes, when they are granted. -/
def Layout.sbrkCalls (h : Layout) (n : ℕ) : List SbrkCall :=
  if h.fit? (need n) = none then [⟨toInt (max (need n) 4096), true⟩] else []

/-- `extend_heap` as `mm_malloc` calls it. -/
theorem extend_implements {g : ℕ} (hv : Valid s.memHeapLo h) (hr : Represents s h)
    (hg : 16 ≤ g ∧ g % 8 = 0) (hlt : g < 2 ^ 32) (hgr : ¬ s.Refuses (toInt g)) :
    ∃ s', extendHeap (g / wsize) s = .ok ((h.extend g).free.headD 0) s' ∧
      Implements s s' h (h.extend g) 0 ∧ s'.sbrks = ⟨toInt g, true⟩ :: s.sbrks := by
  obtain ⟨s', hrun, hr', harena, -, hsb, hstray, hmem⟩ := extendHeap_granted hv hr hg hlt hgr
  have hlo : s'.memHeapLo = s.memHeapLo := Machine.memHeapLo_congr harena
  refine ⟨s', hrun, ⟨hlo ▸ hv.extend hg, hr', harena, hstray, fun b hb _ a h₁ h₂ => ?_⟩, hsb⟩
  have := hv.block hb.1
  exact hmem a (by omega) (payload_notMem_freeSpace hv.toWf hb h₁ h₂)

/-- **`mm_malloc` refines the abstract allocation.** -/
theorem mmMalloc_spec (hv : Valid s.memHeapLo h) (hr : Represents s h) (hn : 0 < n)
    (hwrap : need n < 2 ^ 32)
    (hgr : h.fit? (need n) = none → ¬ s.Refuses (toInt (max (need n) 4096))) :
    ∃ s', mmMalloc n s = .ok (h.malloc n).2 s' ∧ Implements s s' h (h.malloc n).1 0 ∧
      s'.sbrks = h.sbrkCalls n ++ s.sbrks := by
  obtain ⟨h16, h8, -⟩ := need_pos hn
  have hrunfit := findFit_eq (k := need n) hv.toWf hr
  rw [mmMalloc, ListOps.mmMalloc, Layout.malloc, Layout.sbrkCalls, if_neg (by omega),
    if_neg (by omega), calcBlockSize_eq hwrap, run_bind_ok hrunfit]
  cases hfit : h.fit? (need n) with
  | some a =>
      obtain ⟨b, hb, rfl, hfree, hkb⟩ := hv.fit?_some hfit
      obtain ⟨s₁, s', hrun₁, hrun', hi, hsb⟩ := take_spec hv hr hb hfree ⟨h16, h8⟩ hkb
      have hb0 : b.addr ≠ 0 := by
        have := (hv.block hb).1
        omega
      refine ⟨s', ?_, hi, by simpa using hsb⟩
      simp only [Option.getD_some]
      rw [if_neg hb0, run_bind_ok (run_pure b.addr s), run_bind_ok hrun₁, run_bind_ok hrun']
      rfl
  | none =>
      have hg : 16 ≤ max (need n) 4096 ∧ max (need n) 4096 % 8 = 0 := by omega
      obtain ⟨s₁, hrun₁, hi₁, hsb₁⟩ := extend_implements hv hr hg (by omega) (hgr hfit)
      obtain ⟨b, hb, hba, hfree, hgb⟩ := hv.extend_head hg
      obtain ⟨s₂, s', hrun₂, hrun', hi, hsb⟩ := take_spec hi₁.valid hi₁.represents hb hfree
        ⟨h16, h8⟩ (by omega)
      refine ⟨s', ?_, ?_, ?_⟩
      · have hchunk : chunksize = 4096 := rfl
        simp only [Option.getD_none, hchunk, ← hba] at hrun₁ ⊢
        rw [if_pos trivial, run_bind_ok hrun₁, run_bind_ok hrun₂, run_bind_ok hrun']
        rfl
      · simp only [← hba]
        exact hi₁.trans hi (fun c => allocated_addr_ne_zero hv.toWf)
          fun c => extend_allocated.mpr
      · rw [hsb, hsb₁]
        rfl

/-- Unlinking the null pointer reads the word at address 4. -/
theorem removeFromFreeList_zero : removeFromFreeList 0 s = .error (.outside (.load 4 4)) s := by
  have hout : ¬ s.InArena 4 4 := by
    have h₁ := s.arena.base_pos
    have h₂ := s.arena.aligned
    simp only [Machine.InArena, Machine.memHeapLo]
    omega
  have hload : getPrevFreeBlockPtr 0 s = .error (.outside (.load 4 4)) s := by
    rw [getPrevFreeBlockPtr, getVal, wsize, if_pos rfl, run_bind_error (checked_outside hout)]
  rw [removeFromFreeList, run_bind_error hload]

/-- **Out of memory.** When no listed block fits and `mem_sbrk` refuses, `mm_malloc` goes on
with the null pointer that `extend_heap` reports, and faults at its first use. -/
theorem mmMalloc_refused (hv : Valid s.memHeapLo h) (hr : Represents s h) (hn : 0 < n)
    (hwrap : need n < 2 ^ 32) (hfit : h.fit? (need n) = none)
    (hgr : s.Refuses (toInt (max (need n) 4096))) :
    mmMalloc n s = .error (.outside (.load 4 4))
      { s with sbrks := ⟨toInt (max (need n) 4096), false⟩ :: s.sbrks } := by
  obtain ⟨h16, h8, -⟩ := need_pos hn
  have hrunfit := findFit_eq (k := need n) hv.toWf hr
  have hext := extendHeap_refused (g := max (need n) 4096) (by omega) (by omega) hgr
  have hchunk : chunksize = 4096 := rfl
  rw [mmMalloc, ListOps.mmMalloc, if_neg (by omega), calcBlockSize_eq hwrap, run_bind_ok hrunfit,
    hfit]
  simp only [Option.getD_none, hchunk]
  rw [if_pos trivial, run_bind_ok hext, run_bind_error removeFromFreeList_zero]

/-! ### Release -/

/-- `mm_free` up to its first list operation: the block is marked free. -/
theorem mmFree_tags (hv : Valid s.memHeapLo h) (hr : Represents s h) {xs ys : List Block}
    (hbs : h.blocks = xs ++ b :: ys) (hb : b.alloc = true) :
    ∃ s', (∀ ops : ListOps, ops.mmFree b.addr s =
        (do ops.add b.addr; let _ ← ops.coalesce b.addr) s') ∧
      TagsOf s' ⟨xs ++ { b with alloc := false } :: ys, b.addr :: h.free, h.brk⟩ ∧
      FreeChain s' h.free ∧ Frame b.space s s' := by
  have hbs' : h.blocks = xs ++ [b] ++ ys := by rw [hbs]; simp
  have hmem : b ∈ h.blocks := by rw [hbs]; simp
  have hw := hv.toWf
  have hfits : Fits s ⟨b.addr, b.size, false⟩ := by
    obtain ⟨h₁, h₂, h₃, h₄, h₅⟩ := hr.fits hw hmem
    exact ⟨h₁, h₂, h₃, h₄, h₅⟩
  have hf₁ : Frame b.space s (s.putTags ⟨b.addr, b.size, false⟩) :=
    hfits.putTags_frame fun c h₁ _ h₃ => ⟨h₁, h₃⟩
  have hhead : getSize (getHeaderPtr b.addr) s = .ok b.size s :=
    (hr.blockTags b hmem).1.getSize_eq
  refine ⟨_, fun ops => ?_, ?_, hr.chain.frame hf₁ rfl fun a ha c hc => ?_, hf₁⟩
  · rw [ListOps.mmFree, run_bind_ok hhead, hfits.run_setTags (i := 0) rfl]
  · have hu := hr.toTagsOf.update hw [{ b with alloc := false }] (b.addr :: h.free)
      hbs' hf₁ (fun c hc => Or.inr ⟨b, List.mem_singleton_self b, hc⟩) fun c hc => by
        rw [List.mem_singleton.mp hc]
        exact hfits.tagged_putTags
    simpa using hu
  · obtain ⟨d, hd, rfl, hfree⟩ := hw.mem_free.mp ha
    have := allocated_apart hw ⟨hmem, hb⟩ hd hfree
    have := (hw.block hd).2.2.1
    obtain ⟨h₁, h₂⟩ := hc
    omega

/-- `mm_free` up to its call of `coalesce`: the block is marked free and listed. -/
theorem mmFree_marked (hv : Valid s.memHeapLo h) (hr : Represents s h) {xs ys : List Block}
    (hbs : h.blocks = xs ++ b :: ys) (hb : b.alloc = true) :
    ∃ s', mmFree b.addr s = (do let _ ← coalesce b.addr) s' ∧
      Represents s' ⟨xs ++ { b with alloc := false } :: ys, b.addr :: h.free, h.brk⟩ ∧
      Frame {c | c ∈ b.space ∨ c ∈ h.freeSpace} s s' := by
  obtain ⟨s₁, hrun₁, ht₁, hl₁, hf₁⟩ := mmFree_tags hv hr hbs hb
  have hw := hv.toWf
  have hbw := hw.block (b := b) (by rw [hbs]; simp)
  obtain ⟨s₂, hrun₂, hr₂, hf₂⟩ := add_spec (hf₁.memHeapLo ▸ hv.marked hbs hb) ht₁ hl₁ rfl
  have hrun₁ : mmFree b.addr s = _ := hrun₁ .source
  refine ⟨s₂, hrun₁.trans (run_bind_ok hrun₂), hr₂,
    (hf₁.mono fun c hc => Or.inl hc).trans (hf₂.mono fun c hc => ?_)⟩
  obtain ⟨a, ha, h₁, h₂⟩ := hc
  rcases List.mem_cons.mp ha with rfl | ha
  · exact Or.inl ⟨by omega, by omega⟩
  · exact Or.inr (linkBytes_subset hw (List.Subset.refl _) ⟨a, ha, h₁, h₂⟩)

/-- **`mm_free` refines the abstract release.** -/
theorem mmFree_spec (hv : Valid s.memHeapLo h) (hr : Represents s h) (hb : h.Allocated b) :
    ∃ s', mmFree b.addr s = .ok () s' ∧ Implements s s' h (h.release b.addr) b.addr ∧
      s'.sbrks = s.sbrks := by
  obtain ⟨xs, ys, hbs, hxs, hys, -⟩ := hv.split hb.1
  have hw := hv.toWf
  obtain ⟨s₂, hrun₂, hr₂, hf₂⟩ := mmFree_marked hv hr hbs hb.2
  obtain ⟨s₃, hrun₃, hr₃, hf₃⟩ := coalesce_spec (b := { b with alloc := false })
    (hf₂.memHeapLo ▸ hv.marked hbs hb.2) hr₂ rfl rfl hxs hys
  have hframe : Frame {c | c ∈ b.space ∨ c ∈ h.freeSpace} s s₃ := by
    refine hf₂.trans (hf₃.mono ?_)
    rintro c ⟨d, hd, hfree, hc⟩
    rcases List.mem_append.mp hd with hd | hd
    · exact Or.inr ⟨d, by rw [hbs]; simp [hd], hfree, hc⟩
    · rcases List.mem_cons.mp hd with rfl | hd
      · exact Or.inl hc
      · exact Or.inr ⟨d, by rw [hbs]; simp [hd], hfree, hc⟩
  have heq := release_eq hw hbs
  refine ⟨s₃, ?_, ⟨?_, heq ▸ hr₃, hframe.arena, hframe.stray, ?_⟩, hframe.sbrks⟩
  · rw [hrun₂, run_bind_ok hrun₃]
    rfl
  · rw [hframe.memHeapLo]
    exact hv.release hb
  · intro c hc hcb a h₁ h₂
    refine hframe.mem fun hmem => hmem.elim (fun ⟨h₃, h₄⟩ => ?_)
      (payload_notMem_freeSpace hw hc h₁ h₂)
    have := hw.apart hc.1 hb.1 hcb
    omega

/-! ### Resizing -/

/-- A block that cannot grow in place is left alone, and no link is followed. -/
theorem ListOps.growInPlace_no (ops : ListOps) (hv : Valid s.memHeapLo h) (hr : Represents s h)
    (hb : b ∈ h.blocks) (hg : ¬ h.CanGrow b.addr k) :
    ops.growInPlace b.addr b.size k s = .ok false s := by
  obtain ⟨xs, ys, hbs, -⟩ := hv.split hb
  have hw := hv.toWf
  obtain ⟨n, hn⟩ : ∃ n, n = nextOf h.brk ys := ⟨_, rfl⟩
  have hna : n.addr = b.addr + b.size := hn ▸ nextOf_addr hw hbs
  have hntag : Tag s (n.addr - wsize) n.size n.alloc := hn ▸ hr.next_header hbs
  have hnext : getNextBlockPtr b.addr s = .ok n.addr s :=
    hna ▸ (hr.blockTags b hb).1.getNextBlockPtr_eq
  rw [ListOps.growInPlace, run_bind_ok hnext, getHeaderPtr, run_bind_ok hntag.isFree_eq]
  cases hnalloc : n.alloc with
  | true => rfl
  | false =>
      obtain ⟨zs, hzs⟩ : ∃ zs, ys = n :: zs := by
        obtain ⟨zs, hzs, -⟩ := nextOf_run h.brk (hv.split_right hbs)
        rw [← hn, hnalloc] at hzs
        exact ⟨zs, hzs⟩
      have hnb : n ∈ h.blocks := by rw [hbs, hzs]; simp
      have hlt := (hr.fits hw hb).size_lt
      have hnlt := (hr.fits hw hnb).size_lt
      have hsum : ¬ k ≤ b.size + n.size := by
        intro hk
        refine hg ⟨?_, ?_⟩
        · rw [hw.sizeAt hb, ← hna]
          exact hw.mem_free.mpr ⟨n, hnb, rfl, hnalloc⟩
        · rw [hw.sizeAt hb, ← hna, hw.sizeAt hnb]
          exact hk
      simp only [Bool.not_false, if_true]
      rw [run_bind_ok hntag.getSize_eq, Nat.mod_eq_of_lt (by omega), if_neg hsum]
      rfl

/-- Where the block cannot grow, nothing happens. -/
theorem growInPlace_no (hv : Valid s.memHeapLo h) (hr : Represents s h) (hb : b ∈ h.blocks)
    (hg : ¬ h.CanGrow b.addr k) : growInPlace b.addr b.size k s = .ok false s :=
  ListOps.source.growInPlace_no hv hr hb hg

/-- `mm_realloc` growing in place, up to its call of `place`: the next block is unlinked, and the
header covers both blocks, while the footer does not yet. -/
theorem grow_joins (hv : Valid s.memHeapLo h) (hr : Represents s h) {xs ys : List Block}
    {d : Block} (hbs : h.blocks = xs ++ b :: d :: ys) (hb : b.alloc = true)
    (hfree : d.alloc = false) (hda : d.addr = b.addr + b.size) (hkd : k ≤ b.size + d.size) :
    ∃ s₁ s₂, (∀ ops : ListOps, ops.growInPlace b.addr b.size k s = (do
        ops.remove d.addr
        setVal (getHeaderPtr b.addr) (makeHeader (b.size + d.size) 1)
        ops.place b.addr k
        return true) s) ∧
      removeFromFreeList d.addr s = .ok () s₁ ∧
      setVal (getHeaderPtr b.addr) (makeHeader (b.size + d.size) 1) s₁ = .ok () s₂ ∧
      Fits s ⟨b.addr, b.size + d.size, true⟩ ∧ Tag s₂ (b.addr - wsize) (b.size + d.size) true ∧
      FreeChain s₂ (h.free.erase d.addr) ∧
      (∀ a ∈ h.free.erase d.addr, a + 16 ≤ b.addr ∨ b.addr + (b.size + d.size) ≤ a) ∧
      (∀ c ∈ Block.space ⟨b.addr, b.size + d.size, true⟩, ∃ z ∈ [b, d], c ∈ z.space) ∧
      Frame {c | c ∈ linkBytes h.free ∨ b.addr ≤ c + 4 ∧ c < b.addr} s s₂ := by
  have hw := hv.toWf
  have hbm : b ∈ h.blocks := by rw [hbs]; simp
  have hd : d ∈ h.blocks := by rw [hbs]; simp
  obtain ⟨hb₁, hb₂, hb₃, hb₄, hb₅⟩ := hr.fits hw hbm
  obtain ⟨hd₁, hd₂, hd₃, hd₄, hd₅⟩ := hr.fits hw hd
  have hlt := (hr.fits hw hd).size_lt
  have hfits : Fits s ⟨b.addr, b.size + d.size, true⟩ :=
    ⟨hb₁, by simp only []; omega, by simp only []; omega, hb₄, by simp only []; omega⟩
  have hdtag := (hr.blockTags d hd).1
  have hnext : getNextBlockPtr b.addr s = .ok d.addr s :=
    hda ▸ (hr.blockTags b hbm).1.getNextBlockPtr_eq
  have hmod : (b.size + d.size) % 2 ^ 32 = b.size + d.size := Nat.mod_eq_of_lt (by omega)
  obtain ⟨s₁, hrun₁, ht₁, hl₁, hf₁⟩ := unlink_spec hw hr.toTagsOf hr.chain (List.Subset.refl _)
    (hw.mem_free.mpr ⟨d, hd, rfl, hfree⟩)
  have hsep : ∀ a ∈ h.free.erase d.addr,
      a + 16 ≤ b.addr ∨ b.addr + (b.size + d.size) ≤ a := by
    intro a ha
    have := hw.erase_apart hd ha
    obtain ⟨x, hx, rfl, hxfree⟩ := hw.mem_free.mp (List.mem_of_mem_erase ha)
    have := allocated_apart hw ⟨hbm, hb⟩ hx hxfree
    have := (hw.block hx).2.2.1
    omega
  obtain ⟨hh, hhin, -, -⟩ := hfits.words
  have hset := setVal_makeHeader (i := 1) true hh hfits.size_mod (hf₁.inHeap.mpr hhin) rfl
  have htag₂ := Tag.of_store true hh hfits.size_mod (by simp only []; omega)
    (hf₁.inHeap.mpr hhin)
  have hf₂ : Frame {c | b.addr ≤ c + 4 ∧ c < b.addr} s₁
      (s₁.store (b.addr - wsize) (b.size + d.size + true.toNat)) :=
    Frame.store_of_subset fun c h₁ h₂ => by
      simp only [wsize] at h₁ h₂
      exact ⟨by omega, by omega⟩
  refine ⟨s₁, _, fun ops => ?_, hrun₁, hset, hfits, htag₂, hl₁.frame hf₂ rfl fun a ha c hc => ?_,
    hsep, fun c hc => ?_, (hf₁.mono fun c hc => Or.inl hc).trans (hf₂.mono fun c hc => Or.inr hc)⟩
  · rw [ListOps.growInPlace, run_bind_ok hnext, getHeaderPtr, run_bind_ok hdtag.isFree_eq, hfree]
    simp only [Bool.not_false, if_true]
    rw [run_bind_ok hdtag.getSize_eq, hmod, if_pos hkd]
  · have := hsep a ha
    obtain ⟨h₁, h₂⟩ := hc
    omega
  · obtain ⟨h₁, h₂⟩ := hc
    simp only [] at h₁ h₂
    by_cases hcb : c + 4 < b.addr + b.size
    · exact ⟨b, by simp, h₁, hcb⟩
    · exact ⟨d, by simp, by omega, by omega⟩

/-- **Growing in place refines the abstract operation**, and the payload of the block keeps
its bytes. -/
theorem growInPlace_yes (hv : Valid s.memHeapLo h) (hr : Represents s h) (hb : h.Allocated b)
    (hk : 16 ≤ k ∧ k % 8 = 0) (hbk : b.size < k) (hg : h.CanGrow b.addr k) :
    ∃ s', growInPlace b.addr b.size k s = .ok true s' ∧
      Implements s s' h ((h.absorb b.addr).place b.addr k) 0 ∧ s'.sbrks = s.sbrks := by
  obtain ⟨xs, d, ys, hbs, hfree, hkd, hda⟩ := hv.canGrow hb.1 hg
  have hw := hv.toWf
  have hd : d ∈ h.blocks := by rw [hbs]; simp
  have hbs' : h.blocks = xs ++ [b, d] ++ ys := by rw [hbs]; simp
  obtain ⟨s₁, s₂, hstart, hrun₁, hset, hfits, htag₂, hl₂, hsep, hspan, hf₁₂⟩ :=
    grow_joins hv hr hbs hb.2 hfree hda hkd
  obtain ⟨s₃, hrun₃, hr₃, hf₃⟩ := place_layout (d := ⟨b.addr, b.size + d.size, true⟩) hw
    hr.toTagsOf hbs' hf₁₂ (fun c hc => hc.imp_right fun h₁ => ⟨h₁.1, by simp only []; omega⟩)
    hspan hfits htag₂ hl₂ (fun a => List.mem_of_mem_erase) hsep hk hkd
  have heq : (h.absorb b.addr).place b.addr k = _ := hv.grow_eq hbs hda
  refine ⟨s₃, ?_, ⟨?_, heq ▸ hr₃, hf₃.arena.trans hf₁₂.arena, hf₃.stray.trans hf₁₂.stray, ?_⟩,
    hf₃.sbrks.trans hf₁₂.sbrks⟩
  · calc growInPlace b.addr b.size k s
      _ = _ := hstart .source
      _ = _ := run_bind_ok hrun₁
      _ = _ := run_bind_ok hset
      _ = .ok true s₃ := run_bind_ok hrun₃
  · rw [hf₃.memHeapLo, hf₁₂.memHeapLo]
    exact hv.grow hb.1 hk hg
  · intro c hc _ a h₁ h₂
    have hnot : a ∉ linkBytes h.free := fun hmem =>
      payload_notMem_freeSpace hw hc h₁ h₂ (linkBytes_subset hw (List.Subset.refl _) hmem)
    have hcd := allocated_apart hw hc hd hfree
    have hcb : c.addr = b.addr ∧ c.size = b.size ∨ c.addr + c.size ≤ b.addr ∨
        b.addr + b.size ≤ c.addr := by
      by_cases h0 : c.addr = b.addr
      · rw [hw.eq_of_addr hc.1 hb.1 h0]
        exact Or.inl ⟨rfl, rfl⟩
      · exact Or.inr (hw.apart hc.1 hb.1 h0)
    refine (hf₃.mem fun hmem => ?_).trans (hf₁₂.mem fun hmem => ?_)
    · rcases hmem with hmem | ⟨⟨h₃, h₄⟩, h₅⟩
      · exact hnot hmem
      · simp only [] at h₃ h₄ h₅
        omega
    · rcases hmem with hmem | ⟨h₃, h₄⟩
      · exact hnot hmem
      · omega

/-- Whether resizing the block at `p` to `n` bytes leaves it where it is. -/
def Layout.Stays (h : Layout) (p n : ℕ) : Prop := need n ≤ h.sizeAt p ∨ h.CanGrow p (need n)

instance (h : Layout) (p n : ℕ) : Decidable (h.Stays p n) := inferInstanceAs (Decidable (_ ∨ _))

/-- The move up to the release: allocate and copy. The copy goes into a payload that is not
that of any block there was. -/
theorem moveBlock_copies (hv : Valid s.memHeapLo h) (hr : Represents s h) (hb : h.Allocated b)
    (hn : 0 < n) (hwrap : need n < 2 ^ 32)
    (hgr : h.fit? (need n) = none → ¬ s.Refuses (toInt (max (need n) 4096))) :
    ∃ s₁ s₂ size, mmMalloc n s = .ok (h.malloc n).2 s₁ ∧ (h.malloc n).2 ≠ 0 ∧
      memcpy (h.malloc n).2 b.addr (min b.size n) s₁ = .ok () s₂ ∧
      Implements s s₁ h (h.malloc n).1 0 ∧ s₁.sbrks = h.sbrkCalls n ++ s.sbrks ∧
      Represents s₂ (h.malloc n).1 ∧ (h.malloc n).1.Allocated ⟨(h.malloc n).2, size, true⟩ ∧
      n + 8 ≤ size ∧ (∀ c, h.Allocated c → (h.malloc n).1.Allocated c ∧ c.addr ≠ (h.malloc n).2) ∧
      Frame (Set.Ico (h.malloc n).2 ((h.malloc n).2 + min b.size n)) s₁ s₂ ∧
      ∀ i, i < min b.size n → s₂.mem ((h.malloc n).2 + i) = s₁.mem (b.addr + i) := by
  obtain ⟨s₁, hrun₁, hi₁, hsb₁⟩ := mmMalloc_spec hv hr hn hwrap hgr
  obtain ⟨hv₁, hlo, hnew, size, hsize, -, halloc⟩ := hv.malloc hn
  obtain ⟨q, hq⟩ : ∃ q, q = (h.malloc n).2 := ⟨_, rfl⟩
  obtain ⟨h₁, hh₁⟩ : ∃ h₁, h₁ = (h.malloc n).1 := ⟨_, rfl⟩
  rw [← hq] at hlo hnew halloc hrun₁ ⊢
  rw [← hh₁] at hv₁ halloc hi₁ ⊢
  have hqa : h₁.Allocated ⟨q, size, true⟩ := (halloc _).mpr (Or.inl rfl)
  have hba : h₁.Allocated b := (halloc _).mpr (Or.inr hb)
  have hw₁ := hi₁.valid.toWf
  have hneed := (need_pos hn).2.2
  obtain ⟨hq₁, -, -, -, hq₂⟩ := hw₁.block hqa.1
  obtain ⟨hb₁, -, -, -, hb₂⟩ := hw₁.block hba.1
  have hbrk := hi₁.represents.brk
  have hapart := hw₁.apart hqa.1 hba.1 fun h0 => hnew b hb h0.symm
  simp only [] at hq₁ hq₂ hapart
  have hrun₂ := memcpy_eq (s := s₁) (a := q) (b := b.addr) (n := min b.size n) (by omega)
    ⟨by omega, by omega⟩ ⟨by omega, by omega⟩
  have hf₂ : Frame (Set.Ico q (q + min b.size n)) s₁
      { s₁ with mem := s₁.mem.copy q b.addr (min b.size n) } :=
    ⟨rfl, rfl, rfl, rfl, rfl, Mem.copy_eqOn _ _ _ _⟩
  have hr₂ := hi₁.represents.write hw₁ hqa hf₂
    (fun c hc => ⟨hc.1, by have := hc.2; simp only []; omega⟩) rfl
  exact ⟨s₁, _, size, hrun₁, by omega, hrun₂, hi₁, hsb₁, hr₂, hqa, by omega,
    fun c hc => ⟨(halloc c).mpr (Or.inr hc), hnew c hc⟩, hf₂, fun i hi => Mem.copy_apply hi⟩

/-- The move: allocate, copy, release. -/
theorem moveBlock_spec (hv : Valid s.memHeapLo h) (hr : Represents s h) (hb : h.Allocated b)
    (hn : 0 < n) (hwrap : need n < 2 ^ 32)
    (hgr : h.fit? (need n) = none → ¬ s.Refuses (toInt (max (need n) 4096))) :
    ∃ s₁ s₂ s', mmMalloc n s = .ok (h.malloc n).2 s₁ ∧ (h.malloc n).2 ≠ 0 ∧
      memcpy (h.malloc n).2 b.addr (min b.size n) s₁ = .ok () s₂ ∧
      mmFree b.addr s₂ = .ok () s' ∧
      Implements s s₁ h (h.malloc n).1 0 ∧
      Implements s s' h ((h.malloc n).1.release b.addr) b.addr ∧
      (∀ i, i < min b.size n → s'.mem ((h.malloc n).2 + i) = s₁.mem (b.addr + i)) ∧
      s₁.sbrks = h.sbrkCalls n ++ s.sbrks ∧ s'.sbrks = s₁.sbrks := by
  obtain ⟨s₁, s₂, size, hrun₁, hq0, hrun₂, hi₁, hsb₁, hr₂, hqa, hsize, hold, hf₂, hdata⟩ :=
    moveBlock_copies hv hr hb hn hwrap hgr
  obtain ⟨hba, hbq⟩ := hold b hb
  have hw₁ := hi₁.valid.toWf
  obtain ⟨s', hrun', hi', hsb'⟩ := mmFree_spec (hf₂.memHeapLo ▸ hi₁.valid) hr₂ hba
  have hpos := fun c => allocated_addr_ne_zero (b := c) hv.toWf
  refine ⟨s₁, s₂, s', hrun₁, hq0, hrun₂, hrun', hi₁, ⟨hi'.valid, hi'.represents,
    hi'.arena.trans (hf₂.arena.trans hi₁.arena), hi'.stray.trans (hf₂.stray.trans hi₁.stray), ?_⟩,
    ?_, hsb₁, hsb'.trans hf₂.sbrks⟩
  · intro c hc hcb a h₁' h₂'
    obtain ⟨hca, hcq⟩ := hold c hc
    have hapart := hw₁.apart hqa.1 hca.1 hcq.symm
    simp only [] at hapart
    rw [hi'.keeps c hca hcb a h₁' h₂', hf₂.mem fun hmem => ?_,
      hi₁.keeps c hc (hpos c hc) a h₁' h₂']
    obtain ⟨h₃, h₄⟩ := hmem
    omega
  · intro i hi
    rw [hi'.keeps _ hqa hbq.symm _ (Nat.le_add_right _ i) (by simp only []; omega)]
    exact hdata i hi

/-- What `mm_realloc` does with a block that can neither stay nor grow in place. -/
theorem mmRealloc_moves (hv : Valid s.memHeapLo h) (hr : Represents s h) (hb : h.Allocated b)
    (hn : 0 < n) (hwrap : need n < 2 ^ 32) (hstay : ¬ h.Stays b.addr n) :
    mmRealloc b.addr n s = (do
      let newPtr ← mmMalloc n
      if newPtr = 0 then
        return 0
      else
        memcpy newPtr b.addr (min b.size n)
        mmFree b.addr
        return newPtr) s := by
  have hsize : getSize (getHeaderPtr b.addr) s = .ok b.size s :=
    (hr.blockTags b hb.1).1.getSize_eq
  obtain ⟨hfits, hg⟩ := not_or.mp hstay
  rw [hv.sizeAt hb.1] at hfits
  rw [mmRealloc, ListOps.mmRealloc, if_neg (by omega), if_neg (allocated_addr_ne_zero hv.toWf hb),
    run_bind_ok hsize, calcBlockSize_eq hwrap, if_neg hfits,
    run_bind_ok (growInPlace_no hv hr hb.1 hg)]
  rfl

/-- **`mm_realloc` refines the abstract resizing** of a live block, in each of its three
ways, and the data of the block come along. -/
theorem mmRealloc_spec (hv : Valid s.memHeapLo h) (hr : Represents s h) (hb : h.Allocated b)
    (hn : 0 < n) (hwrap : need n < 2 ^ 32)
    (hgr : ¬ h.Stays b.addr n → h.fit? (need n) = none →
      ¬ s.Refuses (toInt (max (need n) 4096))) :
    ∃ s', mmRealloc b.addr n s = .ok (h.realloc b.addr n).2 s' ∧
      Implements s s' h (h.realloc b.addr n).1 b.addr ∧
      (∀ i, i < n → i + 8 < b.size →
        s'.mem ((h.realloc b.addr n).2 + i) = s.mem (b.addr + i)) ∧
      s'.sbrks = (if h.Stays b.addr n then [] else h.sbrkCalls n) ++ s.sbrks := by
  obtain ⟨h16, h8, -⟩ := need_pos hn
  have hb0 := allocated_addr_ne_zero hv.toWf hb
  have hsize : getSize (getHeaderPtr b.addr) s = .ok b.size s :=
    (hr.blockTags b hb.1).1.getSize_eq
  have hat := hv.sizeAt hb.1
  rw [Layout.realloc, if_neg (by omega), if_neg hb0, hat]
  by_cases hfits : need n ≤ b.size
  · have hstay : h.Stays b.addr n := Or.inl (hat ▸ hfits)
    rw [mmRealloc, ListOps.mmRealloc, if_neg (by omega), if_neg hb0, run_bind_ok hsize,
      calcBlockSize_eq hwrap, if_pos hfits, if_pos hfits, if_pos hstay]
    exact ⟨s, rfl, ⟨hv, hr, rfl, rfl, fun _ _ _ _ _ _ => rfl⟩, fun _ _ _ => rfl, rfl⟩
  · rw [if_neg hfits]
    by_cases hg : h.CanGrow b.addr (need n)
    · have hstay : h.Stays b.addr n := Or.inr hg
      obtain ⟨s', hrun, hi, hsb⟩ := growInPlace_yes hv hr hb ⟨h16, h8⟩ (by omega) hg
      rw [mmRealloc, ListOps.mmRealloc, if_neg (by omega), if_neg hb0, run_bind_ok hsize,
        calcBlockSize_eq hwrap, if_neg hfits, if_pos hg, if_pos hstay, run_bind_ok hrun]
      have hpos := fun c => allocated_addr_ne_zero (b := c) hv.toWf
      exact ⟨s', rfl, ⟨hi.valid, hi.represents, hi.arena, hi.stray,
        fun c hc _ => hi.keeps c hc (hpos c hc)⟩,
        fun i _ hib => hi.keeps b hb hb0 _ (Nat.le_add_right _ _) (by omega), hsb⟩
    · have hstay : ¬ h.Stays b.addr n := not_or.mpr ⟨hat ▸ hfits, hg⟩
      obtain ⟨s₁, s₂, s', hrun₁, hq0, hrun₂, hrun', hi₁, hi, hdata, hsb₁, hsb⟩ :=
        moveBlock_spec hv hr hb hn hwrap (hgr hstay)
      rw [if_neg hg, if_neg hstay, mmRealloc_moves hv hr hb hn hwrap hstay]
      refine ⟨s', ?_, hi, fun i hin hib => ?_, hsb.trans hsb₁⟩
      · rw [run_bind_ok hrun₁, if_neg hq0, run_bind_ok hrun₂, run_bind_ok hrun']
        rfl
      · exact (hdata i (by omega)).trans (hi₁.keeps b hb hb0 _ (by omega) (by omega))

/-- **Out of memory** in `mm_realloc`: the move faults in its allocation. -/
theorem mmRealloc_refused (hv : Valid s.memHeapLo h) (hr : Represents s h) (hb : h.Allocated b)
    (hn : 0 < n) (hwrap : need n < 2 ^ 32) (hstay : ¬ h.Stays b.addr n)
    (hfit : h.fit? (need n) = none) (hgr : s.Refuses (toInt (max (need n) 4096))) :
    mmRealloc b.addr n s = .error (.outside (.load 4 4))
      { s with sbrks := ⟨toInt (max (need n) 4096), false⟩ :: s.sbrks } := by
  rw [mmRealloc_moves hv hr hb hn hwrap hstay,
    run_bind_error (mmMalloc_refused hv hr hn hwrap hfit hgr)]

end OsAndC
