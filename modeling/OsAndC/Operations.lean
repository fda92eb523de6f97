import OsAndC.Heap

/-!
# The Inner Operations on a Represented Heap

`find_fit`, `place`, `coalesce` and `extend_heap` against the abstract allocator. On a
machine that represents a well-formed layout, `find_fit` computes `Layout.fit?` and changes
nothing (`findFit_eq`), `coalesce` carries out `Layout.coalesce` (`coalesce_spec`), and
`extend_heap` either carries out `Layout.extend` or, when `mem_sbrk` refuses, reports so and
changes nothing (`extendHeap_granted`, `extendHeap_refused`). `place` is specified on the
block it is given rather than on a layout (`place_spec`), for it is called on a block
that is not in the list and whose footer may be stale.
-/

namespace OsAndC

open Layout

variable {s s' : Machine} {h : Layout} {lo k : ℕ} {b d : Block} {xs ys : List Block}
  {l : List ℕ} {al : Bool}

/-! ### `find_fit` -/

/-- The loop, on a rest `l` of the free list: it returns the first node of `l` that fits. -/
theorem findFitLoop_eq (hw : Wf s.memHeapLo h) (ht : TagsOf s h) (hl : l ⊆ h.free) {p fuel : ℕ}
    (hseg : Seg s.word (fun a => s.word (a + wsize)) p l 0) (hfuel : l.length < fuel) :
    findFitLoop k fuel (l.headD 0) s =
      .ok ((l.find? fun a => k ≤ h.sizeAt a).getD 0) s := by
  induction l generalizing p fuel with
  | nil =>
      cases fuel with
      | zero => cases hfuel
      | succ fuel => rfl
  | cons a l ih =>
      cases fuel with
      | zero => cases hfuel
      | succ fuel =>
          obtain ⟨b, hb, rfl, -⟩ := hw.mem_free.mp (hl List.mem_cons_self)
          obtain ⟨hb16, hb8, -⟩ := hw.block hb
          obtain ⟨hnext, -, hrest⟩ := hseg
          have hhead := (ht.blockTags b hb).1
          have hsize : getSize (getHeaderPtr b.addr) s = .ok b.size s := hhead.getSize_eq
          rw [findFitLoop, List.headD_cons, if_pos (by omega), run_bind_ok hsize]
          by_cases hk : k ≤ b.size
          · rw [if_pos hk, run_pure, List.find?_cons_of_pos (by simpa [hw.sizeAt hb] using hk)]
            rfl
          · have hlink : getNextFreeBlockPtr b.addr s = .ok (l.headD 0) s := by
              obtain ⟨hmod, -, h16, hlow, hhigh⟩ := ht.fits hw hb
              rw [← hnext]
              exact getVal_eq (by omega) ⟨by omega, by omega⟩
            rw [if_neg hk, run_bind_ok hlink,
              List.find?_cons_of_neg (by simpa [hw.sizeAt hb] using hk)]
            exact ih (fun x hx => hl (List.mem_cons_of_mem _ hx)) hrest
              (by rw [List.length_cons] at hfuel; omega)

/-- The list is shorter than the fuel of the loop. -/
theorem free_length_lt (hw : Wf s.memHeapLo h) (hr : Represents s h) :
    h.free.length < maxHeap := by
  have hext : ∀ bs : List Block, (∀ b ∈ bs, 16 ≤ b.size ∧ b.size % 8 = 0) →
      bs.length ≤ extent bs := by
    intro bs hbs
    induction bs with
    | nil => exact Nat.zero_le _
    | cons c bs ih =>
        have h₁ := hbs c List.mem_cons_self
        have h₂ := ih fun x hx => hbs x (List.mem_cons_of_mem c hx)
        rw [List.length_cons, extent_cons]
        omega
  have h₁ := hext h.blocks hw.sizes
  have h₂ : h.free.length ≤ h.blocks.length := by
    rw [hw.perm.length_eq]
    rw [freeAddrs, List.length_map]
    exact List.length_filter_le _ _
  have h₃ := hw.brk_eq
  have h₄ := hr.brk
  have h₅ := s.brk_le_max
  simp only [Machine.memHeapLo] at h₃
  omega

/-- **`find_fit` is first fit** on the abstract list, and it terminates. -/
theorem findFit_eq (hw : Wf s.memHeapLo h) (hr : Represents s h) :
    findFit k s = .ok ((h.fit? k).getD 0) s := by
  rw [findFit, run_get_bind, hr.chain.head]
  exact findFitLoop_eq hw hr.toTagsOf (List.Subset.refl _) hr.chain.links
    (free_length_lt hw hr)

/-! ### `place` -/

/-- `place` up to its list operation: the tags of the pieces are written. -/
theorem place_tags (hd : Fits s d) (htag : Tag s (d.addr - wsize) d.size al)
    (hk : 16 ≤ k ∧ k % 8 = 0) (hkd : k ≤ d.size) :
    ∃ s', (∀ ops : ListOps, ops.place d.addr k s =
        (if 16 ≤ d.size - k then ops.add (d.addr + k) else pure ()) s') ∧
      (∀ c ∈ d.cut k, Tagged s' c) ∧ s'.freeList = s.freeList ∧
      Frame (d.space ∩ {c | c < d.addr ∨ d.addr + k ≤ c + 8}) s s' := by
  obtain ⟨hd₁, hd₂, hd₃, hd₄, hd₅⟩ := hd
  have hlt := Fits.size_lt ⟨hd₁, hd₂, hd₃, hd₄, hd₅⟩
  have hcur : getSize (getHeaderPtr d.addr) s = .ok d.size s := htag.getSize_eq
  have hstart : ∀ ops : ListOps, ops.place d.addr k s = _ := fun ops => by
    rw [ListOps.place, run_bind_ok hcur, sizeSub_eq (by omega : d.size < 2 ^ 32) hkd,
      minBlockSize_eq]
  rw [Block.cut]
  by_cases h16 : 16 ≤ d.size - k
  · have hfirst : Fits s ⟨d.addr, k, true⟩ :=
      ⟨hd₁, hk.2, hk.1, hd₄, by simp only []; omega⟩
    have hsecond : Fits s ⟨d.addr + k, d.size - k, false⟩ :=
      ⟨by simp only []; omega, by simp only []; omega, h16, by simp only []; omega,
        by simp only []; omega⟩
    refine ⟨(s.putTags ⟨d.addr, k, true⟩).putTags ⟨d.addr + k, d.size - k, false⟩,
      fun ops => ?_, ?_, rfl, ?_⟩
    · rw [hstart, if_pos h16, if_pos h16, hfirst.run_setTags (i := 1) rfl,
        run_bind_ok hfirst.tagged_putTags.1.getNextBlockPtr_eq,
        hsecond.putTags.run_setTags (i := 0) rfl]
    · -- the second pair of tags lies behind the first block
      have h₁ : Tagged ((s.putTags ⟨d.addr, k, true⟩).putTags ⟨d.addr + k, d.size - k, false⟩)
          ⟨d.addr, k, true⟩ :=
        hfirst.tagged_putTags.frame (by simp only []; omega)
          (hsecond.putTags.putTags_frame (S := {c | d.addr + k ≤ c + 4}) fun c h₁ _ _ => h₁)
          fun c hc => Or.inr (Or.inr hc)
      rw [if_pos h16]
      simpa using ⟨h₁, hsecond.putTags.tagged_putTags⟩
    · refine (hfirst.putTags_frame fun c h₁ h₂ h₃ => ?_).trans
        (hsecond.putTags.putTags_frame fun c h₁ h₂ h₃ => ?_)
      · simp only [] at h₁ h₂ h₃
        exact ⟨⟨h₁, by omega⟩, by simp only [Set.mem_ofPred_eq]; omega⟩
      · simp only [] at h₁ h₂ h₃
        exact ⟨⟨by omega, by omega⟩, by simp only [Set.mem_ofPred_eq]; omega⟩
  · have hfits : Fits s ⟨d.addr, d.size, true⟩ := ⟨hd₁, hd₂, hd₃, hd₄, hd₅⟩
    refine ⟨s.putTags ⟨d.addr, d.size, true⟩, fun ops => ?_, ?_, rfl,
      hfits.putTags_frame fun c h₁ h₂ h₃ => ?_⟩
    · rw [hstart, if_neg h16, if_neg h16, hfits.setTags_eq (i := 1) rfl]
      rfl
    · rw [if_neg h16]
      simpa using hfits.tagged_putTags
    · simp only [] at h₁ h₂ h₃
      exact ⟨⟨h₁, h₃⟩, by simp only [Set.mem_ofPred_eq]; omega⟩

/-- **`place` cuts the block.** Of the block `d` it is given, `place` reads the size in the
header only. Of the bytes between the tags, it writes none before the end of the first
piece. -/
theorem place_spec (hd : Fits s d) (htag : Tag s (d.addr - wsize) d.size al)
    (hl : FreeChain s l) (hk : 16 ≤ k ∧ k % 8 = 0) (hkd : k ≤ d.size)
    (hsep : ∀ a ∈ l, a + 16 ≤ d.addr ∨ d.addr + d.size ≤ a) :
    ∃ s', place d.addr k s = .ok () s' ∧ (∀ c ∈ d.cut k, Tagged s' c) ∧
      FreeChain s' (if 16 ≤ d.size - k then (d.addr + k) :: l else l) ∧
      Frame {c | c ∈ linkBytes l ∨
        c ∈ d.space ∧ (c < d.addr ∨ d.addr + k ≤ c + 8)} s s' := by
  obtain ⟨s₂, hrun, hcut, hfl, hframe⟩ := place_tags hd htag hk hkd
  obtain ⟨hd₁, hd₂, hd₃, hd₄, hd₅⟩ := hd
  have hl' := hl.frame hframe hfl fun a ha c hc => by
    obtain ⟨⟨h₁, h₂⟩, -⟩ := hc
    have := hsep a ha
    omega
  have hrun : place d.addr k s = _ := hrun .source
  rw [hrun]
  by_cases h16 : 16 ≤ d.size - k
  · obtain ⟨s₃, hrun₃, hchain, hlinks⟩ := addToFreeList_spec (b := d.addr + k) hl' (by omega)
      (hframe.inHeap.mpr ⟨by omega, by omega⟩) fun a ha => by have := hsep a ha; omega
    have hlink : ∀ c ∈ linkBytes ((d.addr + k) :: l), c ∈ linkBytes l ∨
        d.addr + k ≤ c ∧ c < d.addr + k + 8 := by
      rintro c ⟨a, ha, h₁, h₂⟩
      rcases List.mem_cons.mp ha with rfl | ha
      · exact Or.inr ⟨h₁, h₂⟩
      · exact Or.inl ⟨a, ha, h₁, h₂⟩
    have hapart : ∀ c ∈ linkBytes l, c + 4 < d.addr ∨ d.addr + d.size ≤ c + 4 := by
      rintro c ⟨a, ha, h₁, h₂⟩
      have := hsep a ha
      omega
    rw [if_pos h16, if_pos h16]
    refine ⟨s₃, hrun₃, fun x hx => ?_, hchain, ?_⟩
    · -- the new links lie in the second piece, the old ones outside both
      have hx' : 8 ≤ x.size ∧ (x.addr = d.addr ∧ x.size = k ∨
          x.addr = d.addr + k ∧ x.size = d.size - k) := by
        rw [Block.cut, if_pos h16, List.mem_pair] at hx
        rcases hx with rfl | rfl
        · exact ⟨by simp only []; omega, Or.inl ⟨rfl, rfl⟩⟩
        · exact ⟨by simp only []; omega, Or.inr ⟨rfl, rfl⟩⟩
      refine (hcut x hx).frame hx'.1 hlinks fun c hc => ?_
      rcases hlink c hc with hc | hc
      · have := hapart c hc
        omega
      · omega
    · refine (hframe.mono fun c hc => Or.inr hc).trans (hlinks.mono fun c hc => ?_)
      rcases hlink c hc with hc | hc
      · exact Or.inl hc
      · exact Or.inr ⟨⟨by omega, by omega⟩, Or.inr (by omega)⟩
  · rw [if_neg h16, if_neg h16]
    exact ⟨s₂, rfl, hcut, hl', hframe.mono fun c hc => Or.inr hc⟩

/-! ### `coalesce` -/

/-- What a free block `b` becomes between the neighbours `p` and `n`. -/
def merged (p b n : Block) : Block where
  addr := if p.alloc then b.addr else p.addr
  size := (if p.alloc then 0 else p.size) + b.size + (if n.alloc then 0 else n.size)
  alloc := false

/-- `f` writes the tags of the block `m`, changes nothing else and returns its address. -/
def Merges (f : M ℕ) (m : Block) (s : Machine) : Prop :=
  ∃ s', f s = .ok m.addr s' ∧ Tagged s' m ∧ Frame m.tagBytes s s' ∧ s'.freeList = s.freeList

/-- Only the next block is free. -/
theorem mergeTags_next {n : Block} (hbn : n.addr = b.addr + b.size) (hb : Tagged s b)
    (hbf : Fits s b) (hnt : Tagged s n) (hnf : Fits s n) :
    Merges (mergeTags true false b.size b.addr) ⟨b.addr, b.size + n.size, false⟩ s := by
  have hws : wsize = 4 := rfl
  obtain ⟨hb₁, hb₂, hb₃, hb₄, hb₅⟩ := hbf
  have hlt := Fits.size_lt ⟨hb₁, hb₂, hb₃, hb₄, hb₅⟩
  obtain ⟨hn₁, hn₂, hn₃, hn₄, hn₅⟩ := hnf
  have hnlt := Fits.size_lt ⟨hn₁, hn₂, hn₃, hn₄, hn₅⟩
  have hm : Fits s ⟨b.addr, b.size + n.size, false⟩ :=
    ⟨hb₁, by simp only []; omega, by simp only []; omega, hb₄, by simp only []; omega⟩
  have hnext : getNextBlockPtr b.addr s = .ok n.addr s := by
    rw [hbn]
    exact hb.1.getNextBlockPtr_eq
  have hsize : getSize (getHeaderPtr n.addr) s = .ok n.size s := hnt.1.getSize_eq
  have hmod : (b.size + n.size) % 2 ^ 32 = b.size + n.size := Nat.mod_eq_of_lt (by omega)
  simp only [Merges, mergeTags]
  simp only [Bool.and_false, Bool.not_false, Bool.and_true, if_true, if_false, Bool.false_eq_true]
  rw [run_bind_ok hnext, run_bind_ok hsize]
  simp only [hmod]
  rw [hm.run_setTags (i := 0) rfl]
  exact ⟨_, rfl, hm.tagged_putTags, hm.putTags_frame fun c h₁ h₂ h₃ => ⟨⟨h₁, h₃⟩, h₂⟩, rfl⟩

/-- Only the previous block is free. Its size is read a second time, through the footer that
has not been overwritten. -/
theorem mergeTags_prev {p : Block} (hpb : p.addr + p.size = b.addr) (hb : Tagged s b)
    (hbf : Fits s b) (hp : Tagged s p) (hpf : Fits s p) :
    Merges (mergeTags false true b.size b.addr) ⟨p.addr, p.size + b.size, false⟩ s := by
  have hws : wsize = 4 := rfl
  have hds : dsize = 8 := rfl
  obtain ⟨hb₁, hb₂, hb₃, hb₄, hb₅⟩ := hbf
  have hlt := Fits.size_lt ⟨hb₁, hb₂, hb₃, hb₄, hb₅⟩
  obtain ⟨hp₁, hp₂, hp₃, hp₄, hp₅⟩ := hpf
  have hprev : Tag s (b.addr - dsize) p.size p.alloc := by
    rw [← hpb]
    exact hp.2
  have hsize : getSize (getHeaderPtr p.addr) s = .ok p.size s := hp.1.getSize_eq
  have hback : b.addr - p.size = p.addr := by omega
  have hprevptr : getPrevBlockPtr b.addr s = .ok p.addr s := by
    rw [← hback]
    exact hprev.getPrevBlockPtr_eq
  have hm : Fits s ⟨p.addr, p.size + b.size, false⟩ :=
    ⟨hp₁, by simp only []; omega, by simp only []; omega, hp₄, by simp only []; omega⟩
  obtain ⟨hh, hhin, hf, hfin⟩ := hm.words
  have hfoot : p.addr + (p.size + b.size) - dsize = b.addr + b.size - dsize := by omega
  simp only [] at hh hhin hf hfin
  rw [hfoot] at hf hfin
  have hsm : (p.size + b.size) % 8 = 0 := by omega
  have hmod : (b.size + p.size) % 2 ^ 32 = p.size + b.size := by
    rw [Nat.mod_eq_of_lt (by omega), Nat.add_comm]
  have h₁ := hprev.store (v := p.size + b.size + false.toNat) hf (by omega)
  have h₂ := h₁.store (v := p.size + b.size + false.toNat) hh (by omega)
  have hprev₁ := h₁.getPrevBlockPtr_eq
  have hprev₂ := h₂.getPrevBlockPtr_eq
  rw [hback] at hprev₁ hprev₂
  simp only [Merges, mergeTags]
  simp only [Bool.and_true, Bool.false_and, Bool.not_false, Bool.not_true, if_true, if_false,
    Bool.false_eq_true]
  rw [run_bind_ok hprevptr, run_bind_ok hsize]
  simp only [hmod]
  rw [run_bind_ok hb.1.getFooterPtr_eq,
    run_bind_ok (setVal_makeHeader (i := 0) false hf hsm hfin rfl), run_bind_ok hprev₁,
    getHeaderPtr, run_bind_ok (setVal_makeHeader (i := 0) false hh hsm
      (Machine.store_inHeap.mpr hhin) rfl), hprev₂]
  refine ⟨_, rfl, ⟨?_, ?_⟩, ?_, rfl⟩
  · exact Tag.of_store _ hh hsm (by omega) hhin
  · simp only [hfoot]
    exact (Tag.of_store _ hf hsm (by omega) hfin).store hh (by omega)
  · simp only [wsize, dsize]
    refine (Frame.store_of_subset fun c _ _ => ?_).trans (Frame.store_of_subset fun c _ _ => ?_)
    · exact ⟨⟨by simp only []; omega, by simp only []; omega⟩, Or.inr (by simp only []; omega)⟩
    · exact ⟨⟨by simp only []; omega, by simp only []; omega⟩, Or.inl (by simp only []; omega)⟩

/-- Both neighbours are free. The header goes first, the next block's footer is found after
that, and the previous block's footer is still there at the end. -/
theorem mergeTags_both {p n : Block} (hpb : p.addr + p.size = b.addr)
    (hbn : n.addr = b.addr + b.size) (hb : Tagged s b) (hbf : Fits s b) (hp : Tagged s p)
    (hpf : Fits s p) (hnt : Tagged s n) (hnf : Fits s n) :
    Merges (mergeTags false false b.size b.addr) ⟨p.addr, p.size + b.size + n.size, false⟩
      s := by
  have hws : wsize = 4 := rfl
  have hds : dsize = 8 := rfl
  obtain ⟨hb₁, hb₂, hb₃, hb₄, hb₅⟩ := hbf
  obtain ⟨hp₁, hp₂, hp₃, hp₄, hp₅⟩ := hpf
  obtain ⟨hn₁, hn₂, hn₃, hn₄, hn₅⟩ := hnf
  have hnlt := Fits.size_lt ⟨hn₁, hn₂, hn₃, hn₄, hn₅⟩
  have hprev : Tag s (b.addr - dsize) p.size p.alloc := by
    rw [← hpb]
    exact hp.2
  have hsize : getSize (getHeaderPtr p.addr) s = .ok p.size s := hp.1.getSize_eq
  have hback : b.addr - p.size = p.addr := by omega
  have hprevptr : getPrevBlockPtr b.addr s = .ok p.addr s := by
    rw [← hback]
    exact hprev.getPrevBlockPtr_eq
  have hm : Fits s ⟨p.addr, p.size + b.size + n.size, false⟩ :=
    ⟨hp₁, by simp only []; omega, by simp only []; omega, hp₄, by simp only []; omega⟩
  obtain ⟨hh, hhin, hf, hfin⟩ := hm.words
  have hfoot : p.addr + (p.size + b.size + n.size) - dsize = n.addr + n.size - dsize := by omega
  simp only [] at hh hhin hf hfin
  rw [hfoot] at hf hfin
  have hsm : (p.size + b.size + n.size) % 8 = 0 := by omega
  have hmod : (b.size + (p.size + n.size)) % 2 ^ 32 = p.size + b.size + n.size := by
    rw [Nat.mod_eq_of_lt (by omega)]
    omega
  have hnext : getNextBlockPtr b.addr s = .ok n.addr s := by
    rw [hbn]
    exact hb.1.getNextBlockPtr_eq
  have hnext₁ := (hb.1.store (v := p.size + b.size + n.size + false.toNat) hh
    (by omega)).getNextBlockPtr_eq
  have hfoot₁ := (hnt.1.store (v := p.size + b.size + n.size + false.toNat) hh
    (by omega)).getFooterPtr_eq
  have hprev₂ := ((hprev.store (v := p.size + b.size + n.size + false.toNat) hh
    (by omega)).store (v := p.size + b.size + n.size + false.toNat) hf
    (by omega)).getPrevBlockPtr_eq
  rw [← hbn] at hnext₁
  rw [hback] at hprev₂
  simp only [Merges, mergeTags]
  simp only [Bool.false_and, Bool.true_and, Bool.not_false, if_false, Bool.false_eq_true]
  rw [run_bind_ok hprevptr, run_bind_ok hsize, run_bind_ok hnext,
    run_bind_ok hnt.1.getFooterPtr_eq, run_bind_ok hnt.2.getSize_eq]
  simp only [hmod]
  rw [run_bind_ok hprevptr, getHeaderPtr,
    run_bind_ok (setVal_makeHeader (i := 0) false hh hsm hhin rfl), run_bind_ok hnext₁,
    run_bind_ok hfoot₁,
    run_bind_ok (setVal_makeHeader (i := 0) false hf hsm
      (Machine.store_inHeap.mpr hfin) rfl), hprev₂]
  have hput := hm.tagged_putTags
  have hframe := hm.putTags_frame (S := Block.tagBytes ⟨p.addr, _, false⟩)
    fun c h₁ h₂ h₃ => ⟨⟨h₁, h₃⟩, h₂⟩
  simp only [Machine.putTags] at hput hframe
  simp only [hfoot] at hput hframe
  exact ⟨_, rfl, hput, hframe, rfl⟩

/-- **The four-way branch** writes the tags of the merged block. In each case the words it
computes addresses from have not been overwritten yet. -/
theorem mergeTags_spec {p b n : Block} (hpb : p.addr + p.size = b.addr)
    (hbn : n.addr = b.addr + b.size) (hb : Tagged s b) (hbf : Fits s b) (hba : b.alloc = false)
    (hp : p.alloc = false → Tagged s p ∧ Fits s p)
    (hn : n.alloc = false → Tagged s n ∧ Fits s n) :
    Merges (mergeTags p.alloc n.alloc b.size b.addr) (merged p b n) s := by
  cases hpa : p.alloc with
  | true =>
      cases hna : n.alloc with
      | true =>
          have hm : merged p b n = b := by simp [merged, hpa, hna, ← hba]
          rw [hm]
          exact ⟨s, rfl, hb, Frame.refl _ s, rfl⟩
      | false =>
          have hm : merged p b n = ⟨b.addr, b.size + n.size, false⟩ := by
            simp [merged, hpa, hna]
          rw [hm]
          exact mergeTags_next hbn hb hbf (hn hna).1 (hn hna).2
  | false =>
      obtain ⟨hpt, hpf⟩ := hp hpa
      cases hna : n.alloc with
      | true =>
          have hm : merged p b n = ⟨p.addr, p.size + b.size, false⟩ := by
            simp [merged, hpa, hna]
          rw [hm]
          exact mergeTags_prev hpb hb hbf hpt hpf
      | false =>
          have hm : merged p b n = ⟨p.addr, p.size + b.size + n.size, false⟩ := by
            simp [merged, hpa, hna]
          rw [hm]
          exact mergeTags_both hpb hbn hb hbf hpt hpf (hn hna).1 (hn hna).2

/-- The blocks that go into the merged block. -/
def mergedRun (p b n : Block) : List Block :=
  (if p.alloc then [] else [p]) ++ b :: (if n.alloc then [] else [n])

/-- The abstract operation, by the neighbours of the block. -/
theorem coalesce_layout (hw : Wf lo h) (hbs : h.blocks = xs ++ b :: ys) (hb : b.alloc = false)
    (hxs : Coalesced xs) (hys : Coalesced ys) {p n : Block} (hp : p = prevOf lo xs)
    (hn : n = nextOf h.brk ys) :
    (∀ d ∈ mergedRun p b n, d ∈ h.blocks ∧ d.alloc = false) ∧
    ∃ pre post, h.blocks = pre ++ mergedRun p b n ++ post ∧
      (∀ x ∈ pre.getLast?, x.alloc = true) ∧ (∀ y ∈ post.head?, y.alloc = true) ∧
      h.coalesce b.addr = ⟨pre ++ [merged p b n] ++ post, (merged p b n).addr ::
        h.free.filter (fun x => x ∉ (mergedRun p b n).map Block.addr), h.brk⟩ := by
  obtain ⟨pre, hpre, hcpre, hl⟩ := prevOf_run lo hxs
  obtain ⟨post, hpost, hcpost, hh⟩ := nextOf_run h.brk hys
  rw [← hp] at hpre
  rw [← hn] at hpost
  have hrun : h.blocks = pre ++ mergedRun p b n ++ post := by
    rw [hbs, hpre, hpost]
    simp [mergedRun]
  have hfree : ∀ d ∈ mergedRun p b n, d.alloc = false := by
    intro d hd
    simp only [mergedRun] at hd
    rcases List.mem_append.mp hd with hd | hd
    · split_ifs at hd with hpa
      · cases hd
      · rw [List.mem_singleton.mp hd]
        simpa using hpa
    · rcases List.mem_cons.mp hd with rfl | hd
      · exact hb
      · split_ifs at hd with hna
        · cases hd
        · rw [List.mem_singleton.mp hd]
          simpa using hna
  refine ⟨fun d hd => ⟨by rw [hrun]; simp [hd], hfree d hd⟩, pre, post, hrun, hl, hh, ?_⟩
  have hbmem : b ∈ mergedRun p b n := by simp [mergedRun]
  unfold mergedRun at hrun hfree hbmem ⊢
  unfold merged
  cases hpa : p.alloc with
  | true =>
      simp only [hpa, if_true, List.nil_append] at hrun hfree hbmem ⊢
      rw [coalesce_eq hw hrun hfree hcpre hcpost hl hh hbmem]
      cases n.alloc <;> simp
  | false =>
      simp only [hpa, if_false, Bool.false_eq_true, List.singleton_append] at hrun hfree hbmem ⊢
      rw [coalesce_eq hw hrun hfree hcpre hcpost hl hh hbmem]
      cases n.alloc <;> simp [Nat.add_assoc]

/-- Unlinking a node leaves the tags alone. -/
theorem unlink_spec {a : ℕ} (hw : Wf s.memHeapLo h) (ht : TagsOf s h) (hl : FreeChain s l)
    (hsub : l ⊆ h.free) (ha : a ∈ l) :
    ∃ s', removeFromFreeList a s = .ok () s' ∧ TagsOf s' h ∧ FreeChain s' (l.erase a) ∧
      Frame (linkBytes h.free) s s' := by
  obtain ⟨s', hrun, hchain, hf⟩ := removeFromFreeList_spec hl ha
  refine ⟨s', hrun, ht.frame_links hw hsub hf, hchain, hf.mono ?_⟩
  rintro c ⟨x, hx, h₁, h₂⟩
  exact ⟨x, hsub hx, h₁, h₂⟩

/-- Linking a free block in front of the other ones leaves the tags alone. -/
theorem add_spec {a : ℕ} (hw : Wf s.memHeapLo h) (ht : TagsOf s h) (hl : FreeChain s l)
    (hfree : h.free = a :: l) :
    ∃ s', addToFreeList a s = .ok () s' ∧ Represents s' h ∧ Frame (linkBytes h.free) s s' := by
  have hmem : ∀ x ∈ a :: l, ∃ d ∈ h.blocks, d.addr = x ∧ d.alloc = false := fun x hx =>
    hw.mem_free.mp (by rwa [hfree])
  obtain ⟨d, hd, hda, -⟩ := hmem a List.mem_cons_self
  obtain ⟨h₁, h₂, h₃, h₄, h₅⟩ := ht.fits hw hd
  have hnd := hw.nodup
  rw [hfree, List.nodup_cons] at hnd
  obtain ⟨s', hrun, hchain, hf⟩ := addToFreeList_spec (b := a) hl (by omega)
    ⟨by omega, by omega⟩ fun x hx => by
      obtain ⟨c, hc, rfl, -⟩ := hmem x (List.mem_cons_of_mem a hx)
      have := hw.apart hd hc (by rw [hda]; exact fun h0 => hnd.1 (h0 ▸ hx))
      have := (hw.block hc).2.2.1
      omega
  rw [← hfree] at hchain hf
  exact ⟨s', hrun, ⟨ht.frame_links hw (List.Subset.refl _) hf, hchain⟩, hf⟩

/-- A neighbour is unlinked unless it is allocated. -/
theorem unlinkUnless_spec {a : ℕ} {x : M ℕ} (hx : al = false → x s = .ok a s)
    (hw : Wf s.memHeapLo h) (ht : TagsOf s h) (hl : FreeChain s l) (hsub : l ⊆ h.free)
    (ha : al = false → a ∈ l) :
    ∃ s', (do unless al do removeFromFreeList (← x) : M Unit) s = .ok () s' ∧ TagsOf s' h ∧
      FreeChain s' (l.diff (if al then [] else [a])) ∧ Frame (linkBytes h.free) s s' := by
  cases al with
  | true => exact ⟨s, rfl, ht, by simpa using hl, Frame.refl _ s⟩
  | false =>
      obtain ⟨s', hrun, ht', hl', hf⟩ := unlink_spec hw ht hl hsub (ha rfl)
      refine ⟨s', ?_, ht', by simpa using hl', hf⟩
      change (x >>= fun y => removeFromFreeList y) s = _
      rw [run_bind_ok (hx rfl), hrun]

/-- Every byte of the merged block belongs to a block that goes into it. -/
theorem merged_space {p n : Block} {c : ℕ} (hpb : p.addr + p.size = b.addr)
    (hbn : n.addr = b.addr + b.size) (hc : c ∈ (merged p b n).space) :
    ∃ d ∈ mergedRun p b n, c ∈ d.space := by
  obtain ⟨h₁, h₂⟩ := hc
  unfold merged at h₁ h₂
  unfold mergedRun
  simp only [] at h₁ h₂
  by_cases hcp : c + 4 < b.addr
  · cases hpa : p.alloc with
    | true => simp only [hpa, if_true] at h₁; omega
    | false =>
        simp only [hpa, if_false, Bool.false_eq_true] at h₁
        exact ⟨p, by simp, h₁, by omega⟩
  · by_cases hcn : c + 4 < b.addr + b.size
    · exact ⟨b, by simp, by omega, hcn⟩
    · cases hna : n.alloc with
      | true =>
          simp only [hna, if_true] at h₂
          split_ifs at h₂ <;> omega
      | false =>
          simp only [hna, if_false, Bool.false_eq_true] at h₂
          refine ⟨n, by simp, by omega, ?_⟩
          split_ifs at h₂ <;> omega

/-- The merged block starts where one of the blocks that go into it starts, and reaches at
least as far. -/
theorem merged_start (p b n : Block) :
    ∃ d ∈ mergedRun p b n, d.addr = (merged p b n).addr ∧ d.size ≤ (merged p b n).size := by
  simp only [merged, mergedRun]
  cases hpa : p.alloc with
  | true => exact ⟨b, by simp, by simp, by simp⟩
  | false => exact ⟨p, by simp, by simp, by simp only [if_false, Bool.false_eq_true]; omega⟩

/-- The nodes that stay in the list lie outside the merged block. -/
theorem merged_apart {p n : Block} {a : ℕ} (hw : Wf lo h) (hpb : p.addr + p.size = b.addr)
    (hbn : n.addr = b.addr + b.size)
    (hrun : ∀ d ∈ mergedRun p b n, d ∈ h.blocks ∧ d.alloc = false) (ha : a ∈ h.free)
    (hna : a ∉ (mergedRun p b n).map Block.addr) :
    a + 16 ≤ (merged p b n).addr ∨ (merged p b n).addr + (merged p b n).size ≤ a := by
  have hapart : ∀ d ∈ mergedRun p b n, a + 16 ≤ d.addr ∨ d.addr + d.size ≤ a := by
    intro d hd
    obtain ⟨x, hx, rfl, -⟩ := hw.mem_free.mp ha
    have hxd : x.addr ≠ d.addr := fun h0 => hna (h0 ▸ List.mem_map_of_mem hd)
    have := hw.apart hx (hrun d hd).1 hxd
    have := (hw.block hx).2.2.1
    omega
  obtain ⟨d₀, hd₀, haddr, hsize⟩ := merged_start p b n
  have h₀ := hapart d₀ hd₀
  have hd₀w := hw.block (hrun d₀ hd₀).1
  by_contra h0
  -- the byte before the node would be one of a block of the run
  obtain ⟨d, hd, h₁, h₂⟩ := merged_space (c := a - 4) hpb hbn ⟨by omega, by omega⟩
  have := hapart d hd
  omega

/-- The three removals take the nodes of the run out of the list. -/
theorem diff_mergedRun {l : List ℕ} (hnd : l.Nodup) (p b n : Block) :
    ((l.diff (if n.alloc then [] else [n.addr])).diff
      (if p.alloc then [] else [p.addr])).erase b.addr =
      l.filter (fun x => x ∉ (mergedRun p b n).map Block.addr) := by
  rw [← List.diff_append, ← List.diff_cons_right, hnd.sdiff_eq_filter]
  refine List.filter_congr ?_
  intro x _
  rw [mergedRun, decide_eq_decide]
  split_ifs <;> simp <;> tauto

/-- Unlinking a neighbour keeps the nodes at other addresses. -/
theorem mem_diff_unless {l : List ℕ} {a x : ℕ} (hnd : l.Nodup) (ha : a ∈ l)
    (hne : al = false → a ≠ x) : a ∈ l.diff (if al then [] else [x]) := by
  cases al with
  | true => simpa using ha
  | false => exact hnd.mem_sdiff_iff.mpr ⟨ha, by simpa using hne rfl⟩

/-- The nodes of the list around the merged block are old nodes. -/
theorem merged_links {p n : Block} {l : List ℕ} (hw : Wf lo h)
    (hrun : ∀ d ∈ mergedRun p b n, d ∈ h.blocks ∧ d.alloc = false) (hl : l ⊆ h.free) :
    linkBytes ((merged p b n).addr :: l) ⊆ linkBytes h.free := by
  rintro c ⟨a, ha, hc⟩
  rcases List.mem_cons.mp ha with rfl | ha
  · obtain ⟨d, hd, haddr, -⟩ := merged_start p b n
    exact ⟨_, hw.mem_free.mpr ⟨d, (hrun d hd).1, haddr, (hrun d hd).2⟩, hc⟩
  · exact ⟨a, hl ha, hc⟩

/-- The neighbours of a block, as the code finds them by its tags. -/
theorem TagsOf.neighbours (ht : TagsOf s h) (hw : Wf s.memHeapLo h)
    (hbs : h.blocks = xs ++ b :: ys) :
    Tagged s (prevOf s.memHeapLo xs) ∧
      Tag s ((nextOf h.brk ys).addr - wsize) (nextOf h.brk ys).size (nextOf h.brk ys).alloc ∧
      getPrevBlockPtr b.addr s = .ok (prevOf s.memHeapLo xs).addr s ∧
      getNextBlockPtr b.addr s = .ok (nextOf h.brk ys).addr s := by
  have hpb := prevOf_end hw hbs
  have hpt := ht.prev hbs
  have hfoot := hpt.2
  rw [hpb] at hfoot
  have hprev := hfoot.getPrevBlockPtr_eq
  rw [← hpb, Nat.add_sub_cancel] at hprev
  refine ⟨hpt, ht.next_header hbs, hpb ▸ hprev, ?_⟩
  rw [nextOf_addr hw hbs]
  exact (ht.blockTags b (by rw [hbs]; simp)).1.getNextBlockPtr_eq

/-- `coalesce` up to its first list operation: the tags of the neighbours are read. -/
theorem TagsOf.coalesce_start (ht : TagsOf s h) (hw : Wf s.memHeapLo h)
    (hbs : h.blocks = xs ++ b :: ys) {p n : Block} (hp : p = prevOf s.memHeapLo xs)
    (hn : n = nextOf h.brk ys) (ops : ListOps) : ops.coalesce b.addr s = (do
      (unless n.alloc do ops.remove (← getNextBlockPtr b.addr))
      (unless p.alloc do ops.remove (← getPrevBlockPtr b.addr))
      (do if ← isFree (getHeaderPtr b.addr) then ops.remove b.addr)
      let bp ← mergeTags p.alloc n.alloc b.size b.addr
      ops.add bp
      return bp) s := by
  obtain ⟨hpt, hnt, hprev, hnext⟩ := ht.neighbours hw hbs
  rw [← hp] at hpt hprev
  rw [← hn] at hnt hnext
  have hbt := ht.blockTags b (by rw [hbs]; simp)
  rw [ListOps.coalesce, run_bind_ok hprev, run_bind_ok hpt.1.getFooterPtr_eq,
    run_bind_ok hpt.2.isAllocated_eq, run_bind_ok hnext, getHeaderPtr,
    run_bind_ok hnt.isAllocated_eq, getHeaderPtr, run_bind_ok hbt.1.getSize_eq]

/-- The tags of the layout are in place, and `l` is what is left of its list since `s`. -/
structure Listing (s t : Machine) (h : Layout) (l : List ℕ) : Prop where
  tags : TagsOf t h
  chain : FreeChain t l
  sub : l ⊆ h.free
  frame : Frame (linkBytes h.free) s t

/-- `coalesce` on the way: the nodes of the run are unlinked one after the other. -/
theorem coalesce_unlinks (hw : Wf s.memHeapLo h) (hr : Represents s h)
    (hbs : h.blocks = xs ++ b :: ys) (hb : b.alloc = false) (hxs : Coalesced xs)
    (hys : Coalesced ys) {p n : Block} (hp : p = prevOf s.memHeapLo xs)
    (hn : n = nextOf h.brk ys) :
    ∃ s₁ s₂ s₃ l₁ l₂, Listing s s₁ h l₁ ∧ Listing s s₂ h l₂ ∧
      Listing s s₃ h (h.free.filter fun x => x ∉ (mergedRun p b n).map Block.addr) ∧
      (n.alloc = false → n.addr ∈ h.free) ∧ (p.alloc = false → p.addr ∈ l₁) ∧ b.addr ∈ l₂ ∧
      (do unless n.alloc do removeFromFreeList (← getNextBlockPtr b.addr) : M Unit) s =
        .ok () s₁ ∧
      (do unless p.alloc do removeFromFreeList (← getPrevBlockPtr b.addr) : M Unit) s₁ =
        .ok () s₂ ∧
      removeFromFreeList b.addr s₂ = .ok () s₃ := by
  obtain ⟨hrunfree, -⟩ := coalesce_layout hw hbs hb hxs hys hp hn
  have hpb : p.addr + p.size = b.addr := hp ▸ prevOf_end hw hbs
  have hbn : n.addr = b.addr + b.size := hn ▸ nextOf_addr hw hbs
  have hb16 := (hw.block (b := b) (by rw [hbs]; simp)).2.2.1
  have hfree : ∀ d ∈ mergedRun p b n, d.addr ∈ h.free := fun d hd =>
    hw.mem_free.mpr ⟨d, (hrunfree d hd).1, rfl, (hrunfree d hd).2⟩
  have hpmem : p.alloc = false → p ∈ mergedRun p b n := fun h0 => by simp [mergedRun, h0]
  have hnmem : n.alloc = false → n ∈ mergedRun p b n := fun h0 => by simp [mergedRun, h0]
  have hnd := hw.nodup
  have hpw : p.alloc = false → p.addr < b.addr := fun h0 => by
    have := (hw.block (hrunfree p (hpmem h0)).1).2.2.1
    omega
  have hsub₁ : h.free.diff (if n.alloc then [] else [n.addr]) ⊆ h.free :=
    (List.diff_sublist _ _).subset
  have hsub₂ : (h.free.diff (if n.alloc then [] else [n.addr])).diff
      (if p.alloc then [] else [p.addr]) ⊆ h.free :=
    List.Subset.trans (List.diff_sublist _ _).subset hsub₁
  have hp₁ : p.alloc = false → p.addr ∈ h.free.diff (if n.alloc then [] else [n.addr]) :=
    fun h0 => mem_diff_unless hnd (hfree p (hpmem h0)) fun _ => by
      have := hpw h0
      omega
  have hb₂ : b.addr ∈ (h.free.diff (if n.alloc then [] else [n.addr])).diff
      (if p.alloc then [] else [p.addr]) := by
    refine mem_diff_unless hnd.diff (mem_diff_unless hnd (hfree b (by simp [mergedRun])) ?_) ?_
    · intro _
      omega
    · intro h0
      have := hpw h0
      omega
  have hnext : getNextBlockPtr b.addr s = .ok n.addr s :=
    hn ▸ (hr.toTagsOf.neighbours hw hbs).2.2.2
  obtain ⟨s₁, hrun₁, ht₁, hl₁, hf₁⟩ := unlinkUnless_spec (fun _ => hnext) hw hr.toTagsOf hr.chain
    (List.Subset.refl _) fun h0 => hfree n (hnmem h0)
  have hprev : getPrevBlockPtr b.addr s₁ = .ok p.addr s₁ := by
    rw [hp, ← hf₁.memHeapLo]
    exact (ht₁.neighbours (hf₁.memHeapLo ▸ hw) hbs).2.2.1
  obtain ⟨s₂, hrun₂, ht₂, hl₂, hf₂⟩ := unlinkUnless_spec (fun _ => hprev) (hf₁.memHeapLo ▸ hw)
    ht₁ hl₁ hsub₁ hp₁
  have hf₁₂ := hf₁.trans hf₂
  obtain ⟨s₃, hrun₃, ht₃, hl₃, hf₃⟩ := unlink_spec (a := b.addr) (hf₁₂.memHeapLo ▸ hw) ht₂ hl₂
    hsub₂ hb₂
  rw [diff_mergedRun hnd] at hl₃
  exact ⟨s₁, s₂, s₃, _, _, ⟨ht₁, hl₁, hsub₁, hf₁⟩, ⟨ht₂, hl₂, hsub₂, hf₁₂⟩,
    ⟨ht₃, hl₃, List.filter_subset_self _, hf₁₂.trans hf₃⟩, fun h0 => hfree n (hnmem h0), hp₁, hb₂,
    hrun₁, hrun₂, hrun₃⟩

/-- `coalesce` up to its last list operation: the blocks of the run, unlinked, get the tags of
one block. -/
theorem coalesce_joins (hw : Wf s.memHeapLo h) (hr : Represents s h)
    (hbs : h.blocks = xs ++ b :: ys) (hb : b.alloc = false) (hxs : Coalesced xs)
    (hys : Coalesced ys) {p n : Block} (hp : p = prevOf s.memHeapLo xs)
    (hn : n = nextOf h.brk ys) {s₃ : Machine}
    (hl₃ : Listing s s₃ h (h.free.filter fun x => x ∉ (mergedRun p b n).map Block.addr)) :
    ∃ s₄, mergeTags p.alloc n.alloc b.size b.addr s₃ = .ok (merged p b n).addr s₄ ∧
      TagsOf s₄ (h.coalesce b.addr) ∧
      (∃ l, (h.coalesce b.addr).free = (merged p b n).addr :: l ∧ l ⊆ h.free ∧ FreeChain s₄ l) ∧
      Frame {c | c ∈ linkBytes h.free ∨ c ∈ (merged p b n).tagBytes} s s₄ := by
  obtain ⟨hrunfree, pre, post, hrun, -, -, heq⟩ := coalesce_layout hw hbs hb hxs hys hp hn
  have hpb : p.addr + p.size = b.addr := hp ▸ prevOf_end hw hbs
  have hbn : n.addr = b.addr + b.size := hn ▸ nextOf_addr hw hbs
  have hpmem : p.alloc = false → p ∈ mergedRun p b n := fun h0 => by simp [mergedRun, h0]
  have hnmem : n.alloc = false → n ∈ mergedRun p b n := fun h0 => by simp [mergedRun, h0]
  have hfits₃ : ∀ d ∈ mergedRun p b n, Tagged s₃ d ∧ Fits s₃ d := fun d hd =>
    ⟨hl₃.tags.blockTags d (hrunfree d hd).1,
      hl₃.tags.fits (hl₃.frame.memHeapLo ▸ hw) (hrunfree d hd).1⟩
  obtain ⟨hbt₃, hbf₃⟩ := hfits₃ b (by simp [mergedRun])
  obtain ⟨s₄, hrun₄, hmt₄, hf₄, hfl₄⟩ := mergeTags_spec hpb hbn hbt₃ hbf₃ hb
    (fun h0 => hfits₃ p (hpmem h0)) fun h0 => hfits₃ n (hnmem h0)
  have hf : Frame {c | c ∈ linkBytes h.free ∨ c ∈ (merged p b n).tagBytes} s s₄ :=
    (hl₃.frame.mono fun c hc => Or.inl hc).trans (hf₄.mono fun c hc => Or.inr hc)
  rw [heq]
  refine ⟨s₄, hrun₄, hr.toTagsOf.update hw _ _ hrun hf (fun c hc => ?_) fun x hx => ?_,
    ⟨_, rfl, List.filter_subset_self _, hl₃.chain.frame hf₄ hfl₄ fun a ha c hc => ?_⟩, hf⟩
  · exact hc.imp (mem_linkBytes_block hw (List.Subset.refl _)) fun hc => merged_space hpb hbn hc.1
  · rw [List.mem_singleton.mp hx]
    exact hmt₄
  · rw [List.mem_filter, decide_eq_true_eq] at ha
    have := merged_apart hw hpb hbn hrunfree ha.1 ha.2
    obtain ⟨⟨h₁, h₂⟩, -⟩ := hc
    omega

/-- **`coalesce` refines the abstract operation.** It returns the address of the merged block
and writes only the links of the list and the tags of the merged block. -/
theorem coalesce_writes (hw : Wf s.memHeapLo h) (hr : Represents s h)
    (hbs : h.blocks = xs ++ b :: ys) (hb : b.alloc = false) (hxs : Coalesced xs)
    (hys : Coalesced ys) {p n : Block} (hp : p = prevOf s.memHeapLo xs)
    (hn : n = nextOf h.brk ys) :
    ∃ s', coalesce b.addr s = .ok (merged p b n).addr s' ∧
      Represents s' (h.coalesce b.addr) ∧
      Frame (linkBytes h.free ∪ (merged p b n).tagBytes) s s' := by
  obtain ⟨hrunfree, -⟩ := coalesce_layout hw hbs hb hxs hys hp hn
  obtain ⟨s₁, s₂, s₃, l₁, l₂, -, hl₂, hl₃, -, -, -, hrun₁, hrun₂, hrun₃⟩ :=
    coalesce_unlinks hw hr hbs hb hxs hys hp hn
  obtain ⟨s₄, hrun₄, ht₄, ⟨l, hfree, hsub, hc₄⟩, hf₄⟩ :=
    coalesce_joins hw hr hbs hb hxs hys hp hn hl₃
  obtain ⟨s₅, hrun₅, hr₅, hf₅⟩ := add_spec
    (hf₄.memHeapLo ▸ (hw.coalesce_valid hbs hb hxs hys).toWf) ht₄ hc₄ hfree
  refine ⟨s₅, ?_, hr₅, hf₄.trans (hf₅.mono fun c hc => ?_)⟩
  · have hself : (do if ← isFree (getHeaderPtr b.addr) then removeFromFreeList b.addr) s₂ =
        .ok () s₃ := by
      rw [getHeaderPtr,
        run_bind_ok (hl₂.tags.blockTags b (by rw [hbs]; simp)).1.isFree_eq, hb]
      exact hrun₃
    calc coalesce b.addr s
      _ = _ := hr.toTagsOf.coalesce_start hw hbs hp hn .source
      _ = _ := run_bind_ok hrun₁
      _ = _ := run_bind_ok hrun₂
      _ = _ := run_bind_ok hself
      _ = _ := run_bind_ok hrun₄
      _ = .ok (merged p b n).addr s₅ := run_bind_ok hrun₅
  · rw [hfree] at hc
    exact Or.inl (merged_links hw hrunfree hsub hc)

/-- The writes of `coalesce`, by the blocks it merges. -/
theorem coalesce_merged (hw : Wf s.memHeapLo h) (hr : Represents s h)
    (hbs : h.blocks = xs ++ b :: ys) (hb : b.alloc = false) (hxs : Coalesced xs)
    (hys : Coalesced ys) {p n : Block} (hp : p = prevOf s.memHeapLo xs)
    (hn : n = nextOf h.brk ys) :
    ∃ s', coalesce b.addr s = .ok (merged p b n).addr s' ∧
      Represents s' (h.coalesce b.addr) ∧
      Frame {c | c ∈ linkBytes h.free ∨ ∃ d ∈ mergedRun p b n, c ∈ d.space} s s' := by
  obtain ⟨s', hrun, hr', hf⟩ := coalesce_writes hw hr hbs hb hxs hys hp hn
  refine ⟨s', hrun, hr', hf.mono fun c hc => hc.imp_right fun hc => ?_⟩
  exact merged_space (hp ▸ prevOf_end hw hbs) (hn ▸ nextOf_addr hw hbs) hc.1

/-- Joining, as the operations see it: the result is the new head of the list, and only free
blocks are written into. -/
theorem coalesce_spec (hw : Wf s.memHeapLo h) (hr : Represents s h)
    (hbs : h.blocks = xs ++ b :: ys) (hb : b.alloc = false) (hxs : Coalesced xs)
    (hys : Coalesced ys) :
    ∃ s', coalesce b.addr s = .ok ((h.coalesce b.addr).free.headD 0) s' ∧
      Represents s' (h.coalesce b.addr) ∧ Frame h.freeSpace s s' := by
  obtain ⟨hrunfree, pre, post, -, -, -, heq⟩ := coalesce_layout hw hbs hb hxs hys rfl rfl
  obtain ⟨s', hrun, hr', hf⟩ := coalesce_merged hw hr hbs hb hxs hys rfl rfl
  refine ⟨s', ?_, hr', hf.mono ?_⟩
  · rw [hrun, heq]
    rfl
  · rintro c (hc | ⟨d, hd, hcd⟩)
    · exact linkBytes_subset hw (List.Subset.refl _) hc
    · exact ⟨d, (hrunfree d hd).1, (hrunfree d hd).2, hcd⟩

/-! ### `extend_heap` -/

/-- A larger heap has the tags of the smaller one. -/
theorem Tag.grow {a n : ℕ} (ht : Tag s a n al) (ha : s'.arena = s.arena) (hm : s'.mem = s.mem)
    (hb : s.memBrk ≤ s'.memBrk) : Tag s' a n al := by
  obtain ⟨h₁, h₂, h₃, h₄, h₅⟩ := ht
  refine ⟨?_, h₂, h₃, ?_, h₅.trans hb⟩
  · rw [← h₁]
    simp only [Machine.word]
    rw [hm]
  · simp only [Machine.memHeapLo] at *
    rwa [ha]

/-- The list survives an extension of the heap that keeps its link words. -/
theorem FreeChain.grow (hl : FreeChain s l) (ha : s'.arena = s.arena)
    (hb : s.memBrk ≤ s'.memBrk) (hf : s'.freeList = s.freeList)
    (hm : ∀ a ∈ l, ∀ c, a ≤ c → c < a + 8 → s'.mem c = s.mem c) : FreeChain s' l := by
  refine ⟨hf.trans hl.head, hl.links.congr fun a hal => ⟨?_, ?_⟩, hl.aligned, fun a hal => ?_,
    hl.apart⟩
  · exact Mem.load32_congr fun c h₁ h₂ => hm a hal c h₁ (by omega)
  · exact Mem.load32_congr fun c h₁ h₂ => hm a hal c (by simp only [wsize] at *; omega)
      (by simp only [wsize] at *; omega)
  · obtain ⟨h₁, h₂⟩ := hl.inHeap a hal
    refine ⟨?_, h₂.trans hb⟩
    simp only [Machine.memHeapLo] at *
    rwa [ha]

/-- The argument of `extend_heap` in words, and the number of bytes it stands for. -/
theorem extendHeap_size {g : ℕ} (h8 : g % 8 = 0) (hlt : g < 2 ^ 32) :
    (if g / wsize % 2 ≠ 0 then (g / wsize + 1) * wsize % 2 ^ 32
      else g / wsize * wsize % 2 ^ 32) = g := by
  rw [wsize, if_neg (by omega)]
  omega

/-- Out of memory: `extend_heap` reports `NULL` and changes nothing. -/
theorem extendHeap_refused {g : ℕ} (h8 : g % 8 = 0) (hlt : g < 2 ^ 32)
    (hg : s.Refuses (toInt g)) :
    extendHeap (g / wsize) s = .ok 0 { s with sbrks := ⟨toInt g, false⟩ :: s.sbrks } := by
  rw [extendHeap]
  simp only [ListOps.extendHeap]
  simp only [extendHeap_size h8 hlt]
  rw [run_bind_ok (memSbrk_refused hg)]
  rfl

/-- A request that is not refused is positive as an `int` and fits in the arena. -/
theorem not_refuses {g : ℕ} (hlt : g < 2 ^ 32) (hg : ¬ s.Refuses (toInt g)) :
    (toInt g).toNat = g ∧ s.memBrk + g ≤ s.memMaxAddr := by
  simp only [Machine.Refuses, toInt] at hg
  simp only [toInt]
  split_ifs at hg ⊢ <;> omega

/-- The first half of `extend_heap`: the break is moved, and the new block and the new
epilogue are written. What the free list looks like plays no part yet. -/
theorem extendHeap_append {g : ℕ} (hv : Valid s.memHeapLo h) (ht : TagsOf s h)
    (hg : 16 ≤ g ∧ g % 8 = 0) (hlt : g < 2 ^ 32) (hgr : ¬ s.Refuses (toInt g)) :
    ∃ s', (∀ ops : ListOps,
        ops.extendHeap (g / wsize) s = (do ops.add h.brk; ops.coalesce h.brk) s') ∧
      TagsOf s' ⟨h.blocks ++ [⟨h.brk, g, false⟩], h.brk :: h.free, h.brk + g⟩ ∧
      s'.arena = s.arena ∧ s'.heapPtr = s.heapPtr ∧ s'.freeList = s.freeList ∧
      s'.sbrks = ⟨toInt g, true⟩ :: s.sbrks ∧ s'.stray = s.stray ∧
      ∀ c, c + 4 < h.brk → s'.mem c = s.mem c := by
  have hws : wsize = 4 := rfl
  obtain ⟨hnat, hmax⟩ := not_refuses hlt hgr
  obtain ⟨s₁, hrun₁, harena, hmem, hbrk₁, hptr, hfl, hsb, hstray⟩ := memSbrk_granted hgr
  rw [hnat] at hbrk₁
  have hlo : s₁.memHeapLo = s.memHeapLo := Machine.memHeapLo_congr harena
  have hbrk := ht.brk
  have hbrkeq := hv.brk_eq
  have h8 : extent h.blocks % 8 = 0 := extent_mod_eq_zero fun b hb => (hv.sizes b hb).2
  have hbase := hv.base
  have hle : s.memBrk ≤ s₁.memBrk := by omega
  have hfits : Fits s₁ ⟨h.brk, g, false⟩ :=
    ⟨by simp only []; omega, hg.2, hg.1, by simp only []; omega, by simp only []; omega⟩
  have hf₂ : Frame {c | h.brk ≤ c + 4} s₁ (s₁.putTags ⟨h.brk, g, false⟩) :=
    hfits.putTags_frame fun c h₁ _ _ => h₁
  have hend : s₁.InHeap (h.brk + g - wsize) 4 := ⟨by omega, by omega⟩
  have hend4 : (h.brk + g - wsize) % 4 = 0 := by omega
  let s₃ := (s₁.putTags ⟨h.brk, g, false⟩).store (h.brk + g - wsize) (0 + true.toNat)
  have hf₃ : Frame {c | h.brk ≤ c + 4} s₁ s₃ :=
    hf₂.trans (Frame.store_of_subset fun c h₁ _ => by
      simp only [wsize] at h₁
      simp only [Set.mem_ofPred_eq]
      omega)
  have hgrow : ∀ b, Tagged s b → 8 ≤ b.size → b.addr + b.size ≤ h.brk → Tagged s₃ b :=
    fun b hb h₁ h₂ => Tagged.frame ⟨hb.1.grow harena hmem hle, hb.2.grow harena hmem hle⟩ h₁ hf₃
      fun c hc => Or.inr (Or.inr (h₂.trans hc))
  have hnext : getNextBlockPtr h.brk (s₁.putTags ⟨h.brk, g, false⟩) = .ok (h.brk + g) _ :=
    hfits.tagged_putTags.1.getNextBlockPtr_eq
  have hset : setVal (getHeaderPtr (h.brk + g)) (makeHeader 0 1)
      (s₁.putTags ⟨h.brk, g, false⟩) = .ok () s₃ :=
    setVal_makeHeader true hend4 (Nat.zero_mod 8) (hf₂.inHeap.mpr hend) rfl
  refine ⟨s₃, fun ops => ?_, ⟨by rw [hf₃.memBrk, hbrk₁, hbrk], ?_, fun b hb => ?_, ?_⟩,
    hf₃.arena.trans harena, hf₃.heapPtr.trans hptr, hfl, hf₃.sbrks.trans hsb,
    hf₃.stray.trans hstray, fun c hc => ?_⟩
  · have hne : h.brk ≠ minusOne := by
      have := s.arena.fits
      simp only [Machine.memMaxAddr] at hmax
      simp only [minusOne]
      omega
    simp only [ListOps.extendHeap]
    simp only [extendHeap_size hg.2 hlt]
    rw [run_bind_ok hrun₁, hbrk, if_neg hne, hfits.run_setTags (i := 0) rfl, run_bind_ok hnext,
      run_bind_ok hset]
  · rw [hf₃.memHeapLo, hlo]
    exact hgrow _ ht.prologueTags (le_refl 8) (by simp only [prologue]; omega)
  · rcases List.mem_append.mp hb with hb | hb
    · have hbw := hv.block hb
      exact hgrow b (ht.blockTags b hb) (by omega) hbw.2.2.2.2
    · rw [List.mem_singleton.mp hb]
      obtain ⟨hh, hf⟩ := hfits.tagged_putTags
      refine ⟨hh.store hend4 ?_, hf.store hend4 ?_⟩
      · simp only [wsize]
        omega
      · simp only [wsize, dsize]
        omega
  · exact Tag.of_store _ hend4 (Nat.zero_mod 8) (by omega) hend
  · rw [← hmem]
    refine hf₃.mem ?_
    intro hmem
    simp only [Set.mem_ofPred_eq] at hmem
    omega

/-- The free list is still there when the new block has been written. -/
theorem Represents.chain_appended {g : ℕ} {bs : List Block} {l : List ℕ} (hr : Represents s h)
    (hw : Wf s.memHeapLo h) (ht : TagsOf s' ⟨bs, l, h.brk + g⟩) (ha : s'.arena = s.arena)
    (hfl : s'.freeList = s.freeList) (hmem : ∀ c, c + 4 < h.brk → s'.mem c = s.mem c) :
    FreeChain s' h.free := by
  have hle : s.memBrk ≤ s'.memBrk := by
    rw [hr.brk, ht.brk]
    exact Nat.le_add_right _ _
  refine hr.chain.grow ha hle hfl fun a hal c h₁ h₂ => hmem c ?_
  obtain ⟨b, hb, rfl, -⟩ := hw.mem_free.mp hal
  have := hw.block hb
  omega

/-- The new space, as a block of its own. -/
def newSpace (h : Layout) (g : ℕ) : Block := ⟨h.brk, g, false⟩

/-- The bytes that are written after the new space and the new epilogue stand. -/
def joinBytes (lo : ℕ) (h : Layout) (g : ℕ) : Set ℕ :=
  linkBytes (h.brk :: h.free) ∪
    (merged (prevOf lo h.blocks) (newSpace h g) (epilogue (h.brk + g))).tagBytes

/-- `extend_heap` in two halves: in `s₁` the new block and the new epilogue stand, and from
there on only links and the tags of the merged block are written. -/
theorem extendHeap_writes {g : ℕ} (hv : Valid s.memHeapLo h) (hr : Represents s h)
    (hg : 16 ≤ g ∧ g % 8 = 0) (hlt : g < 2 ^ 32) (hgr : ¬ s.Refuses (toInt g)) :
    ∃ s₁ s', extendHeap (g / wsize) s = .ok ((h.extend g).free.headD 0) s' ∧
      Represents s' (h.extend g) ∧
      TagsOf s₁ ⟨h.blocks ++ [newSpace h g], h.brk :: h.free, h.brk + g⟩ ∧
      s₁.arena = s.arena ∧ s₁.heapPtr = s.heapPtr ∧ s₁.sbrks = ⟨toInt g, true⟩ :: s.sbrks ∧
      s₁.stray = s.stray ∧ (∀ c, c + 4 < h.brk → s₁.mem c = s.mem c) ∧
      Frame (joinBytes s.memHeapLo h g) s₁ s' := by
  obtain ⟨s₁, hrun₁, ht₁, harena, hptr, hfl, hsb, hstray, hmem⟩ :=
    extendHeap_append hv hr.toTagsOf hg hlt hgr
  have hw := hv.appended hg
  have hlo₁ : s₁.memHeapLo = s.memHeapLo := Machine.memHeapLo_congr harena
  have hl₁ := hr.chain_appended hv.toWf ht₁ harena hfl hmem
  obtain ⟨s₂, hrun₂, hr₂, hf₂⟩ := add_spec (hlo₁ ▸ hw) ht₁ hl₁ rfl
  have hlo₂ : s₂.memHeapLo = s.memHeapLo := hf₂.memHeapLo.trans hlo₁
  obtain ⟨s₃, hrun₃, hr₃, hf₃⟩ := coalesce_writes (b := newSpace h g) (hlo₂ ▸ hw) hr₂ rfl rfl
    hv.coalesced List.isChain_nil (congrArg (prevOf · h.blocks) hlo₂.symm) rfl
  obtain ⟨-, pre, post, -, -, -, heq⟩ := coalesce_layout (b := newSpace h g) hw rfl rfl
    hv.coalesced List.isChain_nil rfl rfl
  refine ⟨s₁, s₃, ?_, hr₃, ht₁, harena, hptr, hsb, hstray, hmem,
    (hf₂.mono Set.subset_union_left).trans hf₃⟩
  have hrun₁ : extendHeap (g / wsize) s = _ := hrun₁ .source
  have hhead : (h.extend g).free.headD 0 = (merged (prevOf s.memHeapLo h.blocks)
      (newSpace h g) (epilogue (h.brk + g))).addr := congrArg (fun l => l.free.headD 0) heq
  rw [hhead]
  exact hrun₁.trans ((run_bind_ok hrun₂).trans hrun₃)

/-- **`extend_heap` refines the abstract operation.** Below the old break it writes into
free blocks and the old epilogue only. -/
theorem extendHeap_granted {g : ℕ} (hv : Valid s.memHeapLo h) (hr : Represents s h)
    (hg : 16 ≤ g ∧ g % 8 = 0) (hlt : g < 2 ^ 32) (hgr : ¬ s.Refuses (toInt g)) :
    ∃ s', extendHeap (g / wsize) s = .ok ((h.extend g).free.headD 0) s' ∧
      Represents s' (h.extend g) ∧ s'.arena = s.arena ∧ s'.heapPtr = s.heapPtr ∧
      s'.sbrks = ⟨toInt g, true⟩ :: s.sbrks ∧ s'.stray = s.stray ∧
      ∀ c, c + 4 < h.brk → c ∉ h.freeSpace → s'.mem c = s.mem c := by
  obtain ⟨s₁, s', hrun, hr', -, harena, hptr, hsb, hstray, hmem, hf⟩ :=
    extendHeap_writes hv hr hg hlt hgr
  have hw := hv.appended hg
  obtain ⟨hrunfree, -⟩ := coalesce_layout (b := newSpace h g) hw rfl rfl hv.coalesced
    List.isChain_nil rfl rfl
  refine ⟨s', hrun, hr', hf.arena.trans harena, hf.heapPtr.trans hptr, hf.sbrks.trans hsb,
    hf.stray.trans hstray, fun c h₁ h₂ => ?_⟩
  rw [hf.mem ?_, hmem c h₁]
  rintro (⟨a, ha, h₃, h₄⟩ | hc)
  · rcases List.mem_cons.mp ha with rfl | ha
    · omega
    · exact h₂ (linkBytes_subset hv.toWf (List.Subset.refl _) ⟨a, ha, h₃, h₄⟩)
  · obtain ⟨d, hd, hcd⟩ := merged_space (prevOf_end hw rfl) rfl hc.1
    obtain ⟨hdb, hda⟩ := hrunfree d hd
    rcases List.mem_append.mp hdb with hdb | hdb
    · exact h₂ ⟨d, hdb, hda, hcd⟩
    · rw [List.mem_singleton.mp hdb] at hcd
      have := hcd.1
      simp only [] at this
      omega

end OsAndC
