import OsAndC.Layout
import OsAndC.Tags

/-!
# The Heap in Memory

`Represents s h` ties the memory to the abstract allocator: the break is that of the
layout, every block of the layout carries its header and its footer, prologue and epilogue
stand at the two ends, and the stored free list is that of the layout. `TagsOf` is the part
about the tags; it does not mention the free list, so it also describes the states inside an
operation, in which a block has been unlinked and not yet been joined.

Each block owns the bytes from its header to its footer (`Block.space`). Spaces of distinct
blocks are disjoint, so a step that writes link words of free blocks and the space of some
stretch of blocks leaves all other tags alone: `TagsOf.update`.
-/

namespace OsAndC

/-- The allocated block of two words in front of the heap. -/
def prologue (lo : ℕ) : Block := ⟨lo + 8, 8, true⟩

/-- The allocated block of size 0 behind the heap, of which only the header exists. -/
def epilogue (brk : ℕ) : Block := ⟨brk, 0, true⟩

/-- The machine holds the tags of the layout. -/
structure TagsOf (s : Machine) (h : Layout) : Prop where
  brk : s.memBrk = h.brk
  prologueTags : Tagged s (prologue s.memHeapLo)
  blockTags : ∀ b ∈ h.blocks, Tagged s b
  epilogueHeader : Tag s (h.brk - wsize) 0 true

/-- The machine holds the layout. -/
structure Represents (s : Machine) (h : Layout) : Prop extends TagsOf s h where
  chain : FreeChain s h.free

open Layout

variable {s s' : Machine} {h : Layout} {lo : ℕ} {b c : Block} {xs ys zs zs' : List Block}
  {l l' : List ℕ} {a : ℕ} {S : Set ℕ}

/-! ### Geometry -/

/-- Distinct blocks of a heap do not share a byte. -/
theorem Layout.Wf.apart (hw : Wf lo h) (hb : b ∈ h.blocks) (hc : c ∈ h.blocks)
    (hbc : b.addr ≠ c.addr) : b.addr + b.size ≤ c.addr ∨ c.addr + c.size ≤ b.addr :=
  hw.tiles.disjoint hb hc hbc

/-- The blocks of a layout have their tags inside the heap. -/
theorem TagsOf.fits (ht : TagsOf s h) (hw : Wf s.memHeapLo h) (hb : b ∈ h.blocks) :
    Fits s b := by
  obtain ⟨h₁, h₂, h₃, h₄, h₅⟩ := hw.block hb
  exact ⟨h₂, h₄, h₃, by omega, by rw [ht.brk]; exact h₅⟩

/-- The block before a block, or the prologue. -/
def prevOf (lo : ℕ) (xs : List Block) : Block := xs.getLastD (prologue lo)

/-- The block behind a block, or the epilogue. -/
def nextOf (brk : ℕ) (ys : List Block) : Block := ys.headD (epilogue brk)

/-- The previous block ends where the block starts. -/
theorem prevOf_end (hw : Wf lo h) (hbs : h.blocks = xs ++ b :: ys) :
    (prevOf lo xs).addr + (prevOf lo xs).size = b.addr := by
  have ht := hw.tiles
  rw [hbs] at ht
  have hb := ht.middle.1
  simp only [prevOf]
  rcases xs.eq_nil_or_concat' with rfl | ⟨zs, x, rfl⟩
  · simp only [List.getLastD_nil, prologue, extent_nil] at hb ⊢
    omega
  · rw [List.append_assoc] at ht
    have hx := ht.middle.1
    rw [extent_append, extent_cons, extent_nil] at hb
    rw [List.getLastD_concat]
    omega

/-- The next block starts where the block ends. -/
theorem nextOf_addr (hw : Wf lo h) (hbs : h.blocks = xs ++ b :: ys) :
    (nextOf h.brk ys).addr = b.addr + b.size := by
  have ht := hw.tiles
  have hbrk := hw.brk_eq
  rw [hbs] at ht hbrk
  have hb := ht.middle.1
  simp only [nextOf]
  cases ys with
  | nil =>
      simp only [extent_append, extent_cons, extent_nil] at hbrk
      simp only [List.headD_nil, epilogue]
      omega
  | cons y ys => exact (tiles_append.mp ht).2.2.2.1.trans (by rw [hb])

/-- The block in front has its tags, also where it is the prologue. -/
theorem TagsOf.prev (ht : TagsOf s h) (hbs : h.blocks = xs ++ b :: ys) :
    Tagged s (prevOf s.memHeapLo xs) := by
  simp only [prevOf]
  rcases xs.eq_nil_or_concat' with rfl | ⟨zs, x, rfl⟩
  · exact ht.prologueTags
  · rw [List.getLastD_concat]
    exact ht.blockTags x (by rw [hbs]; simp)

/-- And the block behind has its header, also where it is the epilogue. -/
theorem TagsOf.next_header (ht : TagsOf s h) (hbs : h.blocks = xs ++ b :: ys) :
    Tag s ((nextOf h.brk ys).addr - wsize) (nextOf h.brk ys).size (nextOf h.brk ys).alloc := by
  simp only [nextOf]
  cases ys with
  | nil => exact ht.epilogueHeader
  | cons y ys => exact (ht.blockTags y (by rw [hbs]; simp)).1

/-- In front of the free run that a block belongs to stands an allocated block. -/
theorem prevOf_run (lo : ℕ) (hxs : Coalesced xs) :
    ∃ pre, xs = pre ++ (if (prevOf lo xs).alloc then [] else [prevOf lo xs]) ∧ Coalesced pre ∧
      ∀ x ∈ pre.getLast?, x.alloc = true := by
  unfold prevOf
  rcases xs.eq_nil_or_concat' with rfl | ⟨zs, x, rfl⟩
  · exact ⟨[], rfl, List.isChain_nil, by simp⟩
  · rw [List.getLastD_concat]
    cases hx : x.alloc with
    | true => exact ⟨zs ++ [x], by simp, hxs, by simpa using hx⟩
    | false =>
        obtain ⟨hzs, -, hlast⟩ := List.isChain_append.mp hxs
        exact ⟨zs, by simp, hzs, fun y hy => (hlast y hy x rfl).resolve_right (by simp [hx])⟩

/-- Behind the free run that a block belongs to stands an allocated block. -/
theorem nextOf_run (brk : ℕ) (hys : Coalesced ys) :
    ∃ post, ys = (if (nextOf brk ys).alloc then [] else [nextOf brk ys]) ++ post ∧
      Coalesced post ∧ ∀ y ∈ post.head?, y.alloc = true := by
  unfold nextOf
  cases ys with
  | nil => exact ⟨[], rfl, List.isChain_nil, by simp⟩
  | cons y zs =>
      rw [List.headD_cons]
      cases hy : y.alloc with
      | true => exact ⟨y :: zs, by simp, hys, by simpa using hy⟩
      | false =>
          obtain ⟨-, hzs, hhead⟩ := List.isChain_append.mp (show Coalesced ([y] ++ zs) from hys)
          exact ⟨zs, by simp, hzs, fun z hz =>
            (hhead y rfl z hz).resolve_left (by simp [hy])⟩

/-! ### Changing part of the heap -/

/-- **Update.** A step that writes link words of free blocks and the space of the blocks
`zs` leaves the tags of all other blocks alone, so it is enough to know the new tags in the
place of `zs`. -/
theorem TagsOf.update (ht : TagsOf s h) (hw : Wf s.memHeapLo h) (zs' : List Block)
    (l' : List ℕ) (hbs : h.blocks = xs ++ zs ++ ys) (hf : Frame S s s')
    (hS : ∀ c ∈ S, (∃ d ∈ h.blocks, d.alloc = false ∧ d.addr ≤ c ∧ c < d.addr + 8) ∨
      ∃ d ∈ zs, c ∈ d.space)
    (hzs' : ∀ b ∈ zs', Tagged s' b) : TagsOf s' ⟨xs ++ zs' ++ ys, l', h.brk⟩ := by
  have hws : wsize = 4 := rfl
  have hzmem : ∀ d ∈ zs, d ∈ h.blocks := fun d hd => by rw [hbs]; simp [hd]
  -- the blocks that stay: their tags lie in their own space, behind and before link words
  have hstay : ∀ x ∈ xs ++ ys, Tagged s' x := by
    intro x hx
    have hxb : x ∈ h.blocks := by
      rw [hbs]
      rcases List.mem_append.mp hx with hx | hx <;> simp [hx]
    have h16 := (hw.block hxb).2.2.1
    have hxa := (hw.block hxb).1
    have hcases : ∀ c ∈ S, c + 4 < x.addr ∨ x.addr ≤ c ∧ c + 8 < x.addr + x.size ∨
        x.addr + x.size ≤ c + 4 := by
      intro c hc
      rcases hS c hc with ⟨d, hd, -, h₁, h₂⟩ | ⟨d, hd, h₁, h₂⟩
      · by_cases hxd : x.addr = d.addr
        · omega
        · have := hw.apart hxb hd hxd
          have := (hw.block hd).2.2.1
          omega
      · have := hw.apart hxb (hzmem d hd) ((hbs ▸ hw.tiles).addr_ne_of_mem hx hd)
        omega
    exact (ht.blockTags x hxb).frame (by omega) hf hcases
  have hends : ∀ c ∈ S, s.memHeapLo + 12 ≤ c ∧ c + 4 < h.brk := by
    intro c hc
    rcases hS c hc with ⟨d, hd, -, h₁, h₂⟩ | ⟨d, hd, h₁, h₂⟩
    · have := hw.block hd
      omega
    · have := hw.block (hzmem d hd)
      omega
  refine ⟨hf.memBrk.trans ht.brk, ?_, fun x hx => ?_, ht.epilogueHeader.frame hf fun c hc => ?_⟩
  · rw [hf.memHeapLo]
    refine ht.prologueTags.frame (le_refl 8) hf ?_
    intro c hc
    have := hends c hc
    simp only [prologue]
    omega
  · rcases List.mem_append.mp hx with hx | hx
    · rcases List.mem_append.mp hx with hx | hx
      · exact hstay x (List.mem_append_left _ hx)
      · exact hzs' x hx
    · exact hstay x (List.mem_append_right _ hx)
  · have := hends c hc
    omega

/-- A link byte of the list belongs to a free block. -/
theorem mem_linkBytes_block (hw : Wf lo h) (hl : l ⊆ h.free) (ha : a ∈ linkBytes l) :
    ∃ d ∈ h.blocks, d.alloc = false ∧ d.addr ≤ a ∧ a < d.addr + 8 := by
  obtain ⟨x, hx, h₁, h₂⟩ := ha
  obtain ⟨d, hd, rfl, hfree⟩ := hw.mem_free.mp (hl hx)
  exact ⟨d, hd, hfree, h₁, h₂⟩

/-- Link words are no tags. -/
theorem TagsOf.frame_links (ht : TagsOf s h) (hw : Wf s.memHeapLo h) (hl : l ⊆ h.free)
    (hf : Frame (linkBytes l) s s') : TagsOf s' h := by
  have hbs : h.blocks = h.blocks ++ [] ++ [] := by simp
  have hu := ht.update hw [] h.free hbs hf (fun c hc => Or.inl (mem_linkBytes_block hw hl hc))
    (by simp)
  simpa using hu

/-- The bytes of the free blocks. -/
def Layout.freeSpace (h : Layout) : Set ℕ := {c | ∃ d ∈ h.blocks, d.alloc = false ∧ c ∈ d.space}

/-- The links lie in the free blocks. -/
theorem linkBytes_subset (hw : Wf lo h) (hl : l ⊆ h.free) : linkBytes l ⊆ h.freeSpace := by
  intro c hc
  obtain ⟨d, hd, hfree, h₁, h₂⟩ := mem_linkBytes_block hw hl hc
  have := (hw.block hd).2.2.1
  exact ⟨d, hd, hfree, by omega, by omega⟩

/-! ### Allocated blocks -/

/-- Allocated and free blocks do not share a byte. -/
theorem allocated_apart {lo : ℕ} {d : Block} (hw : Wf lo h) (hb : h.Allocated b)
    (hd : d ∈ h.blocks) (hfree : d.alloc = false) :
    b.addr + b.size ≤ d.addr ∨ d.addr + d.size ≤ b.addr := by
  refine hw.apart hb.1 hd ?_
  intro h0
  have heq := hw.eq_of_addr hb.1 hd h0
  have halloc := hb.2
  rw [heq, hfree] at halloc
  cases halloc

/-- A payload byte of an allocated block belongs to no free block. -/
theorem payload_notMem_freeSpace {lo a : ℕ} (hw : Wf lo h) (hb : h.Allocated b)
    (h₁ : b.addr ≤ a) (h₂ : a + 8 < b.addr + b.size) : a ∉ h.freeSpace := by
  rintro ⟨d, hd, hfree, h₃, h₄⟩
  have := allocated_apart hw hb hd hfree
  omega

/-- No allocated block lies at address 0. -/
theorem allocated_addr_ne_zero {lo : ℕ} (hw : Wf lo h) (hb : h.Allocated b) : b.addr ≠ 0 := by
  have := (hw.block hb.1).1
  omega

/-- Writing into the payload of an allocated block does not concern the allocator. -/
theorem Represents.write (hr : Represents s h) (hw : Wf s.memHeapLo h) (hb : h.Allocated b)
    (hf : Frame S s s') (hS : ∀ c ∈ S, b.addr ≤ c ∧ c + 8 < b.addr + b.size)
    (hfl : s'.freeList = s.freeList) : Represents s' h := by
  obtain ⟨xs, ys, hbs⟩ := List.append_of_mem hb.1
  have hbs' : h.blocks = xs ++ [b] ++ ys := by rw [hbs]; simp
  have h16 := (hw.block hb.1).2.2.1
  have htags := hr.toTagsOf.update hw [b] h.free hbs' hf
    (fun c hc => Or.inr ⟨b, List.mem_singleton_self b, by have := hS c hc; omega,
      by have := hS c hc; omega⟩)
    fun x hx => by
      rw [List.mem_singleton.mp hx]
      exact (hr.blockTags b hb.1).frame (by omega) hf fun c hc => Or.inr (Or.inl (hS c hc))
  rw [← hbs'] at htags
  refine ⟨htags, hr.chain.frame hf hfl ?_⟩
  intro a ha c hc
  obtain ⟨d, hd, rfl, hfree⟩ := hw.mem_free.mp ha
  have := allocated_apart hw hb hd hfree
  have := hS c hc
  have := (hw.block hd).2.2.1
  omega

end OsAndC
