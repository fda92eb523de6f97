import OsAndC.FreeList
import OsAndC.Tiling

/-!
# Boundary Tags in Memory

The size and the allocated bit of a block stand in its header, the word in front of the
payload, and in its footer, the last word of the block. `Tag s a size alloc` says that the
word at `a` is such a tag; the macros of `mm.c` are reads of tags, and the lemmas
`Tag.getSize_eq` to `Tag.getPrevBlockPtr_eq` evaluate them.

The two places that rewrite tags are specified here on the words they need and no others:
`place_spec` and `mergeTags_spec`. Both say which tags stand in the memory afterwards and
which bytes may have changed.
-/

namespace OsAndC

/-- The word at `a` is the tag of a block of size `size` with allocated bit `alloc`. -/
structure Tag (s : Machine) (a size : ℕ) (alloc : Bool) : Prop where
  word : s.word a = size + alloc.toNat
  aligned : a % 4 = 0
  size_mod : size % 8 = 0
  inHeap : s.InHeap a 4

/-- Both tags of the block `b`. -/
def Tagged (s : Machine) (b : Block) : Prop :=
  Tag s (b.addr - wsize) b.size b.alloc ∧ Tag s (b.addr + b.size - dsize) b.size b.alloc

variable {s s' : Machine} {l : List ℕ} {a b k n p size v : ℕ} {al : Bool} {S : Set ℕ}

namespace Tag

/-- A tag survives a change of other bytes. -/
theorem frame (h : Tag s a size al) (hf : Frame S s s') (hS : ∀ c ∈ S, c < a ∨ a + 4 ≤ c) :
    Tag s' a size al :=
  ⟨(hf.word hS).trans h.word, h.aligned, h.size_mod, hf.inHeap.mpr h.inHeap⟩

/-- A tag survives a store to another word. -/
theorem store (h : Tag s a size al) (hb : b % 4 = 0) (hab : a ≠ b) :
    Tag (s.store b v) a size al :=
  ⟨by rw [Machine.word_store hb h.aligned, if_neg hab]; exact h.word, h.aligned, h.size_mod,
    h.inHeap⟩

/-! ### Reading -/

/-- The word of a tag is its size and its bit. -/
theorem getVal_eq (h : Tag s a size al) : getVal a s = .ok (size + al.toNat) s := by
  rw [OsAndC.getVal_eq h.aligned h.inHeap, h.word]

/-- The size is read from it. -/
theorem getSize_eq (h : Tag s a size al) : getSize a s = .ok size s := by
  rw [getSize, run_bind_ok h.getVal_eq, run_pure, and_mask (h.word ▸ Machine.word_lt)]
  have hsize : (size + al.toNat) / 8 * 8 = size := by
    have h₁ := h.size_mod
    have h₂ := al.toNat_lt
    omega
  rw [hsize]

/-- And so is the bit. -/
theorem isAllocated_eq (h : Tag s a size al) : isAllocated a s = .ok al s := by
  rw [isAllocated, run_bind_ok h.getVal_eq, run_pure, Nat.and_one_is_mod]
  have hbit : (size + al.toNat) % 2 = al.toNat := by
    have h₁ := h.size_mod
    have h₂ := al.toNat_lt
    omega
  rw [hbit]
  cases al <;> rfl

/-- And its negation. -/
theorem isFree_eq (h : Tag s a size al) : isFree a s = .ok (!al) s := by
  rw [isFree, run_bind_ok h.isAllocated_eq, run_pure]

/-- A header leads to the footer. -/
theorem getFooterPtr_eq (h : Tag s (b - wsize) size al) :
    getFooterPtr b s = .ok (b + size - dsize) s := by
  rw [getFooterPtr, getHeaderPtr, run_bind_ok h.getSize_eq, run_pure]

/-- A header leads to the next block. -/
theorem getNextBlockPtr_eq (h : Tag s (b - wsize) size al) :
    getNextBlockPtr b s = .ok (b + size) s := by
  rw [getNextBlockPtr, getHeaderPtr, run_bind_ok h.getSize_eq, run_pure]

/-- The footer in front of a block leads to the block it belongs to. -/
theorem getPrevBlockPtr_eq (h : Tag s (b - dsize) size al) :
    getPrevBlockPtr b s = .ok (b - size) s := by
  rw [getPrevBlockPtr, run_bind_ok h.getSize_eq, run_pure]

/-! ### Writing -/

/-- A stored tag. -/
theorem of_store (al : Bool) (ha : a % 4 = 0) (hs : size % 8 = 0) (hlt : size < 2 ^ 32)
    (hin : s.InHeap a 4) : Tag (s.store a (size + al.toNat)) a size al := by
  refine ⟨?_, ha, hs, hin⟩
  have := al.toNat_lt
  rw [Machine.word_store ha ha, if_pos rfl, Nat.mod_eq_of_lt (by omega)]

end Tag

/-- Writing a tag. -/
theorem setVal_makeHeader (al : Bool) (ha : a % 4 = 0) (hs : size % 8 = 0) (hin : s.InHeap a 4)
    {i : ℕ} (hi : i = al.toNat) :
    setVal a (makeHeader size i) s = .ok () (s.store a (size + al.toNat)) := by
  rw [hi, makeHeader_eq hs (by have := al.toNat_lt; omega)]
  exact setVal_eq ha hin

/-- The tags of a block survive a change of bytes outside its two tag words. -/
theorem Tagged.frame {b : Block} (h : Tagged s b) (h8 : 8 ≤ b.size) (hf : Frame S s s')
    (hS : ∀ c ∈ S, c + 4 < b.addr ∨ b.addr ≤ c ∧ c + 8 < b.addr + b.size ∨
      b.addr + b.size ≤ c + 4) : Tagged s' b := by
  have hws : wsize = 4 := rfl
  have hds : dsize = 8 := rfl
  have hlow := h.1.inHeap.eight_le
  have hlow' := h.2.inHeap.eight_le
  refine ⟨h.1.frame hf fun c hc => ?_, h.2.frame hf fun c hc => ?_⟩
  · have := hS c hc
    omega
  · have := hS c hc
    omega

/-- The bytes from the header to the footer. -/
def Block.space (b : Block) : Set ℕ := {c | b.addr ≤ c + 4 ∧ c + 4 < b.addr + b.size}

/-- The bytes of the header and of the footer. -/
def Block.tagBytes (b : Block) : Set ℕ :=
  {c | c ∈ b.space ∧ (c < b.addr ∨ b.addr + b.size ≤ c + 8)}

/-- The space of the block `b`, from its header to its footer, lies in the heap, and its
address and size suit the tags. -/
structure Fits (s : Machine) (b : Block) : Prop where
  addr_mod : b.addr % 8 = 0
  size_mod : b.size % 8 = 0
  size_pos : 16 ≤ b.size
  low : s.memHeapLo + 8 ≤ b.addr
  high : b.addr + b.size ≤ s.memBrk

/-- The memory after both tags of `b` are written, header first. -/
def Machine.putTags (s : Machine) (b : Block) : Machine :=
  (s.store (b.addr - wsize) (b.size + b.alloc.toNat)).store (b.addr + b.size - dsize)
    (b.size + b.alloc.toNat)

/-- Writing the header and the footer of a block, as `mm.c` does it: the address of the
footer is computed from the header just written. -/
theorem setTags_eq (al : Bool) (hw : (a - wsize) % 4 = 0 ∧ s.InHeap (a - wsize) 4 ∧
      (a + size - dsize) % 4 = 0 ∧ s.InHeap (a + size - dsize) 4)
    (hmod : size % 8 = 0) (hlt : size < 2 ^ 32) {i : ℕ} (hi : i = al.toNat) :
    (do setVal (getHeaderPtr a) (makeHeader size i)
        setVal (← getFooterPtr a) (makeHeader size i)) s =
      .ok () (s.putTags ⟨a, size, al⟩) := by
  obtain ⟨hh, hhin, hf, hfin⟩ := hw
  rw [getHeaderPtr, run_bind_ok (setVal_makeHeader al hh hmod hhin hi),
    run_bind_ok (Tag.of_store al hh hmod hlt hhin).getFooterPtr_eq]
  exact setVal_makeHeader al hf hmod (Machine.store_inHeap.mpr hfin) hi

/-- Going on after both tags have been written. -/
theorem run_of_setTags {i : ℕ} (h : (do
      setVal (getHeaderPtr a) (makeHeader size i)
      setVal (← getFooterPtr a) (makeHeader size i)) s = .ok () s') {α : Type} (f : Unit → M α) :
    (do setVal (getHeaderPtr a) (makeHeader size i)
        let q ← getFooterPtr a
        let u ← setVal q (makeHeader size i)
        f u) s = f () s' := by
  have := run_bind_ok (f := f) h
  simpa only [bind_assoc] using this

namespace Fits

variable {d : Block}

/-- Stores leave the heap as large as it is. -/
theorem of_frame (h : Fits s d) (hf : Frame S s s') : Fits s' d :=
  ⟨h.addr_mod, h.size_mod, h.size_pos, by rw [hf.memHeapLo]; exact h.low,
    by rw [hf.memBrk]; exact h.high⟩

/-- A block that fits ends below the end of the address space. -/
theorem size_lt (h : Fits s d) : d.addr + d.size < 2 ^ 32 := by
  have h₁ := s.brk_le_max
  have h₂ := s.arena.fits
  have h₃ := h.high
  omega

/-- The two tag words of a block. -/
theorem words (h : Fits s d) : (d.addr - wsize) % 4 = 0 ∧ s.InHeap (d.addr - wsize) 4 ∧
    (d.addr + d.size - dsize) % 4 = 0 ∧ s.InHeap (d.addr + d.size - dsize) 4 := by
  obtain ⟨h₁, h₂, h₃, h₄, h₅⟩ := h
  simp only [wsize, dsize, Machine.InHeap]
  omega

/-- Both tags of the block are there afterwards. -/
theorem tagged_putTags (h : Fits s d) : Tagged (s.putTags d) d := by
  have hws : wsize = 4 := rfl
  have hds : dsize = 8 := rfl
  obtain ⟨hh, hhin, hf, hfin⟩ := h.words
  have hlt := h.size_lt
  have hsize := h.size_pos
  have hlow := h.low
  refine ⟨(Tag.of_store _ hh h.size_mod (by omega) hhin).store hf ?_,
    Tag.of_store _ hf h.size_mod (by omega) hfin⟩
  omega

/-- Where one block fits, it still fits after another one's tags are stored. -/
theorem putTags {c : Block} (h : Fits s d) : Fits (s.putTags c) d :=
  ⟨h.addr_mod, h.size_mod, h.size_pos, h.low, h.high⟩

/-- Only the words of the two tags are stored. -/
theorem putTags_frame (h : Fits s d)
    (hS : ∀ c, d.addr ≤ c + 4 → c < d.addr ∨ d.addr + d.size ≤ c + 8 →
      c + 4 < d.addr + d.size → c ∈ S) : Frame S s (s.putTags d) := by
  have h₁ := h.size_pos
  have h₂ := h.low
  simp only [Machine.putTags, wsize, dsize]
  exact (Frame.store_of_subset fun c _ _ => hS c (by omega) (by omega) (by omega)).trans
    (Frame.store_of_subset fun c _ _ => hS c (by omega) (by omega) (by omega))

/-- The two stores of a header and a footer, in the words of the source. -/
theorem setTags_eq (h : Fits s ⟨a, size, al⟩) {i : ℕ} (hi : i = al.toNat) :
    (do setVal (getHeaderPtr a) (makeHeader size i)
        setVal (← getFooterPtr a) (makeHeader size i)) s =
      .ok () (s.putTags ⟨a, size, al⟩) :=
  OsAndC.setTags_eq al h.words h.size_mod (lt_of_le_of_lt (Nat.le_add_left size a) h.size_lt) hi

/-- The same two stores in front of a continuation. -/
theorem run_setTags (h : Fits s ⟨a, size, al⟩) {i : ℕ} (hi : i = al.toNat) {α : Type}
    (f : Unit → M α) :
    (do setVal (getHeaderPtr a) (makeHeader size i)
        let q ← getFooterPtr a
        let u ← setVal q (makeHeader size i)
        f u) s = f () (s.putTags ⟨a, size, al⟩) :=
  run_of_setTags (h.setTags_eq hi) f

end Fits

end OsAndC
