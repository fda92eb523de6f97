import OsAndC.Client

/-!
# Reading the Heap from Memory

What can be seen of the heap without knowing the allocator: `HeapWalk s a bs` says that a
walk from the block pointer `a`, which adds the size in each header to get to the next
block, finds the blocks `bs` and ends exactly at the break. `NextChain s a l` says that
following the `next` links from `a` visits the nodes `l` and then reaches null. Both are
determined by the memory (`HeapWalk.unique`, `NextChain.unique`).

A machine that represents a layout shows that layout: `TagsOf.walk` and
`Represents.nextChain`. Statements about the heap in memory are read off the layout in this
way.
-/

namespace OsAndC

open Layout

/-- The size a tag word states. -/
def tagSize (w : ℕ) : ℕ := w &&& 0xFFFFFFF8

/-- The allocated bit of a tag word. -/
def tagAlloc (w : ℕ) : Bool := w &&& 0x1 != 0

namespace Machine

/-- The word in front of the block pointer `a`. -/
def header (s : Machine) (a : ℕ) : ℕ := s.word (a - wsize)

/-- The block that the header at block pointer `a` describes. -/
def blockAt (s : Machine) (a : ℕ) : Block := ⟨a, tagSize (s.header a), tagAlloc (s.header a)⟩

end Machine

/-- The walk over the heap from block pointer `a` finds the blocks `bs` and ends exactly at
the break. -/
inductive HeapWalk (s : Machine) : ℕ → List Block → Prop
  | done : HeapWalk s s.memBrk []
  | block {a : ℕ} {bs : List Block} :
      a < s.memBrk → HeapWalk s (a + tagSize (s.header a)) bs → HeapWalk s a (s.blockAt a :: bs)

/-- The links to the next free block, from `a` to null. -/
inductive NextChain (s : Machine) : ℕ → List ℕ → Prop
  | null : NextChain s 0 []
  | node {a : ℕ} {l : List ℕ} : a ≠ 0 → NextChain s (s.word a) l → NextChain s a (a :: l)

variable {s : Machine} {h : Layout} {a w size : ℕ} {al : Bool} {b : Block} {bs bs' : List Block}
  {l l' : List ℕ}

/-- A walk finds one sequence of blocks. -/
theorem HeapWalk.unique (hw : HeapWalk s a bs) (hw' : HeapWalk s a bs') : bs = bs' := by
  induction hw generalizing bs' with
  | done =>
      cases hw' with
      | done => rfl
      | block hlt _ => exact absurd hlt (lt_irrefl _)
  | block hlt _ ih =>
      cases hw' with
      | done => exact absurd hlt (lt_irrefl _)
      | block _ hrest => rw [ih hrest]

/-- A chain of links visits one sequence of nodes. -/
theorem NextChain.unique (hc : NextChain s a l) (hc' : NextChain s a l') : l = l' := by
  induction hc generalizing l' with
  | null =>
      cases hc' with
      | null => rfl
      | node h0 _ => exact absurd rfl h0
  | node h0 _ ih =>
      cases hc' with
      | null => exact absurd rfl h0
      | node _ hrest => rw [ih hrest]

/-! ### Tags as words -/

/-- The word of a tag. -/
theorem Tag.word_eq (h : Tag s a size al) : s.word a = makeHeader size al.toNat := by
  rw [makeHeader_eq h.size_mod (by have := al.toNat_lt; omega), h.word]

/-- The size that a tag states. -/
theorem Tag.tagSize_eq (h : Tag s a size al) : tagSize (s.word a) = size := by
  have hw : s.word a < 2 ^ 32 := Machine.word_lt
  have h₁ := h.size_mod
  have h₂ := al.toNat_lt
  rw [tagSize, and_mask hw, h.word]
  omega

/-- And its allocated bit. -/
theorem Tag.tagAlloc_eq (h : Tag s a size al) : tagAlloc (s.word a) = al := by
  have hbit : (size + al.toNat) % 2 = al.toNat := by
    have h₁ := h.size_mod
    have h₂ := al.toNat_lt
    omega
  rw [tagAlloc, h.word, Nat.and_one_is_mod, hbit]
  cases al <;> rfl

/-- The header of a block describes it. -/
theorem Tagged.blockAt (h : Tagged s b) : s.blockAt b.addr = b := by
  rw [Machine.blockAt, Machine.header, h.1.tagSize_eq, h.1.tagAlloc_eq]

/-! ### Memory shows the layout -/

/-- A walk over tagged blocks that tile the range up to the break. -/
theorem HeapWalk.of_tiles (ht : Tiles a bs) (hbs : ∀ b ∈ bs, Tagged s b)
    (hend : a + extent bs = s.memBrk) : HeapWalk s a bs := by
  induction bs generalizing a with
  | nil =>
      obtain rfl : a = s.memBrk := by simpa using hend
      exact .done
  | cons b bs ih =>
      obtain ⟨rfl, hpos, hrest⟩ := ht
      rw [extent_cons] at hend
      have hb := hbs b List.mem_cons_self
      have hsize : tagSize (s.header b.addr) = b.size := hb.1.tagSize_eq
      have htail := ih hrest (fun c hc => hbs c (List.mem_cons_of_mem b hc)) (by omega)
      rw [← hsize] at htail
      have hwalk := HeapWalk.block (by omega) htail
      rwa [hb.blockAt] at hwalk

/-- The walk from the first block finds the blocks of the layout. -/
theorem TagsOf.walk (ht : TagsOf s h) (hw : Wf s.memHeapLo h) :
    HeapWalk s (s.memHeapLo + 16) h.blocks :=
  HeapWalk.of_tiles hw.tiles ht.blockTags (by rw [ht.brk, hw.brk_eq])

/-- The nodes of a segment are those on the way to its end. -/
theorem NextChain.of_seg {prev : ℕ → ℕ} {p : ℕ} (hl : Seg s.word prev p l 0) (h0 : 0 ∉ l) :
    NextChain s (l.headD 0) l := by
  induction l generalizing p with
  | nil => exact .null
  | cons a l ih =>
      obtain ⟨hnext, -, hrest⟩ := hl
      rw [List.mem_cons, not_or] at h0
      exact .node (Ne.symm h0.1) (hnext ▸ ih hrest h0.2)

/-- The links from `free_list` lead through the free list of the layout. -/
theorem Represents.nextChain (hr : Represents s h) : NextChain s s.freeList h.free := by
  rw [hr.chain.head]
  exact NextChain.of_seg hr.chain.links hr.chain.zero_notMem

/-- The walk finds what the layout says, and nothing else. -/
theorem Represents.blocks_eq (hr : Represents s h) (hw : Wf s.memHeapLo h)
    (hwalk : HeapWalk s (s.memHeapLo + 16) bs) : bs = h.blocks :=
  hwalk.unique (hr.walk hw)

/-- The size in the header of a block. -/
theorem Represents.tagSize_header (hr : Represents s h) (hb : b ∈ h.blocks) :
    tagSize (s.header b.addr) = b.size := (hr.blockTags b hb).1.tagSize_eq

/-- The memory shows the layout `h`: its blocks on the walk from the first block, its list
behind `free_list`, and its break. -/
structure Shows (s : Machine) (h : Layout) : Prop where
  walk : HeapWalk s (s.memHeapLo + 16) h.blocks
  chain : NextChain s s.freeList h.free
  brk : s.memBrk = h.brk

/-- What represents a layout shows it. -/
theorem Represents.shows (hr : Represents s h) (hw : Wf s.memHeapLo h) : Shows s h :=
  ⟨hr.walk hw, hr.nextChain, hr.brk⟩

/-- A memory shows one layout. -/
theorem Shows.unique {h' : Layout} (hs : Shows s h) (hs' : Shows s h') : h = h' := by
  obtain ⟨bs, l, brk⟩ := h
  obtain ⟨bs', l', brk'⟩ := h'
  rw [Layout.mk.injEq]
  exact ⟨hs.walk.unique hs'.walk, hs.chain.unique hs'.chain, hs.brk.symm.trans hs'.brk⟩

end OsAndC
