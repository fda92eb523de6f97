import Mathlib.Order.Interval.Set.Defs
import OsAndC.Walk

/-!
# The Heap between Calls

What holds in every state between the events of a legal run, stated on the memory alone:

* `heap_tiled` — a walk over the headers ends at the epilogue, every footer repeats its
  header, and the blocks marked as allocated are those the client holds;
* `free_list_exact` — the `next` links from `free_list` lead through the free blocks, each
  once, and the `prev` links lead back;
* `payloads_apart` — what the client holds is aligned, lies in the heap, and meets neither
  other payloads nor any word the allocator uses;
* `free_blocks_apart` — no two neighbouring blocks are free.

All four are read off the layout that the session simulates.
-/

namespace OsAndC

open Layout

/-- The tags of the heap in memory: prologue, epilogue, and between them the blocks `bs`,
each with two equal tags, tiling the heap exactly. -/
structure Tiled (s : Machine) (bs : List Block) : Prop where
  prologueHeader : s.word (s.memHeapLo + 4) = 8 ||| 1
  prologueFooter : s.word (s.memHeapLo + 8) = 8 ||| 1
  walk : HeapWalk s (s.memHeapLo + 16) bs
  epilogue : s.word (s.memBrk - 4) = 0 ||| 1
  aligned : ∀ b ∈ bs, b.addr % 8 = 0
  sizes : ∀ b ∈ bs, 16 ≤ b.size ∧ b.size % 8 = 0
  footers : ∀ b ∈ bs, s.word (b.addr + b.size - 8) = s.word (b.addr - 4)

/-- The addresses of the words the allocator uses: the tags and the links. -/
inductive MetaWord (s : Machine) (bs : List Block) : ℕ → Prop
  | prologueHeader : MetaWord s bs (s.memHeapLo + 4)
  | prologueFooter : MetaWord s bs (s.memHeapLo + 8)
  | epilogue : MetaWord s bs (s.memBrk - 4)
  | header {b : Block} : b ∈ bs → MetaWord s bs (b.addr - 4)
  | footer {b : Block} : b ∈ bs → MetaWord s bs (b.addr + b.size - 8)
  | next {b : Block} : b ∈ bs → b.alloc = false → MetaWord s bs b.addr
  | prev {b : Block} : b ∈ bs → b.alloc = false → MetaWord s bs (b.addr + 4)

/-- The bytes the client has requested. -/
def Grant.range (g : Grant) : Set ℕ := Set.Ico g.ptr (g.ptr + g.size)

variable {σ : Session} {s : Machine} {h : Layout} {b : Block} {g g' : Grant} {a : ℕ}

/-! ### Tags -/

/-- A machine that represents a layout has its tags in place. -/
theorem Represents.tiled (hr : Represents s h) (hw : Wf s.memHeapLo h) : Tiled s h.blocks where
  prologueHeader := hr.prologueTags.1.word_eq
  prologueFooter := hr.prologueTags.2.word_eq
  walk := hr.walk hw
  epilogue := by
    rw [hr.brk]
    exact hr.epilogueHeader.word_eq
  aligned := fun b hb => (hw.block hb).2.1
  sizes := hw.sizes
  footers := fun b hb => by
    obtain ⟨hhead, hfoot⟩ := hr.blockTags b hb
    exact hfoot.word_eq.trans hhead.word_eq.symm

/-- **Heap tiling.** In every state of every legal run the tags are in place, and the blocks
marked as allocated are exactly those the client holds. -/
theorem heap_tiled (hσ : Reachable σ) :
    ∃ bs, Tiled σ.machine bs ∧
      ∀ p, (∃ b ∈ bs, b.addr = p ∧ b.alloc = true) ↔ Holds σ.live p := by
  obtain ⟨h, hs⟩ := hσ.simulates
  refine ⟨h.blocks, hs.represents.tiled hs.valid.toWf, ?_⟩
  intro p
  rw [hs.holds p]
  constructor
  · rintro ⟨b, hb, hbp, halloc⟩
    exact ⟨b, ⟨hb, halloc⟩, hbp⟩
  · rintro ⟨b, ⟨hb, halloc⟩, hbp⟩
    exact ⟨b, hb, hbp, halloc⟩

/-- The heap after one call. -/
theorem heap_tiled_oneSession :
    ∃ bs, Tiled (oneSession 100).machine bs ∧
      ∀ p, (∃ b ∈ bs, b.addr = p ∧ b.alloc = true) ↔ Holds (oneSession 100).live p :=
  heap_tiled (oneSession_spec (by decide)).1

/-! ### The free list -/

/-- The `prev` link of a node is the node before it, or null. -/
theorem FreeChain.prev_eq {pre post : List ℕ} (hl : FreeChain s (pre ++ a :: post)) :
    s.word (a + 4) = pre.getLastD 0 :=
  (seg_append.mp hl.links).2.2.1

/-- **The free list is exact.** The `next` links from `free_list` end, visit no block twice
and visit the free blocks of the heap; the `prev` links lead back. -/
theorem free_list_exact (hσ : Reachable σ) :
    ∃ bs l, HeapWalk σ.machine (σ.machine.memHeapLo + 16) bs ∧
      NextChain σ.machine σ.machine.freeList l ∧ l.Nodup ∧
      (∀ a, a ∈ l ↔ ∃ b ∈ bs, b.addr = a ∧ b.alloc = false) ∧
      ∀ pre a post, l = pre ++ a :: post → σ.machine.word (a + 4) = pre.getLastD 0 := by
  obtain ⟨h, hs⟩ := hσ.simulates
  have hw := hs.valid.toWf
  refine ⟨h.blocks, h.free, hs.represents.walk hw, hs.represents.nextChain, hw.nodup,
    fun a => hw.mem_free, fun pre a post hl => ?_⟩
  have hchain := hs.represents.chain
  rw [hl] at hchain
  exact hchain.prev_eq

/-- The free list after one call. -/
theorem free_list_exact_oneSession :
    ∃ bs l, HeapWalk (oneSession 100).machine ((oneSession 100).machine.memHeapLo + 16) bs ∧
      NextChain (oneSession 100).machine (oneSession 100).machine.freeList l ∧ l.Nodup ∧
      (∀ a, a ∈ l ↔ ∃ b ∈ bs, b.addr = a ∧ b.alloc = false) ∧
      ∀ pre a post, l = pre ++ a :: post →
        (oneSession 100).machine.word (a + 4) = pre.getLastD 0 :=
  free_list_exact (oneSession_spec (by decide)).1

/-! ### Payloads -/

/-- A grant lies in the payload of its block. -/
theorem Simulates.range_bounds (hs : Simulates σ h) (hg : g ∈ σ.live) :
    ∃ b, h.Allocated b ∧ b.addr = g.ptr ∧ g.ptr + g.size + 8 ≤ b.addr + b.size := by
  obtain ⟨b, hb, hbg, -, hroom⟩ := hs.block hg
  exact ⟨b, hb, hbg, by omega⟩

/-- No word of the allocator meets the payload of an allocated block. -/
theorem MetaWord.apart {w : ℕ} (hw : Wf s.memHeapLo h) (hbrk : s.memBrk = h.brk)
    (hb : h.Allocated b) (hm : MetaWord s h.blocks w) :
    b.addr + b.size ≤ w + 8 ∨ w + 4 ≤ b.addr := by
  have hbw := hw.block hb.1
  have hother : ∀ d ∈ h.blocks, d = b ∨ d.addr + d.size ≤ b.addr ∨ b.addr + b.size ≤ d.addr := by
    intro d hd
    by_cases hdb : d.addr = b.addr
    · exact Or.inl (hw.eq_of_addr hd hb.1 hdb)
    · exact Or.inr (hw.apart hd hb.1 hdb)
  cases hm with
  | prologueHeader => omega
  | prologueFooter => omega
  | epilogue => omega
  | header hd =>
      have := hw.block hd
      rcases hother _ hd with rfl | hapart | hapart <;> omega
  | footer hd =>
      have := hw.block hd
      rcases hother _ hd with rfl | hapart | hapart <;> omega
  | next hd hfree =>
      have := hw.block hd
      have := allocated_apart hw hb hd hfree
      omega
  | prev hd hfree =>
      have := hw.block hd
      have := allocated_apart hw hb hd hfree
      omega

/-- What the client holds does not overlap. -/
theorem Simulates.pairwise_disjoint (hs : Simulates σ h) :
    σ.live.Pairwise fun g g' => g.range ∩ g'.range = ∅ := by
  refine (List.pairwise_map.mp hs.nodup).imp_of_mem ?_
  intro g g' hg hg' hne
  obtain ⟨b, hb, hbg, hroom⟩ := hs.range_bounds hg
  obtain ⟨b', hb', hbg', hroom'⟩ := hs.range_bounds hg'
  have hapart := hs.valid.toWf.apart hb.1 hb'.1 (by rw [hbg, hbg']; exact hne)
  refine Set.eq_empty_of_forall_notMem ?_
  rintro c ⟨⟨h₁, h₂⟩, h₃, h₄⟩
  omega

/-- **Live payloads never collide.** Everything the client holds is aligned and lies in the
heap, no two ranges overlap, and none meets a word the allocator uses. -/
theorem payloads_apart (hσ : Reachable σ) :
    ∃ bs, HeapWalk σ.machine (σ.machine.memHeapLo + 16) bs ∧
      (∀ g ∈ σ.live, g.ptr % 8 = 0 ∧
        g.range ⊆ Set.Ico σ.machine.memHeapLo σ.machine.memBrk ∧
        ∀ w, MetaWord σ.machine bs w → g.range ∩ Set.Ico w (w + 4) = ∅) ∧
      σ.live.Pairwise fun g g' => g.range ∩ g'.range = ∅ := by
  obtain ⟨h, hs⟩ := hσ.simulates
  have hw := hs.valid.toWf
  have hbrk := hs.represents.brk
  refine ⟨h.blocks, hs.represents.walk hw, fun g hg => ?_, hs.pairwise_disjoint⟩
  obtain ⟨b, hb, hbg, hroom⟩ := hs.range_bounds hg
  have hbw := hw.block hb.1
  refine ⟨by omega, fun c hc => ?_, fun w hm => ?_⟩
  · obtain ⟨h₁, h₂⟩ := hc
    exact ⟨by omega, by omega⟩
  · have hapart := hm.apart hw hbrk hb
    refine Set.eq_empty_of_forall_notMem ?_
    rintro c ⟨⟨h₁, h₂⟩, h₃, h₄⟩
    omega

/-- Two blocks are held. -/
theorem payloads_apart_twoSession : twoSession.live = [⟨4224, 200⟩, ⟨4112, 100⟩] ∧
    ∃ bs, HeapWalk twoSession.machine (twoSession.machine.memHeapLo + 16) bs ∧
      (∀ g ∈ twoSession.live, g.ptr % 8 = 0 ∧
        g.range ⊆ Set.Ico twoSession.machine.memHeapLo twoSession.machine.memBrk ∧
        ∀ w, MetaWord twoSession.machine bs w → g.range ∩ Set.Ico w (w + 4) = ∅) ∧
      twoSession.live.Pairwise fun g g' => g.range ∩ g'.range = ∅ :=
  ⟨twoSession_live, payloads_apart twoSession_spec.1⟩

/-! ### Neighbours -/

/-- Behind a free block of a coalesced heap is an allocated block or the end. -/
theorem Layout.Valid.behind {lo : ℕ} (hv : Valid lo h) (hb : b ∈ h.blocks)
    (hfree : b.alloc = false) :
    (∃ c ∈ h.blocks, c.addr = b.addr + b.size ∧ c.alloc = true) ∨
      b.addr + b.size = h.brk := by
  obtain ⟨xs, ys, hbs, -, -, hhead⟩ := hv.split hb
  have hnext := nextOf_addr hv.toWf hbs
  cases ys with
  | nil => exact Or.inr hnext.symm
  | cons y ys =>
      have hy := (hhead y rfl).resolve_left (by simp [hfree])
      exact Or.inl ⟨y, by rw [hbs]; simp, hnext, hy⟩

/-- Before a free block of a coalesced heap is an allocated block or the start. -/
theorem Layout.Valid.before {lo : ℕ} (hv : Valid lo h) (hb : b ∈ h.blocks)
    (hfree : b.alloc = false) :
    (∃ c ∈ h.blocks, c.addr + c.size = b.addr ∧ c.alloc = true) ∨ b.addr = lo + 16 := by
  obtain ⟨xs, ys, hbs⟩ := List.append_of_mem hb
  have hprev := prevOf_end hv.toWf hbs
  have hc := hv.coalesced
  rw [hbs] at hc
  rcases xs.eq_nil_or_concat' with rfl | ⟨zs, x, rfl⟩
  · exact Or.inr hprev.symm
  · rw [prevOf, List.getLastD_concat] at hprev
    have hx := ((List.isChain_append.mp hc).2.2 x (by simp) b rfl).resolve_right (by simp [hfree])
    exact Or.inl ⟨x, by rw [hbs]; simp, hprev, hx⟩

/-- **Coalescing is complete.** No two neighbouring blocks are free: directly behind a free
block lies an allocated block or the epilogue, directly before it an allocated block or the
prologue. -/
theorem free_blocks_apart (hσ : Reachable σ) :
    ∃ bs, HeapWalk σ.machine (σ.machine.memHeapLo + 16) bs ∧
      (bs.IsChain fun b c => b.alloc = true ∨ c.alloc = true) ∧
      ∀ b ∈ bs, b.alloc = false →
        ((∃ c ∈ bs, c.addr = b.addr + b.size ∧ c.alloc = true) ∨
          b.addr + b.size = σ.machine.memBrk) ∧
        ((∃ c ∈ bs, c.addr + c.size = b.addr ∧ c.alloc = true) ∨
          b.addr = σ.machine.memHeapLo + 16) := by
  obtain ⟨h, hs⟩ := hσ.simulates
  refine ⟨h.blocks, hs.represents.walk hs.valid.toWf, hs.valid.coalesced, ?_⟩
  intro b hb hfree
  rw [hs.represents.brk]
  exact ⟨hs.valid.behind hb hfree, hs.valid.before hb hfree⟩

/-- One free block behind an allocated one. -/
theorem free_blocks_apart_oneSession :
    ∃ bs, HeapWalk (oneSession 100).machine ((oneSession 100).machine.memHeapLo + 16) bs ∧
      (bs.IsChain fun b c => b.alloc = true ∨ c.alloc = true) ∧
      ∀ b ∈ bs, b.alloc = false →
        ((∃ c ∈ bs, c.addr = b.addr + b.size ∧ c.alloc = true) ∨
          b.addr + b.size = (oneSession 100).machine.memBrk) ∧
        ((∃ c ∈ bs, c.addr + c.size = b.addr ∧ c.alloc = true) ∨
          b.addr = (oneSession 100).machine.memHeapLo + 16) :=
  free_blocks_apart (oneSession_spec (by decide)).1

end OsAndC
