import OsAndC.Walk

/-!
# Freeing Undoes Allocating

`mm_malloc` takes a block apart and `mm_free` puts it together again: what was split off is
a free neighbour of the block that is released, and the neighbour on its other side is
allocated, so the merge restores exactly the block that was used. `free_undoes_malloc` says
so for every state of a legal run; only the order of the free list remembers the pair of
calls. When the heap had to grow in between, what is left is the heap after the growth.

On layouts this is `Layout.Valid.take_release`; the growth is described by `Layout.Grows`.
-/

namespace OsAndC

open Layout

variable {σ : Session} {s : Machine} {h : Layout} {lo k n : ℕ} {b : Block} {xs ys : List Block}

/-! ### Layouts -/

/-- A free block of a valid heap, with allocated blocks, if any, on either side. -/
theorem Layout.Valid.split_free (hv : Valid lo h) (hb : b ∈ h.blocks) (hfree : b.alloc = false) :
    ∃ xs ys, h.blocks = xs ++ b :: ys ∧ Coalesced xs ∧ Coalesced ys ∧
      (∀ x ∈ xs.getLast?, x.alloc = true) ∧ ∀ y ∈ ys.head?, y.alloc = true := by
  obtain ⟨xs, ys, hbs, hxs, hys, hhead⟩ := hv.split hb
  have hc := hv.coalesced
  rw [hbs] at hc
  obtain ⟨-, -, hlast⟩ := List.isChain_append.mp hc
  refine ⟨xs, ys, hbs, hxs, hys, fun x hx => ?_, fun y hy => ?_⟩
  · exact (hlast x hx b rfl).resolve_right (by simp [hfree])
  · exact (hhead y hy).resolve_left (by simp [hfree])

/-- A free block whose size is `k` more than another address is not listed there. -/
theorem Layout.Wf.inside_notMem (hw : Wf lo h) (hb : b ∈ h.blocks) (hk : 0 < k)
    (hkb : k < b.size) : b.addr + k ∉ h.free := by
  intro hmem
  obtain ⟨d, hd, haddr, -⟩ := hw.mem_free.mp hmem
  have hne : b.addr ≠ d.addr := by omega
  have := hw.tiles.disjoint hb hd hne
  have := (hw.block hd).2.2.1
  omega

/-- Releasing a block merges it with the free blocks behind it, where the block before it and
the one behind the run are allocated. -/
theorem Layout.Valid.release_run {r : Block} {rs : List Block} (hv : Valid lo h)
    (hbs : h.blocks = xs ++ r :: rs ++ ys) (hr : r.alloc = true) (hrs : ∀ x ∈ rs, x.alloc = false)
    (hxs : Coalesced xs) (hys : Coalesced ys) (hlast : ∀ x ∈ xs.getLast?, x.alloc = true)
    (hhead : ∀ y ∈ ys.head?, y.alloc = true) :
    h.release r.addr = ⟨xs ++ ⟨r.addr, extent (r :: rs), false⟩ :: ys,
      r.addr :: h.free.filter (fun x => x ∉ (r :: rs).map Block.addr), h.brk⟩ := by
  have hbs' : h.blocks = xs ++ r :: (rs ++ ys) := by simp [hbs]
  have hrun : xs ++ { r with alloc := false } :: (rs ++ ys) =
      xs ++ { r with alloc := false } :: rs ++ ys := by simp
  have hfree : ∀ x ∈ ({ r with alloc := false } : Block) :: rs, x.alloc = false := by
    intro x hx
    rcases List.mem_cons.mp hx with rfl | hx
    · rfl
    · exact hrs x hx
  have hcoal := coalesce_eq (hv.marked hbs' hr) hrun hfree hxs hys hlast hhead List.mem_cons_self
  rw [release_eq hv.toWf hbs']
  refine hcoal.trans ?_
  rw [List.filter_cons_of_neg (by simp)]
  rfl

/-- **Releasing what was taken** restores the blocks, and the block comes to the front of the
list. -/
theorem Layout.Valid.take_release (hv : Valid lo h) (hb : b ∈ h.blocks) (hfree : b.alloc = false)
    (hk : 16 ≤ k ∧ k % 8 = 0) (hkb : k ≤ b.size) :
    (h.take b.addr k).release b.addr = ⟨h.blocks, b.addr :: h.free.erase b.addr, h.brk⟩ := by
  obtain ⟨xs, ys, hbs, hxs, hys, hlast, hhead⟩ := hv.split_free hb hfree
  have hv' := hv.take hb hfree hk hkb
  have heq : h.take b.addr k = _ :=
    place_eq (h := { h with free := h.free.erase b.addr }) hv.tiles hbs
  have hself : b.addr ∉ h.free.erase b.addr := fun hmem =>
    (hv.nodup.mem_erase_iff.mp hmem).1 rfl
  by_cases h16 : 16 ≤ b.size - k
  · -- the rest that was split off is merged again
    simp only [Block.cut, if_pos h16] at heq
    have hrel := hv'.release_run (r := ⟨b.addr, k, true⟩) (by rw [heq]) rfl (by simp) hxs hys hlast
      hhead
    have hin : b.addr + k ∉ h.free.erase b.addr := fun hmem =>
      hv.inside_notMem hb (by omega) (by omega) (List.mem_of_mem_erase hmem)
    have hfilter : ((b.addr + k) :: h.free.erase b.addr).filter
        (fun x => x ∉ [b.addr, b.addr + k]) = h.free.erase b.addr := by
      rw [List.filter_cons_of_neg (by simp)]
      refine List.filter_eq_self.mpr fun x hx => decide_eq_true fun h0 => ?_
      simp only [List.mem_cons, List.not_mem_nil, or_false] at h0
      rcases h0 with rfl | rfl
      · exact hself hx
      · exact hin hx
    have hblock : (⟨b.addr, k + (b.size - k), false⟩ : Block) = b := by
      rw [Nat.add_sub_cancel' hkb, ← hfree]
    refine hrel.trans ?_
    simp only [heq, List.map_cons, List.map_nil, hfilter, extent_cons, extent_nil, Nat.add_zero,
      hblock, hbs]
  · simp only [Block.cut, if_neg h16] at heq
    have hrel := hv'.release_run (r := ⟨b.addr, b.size, true⟩) (by rw [heq]) rfl (by simp) hxs hys
      hlast hhead
    have hfilter : (h.free.erase b.addr).filter (fun x => x ∉ [b.addr]) = h.free.erase b.addr := by
      refine List.filter_eq_self.mpr fun x hx => decide_eq_true fun h0 => ?_
      exact hself (List.mem_singleton.mp h0 ▸ hx)
    have hblock : (⟨b.addr, b.size, false⟩ : Block) = b := by rw [← hfree]
    refine hrel.trans ?_
    simp only [heq, List.map_cons, List.map_nil, hfilter, extent_cons, extent_nil, Nat.add_zero,
      hblock, hbs]

/-- The block an extension leaves in front of the list, taken and released again. -/
theorem Layout.Valid.extend_take_release {g : ℕ} (hv : Valid lo h) (hg : 16 ≤ g ∧ g % 8 = 0)
    (hk : 16 ≤ k ∧ k % 8 = 0) (hkg : k ≤ g) :
    ((h.extend g).take ((h.extend g).free.headD 0) k).release ((h.extend g).free.headD 0) =
      h.extend g := by
  obtain ⟨b, hb, hhead, hfree, hgb⟩ := hv.extend_head hg
  rw [← hhead, (hv.extend hg).take_release hb hfree hk (hkg.trans hgb)]
  have hcons : ∃ a l, (h.extend g).free = a :: l := ⟨_, _, rfl⟩
  obtain ⟨a, l, hl⟩ := hcons
  rw [hl, List.headD_cons] at hhead
  rw [hhead, hl, List.erase_cons_head, ← hl]

/-- **Releasing what was allocated.** -/
theorem Layout.Valid.malloc_release (hv : Valid lo h) (hn : 0 < n) :
    (h.fit? (need n) ≠ none ∧ (h.malloc n).2 ∈ h.free ∧ (h.malloc n).1.brk = h.brk ∧
      (h.malloc n).1.release (h.malloc n).2 =
        ⟨h.blocks, (h.malloc n).2 :: h.free.erase (h.malloc n).2, h.brk⟩) ∨
    ∃ g, 0 < g ∧ (h.malloc n).1.brk = h.brk + g ∧
      Grows h g ((h.malloc n).1.release (h.malloc n).2) := by
  obtain ⟨h16, h8, -⟩ := need_pos hn
  rw [Layout.malloc, if_neg (by omega)]
  cases hfit : h.fit? (need n) with
  | some a =>
      obtain ⟨b, hb, rfl, hfree, hk⟩ := hv.fit?_some hfit
      exact Or.inl ⟨by simp, hv.mem_free.mpr ⟨b, hb, rfl, hfree⟩, rfl,
        hv.take_release hb hfree ⟨h16, h8⟩ hk⟩
  | none =>
      have hg : 16 ≤ max (need n) 4096 ∧ max (need n) 4096 % 8 = 0 := by omega
      refine Or.inr ⟨max (need n) 4096, by omega, rfl, ?_⟩
      simp only []
      rw [hv.extend_take_release hg ⟨h16, h8⟩ (le_max_left _ _)]
      exact hv.grows hg

/-! ### The code -/

/-- **Freeing undoes allocating.** In every state of a legal run, `mm_malloc(n)` and
`mm_free` of what it returned give the old blocks with the block that was used in front of
the list, or, if the heap had to grow by `g` bytes, the heap grown by `g` bytes. -/
theorem free_undoes_malloc (hσ : Reachable σ) (hn : 0 < n) (hwrap : need n < 2 ^ 32)
    (hg : Granted (finalState (mmMalloc n σ.machine))) :
    ∃ q s s' h h', mmMalloc n σ.machine = .ok q s ∧ mmFree q s = .ok () s' ∧
      Shows σ.machine h ∧ Shows s' h' ∧
      (s.memBrk = σ.machine.memBrk →
        h'.blocks = h.blocks ∧ q ∈ h.free ∧ h'.free = q :: h.free.erase q) ∧
      ∀ g, 0 < g → s.memBrk = σ.machine.memBrk + g → h.Grows g h' := by
  obtain ⟨h, hs⟩ := hσ.simulates
  have hv := hs.valid
  have hlegal : Call.Legal σ.live (.malloc n) := hwrap
  obtain ⟨s, hrun, hi, -⟩ := hs.call hlegal hg
  obtain ⟨hv₁, -, -, size, -, -, halloc⟩ := hv.malloc hn
  have hq : (h.malloc n).1.Allocated ⟨(h.malloc n).2, size, true⟩ := (halloc _).mpr (Or.inl rfl)
  obtain ⟨s', hrun', hi', -⟩ := mmFree_spec hi.valid hi.represents hq
  have hbrk : s.memBrk = (h.malloc n).1.brk := hi.represents.brk
  have hbrk₀ := hs.represents.brk
  refine ⟨_, s, s', h, _, hrun, hrun', hs.represents.shows hv.toWf,
    hi'.represents.shows hi'.valid.toWf, ?_⟩
  rcases hv.malloc_release hn with ⟨-, hmem, hsame, hrel⟩ | ⟨g, hg0, hgrown, hrel⟩
  · refine ⟨fun _ => ?_, fun g hg0 hbrk' => by omega⟩
    simp only [Call.apply, hrel]
    exact ⟨trivial, hmem, trivial⟩
  · refine ⟨fun hbrk' => by omega, fun g' _ hbrk' => ?_⟩
    obtain rfl : g' = g := by omega
    exact hrel

/-- 4000 bytes after 100 need more memory, which stays behind in the free block. -/
theorem free_undoes_malloc_oneSession :
    ∃ q s s' h h', mmMalloc 4000 (oneSession 100).machine = .ok q s ∧ mmFree q s = .ok () s' ∧
      Shows (oneSession 100).machine h ∧ Shows s' h' ∧
      (s.memBrk = (oneSession 100).machine.memBrk →
        h'.blocks = h.blocks ∧ q ∈ h.free ∧ h'.free = q :: h.free.erase q) ∧
      ∀ g, 0 < g → s.memBrk = (oneSession 100).machine.memBrk + g → h.Grows g h' := by
  obtain ⟨hr, hs, harena⟩ := oneSession_spec (n := 100) (by decide)
  have hwrap : need 4000 < 2 ^ 32 := by decide
  refine free_undoes_malloc hr (by decide) hwrap (hs.granted_malloc hwrap ?_)
  rw [Machine.memMaxAddr, harena]
  decide

end OsAndC
