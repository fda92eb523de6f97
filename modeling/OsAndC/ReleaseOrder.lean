import OsAndC.Walk

/-!
# The Order of Releases

Which way `coalesce` goes depends on which neighbours are free already, so two orders of
releasing the same blocks run through different merges. `frees_commute` says that they meet:
the heaps are the same, and the free lists name the same blocks.

The argument does not follow the merges. A release keeps the heap valid and takes one block
out of the allocated ones, so what is allocated after several releases depends on the set of
the pointers only, and a valid heap is determined by its allocated blocks
(`Layout.Valid.blocks_eq`).
-/

namespace OsAndC

open Layout

/-- `mm_free` on every pointer of `ps`, in this order. -/
def freeAll (ps : List ℕ) : M Unit := ps.forM mmFree

/-- Release every block of `ps`, in this order. -/
def Layout.releaseAll (h : Layout) (ps : List ℕ) : Layout := ps.foldl Layout.release h

variable {σ : Session} {s : Machine} {h : Layout} {lo p : ℕ} {ps qs : List ℕ} {b : Block}

/-! ### Several releases -/

/-- Nothing is released. -/
@[simp] theorem releaseAll_nil : h.releaseAll [] = h := rfl

/-- The first block and then the others. -/
@[simp] theorem releaseAll_cons : h.releaseAll (p :: ps) = (h.release p).releaseAll ps := rfl

/-- Releasing does not move the end of the heap. -/
theorem releaseAll_brk : (h.releaseAll ps).brk = h.brk := by
  induction ps generalizing h with
  | nil => rfl
  | cons p ps ih => rw [releaseAll_cons, ih]; rfl

/-- After the release of `b`, the other pointers still name allocated blocks. -/
theorem Layout.Valid.holds_release (hv : Valid lo h) (hb : h.Allocated b) (hnot : b.addr ∉ ps)
    (hps : ∀ p ∈ ps, ∃ d, h.Allocated d ∧ d.addr = p) :
    ∀ p ∈ ps, ∃ d, (h.release b.addr).Allocated d ∧ d.addr = p := by
  intro p hp
  obtain ⟨d, hd, rfl⟩ := hps p hp
  refine ⟨d, (hv.release_allocated hb).mpr ⟨hd, ?_⟩, rfl⟩
  intro h0
  exact hnot (h0 ▸ hp)

/-- Releases keep the heap valid, and leave the other allocated blocks. -/
theorem Layout.Valid.releaseAll (hv : Valid lo h) (hnd : ps.Nodup)
    (hps : ∀ p ∈ ps, ∃ d, h.Allocated d ∧ d.addr = p) :
    Valid lo (h.releaseAll ps) ∧
      ∀ c, (h.releaseAll ps).Allocated c ↔ h.Allocated c ∧ c.addr ∉ ps := by
  induction ps generalizing h with
  | nil => exact ⟨hv, by simp⟩
  | cons p ps ih =>
      obtain ⟨hp, hrestnd⟩ := List.nodup_cons.mp hnd
      obtain ⟨b, hb, rfl⟩ := hps p List.mem_cons_self
      have hrest := hv.holds_release hb hp fun q hq => hps q (List.mem_cons_of_mem _ hq)
      obtain ⟨hv', halloc⟩ := ih (hv.release hb) hrestnd hrest
      refine ⟨hv', fun c => ?_⟩
      rw [releaseAll_cons, halloc, hv.release_allocated hb, List.mem_cons, not_or, and_assoc]

/-- **Two orders of releasing the same blocks** lead to the same blocks. -/
theorem Layout.Valid.releaseAll_perm (hv : Valid lo h) (hnd : ps.Nodup) (hperm : ps.Perm qs)
    (hps : ∀ p ∈ ps, ∃ d, h.Allocated d ∧ d.addr = p) :
    (h.releaseAll ps).blocks = (h.releaseAll qs).blocks := by
  obtain ⟨hvp, hp⟩ := hv.releaseAll hnd hps
  obtain ⟨hvq, hq⟩ := hv.releaseAll (hperm.nodup_iff.mp hnd) fun p hp =>
    hps p (hperm.mem_iff.mpr hp)
  refine hvp.blocks_eq hvq ?_ fun c => ?_
  · rw [releaseAll_brk, releaseAll_brk]
  · rw [hp, hq, hperm.mem_iff]

/-- A valid heap in which nothing is allocated is one free block. -/
theorem Layout.Valid.eq_of_no_alloc (hv : Valid lo h) (hbrk : lo + 16 < h.brk)
    (hnone : ∀ c, ¬ h.Allocated c) :
    h.blocks = [⟨lo + 16, h.brk - lo - 16, false⟩] ∧ h.free = [lo + 16] := by
  have he := hv.brk_eq
  have hblocks : h.blocks = [⟨lo + 16, h.brk - lo - 16, false⟩] := by
    refine hv.tiles.eq_of_alloc ⟨rfl, by simp only []; omega, trivial⟩ hv.coalesced
      (List.isChain_singleton _) ?_ fun d hd => ?_
    · simp only [extent_cons, extent_nil]
      omega
    · constructor
      · exact fun hmem => absurd ⟨hmem, hd⟩ (hnone d)
      · intro hmem
        rw [List.mem_singleton.mp hmem] at hd
        cases hd
  refine ⟨hblocks, ?_⟩
  have hperm := hv.perm
  rw [hblocks, freeAddrs_cons_free rfl, freeAddrs_nil] at hperm
  exact List.perm_singleton.mp hperm

/-! ### The code -/

/-- **Releases in sequence refine the abstract releases.** -/
theorem freeAll_spec (hv : Valid s.memHeapLo h) (hr : Represents s h) (hnd : ps.Nodup)
    (hps : ∀ p ∈ ps, ∃ d, h.Allocated d ∧ d.addr = p) :
    ∃ s', freeAll ps s = .ok () s' ∧ Represents s' (h.releaseAll ps) ∧ s'.arena = s.arena := by
  induction ps generalizing s h with
  | nil => exact ⟨s, rfl, hr, rfl⟩
  | cons p ps ih =>
      obtain ⟨hp, hrestnd⟩ := List.nodup_cons.mp hnd
      obtain ⟨b, hb, rfl⟩ := hps p List.mem_cons_self
      obtain ⟨s₁, hrun₁, hi, -⟩ := mmFree_spec hv hr hb
      have hrest := hv.holds_release hb hp fun q hq => hps q (List.mem_cons_of_mem _ hq)
      obtain ⟨s', hrun', hr', harena⟩ := ih hi.valid hi.represents hrestnd hrest
      refine ⟨s', ?_, hr', harena.trans hi.arena⟩
      change (mmFree b.addr >>= fun _ => freeAll ps) s = _
      rw [run_bind_ok hrun₁, hrun']

/-- **The order of frees does not matter.** From any state of a legal run, releasing the same
live pointers in two orders gives the same blocks and free lists of the same blocks. If
nothing else was live, what is left is one free block over the whole heap, alone in the
list. -/
theorem frees_commute (hσ : Reachable σ) (hnd : ps.Nodup) (hperm : ps.Perm qs)
    (hlive : ∀ p ∈ ps, Holds σ.live p) :
    ∃ s s' bs l l', freeAll ps σ.machine = .ok () s ∧ freeAll qs σ.machine = .ok () s' ∧
      HeapWalk s (s.memHeapLo + 16) bs ∧ HeapWalk s' (s'.memHeapLo + 16) bs ∧
      NextChain s s.freeList l ∧ NextChain s' s'.freeList l' ∧ l.Perm l' ∧
      ((∀ p, Holds σ.live p → p ∈ ps) →
        bs = [⟨s.memHeapLo + 16, s.memHeapsize - 16, false⟩] ∧
          l = [s.memHeapLo + 16] ∧ l' = [s.memHeapLo + 16]) := by
  obtain ⟨h, hs, hgrown⟩ := hσ.simulates_grown
  have hv := hs.valid
  have hps : ∀ p ∈ ps, ∃ d, h.Allocated d ∧ d.addr = p := fun p hp => (hs.holds p).mp (hlive p hp)
  have hqs : ∀ p ∈ qs, ∃ d, h.Allocated d ∧ d.addr = p := fun p hp =>
    hps p (hperm.mem_iff.mpr hp)
  have hndq := hperm.nodup_iff.mp hnd
  obtain ⟨s, hrun, hr, harena⟩ := freeAll_spec hv hs.represents hnd hps
  obtain ⟨s', hrun', hr', harena'⟩ := freeAll_spec hv hs.represents hndq hqs
  have hlo : s.memHeapLo = σ.machine.memHeapLo := Machine.memHeapLo_congr harena
  have hlo' : s'.memHeapLo = σ.machine.memHeapLo := Machine.memHeapLo_congr harena'
  obtain ⟨hvp, halloc⟩ := hv.releaseAll hnd hps
  obtain ⟨hvq, halloc'⟩ := hv.releaseAll hndq hqs
  have hblocks := hv.releaseAll_perm hnd hperm hps
  have hwalk' := hr'.walk (hlo' ▸ hvq.toWf)
  rw [← hblocks] at hwalk'
  have hlist : (h.releaseAll ps).free.Perm (h.releaseAll qs).free := by
    have hpermq := hvq.perm
    rw [← hblocks] at hpermq
    exact hvp.perm.trans hpermq.symm
  refine ⟨s, s', _, _, _, hrun, hrun', hr.walk (hlo ▸ hvp.toWf), hwalk', hr.nextChain,
    hr'.nextChain, hlist, fun hall => ?_⟩
  have hnone : ∀ c, ¬ (h.releaseAll ps).Allocated c := by
    intro c hc
    obtain ⟨hca, hcp⟩ := (halloc c).mp hc
    exact hcp (hall c.addr ((hs.holds c.addr).mpr ⟨c, hca, rfl⟩))
  have hbrk : (h.releaseAll ps).brk = s.memBrk := hr.brk.symm
  have hgrown' : σ.machine.memHeapLo + 16 < (h.releaseAll ps).brk := by
    rw [releaseAll_brk]
    omega
  obtain ⟨hone, hfree⟩ := hvp.eq_of_no_alloc hgrown' hnone
  rw [hfree] at hlist
  refine ⟨?_, hlo ▸ hfree, hlo ▸ (List.singleton_perm.mp hlist).symm⟩
  rw [hone, hlo, Machine.memHeapsize, hlo, hbrk]

/-- The two live blocks of the session, released in either order. -/
theorem frees_commute_twoSession :
    ∃ s s' bs l l', freeAll [4112, 4224] twoSession.machine = .ok () s ∧
      freeAll [4224, 4112] twoSession.machine = .ok () s' ∧
      HeapWalk s (s.memHeapLo + 16) bs ∧ HeapWalk s' (s'.memHeapLo + 16) bs ∧
      NextChain s s.freeList l ∧ NextChain s' s'.freeList l' ∧ l.Perm l' ∧
      ((∀ p, Holds twoSession.live p → p ∈ [4112, 4224]) →
        bs = [⟨s.memHeapLo + 16, s.memHeapsize - 16, false⟩] ∧
          l = [s.memHeapLo + 16] ∧ l' = [s.memHeapLo + 16]) := by
  refine frees_commute twoSession_spec.1 (by decide) (List.Perm.swap 4224 4112 []) ?_
  intro p hp
  rw [twoSession_live]
  simp only [List.mem_cons, List.not_mem_nil, or_false] at hp
  rcases hp with rfl | rfl
  · exact ⟨⟨4112, 100⟩, by simp, rfl⟩
  · exact ⟨⟨4224, 200⟩, by simp, rfl⟩

end OsAndC
