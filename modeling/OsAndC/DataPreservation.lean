import OsAndC.HeapInvariants

/-!
# What a Call Leaves Alone

The allocator writes headers, footers and links between the data of its client.
`data_preserved` says that a call of a legal run changes nothing the client still holds:
every block other than the one the call was given keeps its place, its header and the bytes
requested, and `mm_realloc` hands over the data of the old block as far as both sizes reach,
whether the block stays, grows or moves.
-/

namespace OsAndC

open Layout

variable {σ : Session} {h : Layout} {c : Call} {g : Grant} {s' : Machine} {b : Block}

/-- The block of a grant that the call does not concern is still there after the call. -/
theorem Simulates.survives (hs : Simulates σ h) (hlegal : c.Legal σ.live) (hb : h.Allocated b)
    (hbc : b.addr ≠ c.ptr) : (c.apply h).1.Allocated b := by
  obtain ⟨-, -, -, size, -, halloc⟩ := apply_replaces hs.valid hlegal hs.holds
  exact (halloc b).mpr (Or.inr ⟨hb, hbc⟩)

/-- The grants that the call does not concern stay in the book. -/
theorem Simulates.mem_update (hs : Simulates σ h) (hlegal : c.Legal σ.live) (hg : g ∈ σ.live)
    (hgc : g.ptr ≠ c.ptr) : g ∈ c.update σ.live (c.apply h).2 := by
  obtain ⟨-, hnull, -⟩ := apply_replaces hs.valid hlegal hs.holds
  exact (OsAndC.mem_update hnull fun g => hs.ptr_ne_zero).mpr (Or.inr ⟨hg, hgc⟩)

/-- **Client data is preserved.** A legal call for which `mem_sbrk` refuses nothing returns;
what the client holds, apart from the block the call was given, keeps its place among the
blocks, its header and its bytes; and a resized block brings its data along. -/
theorem data_preserved (hσ : Reachable σ) (hlegal : c.Legal σ.live)
    (hg : Granted (finalState (c.run σ.machine))) :
    ∃ q s' bs, c.run σ.machine = .ok q s' ∧ HeapWalk s' (s'.memHeapLo + 16) bs ∧
      (∀ g ∈ σ.live, g.ptr ≠ c.ptr →
        g ∈ c.update σ.live q ∧ σ.machine.blockAt g.ptr ∈ bs ∧
        s'.header g.ptr = σ.machine.header g.ptr ∧
        ∀ a ∈ g.range, s'.mem a = σ.machine.mem a) ∧
      ∀ g n, g ∈ σ.live → 0 < n → c = .realloc g.ptr n →
        q ≠ 0 ∧ ∀ i, i < min g.size n → s'.mem (q + i) = σ.machine.mem (g.ptr + i) := by
  obtain ⟨h, hs⟩ := hσ.simulates
  obtain ⟨s', hrun, hi, hdata⟩ := hs.call hlegal hg
  refine ⟨(c.apply h).2, s', (c.apply h).1.blocks, hrun, hi.represents.walk hi.valid.toWf,
    fun g hgl hgc => ?_, fun g n hgl hn hc => ?_⟩
  · obtain ⟨b, hb, hbg, hroom⟩ := hs.range_bounds hgl
    have hb' := hs.survives hlegal hb (hbg ▸ hgc)
    have htag := hs.represents.blockTags b hb.1
    have htag' := hi.represents.blockTags b hb'.1
    refine ⟨hs.mem_update hlegal hgl hgc, ?_, ?_, fun a ha => ?_⟩
    · rw [← hbg, htag.blockAt]
      exact hb'.1
    · rw [← hbg]
      exact htag'.1.word_eq.trans htag.1.word_eq.symm
    · obtain ⟨h₁, h₂⟩ := ha
      exact hi.keeps b hb (hbg ▸ hgc) a (by omega) (by omega)
  · obtain ⟨b, hb, hbg, hroom⟩ := hs.range_bounds hgl
    obtain ⟨-, hnull, -⟩ := apply_replaces hs.valid hlegal hs.holds
    have hptr : c.ptr = g.ptr := by rw [hc]; rfl
    have hsize : c.size = n := by rw [hc]; rfl
    refine ⟨fun h0 => absurd (hnull.mp h0) (by omega), fun i hin => ?_⟩
    rw [← hbg]
    exact hdata b hb (hbg.trans hptr.symm) i (by omega) (by omega)

/-- The call `mm_realloc(4112, 200)` where the block at 4224 is held too, so that the block has
to be moved. -/
theorem data_preserved_twoSession : twoSession.live = [⟨4224, 200⟩, ⟨4112, 100⟩] ∧
    ∃ q s' bs, Call.run (.realloc 4112 200) twoSession.machine = .ok q s' ∧
      HeapWalk s' (s'.memHeapLo + 16) bs ∧
      (∀ g ∈ twoSession.live, g.ptr ≠ Call.ptr (.realloc 4112 200) →
        g ∈ Call.update twoSession.live q (.realloc 4112 200) ∧
        twoSession.machine.blockAt g.ptr ∈ bs ∧
        s'.header g.ptr = twoSession.machine.header g.ptr ∧
        ∀ a ∈ g.range, s'.mem a = twoSession.machine.mem a) ∧
      ∀ g n, g ∈ twoSession.live → 0 < n → Call.realloc 4112 200 = .realloc g.ptr n →
        q ≠ 0 ∧ ∀ i, i < min g.size n → s'.mem (q + i) = twoSession.machine.mem (g.ptr + i) := by
  obtain ⟨hr, hs, harena⟩ := twoSession_spec
  have hlegal : Call.Legal twoSession.live (.realloc 4112 200) :=
    ⟨by decide, Or.inl ⟨⟨4112, 100⟩, by decide, rfl⟩⟩
  refine ⟨twoSession_live, data_preserved hr hlegal (hs.granted_of_room hlegal ?_)⟩
  rw [Machine.memMaxAddr, harena]
  decide

end OsAndC
