import Mathlib.Logic.Relation
import OsAndC.BoundedHeap

/-!
# Recycling

What a client gives back is put in front of the free list, joined with its neighbours, and so
it is the first block that the next request is tried on. A client that only replaces blocks,
each by one that is not larger, is therefore served from what it gives back. `recycling` says
that the heap of such a client never grows, in however many rounds and whatever it stores
meanwhile, and that the next round always goes through, even where `mem_sbrk` would refuse
every request. The replacement never lies behind what it replaces.
-/

namespace OsAndC

open Layout

/-- A round of a client that only replaces blocks by blocks that are not larger: it writes,
releases a block, resizes one in place, or releases one and allocates another. -/
inductive Round : Session → Session → Prop
  | write {σ τ : Session} {a : ℕ} {v : UInt8} : Step σ (.write a v) τ → Round σ τ
  | release {σ τ : Session} {p q : ℕ} : Step σ (.call (.free p) q) τ → Round σ τ
  | resize {σ τ : Session} {g : Grant} {n q : ℕ} : g ∈ σ.live → n ≤ g.size →
      Step σ (.call (.realloc g.ptr n) q) τ → Round σ τ
  | replace {σ ρ τ : Session} {g : Grant} {n p q : ℕ} : g ∈ σ.live → n ≤ g.size →
      Step σ (.call (.free g.ptr) p) ρ → Step ρ (.call (.malloc n) q) τ → Round σ τ

variable {σ ρ τ : Session} {h : Layout} {c : Call} {g : Grant} {b : Block} {lo k n : ℕ}

/-! ### Layouts -/

/-- What has been released is the first to be tried: a request that is not larger is served
from it and the free block in front of it, if there is one. -/
theorem Layout.Valid.release_fit (hv : Valid lo h) (hb : h.Allocated b) (hk : k ≤ b.size) :
    ∃ a ≤ b.addr, (h.release b.addr).fit? k = some a := by
  obtain ⟨xs, ys, hbs, hxs, hys, -⟩ := hv.split hb.1
  have hw := hv.marked hbs hb.2
  obtain ⟨pre, r, rs, post, hrun, hr, hbr, hpre, hpost, hl, hh⟩ :=
    exists_run (b := { b with alloc := false }) rfl hxs hys
  obtain ⟨l, heq⟩ : ∃ l, h.release b.addr =
      ⟨pre ++ ⟨r.addr, extent (r :: rs), false⟩ :: post, r.addr :: l, h.brk⟩ :=
    ⟨_, (release_eq hv.toWf hbs).trans (coalesce_eq (b := { b with alloc := false }) hw hrun hr
      hpre hpost hl hh hbr)⟩
  -- the block lies in the run that is joined
  have ht := hw.tiles
  simp only [hrun] at ht
  have htrun := (tiles_append.mp (tiles_append.mp ht).1).2
  have haddr : r.addr ≤ b.addr ∧ b.addr + b.size ≤ r.addr + extent (r :: rs) := by
    have hbounds := htrun.bounds hbr
    have hfirst := htrun.1
    simp only at hbounds
    omega
  have hsize : (h.release b.addr).sizeAt r.addr = extent (r :: rs) :=
    (hv.release hb).sizeAt (b := ⟨r.addr, extent (r :: rs), false⟩) (by rw [heq]; simp)
  refine ⟨r.addr, haddr.1, ?_⟩
  have hfree : (h.release b.addr).free = r.addr :: l := by rw [heq]
  rw [fit?, hfree, List.find?_cons_of_pos]
  rw [hsize, decide_eq_true_eq]
  omega

/-! ### Sessions -/

/-- The block of a grant has room for every request that is not larger. -/
theorem Simulates.recyclable (hs : Simulates σ h) (hg : g ∈ σ.live) (hn : n ≤ g.size) :
    ∃ b, h.Allocated b ∧ b.addr = g.ptr ∧ need n ≤ b.size ∧ need n < 2 ^ 32 := by
  obtain ⟨b, hb, hbg, -, hroom⟩ := hs.tended.block hg
  have hblock := hs.valid.toWf.block hb.1
  have hbrk := hs.represents.brk
  have hmax := σ.machine.brk_le_max
  have hlo : σ.machine.memHeapLo = σ.machine.arena.base := rfl
  have hneed : need n ≤ b.size := by
    rw [need]
    omega
  simp only [maxHeap] at hmax
  exact ⟨b, hb, hbg, hneed, by omega⟩

/-- A legal call for which the heap has a block leads to the next session. -/
theorem Simulates.step_after (hs : Simulates σ h) (hc : c.Legal σ.live) (hext : ¬ c.Extends h) :
    Step σ (.call c (c.apply h).2) (σ.after h c) := by
  have hg := (hs.granted_iff hc).mpr fun h0 => absurd h0 hext
  obtain ⟨s', hrun, -⟩ := hs.call hc hg
  simp only [Session.after]
  rw [hrun] at hg ⊢
  exact .call hc hrun hg

/-- Resizing to a size that is not larger needs no new block. -/
theorem Simulates.resize_fits (hs : Simulates σ h) (hg : g ∈ σ.live) (hn : n ≤ g.size) :
    Call.Legal σ.live (.realloc g.ptr n) ∧ ¬ Call.Extends h (.realloc g.ptr n) ∧
      (h.realloc g.ptr n).2 = if n = 0 then 0 else g.ptr := by
  obtain ⟨b, hb, hbg, hneed, hwrap⟩ := hs.recyclable hg hn
  have hsize : need n ≤ h.sizeAt g.ptr := by
    rw [← hbg, hs.valid.toWf.sizeAt hb.1]
    exact hneed
  have hne := hs.ptr_ne_zero hg
  refine ⟨⟨hwrap, Or.inl ⟨g, hg, rfl⟩⟩, fun h0 => ?_, ?_⟩
  · rcases h0.2.1 with h0 | hstay
    · exact hne h0
    · exact hstay (Or.inl hsize)
  · rw [Layout.realloc]
    split_ifs <;> rfl

/-- After a release, a request that is not larger needs no new block. -/
theorem Simulates.replace_fits (hs : Simulates σ h) (hg : g ∈ σ.live) (hn : n ≤ g.size) :
    need n < 2 ^ 32 ∧ ¬ Call.Extends (h.release g.ptr) (.malloc n) ∧
      ((h.release g.ptr).malloc n).2 ≤ g.ptr := by
  obtain ⟨b, hb, hbg, hneed, hwrap⟩ := hs.recyclable hg hn
  obtain ⟨a, ha, hfit⟩ := hs.valid.release_fit hb hneed
  rw [hbg] at ha hfit
  refine ⟨hwrap, fun h0 => ?_, ?_⟩
  · exact absurd (hfit.symm.trans h0.2) (Option.some_ne_none a)
  · rw [Layout.malloc, hfit]
    split_ifs
    · exact Nat.zero_le _
    · exact ha

/-- **One round** keeps the break where it is. -/
theorem Round.simulates (hs : Simulates σ h) (hround : Round σ τ) :
    ∃ h', Simulates τ h' ∧ h'.brk = h.brk := by
  cases hround with
  | write hstep => exact ⟨h, (hstep.simulates hs).1, rfl⟩
  | release hstep => exact ⟨_, (hstep.simulates hs).1, rfl⟩
  | resize hg hn hstep =>
      obtain ⟨-, hext, -⟩ := hs.resize_fits hg hn
      exact ⟨_, (hstep.simulates hs).1, apply_brk_eq.2 hext⟩
  | replace hg hn hfree hmalloc =>
      obtain ⟨-, hext, -⟩ := hs.replace_fits hg hn
      have hs₁ := (hfree.simulates hs).1
      exact ⟨_, (hmalloc.simulates hs₁).1, apply_brk_eq.2 hext⟩

/-- A block can be replaced by one that is not larger, which does not lie behind it. -/
theorem Simulates.exists_replace (hs : Simulates σ h) (hg : g ∈ σ.live) (hn : n ≤ g.size) :
    ∃ ρ q τ, Step σ (.call (.free g.ptr) 0) ρ ∧ Step ρ (.call (.malloc n) q) τ ∧ q ≤ g.ptr := by
  obtain ⟨hwrap, hext, hq⟩ := hs.replace_fits hg hn
  have hfree := hs.step_after (c := .free g.ptr) ⟨g, hg, rfl⟩ not_false
  have hs₁ := (hfree.simulates hs).1
  exact ⟨_, _, _, hfree, hs₁.step_after (c := .malloc n) hwrap hext, hq⟩

/-- **Recycling.** In every legal run that goes on with rounds of replacements, the heap stays
as large as it was. In each of its states every block can be resized in place to any size
that is not larger, and can be replaced by a block of such a size, which does not lie behind
it. -/
theorem recycling (hσ : Reachable σ) (hrounds : Relation.ReflTransGen Round σ τ) :
    τ.machine.memBrk = σ.machine.memBrk ∧ ∀ g ∈ τ.live, ∀ n ≤ g.size,
      (∃ υ, Step τ (.call (.realloc g.ptr n) (if n = 0 then 0 else g.ptr)) υ) ∧
      ∃ ρ q υ, Step τ (.call (.free g.ptr) 0) ρ ∧ Step ρ (.call (.malloc n) q) υ ∧
        q ≤ g.ptr := by
  obtain ⟨h, hs⟩ := hσ.simulates
  obtain ⟨h', hs', hbrk⟩ : ∃ h', Simulates τ h' ∧ h'.brk = h.brk := by
    induction hrounds with
    | refl => exact ⟨h, hs, rfl⟩
    | tail _ hround ih =>
        obtain ⟨h₁, hs₁, hbrk₁⟩ := ih
        obtain ⟨h', hs', hbrk'⟩ := hround.simulates hs₁
        exact ⟨h', hs', hbrk'.trans hbrk₁⟩
  refine ⟨by rw [hs'.represents.brk, hbrk, hs.represents.brk], fun g hg n hn => ⟨?_, ?_⟩⟩
  · obtain ⟨hlegal, hext, hq⟩ := hs'.resize_fits hg hn
    exact ⟨_, hq ▸ hs'.step_after hlegal hext⟩
  · exact hs'.exists_replace hg hn

/-- One of two blocks is given back, and 60 bytes are taken in its place. -/
theorem recycling_twoSession : ∃ τ, Round twoSession τ ∧
    τ.machine.memBrk = twoSession.machine.memBrk ∧ ∀ g ∈ τ.live, ∀ n ≤ g.size,
      (∃ υ, Step τ (.call (.realloc g.ptr n) (if n = 0 then 0 else g.ptr)) υ) ∧
      ∃ ρ q υ, Step τ (.call (.free g.ptr) 0) ρ ∧ Step ρ (.call (.malloc n) q) υ ∧
        q ≤ g.ptr := by
  obtain ⟨hreach, hs, -⟩ := twoSession_spec
  have hg : (⟨4112, 100⟩ : Grant) ∈ twoSession.live := by rw [twoSession_live]; decide
  obtain ⟨ρ, q, τ, hfree, hmalloc, -⟩ := hs.exists_replace (n := 60) hg (by decide)
  have hround := Round.replace hg (by decide) hfree hmalloc
  exact ⟨τ, hround, recycling hreach (.single hround)⟩

end OsAndC
