import OsAndC.FirstFit

/-!
# Running out of Memory

`extend_heap` reports a refusal of `mem_sbrk` with a null pointer, but `mm_malloc` does not
look at it: it unlinks and places the block at address 0. `out_of_memory_faults` says that
this happens whenever no free block fits and `mem_sbrk` refuses. There is no state in which
`mm_malloc` comes back with null for want of memory, and none in which `mm_realloc` does,
although its comment promises that the original block is left untouched.
-/

namespace OsAndC

open Layout

/-- The call returns null and leaves the heap and the free list as they were. -/
def CleanFailure (m : M ℕ) (s : Machine) : Prop :=
  ∃ s', m s = .ok 0 s' ∧ s'.mem = s.mem ∧ s'.memBrk = s.memBrk ∧ s'.freeList = s.freeList

variable {σ : Session} {s : Machine} {h : Layout} {bs : List Block} {m : M ℕ} {n p : ℕ}

/-- What faults does not fail cleanly. -/
theorem not_cleanFailure {e : Fault} {s' : Machine} (hrun : m s = .error e s') :
    ¬ CleanFailure m s := by
  rintro ⟨s'', hrun', -⟩
  rw [hrun] at hrun'
  cases hrun'

/-- Where nothing fits and `mem_sbrk` refuses, both calls read through the null pointer. -/
theorem Simulates.out_of_memory (hs : Simulates σ h) (hn : 0 < n) (hwrap : need n < 2 ^ 32)
    (hfit : NoFit h.blocks (need n)) (hgr : σ.machine.Refuses (toInt (max (need n) 4096))) :
    (∃ s', mmMalloc n σ.machine = .error (.outside (.load 4 4)) s') ∧
      ∀ p, Holds σ.live p → MustMove σ.machine p (need n) →
        ∃ s', mmRealloc p n σ.machine = .error (.outside (.load 4 4)) s' := by
  have hv := hs.valid
  have hr := hs.represents
  have hnone := hv.fit?_eq_none.mpr hfit
  refine ⟨⟨_, mmMalloc_refused hv hr hn hwrap hnone hgr⟩, ?_⟩
  intro p hp hmove
  obtain ⟨b, hb, rfl⟩ := (hs.holds p).mp hp
  have hstay := (hv.mustMove_iff hr hb.1).mp hmove
  exact ⟨_, mmRealloc_refused hv hr hb hn hwrap hstay hnone hgr⟩

/-- **Out of memory is never a clean failure.** In no state of a legal run in which no free
block fits and `mem_sbrk` refuses does `mm_malloc` return null, nor `mm_realloc` on a live
block that would have to move: both read the word at address 4 and stop there. -/
theorem out_of_memory_faults (hσ : Reachable σ) (hn : 0 < n) (hwrap : need n < 2 ^ 32)
    (hwalk : HeapWalk σ.machine (σ.machine.memHeapLo + 16) bs) (hfit : NoFit bs (need n))
    (hgr : σ.machine.Refuses (toInt (max (need n) 4096))) :
    (¬ CleanFailure (mmMalloc n) σ.machine ∧
      ∃ s', mmMalloc n σ.machine = .error (.outside (.load 4 4)) s') ∧
    ∀ p, Holds σ.live p → MustMove σ.machine p (need n) →
      ¬ CleanFailure (mmRealloc p n) σ.machine ∧
        ∃ s', mmRealloc p n σ.machine = .error (.outside (.load 4 4)) s' := by
  obtain ⟨h, hs⟩ := hσ.simulates
  rw [hs.represents.blocks_eq hs.valid.toWf hwalk] at hfit
  obtain ⟨⟨s', hmalloc⟩, hrealloc⟩ := hs.out_of_memory hn hwrap hfit hgr
  refine ⟨⟨not_cleanFailure hmalloc, s', hmalloc⟩, ?_⟩
  intro p hp hmove
  obtain ⟨s'', hrun⟩ := hrealloc p hp hmove
  exact ⟨not_cleanFailure hrun, s'', hrun⟩

/-- The request of 20 MB, the size of the whole arena, after `mm_malloc(100)`. -/
theorem oneSession_full : Reachable (oneSession 100) ∧
    Simulates (oneSession 100) ((initial 4096).malloc 100).1 ∧
    NoFit ((initial 4096).malloc 100).1.blocks (need (20 * 2 ^ 20)) ∧
    (oneSession 100).machine.Refuses (toInt (max (need (20 * 2 ^ 20)) 4096)) ∧
    MustMove (oneSession 100).machine 4112 (need (20 * 2 ^ 20)) := by
  obtain ⟨hr, hs, harena⟩ := oneSession_spec (n := 100) (by decide)
  have hblocks : ((initial 4096).malloc 100).1.blocks =
      [⟨4112, 112, true⟩, ⟨4224, 3984, false⟩] := by decide
  have hb : (⟨4112, 112, true⟩ : Block) ∈ ((initial 4096).malloc 100).1.blocks := by
    rw [hblocks]
    exact List.mem_cons_self
  refine ⟨hr, hs, by decide, ?_, (hs.valid.mustMove_iff hs.represents hb).mpr (by decide)⟩
  have hbase := (oneSession 100).machine.base_le_brk
  rw [harena] at hbase
  rw [Machine.Refuses, Machine.memMaxAddr, harena]
  have htop : ((sampleArena.base + maxHeap : ℕ) : ℤ) = 4096 + 20 * 2 ^ 20 := rfl
  have hneed : toInt (max (need (20 * 2 ^ 20)) 4096) = 20 * 2 ^ 20 + 8 := by decide
  have hlow : sampleArena.base = 4096 := rfl
  rw [htop, hneed]
  omega

/-- A request for 20 megabytes. -/
theorem out_of_memory_faults_oneSession :
    (¬ CleanFailure (mmMalloc (20 * 2 ^ 20)) (oneSession 100).machine ∧
      ∃ s', mmMalloc (20 * 2 ^ 20) (oneSession 100).machine = .error (.outside (.load 4 4)) s') ∧
    ∀ p, Holds (oneSession 100).live p → MustMove (oneSession 100).machine p (need (20 * 2 ^ 20)) →
      ¬ CleanFailure (mmRealloc p (20 * 2 ^ 20)) (oneSession 100).machine ∧
        ∃ s', mmRealloc p (20 * 2 ^ 20) (oneSession 100).machine =
          .error (.outside (.load 4 4)) s' := by
  obtain ⟨hr, hs, hfit, hgr, -⟩ := oneSession_full
  exact out_of_memory_faults hr (by decide) (by decide)
    (hs.represents.walk hs.valid.toWf) hfit hgr

/-- Neither `mm_malloc(20971520)` nor `mm_realloc(4112, 20971520)` fails cleanly after
`mm_malloc(100)` has returned 4112. -/
theorem not_cleanFailure_oneSession : Reachable (oneSession 100) ∧
    ¬ CleanFailure (mmMalloc (20 * 2 ^ 20)) (oneSession 100).machine ∧
    ¬ CleanFailure (mmRealloc 4112 (20 * 2 ^ 20)) (oneSession 100).machine := by
  obtain ⟨hr, hs, hfit, hgr, hmove⟩ := oneSession_full
  obtain ⟨⟨s', hmalloc⟩, hrealloc⟩ := hs.out_of_memory (by decide) (by decide) hfit hgr
  obtain ⟨s'', hrun⟩ := hrealloc 4112 ⟨⟨4112, 100⟩, List.mem_singleton_self _, rfl⟩ hmove
  exact ⟨hr, not_cleanFailure hmalloc, not_cleanFailure hrun⟩

end OsAndC
