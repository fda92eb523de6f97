import OsAndC.LinkSafety
import OsAndC.StrayLog

/-!
# Every Access Lies in the Heap

In the machine an access outside the arena, a misaligned one and a `memcpy` between
overlapping ranges stop the run, and an access in the arena that does not lie between
`mem_heap_lo` and `mem_brk`, as they stand at that moment, is recorded in `stray` for good
(`Lasting`). What remains of the safety of the links is checked by a watch: `onlyFree` stops
the run at a link that leads anywhere but to a block that is free at that moment.

`accesses_inside` says that none of this happens in a legal run: the first `mm_init` and
every legal call return, nothing is on record, and under the watch they do the same.
-/

namespace OsAndC

open Layout

variable {σ : Session} {h : Layout} {c : Call} {s : Machine} {ops : ListOps} {p : ℕ}

open Classical in
/-- Stop unless `p` is a free block. -/
noncomputable def onlyFree (p : ℕ) : M Unit := fun s =>
  if FreeBlock s p then .ok () s else .error (.outside (.load p 4)) s

/-- The watch that is meant to stay silent on free blocks does. -/
theorem onlyFree_silent : Silent onlyFree := fun _ _ hp => if_pos hp

/-- What the watch lets pass is a free block. -/
theorem freeBlock_of_onlyFree {u : Unit} {s' : Machine} (hrun : onlyFree p s = .ok u s') :
    FreeBlock s p := by
  by_contra hp
  rw [onlyFree, if_neg hp] at hrun
  cases hrun

/-- The code a call runs, over any list operations. -/
def Call.runWith (c : Call) (ops : ListOps) : M ℕ :=
  match c with
  | malloc n => ops.mmMalloc n
  | free p => do ops.mmFree p; return 0
  | realloc p n => ops.mmRealloc p n

/-- With the operations of the source it is the call itself. -/
theorem Call.runWith_source : c.runWith .source = c.run := by
  cases c <;> rfl

/-- A call leaves the records of the run in place. -/
theorem Call.run_lasting : Lasting c.run := by
  cases c with
  | malloc n => exact mmMalloc_lasting
  | free p => exact mmFree_lasting.bind fun _ => .pure
  | realloc p n => exact mmRealloc_lasting

/-- The program returns, none of its accesses strays, and each link it follows leads to a
free block. -/
def AccessesInside {α : Type} (x : ListOps → M α) (s : Machine) : Prop :=
  Lasting (x .source) ∧ ∃ a s', x .source s = .ok a s' ∧ s'.stray = [] ∧
    x (.watched onlyFree) s = .ok a s'

/-- **The allocator keeps to the contract** of its list operations in every legal call. -/
theorem Simulates.runWith_eq (hs : Simulates σ h) (hops : ops.Follows) (hlegal : c.Legal σ.live)
    (hg : Granted (finalState (c.run σ.machine))) :
    c.runWith ops σ.machine = c.run σ.machine := by
  have hv := hs.valid
  have hr := hs.represents
  have hmalloc : ∀ n, need n < 2 ^ 32 → Granted (finalState (mmMalloc n σ.machine)) →
      ops.mmMalloc n σ.machine = mmMalloc n σ.machine := fun n hwrap hg =>
    hops.mmMalloc hv hr hwrap fun hn => not_refuses_of_granted hv hr hn hwrap hg
  cases c with
  | malloc n => exact hmalloc n hlegal hg
  | free p =>
      obtain ⟨b, hb, rfl⟩ := (hs.holds p).mp hlegal
      exact run_bind_congr (hops.mmFree hv hr hb)
  | realloc p n =>
      change ops.mmRealloc p n σ.machine = mmRealloc p n σ.machine
      change Granted (finalState (mmRealloc p n σ.machine)) at hg
      rcases hlegal.2 with hp | ⟨rfl, hn⟩
      · obtain ⟨b, hb, rfl⟩ := (hs.holds p).mp hp
        by_cases hn : n = 0
        · rw [ops.mmRealloc_zero hn, mmRealloc, ListOps.mmRealloc_zero _ hn]
          exact run_bind_congr (hops.mmFree hv hr hb)
        · have hpos : 0 < n := by omega
          exact hops.mmRealloc hv hr hb hpos hlegal.1
            (not_refuses_of_granted_realloc hv hr hb hpos hlegal.1 hg)
      · rw [mmRealloc, ListOps.mmRealloc_null _ hn] at hg
        rw [ops.mmRealloc_null hn, mmRealloc, ListOps.mmRealloc_null _ hn]
        exact hmalloc n hlegal.1 hg

/-- **No access outside the heap.** The first `mm_init` in any arena, and every legal call in
any state of a legal run in which `mem_sbrk` refuses nothing, returns; every access it makes
lies in the heap as it stands at that moment, no `memcpy` overlaps itself, and no link that is
followed is null or dangles. -/
theorem accesses_inside :
    (∀ ar m, AccessesInside ListOps.mmInit (memInit ar m)) ∧
    ∀ (σ : Session) (c : Call), Reachable σ → c.Legal σ.live →
      Granted (finalState (c.run σ.machine)) → AccessesInside c.runWith σ.machine := by
  have hops := ListOps.watched_follows onlyFree_silent
  refine ⟨fun ar m => ?_, ?_⟩
  · obtain ⟨s, hrun, -, -, -, hstray⟩ := mmInit_spec (s := memInit ar m) rfl (Or.inl rfl)
    exact ⟨mmInit_lasting, 0, s, hrun, hstray, (hops.mmInit rfl rfl).trans hrun⟩
  · rintro σ c ⟨ar, m, es, hrun⟩ hlegal hg
    obtain ⟨hs, -⟩ := hrun.simulates
    obtain ⟨s', hcall, hi, -⟩ := hs.call hlegal hg
    rw [AccessesInside, Call.runWith_source]
    exact ⟨Call.run_lasting, _, s', hcall, hi.stray.trans hs.stray,
      (hs.runWith_eq hops hlegal hg).trans hcall⟩

/-- The resize to 5000 bytes after `mm_malloc(100)`, which moves the block. -/
theorem accesses_inside_oneSession :
    AccessesInside (Call.realloc 4112 5000).runWith (oneSession 100).machine := by
  obtain ⟨hσ, hs, harena⟩ := oneSession_spec (n := 100) (by decide)
  have hp : Holds (oneSession 100).live 4112 :=
    (hs.holds 4112).mpr ⟨⟨4112, 112, true⟩, ⟨by decide, rfl⟩, rfl⟩
  have hlegal : (Call.realloc 4112 5000).Legal (oneSession 100).live := ⟨by decide, Or.inl hp⟩
  refine accesses_inside.2 _ _ hσ hlegal ?_
  exact hs.granted_realloc (by decide) hp (by rw [Machine.memMaxAddr, harena]; decide)

end OsAndC
