import OsAndC.Utilization

/-!
# A Run of the Driver

The loop of `main` over its traces, linked with `mm.c`, in closed form. A trace is judged,
then run again for its utilization and ten times for its speed, each time on the arena of
the run before and with what it has left in the arrays. `Replay.Alike` is why this makes no
difference: a replay does not depend on the entries of the arrays that hold no block.

`Trace.outcome` reads off a trace alone what `main` records for it, and
`evalTraces_outcomes` says that the driver records exactly this for every list of
well-formed, restartable traces, until the arena gets too small for one.

`Trace.Restartable` is what has to be asked of a trace for the sake of the next pass:
`mm_init` still writes through the free list that is left, and if that list starts where the
new epilogue has just been put, it writes over the epilogue. `Stale` asks the same of the
free list at the start, which is null in a new process.
-/

namespace OsAndC

open Layout

/-! ### Entries without a block -/

/-- Two replays that differ at most in entries of the arrays that hold no block. -/
structure Replay.Alike (n : ℤ) (owned : Finset ℤ) (r r' : Replay) : Prop where
  fills : r.Fills n
  fills' : r'.Fills n
  layout : r.layout = r'.layout
  live : r.live = r'.live
  index : ∀ i ∈ owned, 0 ≤ i
  grantOf : ∀ i ∈ owned, r.grantOf i = r'.grantOf i

variable {n : ℤ} {owned : Finset ℤ} {r r' : Replay} {op : Traceop} {ops : List Traceop}
  {sc : Bool} {i k top : ℕ} {d d' : Driver} {ar : Arena} {trace : Trace}

/-- What a request puts under an index. -/
theorem Replay.Fills.grantOf_step {j : ℤ} (hf : r.Fills n) (hfits : op.Fits n owned)
    (hj : 0 ≤ j) : (r.step op).grantOf j =
      if op.type ≠ .free ∧ j = op.index then
        ⟨((op.call r.blocks).apply r.layout).2, sizeT op.size⟩
      else r.grantOf j := by
  by_cases htype : op.type = .free
  · have hblocks : (r.step op).blocks = r.blocks := if_pos htype
    have hsizes : (r.step op).blockSizes = r.blockSizes := if_pos htype
    rw [if_neg (by simp [htype]), Replay.grantOf, Replay.grantOf, hblocks, hsizes]
  · rw [hf.grantOf_set hfits.index hj (if_neg htype) (if_neg htype)]
    simp only [ne_eq, htype, not_false_eq_true, true_and]

namespace Replay.Alike

/-- The same request is the same call. -/
theorem call (ha : Alike n owned r r') (hfits : op.Fits n owned) :
    op.call r.blocks = op.call r'.blocks := by
  have hptr : op.type ≠ .alloc →
      r.blocks.getD op.index.toNat 0 = r'.blocks.getD op.index.toNat 0 := fun htype =>
    congrArg Grant.ptr (ha.grantOf op.index (hfits.owned htype))
  cases htype : op.type with
  | alloc => rw [Traceop.call, Traceop.call, htype]
  | free => rw [Traceop.call, Traceop.call, htype, hptr (by simp [htype])]
  | realloc => rw [Traceop.call, Traceop.call, htype, hptr (by simp [htype])]

/-- **One request** keeps two replays alike. -/
theorem step (ha : Alike n owned r r') (hfits : op.Fits n owned) :
    Alike n (op.ownedAfter owned) (r.step op) (r'.step op) := by
  have hcall := ha.call hfits
  have hlayout := ha.layout
  have hlive := ha.live
  have hindex : ∀ j ∈ op.ownedAfter owned, 0 ≤ j := fun j hj => by
    rcases Traceop.mem_ownedAfter hj with rfl | hj
    · exact hfits.index.1
    · exact ha.index j hj
  refine ⟨ha.fills.step, ha.fills'.step, ?_, ?_, hindex, fun j hj => ?_⟩
  · rw [Replay.step, Replay.step, hcall, hlayout]
  · rw [Replay.step, Replay.step, hcall, hlayout, hlive]
  · rw [ha.fills.grantOf_step hfits (hindex j hj), ha.fills'.grantOf_step hfits (hindex j hj),
      hcall, hlayout]
    split_ifs with hnew
    · rfl
    · exact ha.grantOf j (Traceop.held_before hj hnew)

/-- Alike replays get the same verdict. -/
theorem verdict (ha : Alike n owned r r') (hbal : Balanced n owned ops) :
    r.verdict sc top i ops = r'.verdict sc top i ops := by
  induction ops generalizing r r' owned i with
  | nil => rfl
  | cons op ops ih =>
      obtain ⟨hfits, hbal⟩ := hbal
      rw [Replay.verdict, Replay.verdict, ha.call hfits, ha.layout, ih (ha.step hfits) hbal]

/-- Alike replays run alike, and have the same peak. -/
theorem run (ha : Alike n owned r r') (hbal : Balanced n owned ops) :
    (r.run ops).layout = (r'.run ops).layout ∧ r.peak ops = r'.peak ops := by
  induction ops generalizing r r' owned with
  | nil => exact ⟨ha.layout, congrArg held ha.live⟩
  | cons op ops ih =>
      obtain ⟨hfits, hbal⟩ := hbal
      obtain ⟨hlayout, hpeak⟩ := ih (ha.step hfits) hbal
      refine ⟨hlayout, ?_⟩
      rw [Replay.peak, Replay.peak, hpeak, Replay.total, ha.live]
      rfl

end Replay.Alike

/-! ### One trace -/

/-- What `main` records for a trace in the arena `ar`, or nothing when the arena gets too
small for it. -/
def Trace.outcome (sc : Bool) (ar : Arena) (trace : Trace) : Option Stats :=
  let r := Replay.start ar.base trace
  match r.verdict sc (ar.base + maxHeap) 0 trace.ops with
  | .accepted =>
      some ⟨trace.numOps, true, r.peak trace.ops, (r.run trace.ops).layout.brk - ar.base⟩
  | .lostData _ => some ⟨trace.numOps, false, 0, 0⟩
  | .outOfMemory => none

/-- If the arena is large enough for the trace, the free list that is left when it has been
judged does not start where the next `mm_init` puts the epilogue. -/
def Trace.Restartable (sc : Bool) (ar : Arena) (trace : Trace) : Prop :=
  (trace.outcome sc ar).isSome →
    ((Replay.start ar.base trace).judged sc trace.ops).layout.free.headD 0 ≠ ar.base + 4104

instance (sc : Bool) (ar : Arena) (trace : Trace) : Decidable (trace.Restartable sc ar) :=
  inferInstanceAs (Decidable (_ → _))

/-- The driver may start a pass over the trace, whatever the arrays hold. -/
structure Ready (ar : Arena) (trace : Trace) (d : Driver) : Prop where
  arena : d.machine.arena = ar
  stale : Stale d.machine d.machine.freeList
  trace_eq : d.trace = { trace with blocks := d.trace.blocks, blockSizes := d.trace.blockSizes }
  numBlocks : (d.trace.blocks.length : ℤ) = trace.numIds
  numSizes : (d.trace.blockSizes.length : ℤ) = trace.numIds

/-- After a pass the next one may start. -/
theorem Follows.ready (hf : Follows ar trace d r owned)
    (hne : r.layout.free.headD 0 ≠ ar.base + 4104) : Ready ar trace d := by
  have hlo : d.machine.memHeapLo = ar.base := by rw [Machine.memHeapLo, hf.arena]
  refine ⟨hf.arena, hf.tended.stale (by rw [hlo]; exact hne), ?_, ?_, hf.numSizes⟩
  · rw [hf.blocks]
    exact hf.trace_eq
  · rw [hf.blocks]
    exact hf.owns.blocks

namespace Ready

/-- The trace is as well formed as it was at first. -/
theorem wellFormed (hr : Ready ar trace d) (hwf : trace.WellFormed) : d.trace.WellFormed := by
  rw [hr.trace_eq]
  exact ⟨hwf.numOps, hr.numBlocks, hr.numSizes, hwf.balanced⟩

/-- A replay of it goes as the first one went, whatever the arrays hold by now. -/
theorem alike (hr : Ready ar trace d) (hwf : trace.WellFormed) :
    Replay.Alike trace.numIds ∅ d.replay (Replay.start ar.base trace) := by
  have hlo : d.machine.memHeapLo = ar.base := by rw [Machine.memHeapLo, hr.arena]
  refine ⟨⟨hr.numBlocks, hr.numSizes⟩, ⟨hwf.blocks, hwf.blockSizes⟩, ?_, rfl, by simp, by simp⟩
  rw [Driver.replay, Replay.start, hlo]
  rfl

/-- It has the same requests. -/
theorem ops_eq (hr : Ready ar trace d) : d.trace.ops = trace.ops := by
  rw [hr.trace_eq]

/-- The arena ends where it ended. -/
theorem memMaxAddr (hr : Ready ar trace d) : d.machine.memMaxAddr = ar.base + maxHeap := by
  rw [Machine.memMaxAddr, hr.arena]

/-- Ready once more. -/
theorem trans (hr : Ready ar trace d) (hr' : Ready ar d.trace d') : Ready ar trace d' := by
  have hids : d.trace.numIds = trace.numIds := by rw [hr.trace_eq]
  refine ⟨hr'.arena, hr'.stale, ?_, hids ▸ hr'.numBlocks, hids ▸ hr'.numSizes⟩
  rw [hr'.trace_eq, hr.trace_eq]

/-- A pass that has followed the replay of its trace leaves the driver ready. -/
theorem after (hr : Ready ar trace d) (hwf : trace.WellFormed)
    (hne : ((Replay.start ar.base trace).run trace.ops).layout.free.headD 0 ≠ ar.base + 4104)
    (hf : Follows d.machine.arena d.trace d' (d.replay.run d.trace.ops) owned) :
    Ready ar trace d' := by
  obtain ⟨hlayout, -⟩ := (hr.alike hwf).run hwf.balanced
  rw [hr.arena, hr.ops_eq] at hf
  exact hr.trans (hf.ready (by rw [hlayout]; exact hne))

/-- The utilization pass, whatever was run before. -/
theorem util (hr : Ready ar trace d) (hwf : trace.WellFormed)
    (hacc : (Replay.start ar.base trace).verdict false (ar.base + maxHeap) 0 trace.ops = .accepted)
    (hne : ((Replay.start ar.base trace).run trace.ops).layout.free.headD 0 ≠ ar.base + 4104) :
    ∃ d', evalMmUtil mmPackage d = .ok ((Replay.start ar.base trace).peak trace.ops,
        ((Replay.start ar.base trace).run trace.ops).layout.brk - ar.base) d' ∧
      Ready ar trace d' := by
  obtain ⟨hlayout, hpeak⟩ := (hr.alike hwf).run hwf.balanced
  rw [← (hr.alike hwf).verdict hwf.balanced, ← hr.ops_eq, ← hr.memMaxAddr] at hacc
  obtain ⟨d', owned, heapsize, hrun, hs, hsize, -⟩ :=
    evalMmUtil_replay (hr.wellFormed hwf) hr.stale hacc
  rw [hr.ops_eq, hpeak, hsize, hr.ops_eq, hlayout, Machine.memHeapLo, hr.arena] at hrun
  exact ⟨d', hrun, hr.after hwf hne hs.toFollows⟩

/-- The speed pass, whatever was run before. -/
theorem speed (hr : Ready ar trace d) (hwf : trace.WellFormed)
    (hacc : (Replay.start ar.base trace).verdict false (ar.base + maxHeap) 0 trace.ops = .accepted)
    (hne : ((Replay.start ar.base trace).run trace.ops).layout.free.headD 0 ≠ ar.base + 4104) :
    ∃ d', evalMmSpeed mmPackage d = .ok () d' ∧ Ready ar trace d' := by
  rw [← (hr.alike hwf).verdict hwf.balanced, ← hr.ops_eq, ← hr.memMaxAddr] at hacc
  obtain ⟨d', owned, hrun, hf⟩ := evalMmSpeed_replay (hr.wellFormed hwf) hr.stale hacc
  exact ⟨d', hrun, hr.after hwf hne hf⟩

/-- The calls that are timed. -/
theorem timed (hr : Ready ar trace d) (hwf : trace.WellFormed)
    (hacc : (Replay.start ar.base trace).verdict false (ar.base + maxHeap) 0 trace.ops = .accepted)
    (hne : ((Replay.start ar.base trace).run trace.ops).layout.free.headD 0 ≠ ar.base + 4104) :
    ∃ d', ftimerGettod (evalMmSpeed mmPackage) k d = .ok () d' ∧ Ready ar trace d' := by
  induction k generalizing d with
  | zero => exact ⟨d, rfl, hr⟩
  | succ k ih =>
      obtain ⟨d₁, hrun, hr₁⟩ := hr.speed hwf hacc hne
      obtain ⟨d', hrest, hr'⟩ := ih hr₁
      exact ⟨d', (run_bind_ok hrun).trans hrest, hr'⟩

end Ready

/-- A replay that is accepted is judged to its end, and accepted if no `char` has a sign. -/
theorem Replay.judged_of_accepted (hacc : r.verdict sc top i ops = .accepted) :
    r.judged sc ops = r.run ops ∧ r.verdict false top i ops = .accepted := by
  induction ops generalizing r i with
  | nil => exact ⟨rfl, rfl⟩
  | cons op ops ih =>
      obtain ⟨hserved, hread, hacc⟩ := Replay.verdict_cons.mp hacc
      obtain ⟨hjudged, hverdict⟩ := ih hacc
      rw [Replay.judged, if_neg hread, Replay.verdict, if_neg (not_not.mpr hserved),
        if_neg (by simp [Traceop.Misread])]
      exact ⟨hjudged, hverdict⟩

/-- What `main` does with a trace whose outcome is `o`: it goes on with the statistics and
reports the trace if it is not valid, or the process dies at address 4. -/
def RunsTo (ar : Arena) (d : Driver) (x : EStateM.Result Stop Driver Stats) :
    Option Stats → Prop
  | some stats => ∃ d', x = .ok stats d' ∧ d'.machine.arena = ar ∧
      Stale d'.machine d'.machine.freeList ∧
      d'.errors = d.errors + if stats.valid then 0 else 1
  | none => ∃ d', x = .error (.fault (.outside (.load 4 4))) d'

/-- **One trace** that is well formed and restartable: from a null or stale free list on, the
three passes record its outcome. -/
theorem evalTrace_outcome (hwf : trace.WellFormed)
    (hf : Stale d.machine d.machine.freeList) (hne : trace.Restartable sc d.machine.arena) :
    RunsTo d.machine.arena d (evalTrace mmPackage sc k trace d)
      (trace.outcome sc d.machine.arena) := by
  have hset : (modify fun d : Driver => { d with trace := trace } : DriverM Unit) d =
    .ok () { d with trace := trace } := rfl
  have hends : EndsAs d.machine.arena trace k { d with trace := trace }
      ((Replay.start d.machine.arena.base trace).judged sc trace.ops)
      (evalMmValid mmPackage sc k { d with trace := trace })
      ((Replay.start d.machine.arena.base trace).verdict sc (d.machine.arena.base + maxHeap) 0
        trace.ops) := evalMmValid_verdict (d := { d with trace := trace }) hwf hf
  rw [evalTrace, run_bind_ok hset, Trace.outcome]
  cases hv : (Replay.start d.machine.arena.base trace).verdict sc
      (d.machine.arena.base + maxHeap) 0 trace.ops with
  | accepted =>
      obtain ⟨hjudged, hacc⟩ := Replay.judged_of_accepted hv
      have hne := hne (by simp [Trace.outcome, hv])
      rw [hjudged] at hne
      rw [hv, hjudged] at hends
      obtain ⟨d₁, owned, hvalid, hj, herr, -⟩ := hends
      have hr₁ : Ready d.machine.arena trace d₁ := hj.toFollows.ready hne
      obtain ⟨d₂, hutil, hr₂⟩ := hr₁.util hwf hacc hne
      obtain ⟨d₃, hspeed, hr₃⟩ := hr₂.timed hwf hacc hne (k := 10)
      have herr₂ := (Quiet.evalMmUtil _ _ _ _ _ ⟨herr, rfl⟩ hutil).1
      have herr₃ := (Quiet.evalMmSpeed.ftimerGettod _ _ _ _ _ herr₂ hspeed).1
      refine ⟨d₃, ?_, hr₃.arena, hr₃.stale, herr₃.1⟩
      rw [run_bind_ok hvalid, if_pos rfl, run_bind_ok hutil, fsecs, run_bind_ok hspeed]
      rfl
  | lostData j =>
      rw [hv] at hends
      obtain ⟨d₁, hvalid, harena, ht, herr, -⟩ := hends
      have hlo : d₁.machine.memHeapLo = d.machine.arena.base := by rw [Machine.memHeapLo, harena]
      have hne := hne (by simp [Trace.outcome, hv])
      refine ⟨d₁, ?_, harena, ht.stale (by rw [hlo]; exact hne), herr⟩
      rw [run_bind_ok hvalid]
      rfl
  | outOfMemory =>
      rw [hv] at hends
      obtain ⟨d₁, hvalid⟩ := hends
      exact ⟨d₁, run_bind_error hvalid⟩

/-! ### All traces -/

/-- What `main` records for a list of traces, or nothing when the arena gets too small. -/
def outcomes (sc : Bool) (ar : Arena) : List Trace → Option (List Stats)
  | [] => some []
  | trace :: traces => do
      let stats ← trace.outcome sc ar
      return stats :: (← outcomes sc ar traces)

/-- The loop of `main` from `d` with the result `x` ends with the statistics `o` and has
counted the traces that are not valid, or the process dies at address 4. -/
def EndsWith (d : Driver) (x : EStateM.Result Stop Driver (List Stats)) :
    Option (List Stats) → Prop
  | some stats => ∃ d', x = .ok stats d' ∧
      d'.errors = d.errors + stats.countP fun st => !st.valid
  | none => ∃ d', x = .error (.fault (.outside (.load 4 4))) d'

variable {traces : List Trace}

/-- **A run of the driver.** For every list of well-formed traces, each of which is restartable,
and from a null or stale free list on, the loop of `main` records the outcome of each trace
and counts those that are not valid, or it dies at address 4 in the first trace the arena is
too small for. -/
theorem evalTraces_outcomes (hwf : ∀ trace ∈ traces, trace.WellFormed)
    (hne : ∀ trace ∈ traces, trace.Restartable sc d.machine.arena)
    (hf : Stale d.machine d.machine.freeList) :
    EndsWith d (evalTraces mmPackage sc k traces d) (outcomes sc d.machine.arena traces) := by
  induction traces generalizing d k with
  | nil => exact ⟨d, rfl, rfl⟩
  | cons trace traces ih =>
      have htrace := evalTrace_outcome (k := k) (hwf trace List.mem_cons_self) hf
        (hne trace List.mem_cons_self)
      rw [outcomes, evalTraces]
      cases ho : trace.outcome sc d.machine.arena with
      | none =>
          rw [ho] at htrace
          obtain ⟨d₁, hrun⟩ := htrace
          exact ⟨d₁, run_bind_error hrun⟩
      | some st =>
          rw [ho] at htrace
          obtain ⟨d₁, hrun, harena, hf₁, herr⟩ := htrace
          have hrest := ih (d := d₁) (k := k + 1)
            (fun t ht => hwf t (List.mem_cons_of_mem _ ht))
            (fun t ht => harena ▸ hne t (List.mem_cons_of_mem _ ht)) hf₁
          rw [harena] at hrest
          cases hos : outcomes sc d.machine.arena traces with
          | none =>
              rw [hos] at hrest
              obtain ⟨d', hrun'⟩ := hrest
              exact ⟨d', (run_bind_ok hrun).trans (run_bind_error hrun')⟩
          | some stats =>
              rw [hos] at hrest
              obtain ⟨d', hrun', herr'⟩ := hrest
              refine ⟨d', (run_bind_ok hrun).trans ((run_bind_ok hrun').trans rfl), ?_⟩
              rw [herr', herr, List.countP_cons]
              cases st.valid with
              | true => rfl
              | false => exact Nat.add_right_comm _ _ _

/-- The trace of `short1-bal.rep`. -/
def short1Bal : Trace where
  suggHeapsize := 20000
  numIds := 6
  numOps := 12
  weight := 1
  ops := [⟨.alloc, 0, 2040⟩, ⟨.alloc, 1, 2040⟩, ⟨.free, 1, 0⟩, ⟨.alloc, 2, 48⟩, ⟨.alloc, 3, 4072⟩,
    ⟨.free, 3, 0⟩, ⟨.alloc, 4, 4072⟩, ⟨.free, 0, 0⟩, ⟨.free, 2, 0⟩, ⟨.alloc, 5, 4072⟩,
    ⟨.free, 4, 0⟩, ⟨.free, 5, 0⟩]
  blocks := List.replicate 6 0
  blockSizes := List.replicate 6 0

example : short1Bal.outcome true sampleArena = some ⟨12, true, 8144, 12304⟩ := by decide

-- a well-formed trace whose free list ends up where the next `mm_init` puts the epilogue
example : ¬ (sampleTrace 4 [⟨.alloc, 0, 4000⟩, ⟨.alloc, 1, 200⟩, ⟨.free, 1, 0⟩, ⟨.alloc, 2, 72⟩,
    ⟨.alloc, 3, 8⟩, ⟨.free, 3, 0⟩]).Restartable true sampleArena := by decide

end OsAndC
