import OsAndC.Replay

/-!
# Passes that Follow a Replay

The three passes of the driver make the same calls, and differ in what they record. What
they share is here: how the accesses to the arrays of the trace evaluate, and the simulation
`Follows`, which says that the machine serves the grants of a replay and that the pointers
in the trace are those of the replay. `Follows.call` is one call of the package of `mm.c`
made by a pass, `Follows.assigned` and `Follows.released` are the bookkeeping after it, and
`begin_pass` is how every pass begins. `Sized` adds the array of sizes, which the speed pass
does not keep.
-/

namespace OsAndC

open Layout

/-! ### The parts of a pass -/

variable {α : Type} {d : Driver} {s s' : Machine} {m : M α} {a : α} {e : Fault} {i k p : ℕ}
  {z : ℤ} {op : Traceop}

/-- A call into the package that returns. -/
theorem callM_ok (h : m d.machine = .ok a s') : callM m d = .ok a { d with machine := s' } := by
  rw [callM, h]

/-- A call that runs into a fault takes the driver along. -/
theorem callM_error (h : m d.machine = .error e s') :
    callM m d = .error (.fault e) { d with machine := s' } := by
  rw [callM, h]

/-- A line of the trace. -/
theorem getOp_eq (h : d.trace.ops[i]? = some op) : getOp i d = .ok op d := by
  rw [getOp, run_get_bind, h]
  rfl

/-- An index inside an array is a position in it. -/
theorem position_eq (h : 0 ≤ z ∧ z < (k : ℤ)) : position z k d = .ok z.toNat d := by
  rw [position, if_pos h]
  rfl

/-- The block recorded under an index. -/
theorem getBlock_eq (h : 0 ≤ z ∧ z < (d.trace.blocks.length : ℤ)) :
    getBlock z d = .ok (d.trace.blocks.getD z.toNat 0) d := by
  rw [getBlock, run_get_bind, run_bind_ok (position_eq h)]
  rfl

/-- The size recorded under it. -/
theorem getBlockSize_eq (h : 0 ≤ z ∧ z < (d.trace.blockSizes.length : ℤ)) :
    getBlockSize z d = .ok (d.trace.blockSizes.getD z.toNat 0) d := by
  rw [getBlockSize, run_get_bind, run_bind_ok (position_eq h)]
  rfl

/-- A block is recorded under an index. -/
theorem setBlock_eq (h : 0 ≤ z ∧ z < (d.trace.blocks.length : ℤ)) :
    setBlock z p d =
      .ok () { d with trace := { d.trace with blocks := d.trace.blocks.set z.toNat p } } := by
  rw [setBlock, run_get_bind, run_bind_ok (position_eq h)]
  rfl

/-- And so is a size. -/
theorem setBlockSize_eq (h : 0 ≤ z ∧ z < (d.trace.blockSizes.length : ℤ)) :
    setBlockSize z p d = .ok () { d with
      trace := { d.trace with blockSizes := d.trace.blockSizes.set z.toNat p } } := by
  rw [setBlockSize, run_get_bind, run_bind_ok (position_eq h)]
  rfl

/-! ### The simulation -/

/-- The driver follows the replay `r` of a trace in the arena `ar`: its machine serves the
grants, and its pointers are those of the replay. -/
structure Follows (ar : Arena) (trace : Trace) (d : Driver) (r : Replay)
    (owned : Finset ℤ) : Prop where
  arena : d.machine.arena = ar
  tended : Tended d.machine r.layout r.live
  trace_eq : d.trace = { trace with blocks := r.blocks, blockSizes := d.trace.blockSizes }
  numSizes : (d.trace.blockSizes.length : ℤ) = trace.numIds
  owns : r.Owns trace.numIds owned

/-- The array of sizes is that of the replay, too. -/
structure Sized (ar : Arena) (trace : Trace) (d : Driver) (r : Replay)
    (owned : Finset ℤ) : Prop extends Follows ar trace d r owned where
  blockSizes : d.trace.blockSizes = r.blockSizes

variable {ar : Arena} {trace : Trace} {d' : Driver} {r : Replay} {owned : Finset ℤ}

namespace Follows

/-- The arena ends where it ended at the start. -/
theorem memMaxAddr (hf : Follows ar trace d r owned) :
    d.machine.memMaxAddr = ar.base + maxHeap := by
  rw [Machine.memMaxAddr, hf.arena]

/-- The line comes from the trace the replay began with. -/
theorem getOp (hf : Follows ar trace d r owned) (hop : trace.ops[i]? = some op) :
    getOp i d = .ok op d :=
  getOp_eq (by rw [hf.trace_eq]; exact hop)

/-- The array holds what the layout says. -/
theorem blocks (hf : Follows ar trace d r owned) : d.trace.blocks = r.blocks := by
  rw [hf.trace_eq]

/-- The pointer under the index of a request. -/
theorem getBlock (hf : Follows ar trace d r owned) (hfits : op.Fits trace.numIds owned) :
    getBlock op.index d = .ok (r.blocks.getD op.index.toNat 0) d := by
  have hlen := hf.owns.blocks
  have hindex := hfits.index
  rw [← hf.blocks] at hlen ⊢
  exact getBlock_eq (by omega)

/-- **A request that is served** is carried out as in the replay. -/
theorem call (hf : Follows ar trace d r owned) (hfits : op.Fits trace.numIds owned)
    (hserved : (op.call r.blocks).Served r.layout (ar.base + maxHeap)) :
    ∃ s', (op.call r.blocks).run d.machine = .ok ((op.call r.blocks).apply r.layout).2 s' ∧
      s'.arena = ar ∧ Tended s' (r.step op).layout (r.step op).live ∧
      (∀ j ∈ owned, j ≠ op.index → ∀ a ∈ (r.grantOf j).range,
        s'.mem a = d.machine.mem a) ∧
      (op.type = .realloc → ∀ l, l < min (r.grantOf op.index).size (sizeT op.size) →
        s'.mem (((op.call r.blocks).apply r.layout).2 + l) =
          d.machine.mem ((r.grantOf op.index).ptr + l)) := by
  have hbook := hf.owns.byTheBook hfits
  obtain ⟨s', hrun, ht', harena, hkeeps, hdata⟩ :=
    hf.tended.call hbook (by rw [hf.memMaxAddr]; exact hserved)
  refine ⟨s', hrun, harena.trans hf.arena, ht', fun j hj hne => ?_, fun htype => ?_⟩
  · exact hkeeps _ (hf.owns.grant j hj).2 (hf.owns.survives hf.tended hfits hj hne).1
  · have hne : op.type ≠ .alloc := by
      rw [htype]
      simp
    have hgrant := (hf.owns.grant _ (hfits.owned hne)).2
    rw [← Traceop.call_size (by rw [htype]; simp)]
    exact hdata _ hgrant (Traceop.call_ptr hne).symm

/-- The pointer a request for memory returns is not null. -/
theorem apply_ne_zero (hf : Follows ar trace d r owned) (hfits : op.Fits trace.numIds owned)
    (htype : op.type ≠ .free) : ((op.call r.blocks).apply r.layout).2 ≠ 0 := by
  have hpos := (sizeT_eq (hfits.size htype)).2.1
  rw [← Traceop.call_size htype] at hpos
  exact hf.tended.apply_ne_zero (hf.owns.byTheBook hfits) hpos

/-- A request that is not served stops the process, whatever the pass is. -/
theorem call_refused (hf : Follows ar trace d r owned) (hfits : op.Fits trace.numIds owned)
    (hserved : ¬ (op.call r.blocks).Served r.layout (ar.base + maxHeap)) :
    ∃ s', (op.call r.blocks).run d.machine = .error (.outside (.load 4 4)) s' :=
  hf.tended.refused (hf.owns.byTheBook hfits) (by rw [hf.memMaxAddr]; exact hserved)

/-- An operation that fits names an entry of the array of blocks. -/
theorem blocks_index (hf : Follows ar trace d r owned) (hfits : op.Fits trace.numIds owned) :
    0 ≤ op.index ∧ op.index < (d.trace.blocks.length : ℤ) := by
  rw [hf.blocks, hf.owns.blocks]
  exact hfits.index

/-- A size that is held is positive and fits in an `int`. -/
theorem size_lt (hf : Follows ar trace d r owned) {g : Grant} (hg : g ∈ r.live) :
    0 < g.size ∧ g.size < 2 ^ 31 := by
  obtain ⟨-, h₁, hpos, h₂⟩ := hf.tended.bounds hg
  have hmax := d.machine.brk_le_max
  simp only [maxHeap, Machine.memHeapLo] at h₁ hmax
  omega

/-- After a request for memory, the new pointer is assigned. -/
theorem assigned (hf : Follows ar trace d r owned) (hfits : op.Fits trace.numIds owned)
    (htype : op.type ≠ .free) (harena : d'.machine.arena = ar)
    (ht' : Tended d'.machine (r.step op).layout (r.step op).live)
    (htrace : d'.trace = { d.trace with
      blocks := d.trace.blocks.set op.index.toNat ((op.call r.blocks).apply r.layout).2
      blockSizes := d'.trace.blockSizes })
    (hlen : d'.trace.blockSizes.length = d.trace.blockSizes.length) :
    Follows ar trace d' (r.step op) (op.ownedAfter owned) := by
  have hblocks : (r.step op).blocks =
      r.blocks.set op.index.toNat ((op.call r.blocks).apply r.layout).2 := if_neg htype
  refine ⟨harena, ht', ?_, ?_, hf.owns.step hf.tended hfits⟩
  · rw [htrace, hf.trace_eq, hblocks]
  · rw [hlen]
    exact hf.numSizes

/-- After a `free`, the arrays stay as they are. -/
theorem released (hf : Follows ar trace d r owned) (hfits : op.Fits trace.numIds owned)
    (htype : op.type = .free) (harena : d'.machine.arena = ar)
    (ht' : Tended d'.machine (r.step op).layout (r.step op).live) (htrace : d'.trace = d.trace) :
    Follows ar trace d' (r.step op) (op.ownedAfter owned) := by
  have hblocks : (r.step op).blocks = r.blocks := if_pos htype
  refine ⟨harena, ht', ?_, ?_, hf.owns.step hf.tended hfits⟩
  · rw [htrace, hblocks]
    exact hf.trace_eq
  · rw [htrace]
    exact hf.numSizes

end Follows

namespace Sized

/-- And one of the array of sizes. -/
theorem blockSizes_index (hs : Sized ar trace d r owned) (hfits : op.Fits trace.numIds owned) :
    0 ≤ op.index ∧ op.index < (d.trace.blockSizes.length : ℤ) := by
  rw [hs.blockSizes, hs.owns.blockSizes]
  exact hfits.index

/-- The size recorded under the index of a request. -/
theorem getBlockSize (hs : Sized ar trace d r owned) (hfits : op.Fits trace.numIds owned)
    (htrace : d'.trace = d.trace) :
    getBlockSize op.index d' = .ok (r.grantOf op.index).size d' := by
  have hindex := hs.blockSizes_index hfits
  rw [Replay.grantOf, ← hs.blockSizes, ← htrace]
  rw [← htrace] at hindex
  exact getBlockSize_eq hindex

/-- After a request for memory, the new size is assigned as well. -/
theorem assigned (hs : Sized ar trace d r owned) (hfits : op.Fits trace.numIds owned)
    (htype : op.type ≠ .free) (harena : d'.machine.arena = ar)
    (ht' : Tended d'.machine (r.step op).layout (r.step op).live)
    (htrace : d'.trace = { d.trace with
      blocks := d.trace.blocks.set op.index.toNat ((op.call r.blocks).apply r.layout).2
      blockSizes := d.trace.blockSizes.set op.index.toNat (sizeT op.size) }) :
    Sized ar trace d' (r.step op) (op.ownedAfter owned) := by
  have hsizes : (r.step op).blockSizes = r.blockSizes.set op.index.toNat (sizeT op.size) :=
    if_neg htype
  refine ⟨hs.toFollows.assigned hfits htype harena ht' (by rw [htrace]) ?_, ?_⟩
  · rw [htrace]
    exact List.length_set
  · rw [htrace, hsizes, hs.blockSizes]

/-- After a free the arrays still agree with the layout, which has lost the block. -/
theorem released (hs : Sized ar trace d r owned) (hfits : op.Fits trace.numIds owned)
    (htype : op.type = .free) (harena : d'.machine.arena = ar)
    (ht' : Tended d'.machine (r.step op).layout (r.step op).live) (htrace : d'.trace = d.trace) :
    Sized ar trace d' (r.step op) (op.ownedAfter owned) := by
  have hsizes : (r.step op).blockSizes = r.blockSizes := if_pos htype
  refine ⟨hs.toFollows.released hfits htype harena ht' htrace, ?_⟩
  rw [htrace, hsizes]
  exact hs.blockSizes

end Sized

/-! ### The beginning of a pass -/

/-- The replay that a pass from `d` begins with. -/
def Driver.replay (d : Driver) : Replay := Replay.start d.machine.memHeapLo d.trace

/-- The beginning of every pass: the arena is emptied, and `mm_init` returns 0. -/
theorem begin_pass (hf : Stale d.machine d.machine.freeList) :
    ∃ s₁ s₂, callM memResetBrk d = .ok () { d with machine := s₁ } ∧
      (∀ l, callM mmPackage.init { d with machine := s₁, ranges := l } =
        .ok 0 { d with machine := s₂, ranges := l }) ∧
      s₂.arena = d.machine.arena ∧ Tended s₂ (initial d.machine.memHeapLo) [] := by
  obtain ⟨s₁, hreset, hbrk, harena, hfl⟩ : ∃ s₁, memResetBrk d.machine = .ok () s₁ ∧
      s₁.memBrk = s₁.arena.base ∧ s₁.arena = d.machine.arena ∧
      s₁.freeList = d.machine.freeList := ⟨_, rfl, rfl, rfl, rfl⟩
  have hf₁ : Stale s₁ s₁.freeList := by
    rw [hfl]
    simpa only [Stale, Machine.memHeapLo, Machine.memMaxAddr, harena] using hf
  obtain ⟨s₂, hinit, ht, harena₂⟩ := Tended.init hbrk hf₁
  rw [Machine.memHeapLo_congr harena] at ht
  exact ⟨s₁, s₂, callM_ok hreset, fun l => callM_ok (d := { d with machine := s₁, ranges := l })
    hinit, harena₂.trans harena, ht⟩

/-- A pass makes as many steps as the trace has requests. -/
theorem Trace.WellFormed.numOps_toNat (hwf : trace.WellFormed) :
    trace.numOps.toNat = trace.ops.length := by
  rw [hwf.numOps]
  exact Int.toNat_natCast _

/-- A pass begins with nothing held. -/
theorem Sized.begin {l : List RangeT} (hwf : d.trace.WellFormed)
    (harena : s.arena = d.machine.arena) (ht : Tended s (initial d.machine.memHeapLo) []) :
    Sized d.machine.arena d.trace { d with machine := s, ranges := l } d.replay ∅ :=
  ⟨⟨harena, ht, rfl, hwf.blockSizes, ⟨⟨hwf.blocks, hwf.blockSizes⟩, by simp, by simp⟩⟩, rfl⟩

end OsAndC
