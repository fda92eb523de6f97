import OsAndC.DriverVerdict
import Mathlib.Algebra.Order.BigOperators.Group.List

/-!
# Utilization and Speed

What `eval_mm_util` computes when it is linked with `mm.c`. A `Replay` has a total, the
bytes held, and from a state on a run has a peak. `evalMmUtil_replay` says that on a
well-formed trace that the arena is large enough for, and from any heap that can be started
again, the pass returns the peak of the replay and the final size of its heap: no sum
overflows, no request fails, and the machine ends in the layout of the replay.
`Tended.held_le` bounds the quotient: the bytes held, 8 more for each block, and 16 for the
prologue and the epilogue fit in the heap.

`evalMmSpeed_replay` is the same for the speed pass, which reads neither sizes nor bytes.
-/

namespace OsAndC

open Layout

/-! ### Bytes held -/

/-- The number of bytes the grants are for. -/
def held (gs : List Grant) : ℕ := (gs.map Grant.size).sum

namespace Replay

/-- The bytes held. -/
def total (r : Replay) : ℕ := held r.live

/-- The most bytes held at a time, from `r` on. -/
def peak : Replay → List Traceop → ℕ
  | r, [] => r.total
  | r, op :: ops => max r.total (peak (r.step op) ops)

end Replay

variable {s s' : Machine} {h : Layout} {gs : List Grant} {g : Grant} {i k p : ℕ} {z : ℤ}
  {op : Traceop} {ops : List Traceop} {t : Totals} {d : Driver} {ar : Arena} {trace : Trace}
  {r : Replay} {owned : Finset ℤ}

/-- One grant and the others. -/
theorem held_cons : held (g :: gs) = g.size + held gs := List.sum_cons

/-- What is held apart from the grant at `p`. -/
theorem held_filter (hnd : (gs.map Grant.ptr).Nodup) (hg : g ∈ gs) :
    held (gs.filter fun g' => g'.ptr ≠ g.ptr) + g.size = held gs := by
  induction gs with
  | nil => cases hg
  | cons g₀ gs ih =>
      obtain ⟨hnot, hnd⟩ := List.nodup_cons.mp hnd
      rcases List.mem_cons.mp hg with rfl | hg
      · have hrest : gs.filter (fun g' => g'.ptr ≠ g.ptr) = gs :=
          List.filter_eq_self.mpr fun g' hg' => decide_eq_true fun heq =>
            hnot (List.mem_map.mpr ⟨g', hg', heq⟩)
        rw [List.filter_cons_of_neg (by simp), hrest, held_cons, Nat.add_comm]
      · have hne : g₀.ptr ≠ g.ptr := fun heq => hnot (List.mem_map.mpr ⟨g, hg, heq.symm⟩)
        rw [List.filter_cons_of_pos (by simpa using hne), held_cons, held_cons, Nat.add_assoc,
          ih hnd hg]

/-- Some of the blocks cover no more than all of them. -/
theorem extent_filter_le {bs : List Block} (f : Block → Bool) :
    extent (bs.filter f) ≤ extent bs := by
  induction bs with
  | nil => exact le_rfl
  | cons b bs ih =>
      rw [List.filter_cons]
      split_ifs
      · exact Nat.add_le_add_left ih b.size
      · exact ih.trans (Nat.le_add_left _ _)

/-- The extent is the sum of the sizes. -/
theorem extent_eq_sum (bs : List Block) : extent bs = (bs.map Block.size).sum := by
  induction bs with
  | nil => rfl
  | cons b bs ih => rw [extent_cons, List.map_cons, List.sum_cons, ih]

/-- **What is held fits in the heap**, with 8 bytes of overhead for each block and 16 for the
heap. -/
theorem Tended.held_le (ht : Tended s h gs) : held gs + 8 * gs.length + 16 ≤ s.memHeapsize := by
  have hw := ht.valid.toWf
  -- the grants are the allocated blocks, in another order
  have hperm : (gs.map Grant.ptr).Perm ((h.blocks.filter Block.alloc).map Block.addr) := by
    have hnd : ((h.blocks.filter Block.alloc).map Block.addr).Nodup :=
      hw.tiles.nodup.sublist (List.filter_sublist.map _)
    refine (List.perm_ext_iff_of_nodup ht.nodup hnd).mpr fun p => ?_
    have hholds : (∃ g ∈ gs, g.ptr = p) ↔ ∃ b, h.Allocated b ∧ b.addr = p := ht.holds p
    simp only [List.mem_map, List.mem_filter]
    exact hholds
  have hroom : ∀ g ∈ gs, g.size + 8 ≤ h.sizeAt g.ptr := fun g hg => by
    obtain ⟨b, hb, hbg, -, hsize⟩ := ht.block hg
    rw [← hbg, hw.sizeAt hb.1]
    exact hsize
  have hsizes : ((h.blocks.filter Block.alloc).map Block.addr).map h.sizeAt =
      (h.blocks.filter Block.alloc).map Block.size := by
    rw [List.map_map]
    exact List.map_congr_left fun b hb => hw.sizeAt (List.mem_of_mem_filter hb)
  have hsum : (gs.map fun g => g.size + 8).sum ≤ extent h.blocks :=
    calc (gs.map fun g => g.size + 8).sum
        ≤ (gs.map fun g => h.sizeAt g.ptr).sum := List.sum_le_sum hroom
      _ = ((gs.map Grant.ptr).map h.sizeAt).sum := by rw [List.map_map]; rfl
      _ = extent (h.blocks.filter Block.alloc) := by
          rw [(hperm.map h.sizeAt).sum_eq, hsizes, extent_eq_sum]
      _ ≤ extent h.blocks := extent_filter_le _
  have hlen : (gs.map fun g => g.size + 8).sum = held gs + 8 * gs.length := by
    rw [List.sum_map_add, held]
    simp [Nat.mul_comm]
  have hextent := hw.brk_eq
  have hbrk := ht.represents.brk
  rw [Machine.memHeapsize]
  omega

/-! ### The utilization pass -/

/-- A sum that is an `int` is what C computes. -/
theorem addInt_eq {z' : ℤ} (h : -2 ^ 31 ≤ z + z' ∧ z + z' < 2 ^ 31) :
    addInt z z' d = .ok (z + z') d := by
  rw [addInt, if_pos h]
  rfl

/-- The running totals, as long as they are `int`s. -/
theorem Totals.count_eq (h : -2 ^ 31 ≤ t.totalSize + z ∧ t.totalSize + z < 2 ^ 31) :
    t.count z d = .ok ⟨t.totalSize + z, max t.maxTotalSize (t.totalSize + z)⟩ d := by
  have hmax : (if t.totalSize + z > t.maxTotalSize then t.totalSize + z else t.maxTotalSize) =
      max t.maxTotalSize (t.totalSize + z) := by
    split_ifs <;> omega
  rw [Totals.count, run_bind_ok (addInt_eq h), run_pure, hmax]

namespace Sized

/-- The bytes held are an `int`. -/
theorem total_lt (hs : Sized ar trace d r owned) : r.total < 2 ^ 31 := by
  have hheld := hs.tended.held_le
  have hmax := d.machine.brk_le_max
  simp only [maxHeap, Machine.memHeapsize, Machine.memHeapLo] at hheld hmax
  rw [Replay.total]
  omega

/-- The bytes held after a request. -/
theorem total_step (hs : Sized ar trace d r owned) (hfits : op.Fits trace.numIds owned) :
    ((r.step op).total : ℤ) = match op.type with
      | .alloc => r.total + op.size
      | .free => r.total - (r.grantOf op.index).size
      | .realloc => r.total + (op.size - (r.grantOf op.index).size) := by
  have hlive : (r.step op).live = _ := Traceop.call_update fun htype =>
    ⟨(sizeT_eq (hfits.size htype)).2.1, hs.apply_ne_zero hfits htype⟩
  have hrest : op.type ≠ .alloc →
      held (r.live.filter fun g => g.ptr ≠ r.blocks.getD op.index.toNat 0) +
        (r.grantOf op.index).size = r.total := fun htype =>
    held_filter hs.tended.nodup (hs.owns.grant _ (hfits.owned htype)).2
  rw [Replay.total, hlive]
  cases htype : op.type with
  | alloc =>
      have hz := (sizeT_eq (hfits.size (by simp [htype]))).1
      simp only [held_cons]
      rw [Replay.total]
      omega
  | free =>
      have hrest := hrest (by simp [htype])
      simp only []
      omega
  | realloc =>
      have hz := (sizeT_eq (hfits.size (by simp [htype]))).1
      have hrest := hrest (by simp [htype])
      simp only [held_cons]
      omega

/-- The driver after a request for memory has led to the machine `s'` and returned `q`. -/
def recorded (d : Driver) (s' : Machine) (op : Traceop) (q : ℕ) : Driver :=
  { d with
    machine := s'
    trace := { d.trace with
      blocks := d.trace.blocks.set op.index.toNat q
      blockSizes := d.trace.blockSizes.set op.index.toNat (sizeT op.size) } }

/-- The pass counts the request: it follows the replay for one more step. -/
def Counted (ar : Arena) (trace : Trace) (i : ℕ) (t : Totals) (d : Driver) (r : Replay)
    (owned : Finset ℤ) (op : Traceop) : Prop :=
  ∃ d', utilRequest mmPackage i t d =
      .ok ⟨(r.step op).total, max t.maxTotalSize (r.step op).total⟩ d' ∧
    Sized ar trace d' (r.step op) (op.ownedAfter owned)

/-- The assignments after a request for memory. -/
theorem recorded_eq {q : ℕ} {α : Type} {x : DriverM α} (hs : Sized ar trace d r owned)
    (hfits : op.Fits trace.numIds owned) :
    (do setBlock op.index q
        setBlockSize op.index (sizeT op.size)
        x : DriverM α) { d with machine := s' } = x (recorded d s' op q) := by
  rw [run_bind_ok (setBlock_eq (d := { d with machine := s' }) (hs.blocks_index hfits)),
    run_bind_ok (setBlockSize_eq (by exact hs.blockSizes_index hfits))]
  rfl

/-- An `alloc` adds its size. -/
theorem request_alloc (hs : Sized ar trace d r owned) (hop : trace.ops[i]? = some op)
    (hfits : op.Fits trace.numIds owned)
    (hserved : (op.call r.blocks).Served r.layout (ar.base + maxHeap))
    (htotal : t.totalSize = r.total) (htype : op.type = .alloc) :
    Counted ar trace i t d r owned op := by
  have hfree : op.type ≠ .free := by simp [htype]
  have hne := hs.apply_ne_zero hfits hfree
  have hstep := hs.total_step hfits
  obtain ⟨s', hrun, harena, ht', -, -⟩ := hs.call hfits hserved
  have hs' : Sized ar trace (recorded d s' op _) (r.step op) (op.ownedAfter owned) :=
    hs.assigned hfits hfree harena ht' rfl
  have hlt := hs'.total_lt
  refine ⟨_, ?_, hs'⟩
  rw [Traceop.call_run, htype] at hrun
  simp only [htype] at hstep
  have hmalloc : callM (mmPackage.malloc (sizeT op.size)) d = _ := callM_ok hrun
  rw [utilRequest, run_bind_ok (hs.getOp hop)]
  simp only [htype]
  rw [run_bind_ok hmalloc, if_neg hne, hs.recorded_eq hfits, Totals.count_eq (by omega), htotal,
    ← hstep]

/-- A `realloc` adds the difference of the two sizes. -/
theorem request_realloc (hs : Sized ar trace d r owned) (hop : trace.ops[i]? = some op)
    (hfits : op.Fits trace.numIds owned)
    (hserved : (op.call r.blocks).Served r.layout (ar.base + maxHeap))
    (htotal : t.totalSize = r.total) (htype : op.type = .realloc) :
    Counted ar trace i t d r owned op := by
  have hfree : op.type ≠ .free := by simp [htype]
  have hne := hs.apply_ne_zero hfits hfree
  have hstep := hs.total_step hfits
  have hz := hfits.size hfree
  have hold := hs.size_lt (hs.owns.grant _ (hfits.owned (by simp [htype]))).2
  obtain ⟨s', hrun, harena, ht', -, -⟩ := hs.call hfits hserved
  have hs' : Sized ar trace (recorded d s' op _) (r.step op) (op.ownedAfter owned) :=
    hs.assigned hfits hfree harena ht' rfl
  have hlt := hs'.total_lt
  refine ⟨_, ?_, hs'⟩
  rw [Traceop.call_run, htype] at hrun
  simp only [htype] at hstep
  have hrealloc : callM (mmPackage.realloc (r.blocks.getD op.index.toNat 0) (sizeT op.size)) d =
    _ := callM_ok hrun
  rw [utilRequest, run_bind_ok (hs.getOp hop)]
  simp only [htype]
  rw [run_bind_ok (hs.getBlockSize hfits rfl), run_bind_ok (hs.getBlock hfits),
    run_bind_ok hrealloc, if_neg hne, hs.recorded_eq hfits, toInt_eq hold.2,
    run_bind_ok (addInt_eq (by omega)), ← sub_eq_add_neg, Totals.count_eq (by omega), htotal,
    ← hstep]

/-- A `free` subtracts its size, and leaves the maximum alone. -/
theorem request_free (hs : Sized ar trace d r owned) (hop : trace.ops[i]? = some op)
    (hfits : op.Fits trace.numIds owned)
    (hserved : (op.call r.blocks).Served r.layout (ar.base + maxHeap))
    (htotal : t.totalSize = r.total) (hmax : (r.total : ℤ) ≤ t.maxTotalSize)
    (htype : op.type = .free) :
    Counted ar trace i t d r owned op := by
  have hstep := hs.total_step hfits
  have hold := hs.size_lt (hs.owns.grant _ (hfits.owned (by simp [htype]))).2
  have hlt := hs.total_lt
  obtain ⟨s', hrun, harena, ht', -, -⟩ := hs.call hfits hserved
  refine ⟨{ d with machine := s' }, ?_, hs.released hfits htype harena ht' rfl⟩
  rw [Traceop.call_run, htype] at hrun
  simp only [htype] at hstep
  obtain ⟨u, s₁, hfree, hret⟩ := of_run_bind_ok hrun
  obtain rfl : s₁ = s' := by
    rw [run_pure] at hret
    injection hret
  have hfree' : callM (mmPackage.free (r.blocks.getD op.index.toNat 0)) d = _ := callM_ok hfree
  have hkeep : max t.maxTotalSize ((r.step op).total : ℤ) = t.maxTotalSize := by
    omega
  rw [utilRequest, run_bind_ok (hs.getOp hop)]
  simp only [htype]
  rw [run_bind_ok (hs.getBlockSize hfits rfl), run_bind_ok (hs.getBlock hfits),
    run_bind_ok hfree', toInt_eq hold.2, run_bind_ok (addInt_eq (by omega)), ← sub_eq_add_neg,
    htotal, ← hstep, hkeep]
  rfl

/-- **One request** of the utilization pass. -/
theorem request_util (hs : Sized ar trace d r owned) (hop : trace.ops[i]? = some op)
    (hfits : op.Fits trace.numIds owned)
    (hserved : (op.call r.blocks).Served r.layout (ar.base + maxHeap))
    (htotal : t.totalSize = r.total) (hmax : (r.total : ℤ) ≤ t.maxTotalSize) :
    Counted ar trace i t d r owned op := by
  cases htype : op.type with
  | alloc => exact hs.request_alloc hop hfits hserved htotal htype
  | free => exact hs.request_free hop hfits hserved htotal hmax htype
  | realloc => exact hs.request_realloc hop hfits hserved htotal htype

end Sized

/-- The heap does not shrink in a run. -/
theorem Replay.run_brk : r.layout.brk ≤ (r.run ops).layout.brk := by
  induction ops generalizing r with
  | nil => exact le_rfl
  | cons op ops ih =>
      calc r.layout.brk ≤ (r.step op).layout.brk := apply_brk
        _ ≤ (r.run (op :: ops)).layout.brk := ih

/-- What is held lies between prologue and epilogue. -/
theorem Sized.total_le (hs : Sized ar trace d r owned) :
    ar.base + r.total + 16 ≤ r.layout.brk := by
  have hheld := hs.tended.held_le
  have hbase := d.machine.base_le_brk
  rw [hs.arena] at hbase
  rw [Machine.memHeapsize, Machine.memHeapLo, hs.arena] at hheld
  have hbrk := hs.tended.represents.brk
  rw [Replay.total]
  omega

/-- The loop of the utilization pass. -/
theorem Sized.loop {sc : Bool} {pre : List Traceop} (hs : Sized ar trace d r owned)
    (hops : trace.ops = pre ++ ops) (hbal : Balanced trace.numIds owned ops)
    (hacc : r.verdict sc (ar.base + maxHeap) pre.length ops = .accepted)
    (htotal : t.totalSize = r.total) (hmax : (r.total : ℤ) ≤ t.maxTotalSize) :
    ∃ d' owned', utilLoop mmPackage ops.length pre.length t d =
        .ok ⟨(r.run ops).total, max t.maxTotalSize (r.peak ops)⟩ d' ∧
      Sized ar trace d' (r.run ops) owned' ∧
      ar.base + r.peak ops + 16 ≤ (r.run ops).layout.brk := by
  induction ops generalizing pre d r owned t with
  | nil =>
      refine ⟨d, owned, ?_, hs, hs.total_le⟩
      rw [Replay.peak, max_eq_left hmax, Replay.run, List.foldl_nil, ← htotal]
      rfl
  | cons op ops ih =>
      obtain ⟨hfits, hbal⟩ := hbal
      obtain ⟨hserved, -, hacc⟩ := Replay.verdict_cons.mp hacc
      have hop : trace.ops[pre.length]? = some op := by simp [hops]
      obtain ⟨d₁, hrun, hs₁⟩ := hs.request_util hop hfits hserved htotal hmax
      have hops' : trace.ops = (pre ++ [op]) ++ ops := by simp [hops]
      have hlen : (pre ++ [op]).length = pre.length + 1 := List.length_append
      rw [← hlen] at hacc
      obtain ⟨d', owned', hloop, hs', hroom⟩ :=
        ih (t := ⟨_, _⟩) hs₁ hops' hbal hacc rfl (le_max_right _ _)
      have htotal_le : ar.base + r.total + 16 ≤ (r.run (op :: ops)).layout.brk :=
        hs.total_le.trans Replay.run_brk
      have hroom_le : ar.base + (r.step op).peak ops + 16 ≤ (r.run (op :: ops)).layout.brk := hroom
      refine ⟨d', owned', ?_, hs', by rw [Replay.peak]; omega⟩
      have hpeak : max t.maxTotalSize ((r.peak (op :: ops) : ℕ) : ℤ) =
          max (max t.maxTotalSize ((r.step op).total : ℤ)) ((r.step op).peak ops) := by
        have hle : (r.step op).total ≤ (r.step op).peak ops := by
          cases ops with
          | nil => exact le_rfl
          | cons op' ops => exact le_max_left _ _
        rw [Replay.peak]
        omega
      rw [List.length_cons, utilLoop, run_bind_ok hrun, hpeak, ← hlen]
      exact hloop

/-- **The utilization pass** over a well-formed trace the arena is large enough for, from any
heap whose free list does not start on the new epilogue, returns the peak of the replay and
the size of its last heap, in which the peak leaves 16 bytes over. -/
theorem evalMmUtil_replay (hwf : d.trace.WellFormed) (hf : Stale d.machine d.machine.freeList)
    (hacc : d.replay.verdict false d.machine.memMaxAddr 0 d.trace.ops = .accepted) :
    ∃ d' owned heapsize, evalMmUtil mmPackage d = .ok (d.replay.peak d.trace.ops, heapsize) d' ∧
      Sized d.machine.arena d.trace d' (d.replay.run d.trace.ops) owned ∧
      heapsize = (d.replay.run d.trace.ops).layout.brk - d.machine.memHeapLo ∧
      d.replay.peak d.trace.ops + 16 ≤ heapsize := by
  obtain ⟨s₁, s₂, hreset, hinit, harena, ht⟩ := begin_pass hf
  have hs : Sized d.machine.arena d.trace { d with machine := s₂ } d.replay ∅ :=
    .begin hwf harena ht
  obtain ⟨d', owned, hloop, hs', hroom⟩ := hs.loop (t := ⟨0, 0⟩) (List.nil_append _).symm
    hwf.balanced hacc rfl le_rfl
  rw [List.length_nil] at hloop
  have hsize : d'.machine.memHeapsize =
      (d.replay.run d.trace.ops).layout.brk - d.machine.memHeapLo := by
    rw [Machine.memHeapsize, hs'.tended.represents.brk, Machine.memHeapLo, hs'.arena]
    rfl
  refine ⟨d', owned, d'.machine.memHeapsize, ?_, hs', hsize, ?_⟩
  · rw [evalMmUtil, run_bind_ok hreset, run_bind_ok (hinit _), if_neg (by simp), run_get_bind,
      hwf.numOps_toNat, run_bind_ok hloop, run_get_bind, run_pure, max_eq_right (by simp)]
  · rw [hsize, Machine.memHeapLo]
    omega

/-- The peak is the largest total of a prefix. -/
theorem Replay.peak_isGreatest :
    IsGreatest {m | ∃ pre, pre <+: ops ∧ (r.run pre).total = m} (r.peak ops) := by
  induction ops generalizing r with
  | nil =>
      refine ⟨⟨[], List.prefix_rfl, rfl⟩, ?_⟩
      rintro m ⟨pre, hpre, rfl⟩
      rw [List.prefix_nil.mp hpre]
      exact le_rfl
  | cons op ops ih =>
      obtain ⟨⟨pre, hpre, hpeak⟩, hmax⟩ := ih (r := r.step op)
      constructor
      · rcases max_choice r.total ((r.step op).peak ops) with heq | heq
        · exact ⟨[], List.nil_prefix, heq.symm⟩
        · exact ⟨op :: pre, List.cons_prefix_cons.mpr ⟨rfl, hpre⟩, hpeak.trans heq.symm⟩
      · rintro m ⟨pre', hpre', rfl⟩
        cases pre' with
        | nil => exact le_max_left _ _
        | cons op' pre' =>
            obtain ⟨rfl, hrest⟩ := List.cons_prefix_cons.mp hpre'
            exact (hmax ⟨pre', hrest, rfl⟩).trans (le_max_right _ _)

/-- **Utilization.** On a well-formed trace that the arena is large enough for, and from any
heap whose free list does not start on the new epilogue, `eval_mm_util` divides the most bytes
held at a time by the size of the last heap, and the quotient is less than 1. -/
theorem evalMmUtil_quotient (hwf : d.trace.WellFormed) (hf : Stale d.machine d.machine.freeList)
    (hserved : ∀ pre op post, d.trace.ops = pre ++ op :: post →
      (op.call (d.replay.run pre).blocks).Served (d.replay.run pre).layout d.machine.memMaxAddr) :
    ∃ d' peak heapsize, evalMmUtil mmPackage d = .ok ((peak : ℕ), heapsize) d' ∧
      IsGreatest {m | ∃ pre, pre <+: d.trace.ops ∧ (d.replay.run pre).total = m} peak ∧
      heapsize = (d.replay.run d.trace.ops).layout.brk - d.machine.memHeapLo ∧
      peak < heapsize := by
  have hacc : d.replay.verdict false d.machine.memMaxAddr 0 d.trace.ops = .accepted :=
    Replay.verdict_accepted.mpr ⟨hserved, fun op _ => by simp [Traceop.Misread]⟩
  obtain ⟨d', owned, heapsize, hrun, -, hsize, hroom⟩ := evalMmUtil_replay hwf hf hacc
  exact ⟨d', _, heapsize, hrun, Replay.peak_isGreatest, hsize, by omega⟩

/-- A block is requested, resized and released. -/
theorem evalMmUtil_quotient_plain :
    ∃ d' peak heapsize, evalMmUtil mmPackage (sampleDriver plainTrace) =
      .ok ((peak : ℕ), heapsize) d' ∧ peak < heapsize := by
  have hacc : (sampleDriver plainTrace).replay.verdict true
      (sampleDriver plainTrace).machine.memMaxAddr 0 plainTrace.ops = .accepted := rfl
  obtain ⟨d', peak, heapsize, hrun, -, -, hlt⟩ :=
    evalMmUtil_quotient (d := sampleDriver plainTrace) ⟨rfl, rfl, rfl, by decide⟩ (Or.inl rfl)
      (Replay.verdict_accepted.mp hacc).1
  exact ⟨d', peak, heapsize, hrun, hlt⟩

/-! ### The speed pass -/

/-- **One request** of the speed pass. -/
theorem Follows.request_speed (hf : Follows ar trace d r owned) (hop : trace.ops[i]? = some op)
    (hfits : op.Fits trace.numIds owned)
    (hserved : (op.call r.blocks).Served r.layout (ar.base + maxHeap)) :
    ∃ d', speedRequest mmPackage i d = .ok () d' ∧
      Follows ar trace d' (r.step op) (op.ownedAfter owned) := by
  obtain ⟨s', hrun, harena, ht', -, -⟩ := hf.call hfits hserved
  rw [Traceop.call_run] at hrun
  by_cases htype : op.type = .free
  · refine ⟨{ d with machine := s' }, ?_, hf.released hfits htype harena ht' rfl⟩
    simp only [htype] at hrun
    obtain ⟨u, s₁, hfree, hret⟩ := of_run_bind_ok hrun
    obtain rfl : s₁ = s' := by
      rw [run_pure] at hret
      injection hret
    have hfree' : callM (mmPackage.free (r.blocks.getD op.index.toNat 0)) d = _ := callM_ok hfree
    rw [speedRequest, run_bind_ok (hf.getOp hop)]
    simp only [htype]
    rw [run_bind_ok (hf.getBlock hfits), hfree']
  · have hne := hf.apply_ne_zero hfits htype
    have hset : setBlock op.index ((op.call r.blocks).apply r.layout).2 { d with machine := s' } =
      _ := setBlock_eq (hf.blocks_index hfits)
    refine ⟨{ d with
      machine := s'
      trace := { d.trace with
        blocks := d.trace.blocks.set op.index.toNat ((op.call r.blocks).apply r.layout).2 } }, ?_,
      hf.assigned hfits htype harena ht' rfl rfl⟩
    generalize ((op.call r.blocks).apply r.layout).2 = q at *
    rw [speedRequest, run_bind_ok (hf.getOp hop)]
    cases hcase : op.type with
    | free => exact absurd hcase htype
    | alloc =>
        simp only [hcase] at hrun ⊢
        have hmalloc : callM (mmPackage.malloc (sizeT op.size)) d = _ := callM_ok hrun
        rw [run_bind_ok hmalloc, if_neg hne, hset]
    | realloc =>
        simp only [hcase] at hrun ⊢
        have hrealloc : callM (mmPackage.realloc (r.blocks.getD op.index.toNat 0)
          (sizeT op.size)) d = _ := callM_ok hrun
        rw [run_bind_ok (hf.getBlock hfits), run_bind_ok hrealloc, if_neg hne, hset]

/-- The loop of the speed pass. -/
theorem Follows.loop {sc : Bool} {pre : List Traceop} (hf : Follows ar trace d r owned)
    (hops : trace.ops = pre ++ ops) (hbal : Balanced trace.numIds owned ops)
    (hacc : r.verdict sc (ar.base + maxHeap) pre.length ops = .accepted) :
    ∃ d' owned', speedLoop mmPackage ops.length pre.length d = .ok () d' ∧
      Follows ar trace d' (r.run ops) owned' := by
  induction ops generalizing pre d r owned with
  | nil => exact ⟨d, owned, rfl, hf⟩
  | cons op ops ih =>
      obtain ⟨hfits, hbal⟩ := hbal
      obtain ⟨hserved, -, hacc⟩ := Replay.verdict_cons.mp hacc
      have hop : trace.ops[pre.length]? = some op := by simp [hops]
      obtain ⟨d₁, hrun, hf₁⟩ := hf.request_speed hop hfits hserved
      have hlen : (pre ++ [op]).length = pre.length + 1 := List.length_append
      rw [← hlen] at hacc
      obtain ⟨d', owned', hloop, hf'⟩ :=
        ih hf₁ (show trace.ops = (pre ++ [op]) ++ ops by simp [hops]) hbal hacc
      rw [hlen] at hloop
      exact ⟨d', owned', (run_bind_ok hrun).trans hloop, hf'⟩

/-- **The speed pass** over a well-formed trace the arena is large enough for, from any heap
whose free list does not start on the new epilogue, goes through. -/
theorem evalMmSpeed_replay (hwf : d.trace.WellFormed) (hf : Stale d.machine d.machine.freeList)
    (hacc : d.replay.verdict false d.machine.memMaxAddr 0 d.trace.ops = .accepted) :
    ∃ d' owned, evalMmSpeed mmPackage d = .ok () d' ∧
      Follows d.machine.arena d.trace d' (d.replay.run d.trace.ops) owned := by
  obtain ⟨s₁, s₂, hreset, hinit, harena, ht⟩ := begin_pass hf
  have hs : Sized d.machine.arena d.trace { d with machine := s₂ } d.replay ∅ :=
    .begin hwf harena ht
  obtain ⟨d', owned, hloop, hf'⟩ := hs.toFollows.loop (List.nil_append _).symm hwf.balanced hacc
  refine ⟨d', owned, ?_, hf'⟩
  rw [evalMmSpeed, run_bind_ok hreset, run_bind_ok (hinit _), if_neg (by simp), run_get_bind,
    hwf.numOps_toNat]
  exact hloop

end OsAndC
