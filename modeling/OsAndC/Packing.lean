import OsAndC.BoundedHeap
import OsAndC.Utilization

/-!
# Traces That Release at the End

How much of the heap is payload. As long as nothing has been released, the only free block is
what the last extension has left at the end of the heap. It is joined with the next extension,
so nothing is lost between the blocks, and `Layout.Packed` is an invariant.

`evalMmUtil_packed` is the utilization of a trace that allocates before it releases, as
`eval_mm_util` reports it from any heap that can be started again: the peak is everything that
was asked for, and the heap is larger by at most 23 bytes for each block and 4112 bytes,
whatever the sizes are.
-/

namespace OsAndC

open Layout

/-- The blocks are allocated and have `total` bytes at most, except for a free block of at
most 4096 bytes at the end, if there is one. -/
def Layout.Packed (h : Layout) (total : ℕ) : Prop :=
  ∃ (pre : List Block) (last : Option Block), h.blocks = pre ++ last.toList ∧
    (∀ b ∈ pre, b.alloc = true) ∧ extent pre ≤ total ∧
    ∀ d ∈ last, d.alloc = false ∧ d.size ≤ 4096

/-- The bytes a list of requests asks for. -/
def payload (ops : List Traceop) : ℕ := (ops.map fun op => sizeT op.size).sum

variable {h : Layout} {b d : Block} {pre : List Block} {gs : List Grant} {r : Replay}
  {op : Traceop} {ops allocs frees : List Traceop} {lo k n m total top : ℕ} {sc : Bool}
  {driver : Driver} {trace : Trace}

/-! ### Layouts -/

/-- A packed heap ends at most a chunk behind its blocks. -/
theorem Layout.Packed.brk_le (hp : h.Packed total) (hw : Wf lo h) :
    h.brk ≤ lo + 16 + total + 4096 := by
  obtain ⟨pre, last, hbs, -, hext, hlast⟩ := hp
  have hbrk := hw.brk_eq
  rw [hbs, extent_append] at hbrk
  cases last with
  | none =>
      rw [Option.toList_none, extent_nil] at hbrk
      omega
  | some d =>
      have hd := (hlast d rfl).2
      rw [Option.toList_some, extent_cons, extent_nil] at hbrk
      omega

/-- A request that is served from the last block leaves the heap packed. -/
theorem Layout.Valid.take_packed (hv : Valid lo h) (hbs : h.blocks = pre ++ [d])
    (hpre : ∀ b ∈ pre, b.alloc = true) (hk : k % 8 = 0) (hkd : k ≤ d.size)
    (hdk : d.size ≤ k + 4096) : (h.take d.addr k).Packed (extent pre + k + 8) := by
  have hplace := place_eq (h := { h with free := h.free.erase d.addr }) (k := k) hv.tiles hbs
  have hblocks : (h.take d.addr k).blocks = pre ++ d.cut k := by
    rw [Layout.take, hplace, List.append_nil]
  have hd8 := (hv.sizes d (by rw [hbs]; simp)).2
  by_cases h16 : 16 ≤ d.size - k
  · refine ⟨pre ++ [⟨d.addr, k, true⟩], some ⟨d.addr + k, d.size - k, false⟩, ?_, ?_, ?_, ?_⟩
    · rw [hblocks, Block.cut, if_pos h16, Option.toList_some, List.append_assoc]
      rfl
    · exact List.forall_mem_append.mpr ⟨hpre, by simp⟩
    · simp only [extent_append, extent_cons, extent_nil]
      omega
    · rintro d' ⟨⟩
      exact ⟨rfl, by simp only []; omega⟩
  · refine ⟨pre ++ [⟨d.addr, d.size, true⟩], none, ?_, ?_, ?_, by simp⟩
    · rw [hblocks, Block.cut, if_neg h16, Option.toList_none, List.append_nil]
    · exact List.forall_mem_append.mpr ⟨hpre, by simp⟩
    · simp only [extent_append, extent_cons, extent_nil]
      omega

/-- An extension is joined with the last block, if that is free. -/
theorem Layout.Grows.last_block {h' : Layout} {last : Option Block} (hg : Grows h k h')
    (hbs : h.blocks = pre ++ last.toList) (hpre : ∀ b ∈ pre, b.alloc = true)
    (hlast : ∀ d ∈ last, d.alloc = false) : ∃ d, h'.free.headD 0 = d.addr ∧
      h'.blocks = pre ++ [d] ∧ d.size = (last.elim 0 Block.size) + k := by
  cases hg with
  | @merged pre' d hbs' hfree =>
      cases last with
      | none =>
          rw [hbs, Option.toList_none, List.append_nil] at hbs'
          exact absurd (hpre d (by rw [hbs']; simp)) (by simp [hfree])
      | some d' =>
          obtain ⟨rfl, hd⟩ := List.append_inj' (hbs.symm.trans hbs') rfl
          obtain rfl := List.singleton_injective hd
          exact ⟨⟨d'.addr, d'.size + k, false⟩, rfl, rfl, rfl⟩
  | apart hall =>
      cases last with
      | none =>
          rw [Option.toList_none, List.append_nil] at hbs
          exact ⟨⟨h.brk, k, false⟩, rfl, by rw [hbs], (Nat.zero_add k).symm⟩
      | some d =>
          exact absurd (hall d (by rw [hbs]; simp)) (by simp [hlast d rfl])

/-- **An allocation** keeps the heap packed. -/
theorem Layout.Packed.malloc (hp : h.Packed total) (hv : Valid lo h) (hn : 0 < n) :
    (h.malloc n).1.Packed (total + n + 23) := by
  obtain ⟨pre, last, hbs, hpre, hext, hlast⟩ := hp
  obtain ⟨h16, h8, -⟩ := need_pos hn
  have hneed : need n ≤ n + 15 := by
    rw [need]
    omega
  -- it is enough to find the block that serves the request at the end of the heap
  suffices htake : ∃ h' d, (h.malloc n).1 = h'.take d.addr (need n) ∧ Valid lo h' ∧
      h'.blocks = pre ++ [d] ∧ need n ≤ d.size ∧ d.size ≤ need n + 4096 by
    obtain ⟨h', d, hmalloc, hv', hbs', hkd, hdk⟩ := htake
    obtain ⟨pre', last', hbs'', hpre', hext', hlast'⟩ := hv'.take_packed hbs' hpre h8 hkd hdk
    exact ⟨pre', last', hmalloc ▸ hbs'', hpre', by omega, hlast'⟩
  rw [Layout.malloc, if_neg (by omega)]
  cases hfit : h.fit? (need n) with
  | some a =>
      obtain ⟨d, hd, rfl, hfree, hkd⟩ := hv.fit?_some hfit
      have hd' : last = some d := by
        rw [hbs] at hd
        rcases List.mem_append.mp hd with hd | hd
        · exact absurd (hpre d hd) (by simp [hfree])
        · exact Option.mem_toList.mp hd
      have hsize := (hlast d hd').2
      exact ⟨h, d, rfl, hv, by rw [hbs, hd']; rfl, hkd, by omega⟩
  | none =>
      have hg : 16 ≤ max (need n) 4096 ∧ max (need n) 4096 % 8 = 0 := by omega
      obtain ⟨d, hhead, hbs', hsize⟩ :=
        (hv.grows hg).last_block hbs hpre fun d hd => (hlast d hd).1
      -- a free block at the end was too small for the request
      have hsmall : last.elim 0 Block.size < need n ∧ last.elim 0 Block.size ≤ 4096 := by
        cases last with
        | none => exact ⟨by simp only [Option.elim_none]; omega, Nat.zero_le _⟩
        | some d =>
            obtain ⟨hfree, hle⟩ := hlast d rfl
            exact ⟨hv.fit?_eq_none.mp hfit d (by rw [hbs]; simp) hfree, hle⟩
      exact ⟨_, d, by rw [← hhead], hv.extend hg, hbs', by omega, by omega⟩

/-- The first heap is packed, with nothing in it. -/
theorem initial_packed : (initial lo).Packed 0 :=
  ⟨[], some ⟨lo + 16, 4096, false⟩, rfl, by simp, le_rfl, by rintro d ⟨⟩; exact ⟨rfl, le_rfl⟩⟩

/-- The room that the heap takes after an allocation is room for the allocation. -/
theorem Layout.Packed.hasRoom (hp : h.Packed total) (hv : Valid lo h) (hn : 0 < n)
    (hroom : lo + 16 + (total + n + 23) + 4096 ≤ top) (htop : top ≤ lo + maxHeap)
    (hfit : h.fit? (need n) = none) : h.HasRoom top n := by
  have hle := (hp.malloc hv hn).brk_le (hv.malloc hn).1.toWf
  have hbrk : (h.malloc n).1.brk = h.brk + max (need n) 4096 :=
    (apply_brk_eq (c := .malloc n)).1 ⟨hn, hfit⟩
  have hlo := hv.brk_eq
  simp only [maxHeap] at htop
  rw [HasRoom, toInt_eq (by omega)]
  omega

/-! ### Replays -/

/-- Some of the grants hold no more than all of them. -/
theorem held_filter_le (f : Grant → Bool) : held (gs.filter f) ≤ held gs :=
  (List.filter_sublist.map Grant.size).sum_le_sum fun _ _ => Nat.zero_le _

/-- An allocation in a replay. -/
theorem Replay.step_alloc (hv : Valid lo r.layout) (htype : op.type = .alloc)
    (hpos : 0 < sizeT op.size) :
    (r.step op).layout = (r.layout.malloc (sizeT op.size)).1 ∧
      (r.step op).total = r.total + sizeT op.size := by
  have hcall : op.call r.blocks = .malloc (sizeT op.size) := by rw [Traceop.call, htype]
  have hne : ((op.call r.blocks).apply r.layout).2 ≠ 0 := by
    have hlo : lo < ((op.call r.blocks).apply r.layout).2 := by
      rw [hcall]
      exact (hv.malloc hpos).2.1
    omega
  have hlive : (r.step op).live = _ := Traceop.call_update fun _ => ⟨hpos, hne⟩
  simp only [htype] at hlive
  constructor
  · rw [Replay.step, hcall]
    rfl
  · rw [Replay.total, hlive, held_cons, Nat.add_comm]
    rfl

/-- Releases alone leave the break and the peak where they are. -/
theorem Replay.run_frees (sc : Bool) (hfrees : ∀ op ∈ frees, op.type = .free) :
    r.verdict sc top m frees = .accepted ∧ (r.run frees).layout.brk = r.layout.brk ∧
      r.peak frees = r.total := by
  induction frees generalizing r m with
  | nil => exact ⟨rfl, rfl, rfl⟩
  | cons op frees ih =>
      obtain ⟨htype, hfrees⟩ := List.forall_mem_cons.mp hfrees
      obtain ⟨hacc, hbrk, hpeak⟩ := ih (r := r.step op) (m := m + 1) hfrees
      have hcall : op.call r.blocks = .free (r.blocks.getD op.index.toNat 0) := by
        rw [Traceop.call, htype]
      have hread : ¬ op.Misread sc := by simp [Traceop.Misread, htype]
      have htotal : (r.step op).total ≤ r.total := by
        rw [Replay.total, Replay.step, hcall]
        exact held_filter_le _
      refine ⟨Replay.verdict_cons.mpr ⟨by rw [hcall]; trivial, hread, hacc⟩, ?_, ?_⟩
      · refine hbrk.trans ?_
        rw [Replay.step, hcall]
        rfl
      · rw [Replay.peak, hpeak, max_eq_left htotal]

/-- **A list of allocations and releases** on a packed heap. -/
theorem Replay.run_packed (sc : Bool) (hv : Valid lo r.layout) (hp : r.layout.Packed total)
    (hallocs : ∀ op ∈ allocs, op.type = .alloc ∧ 0 < sizeT op.size)
    (hfrees : ∀ op ∈ frees, op.type = .free)
    (hroom : lo + 16 + (total + payload allocs + 23 * allocs.length) + 4096 ≤ top)
    (htop : top ≤ lo + maxHeap) :
    r.verdict sc top m (allocs ++ frees) = .accepted ∧
      (r.run (allocs ++ frees)).layout.brk ≤
        lo + 16 + (total + payload allocs + 23 * allocs.length) + 4096 ∧
      r.peak (allocs ++ frees) = r.total + payload allocs := by
  induction allocs generalizing r m total with
  | nil =>
      obtain ⟨hacc, hbrk, hpeak⟩ := Replay.run_frees (r := r) (m := m) sc hfrees
      refine ⟨hacc, ?_, hpeak⟩
      have hle := hp.brk_le hv.toWf
      rw [List.nil_append, hbrk]
      exact hle.trans (by omega)
  | cons op allocs ih =>
      obtain ⟨⟨htype, hpos⟩, hallocs⟩ := List.forall_mem_cons.mp hallocs
      obtain ⟨hlayout, htotal⟩ := Replay.step_alloc hv htype hpos
      have hpayload : payload (op :: allocs) = sizeT op.size + payload allocs := List.sum_cons
      rw [hpayload, List.length_cons] at hroom ⊢
      have hcall : op.call r.blocks = .malloc (sizeT op.size) := by rw [Traceop.call, htype]
      have hserved : (op.call r.blocks).Served r.layout top := by
        rw [hcall]
        exact hp.hasRoom hv hpos (by omega) htop
      have hread : ¬ op.Misread sc := by simp [Traceop.Misread, htype]
      have hv' : Valid lo (r.step op).layout := hlayout ▸ (hv.malloc hpos).1
      have hp' : (r.step op).layout.Packed (total + sizeT op.size + 23) :=
        hlayout ▸ hp.malloc hv hpos
      obtain ⟨hacc, hbrk, hpeak⟩ := ih (m := m + 1) hv' hp' hallocs (by omega)
      refine ⟨Replay.verdict_cons.mpr ⟨hserved, hread, hacc⟩, ?_, ?_⟩
      · have hrun : r.run (op :: allocs ++ frees) = (r.step op).run (allocs ++ frees) := rfl
        rw [hrun]
        omega
      · have hcons : r.peak (op :: allocs ++ frees) =
            max r.total ((r.step op).peak (allocs ++ frees)) := rfl
        rw [hcons, hpeak, htotal]
        omega

/-- **The utilization of a trace that releases at the end.** From any heap whose free list does
not start on the new epilogue, the driver accepts the well-formed trace if the arena has 23
bytes for each request and 4112 bytes in addition to what is asked for. The peak that
`eval_mm_util` then returns is all that is asked for, and the heap is not larger than that
arena. -/
theorem evalMmUtil_packed (hwf : driver.trace.WellFormed)
    (hf : Stale driver.machine driver.machine.freeList)
    (hops : driver.trace.ops = allocs ++ frees) (hallocs : ∀ op ∈ allocs, op.type = .alloc)
    (hfrees : ∀ op ∈ frees, op.type = .free)
    (hroom : payload allocs + 23 * allocs.length + 4112 ≤ maxHeap) :
    (∃ d', evalMmValid mmPackage sc k driver = .ok true d') ∧
      ∃ d' heapsize, evalMmUtil mmPackage driver = .ok ((payload allocs : ℕ), heapsize) d' ∧
        payload allocs + 16 ≤ heapsize ∧
        heapsize ≤ payload allocs + 23 * allocs.length + 4112 := by
  have hpos : ∀ op ∈ allocs, op.type = .alloc ∧ 0 < sizeT op.size := by
    intro op hop
    have hmem : op ∈ driver.trace.ops := by
      rw [hops]
      exact List.mem_append_left _ hop
    obtain ⟨owned, hfits⟩ := hwf.balanced.fits hmem
    have htype := hallocs op hop
    exact ⟨htype, (sizeT_eq (hfits.size (by simp [htype]))).2.1⟩
  have hv : Valid driver.machine.arena.base driver.replay.layout :=
    initial_valid driver.machine.arena.aligned
  have hrun (sc : Bool) := Replay.run_packed (m := 0) sc hv initial_packed hpos hfrees (by omega)
    (le_refl (driver.machine.arena.base + maxHeap))
  simp only [← hops] at hrun
  obtain ⟨hacc, hbrk, hpeak⟩ := hrun false
  obtain ⟨d', owned, heapsize, hutil, -, hsize, hle⟩ := evalMmUtil_replay hwf hf hacc
  have hzero : driver.replay.total = 0 := rfl
  rw [hpeak, hzero, Nat.zero_add] at hutil hle
  refine ⟨(evalMmValid_true_iff hwf hf).mpr (hrun sc).1, d', heapsize, hutil, hle, ?_⟩
  rw [hsize, Machine.memHeapLo]
  omega

/-- A trace with a request that the first heap is too small for. -/
def packedTrace : Trace :=
  sampleTrace 2 [⟨.alloc, 0, 5000⟩, ⟨.alloc, 1, 24⟩, ⟨.free, 0, 0⟩, ⟨.free, 1, 0⟩]

/-- Two requests, the first of which is larger than the first chunk. -/
theorem evalMmUtil_packed_packedTrace :
    (∃ d', evalMmValid mmPackage true 0 (sampleDriver packedTrace) = .ok true d') ∧
      ∃ d' heapsize, evalMmUtil mmPackage (sampleDriver packedTrace) = .ok (5024, heapsize) d' ∧
        5040 ≤ heapsize ∧ heapsize ≤ 9182 := by
  have hwf : (sampleDriver packedTrace).trace.WellFormed := ⟨rfl, rfl, rfl, by decide⟩
  have hops : (sampleDriver packedTrace).trace.ops =
      [⟨.alloc, 0, 5000⟩, ⟨.alloc, 1, 24⟩] ++ [⟨.free, 0, 0⟩, ⟨.free, 1, 0⟩] := rfl
  exact evalMmUtil_packed hwf (Or.inl rfl) hops (by decide) (by decide) (by decide)

end OsAndC
