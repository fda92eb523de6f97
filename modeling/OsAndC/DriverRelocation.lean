import OsAndC.Relocation
import OsAndC.TraceFiles

/-!
# The Driver Does Not See Where the Arena Is

The results of the driver are about the arena it has got from `mem_init`, but they do not
depend on it. `Replay.Moved` follows two passes over one trace, on arenas `d` bytes apart:
layouts, grants and the pointers that are held are those of the first pass, moved, so the
verdict, the peak and the size of the heap are the same.

`evalFiles_relocate` says that the loop of `main` records the same statistics on any two
arenas, or dies on both, if the traces are restartable. Whether they are does not depend on
the arena either (`Trace.Twins.restartable_iff`). What `malloc` hands out to `read_trace` may
hold anything, so it is twins that the two drivers read, not the same trace.
-/

namespace OsAndC

open Layout

/-- The second replay is the first one, moved. Entries of the arrays that hold no block may
differ. -/
structure Replay.Moved (d : ℕ) (n : ℤ) (owned : Finset ℤ) (r r' : Replay) : Prop where
  fills : r'.Fills n
  layout : r'.layout = r.layout.shift d
  live : r'.live = r.live.map (Grant.shift d)
  grantOf : ∀ i ∈ owned, r'.grantOf i = (r.grantOf i).shift d

variable {s : Machine} {h : Layout} {gs : List Grant} {c : Call} {n : ℤ} {owned : Finset ℤ}
  {r r' : Replay} {op : Traceop} {ops : List Traceop} {sc : Bool} {d i top : ℕ}
  {ar ar' : Arena} {trace trace' : Trace} {traces traces' : List Trace}

/-- The moved call is served in the moved arena. -/
theorem served_shift (ht : Tended s h gs) (hc : c.ByTheBook gs) :
    (c.shift d).Served (h.shift d) (top + d) ↔ c.Served h top := by
  have hfit : ∀ {k}, (h.shift d).fit? k = none ↔ h.fit? k = none := fun {k} => by
    rw [fit?_shift, Option.map_eq_none_iff]
  cases c with
  | malloc n => simp only [Call.shift, Call.Served, hfit, hasRoom_shift]
  | free p => exact Iff.rfl
  | realloc p n =>
      obtain ⟨g, hg, rfl⟩ := hc.2
      simp only [Call.shift, Call.Served, shiftPtr_of_ne (ht.ptr_ne_zero hg), stays_shift, hfit,
        hasRoom_shift]

/-- Moved grants hold as much. -/
theorem held_shift : held (gs.map (Grant.shift d)) = held gs := by
  simp only [held, List.map_map]
  rfl

namespace Replay.Moved

/-- The same request is the moved call. -/
theorem call (hm : Moved d n owned r r') (hfits : op.Fits n owned) :
    op.call r'.blocks = (op.call r.blocks).shift d := by
  have hptr : op.type ≠ .alloc →
      r'.blocks.getD op.index.toNat 0 = shiftPtr d (r.blocks.getD op.index.toNat 0) := fun htype =>
    congrArg Grant.ptr (hm.grantOf op.index (hfits.owned htype))
  cases htype : op.type with
  | alloc =>
      rw [Traceop.call, Traceop.call, htype]
      rfl
  | free =>
      rw [Traceop.call, Traceop.call, htype, hptr (by simp [htype])]
      rfl
  | realloc =>
      rw [Traceop.call, Traceop.call, htype, hptr (by simp [htype])]
      rfl

/-- **One request** leaves the second replay the first one, moved. -/
theorem step (hm : Moved d n owned r r') (ht : Tended s r.layout r.live)
    (ho : r.Owns n owned) (hfits : op.Fits n owned) :
    Moved d n (op.ownedAfter owned) (r.step op) (r'.step op) := by
  have hbook := ho.byTheBook hfits
  have happly := apply_shift (d := d) ht.valid hbook.legal ht.holds
  have hcall := hm.call hfits
  have hlayout := hm.layout
  have hlive := hm.live
  have howns := ho.step ht hfits
  refine ⟨hm.fills.step, ?_, ?_, fun j hj => ?_⟩
  · simp only [Replay.step, hcall, hlayout, happly]
  · simp only [Replay.step, hcall, hlayout, happly, hlive, update_shift]
  · have hj0 := (howns.grant j hj).1.1
    rw [ho.grantOf_step hfits hj0, hm.fills.grantOf_step hfits hj0, hcall, hlayout, happly]
    split_ifs with hnew
    · rfl
    · exact hm.grantOf j (Traceop.held_before hj hnew)

/-- **The passes agree**: the verdict is the same, if the arena is large enough the layout that
is left is the moved one, and if all requests are accepted the peak is the same. -/
theorem run (sc : Bool) (i : ℕ) (hm : Moved d n owned r r') (ht : Tended s r.layout r.live)
    (ho : r.Owns n owned) (hbal : Balanced n owned ops) :
    r'.verdict sc (s.memMaxAddr + d) i ops = r.verdict sc s.memMaxAddr i ops ∧
      (r.verdict sc s.memMaxAddr i ops ≠ .outOfMemory →
        (r'.judged sc ops).layout = (r.judged sc ops).layout.shift d) ∧
      (r.verdict sc s.memMaxAddr i ops = .accepted → r'.peak ops = r.peak ops) := by
  induction ops generalizing r r' owned s i with
  | nil =>
      refine ⟨rfl, fun _ => hm.layout, fun _ => ?_⟩
      rw [Replay.peak, Replay.peak, Replay.total, Replay.total, hm.live, held_shift]
  | cons op ops ih =>
      obtain ⟨hfits, hbal⟩ := hbal
      have hbook := ho.byTheBook hfits
      have hserve : (op.call r'.blocks).Served r'.layout (s.memMaxAddr + d) ↔
          (op.call r.blocks).Served r.layout s.memMaxAddr := by
        rw [hm.call hfits, hm.layout, served_shift ht hbook]
      have hstep := hm.step ht ho hfits
      rw [Replay.verdict, Replay.verdict, Replay.judged, Replay.judged]
      simp only [hserve]
      by_cases hserved : (op.call r.blocks).Served r.layout s.memMaxAddr
      · obtain ⟨s', -, ht', harena, -⟩ := ht.call hbook hserved
        have htop : s'.memMaxAddr = s.memMaxAddr := by
          rw [Machine.memMaxAddr, harena, Machine.memMaxAddr]
        obtain ⟨hverdict, hlayout, hpeak⟩ := ih (i + 1) hstep ht' (ho.step ht hfits) hbal
        rw [htop] at hverdict hlayout hpeak
        rw [if_neg (not_not.mpr hserved), if_neg (not_not.mpr hserved), hverdict]
        split_ifs with hread
        · exact ⟨rfl, fun _ => hstep.layout, fun h0 => by cases h0⟩
        · refine ⟨rfl, hlayout, fun hacc => ?_⟩
          rw [Replay.peak, Replay.peak, hpeak hacc, Replay.total, Replay.total, hm.live,
            held_shift]
      · rw [if_pos hserved, if_pos hserved]
        exact ⟨rfl, fun h0 => absurd rfl h0, fun h0 => by cases h0⟩

end Replay.Moved

/-- Two well-formed traces with the same requests, under the same number of indices. What their
arrays hold may differ. -/
structure Trace.Twins (trace trace' : Trace) : Prop where
  wellFormed : trace.WellFormed
  wellFormed' : trace'.WellFormed
  numIds : trace'.numIds = trace.numIds
  ops : trace'.ops = trace.ops

namespace Trace.Twins

/-- Either of the two is the twin of the other. -/
theorem symm (ht : Twins trace trace') : Twins trace' trace :=
  ⟨ht.wellFormed', ht.wellFormed, ht.numIds.symm, ht.ops.symm⟩

/-- The headers state the same number of requests. -/
theorem numOps (ht : Twins trace trace') : trace'.numOps = trace.numOps := by
  rw [ht.wellFormed'.numOps, ht.ops, ht.wellFormed.numOps]

/-- At the start the two replays differ by the offset. -/
theorem start_moved (ht : Twins trace trace') (lo d : ℕ) :
    Replay.Moved d trace.numIds ∅ (Replay.start lo trace) (Replay.start (lo + d) trace') :=
  ⟨⟨ht.wellFormed'.blocks.trans ht.numIds, ht.wellFormed'.blockSizes.trans ht.numIds⟩,
    initial_shift.symm, rfl, by simp⟩

/-- Two passes over the traces, on arenas `d` bytes apart. -/
theorem run (ht : Twins trace trace') (sc : Bool) (hbase : ar'.base = ar.base + d) :
    (Replay.start ar'.base trace').verdict sc (ar'.base + maxHeap) 0 trace.ops =
        (Replay.start ar.base trace).verdict sc (ar.base + maxHeap) 0 trace.ops ∧
      ((Replay.start ar.base trace).verdict sc (ar.base + maxHeap) 0 trace.ops ≠ .outOfMemory →
        ((Replay.start ar'.base trace').judged sc trace.ops).layout =
          ((Replay.start ar.base trace).judged sc trace.ops).layout.shift d) ∧
      ((Replay.start ar.base trace).verdict sc (ar.base + maxHeap) 0 trace.ops = .accepted →
        (Replay.start ar'.base trace').peak trace.ops =
          (Replay.start ar.base trace).peak trace.ops) := by
  obtain ⟨s, hs, -, htop⟩ := Tended.exists_initial ar
  have hlo : ar.base + d + maxHeap = ar.base + maxHeap + d := Nat.add_right_comm _ _ _
  have ho : (Replay.start ar.base trace).Owns trace.numIds ∅ :=
    ⟨⟨ht.wellFormed.blocks, ht.wellFormed.blockSizes⟩, by simp, by simp⟩
  have hrun := (ht.start_moved ar.base d).run sc 0 hs ho ht.wellFormed.balanced
  rw [htop] at hrun
  rw [hbase, hlo]
  exact hrun

/-- The outcome does not depend on the arena. -/
theorem outcome_shift (ht : Twins trace trace') (hbase : ar'.base = ar.base + d) :
    trace'.outcome sc ar' = trace.outcome sc ar := by
  obtain ⟨hverdict, hlayout, hpeak⟩ := ht.run sc hbase
  simp only [Trace.outcome, ht.ops, ht.numOps, hverdict]
  cases hv : (Replay.start ar.base trace).verdict sc (ar.base + maxHeap) 0 trace.ops with
  | accepted =>
      -- the layout that is left is that of the whole run
      have hlayout := hlayout (by rw [hv]; exact Verdict.noConfusion)
      rw [(Replay.judged_of_accepted hv).1, (Replay.judged_of_accepted (hverdict.trans hv)).1]
        at hlayout
      have hbrk : ((Replay.start ar'.base trace').run trace.ops).layout.brk =
          ((Replay.start ar.base trace).run trace.ops).layout.brk + d :=
        congrArg Layout.brk hlayout
      simp only [hbrk, hpeak hv]
      rw [hbase, Nat.add_sub_add_right]
  | lostData j => rfl
  | outOfMemory => rfl

/-- Nor does whether another trace may follow. -/
theorem restartable_shift (ht : Twins trace trace') (hbase : ar'.base = ar.base + d) :
    trace'.Restartable sc ar' ↔ trace.Restartable sc ar := by
  obtain ⟨-, hlayout, -⟩ := ht.run sc hbase
  rw [Restartable, Restartable, ht.outcome_shift hbase, ht.ops]
  refine imp_congr_right fun hsome => ?_
  have hserved : (Replay.start ar.base trace).verdict sc (ar.base + maxHeap) 0 trace.ops ≠
      .outOfMemory := fun hv => by simp [Trace.outcome, hv] at hsome
  rw [hlayout hserved, hbase, Layout.shift]
  cases ((Replay.start ar.base trace).judged sc trace.ops).layout.free with
  | nil => simp
  | cons p l =>
      simp only [List.map_cons, List.headD_cons]
      omega

/-- **Twins have the same outcome** on any two arenas, no matter which of these lies higher. -/
theorem outcome_eq (ht : Twins trace trace') (ar ar' : Arena) :
    trace'.outcome sc ar' = trace.outcome sc ar := by
  rcases Nat.le_total ar.base ar'.base with hle | hle
  · exact ht.outcome_shift (Nat.add_sub_of_le hle).symm
  · exact (ht.symm.outcome_shift (Nat.add_sub_of_le hle).symm).symm

/-- What may follow the one on its arena may follow the other. -/
theorem restartable_iff (ht : Twins trace trace') (ar ar' : Arena) :
    trace'.Restartable sc ar' ↔ trace.Restartable sc ar := by
  rcases Nat.le_total ar.base ar'.base with hle | hle
  · exact ht.restartable_shift (Nat.add_sub_of_le hle).symm
  · exact (ht.symm.restartable_shift (Nat.add_sub_of_le hle).symm).symm

end Trace.Twins

/-- What is known of all traces of a list is known of their twins on another arena. -/
theorem twins_outcomes (htwins : List.Forall₂ Trace.Twins traces traces')
    (hne : ∀ trace ∈ traces, trace.Restartable sc ar) (ar' : Arena) :
    (∀ trace ∈ traces, trace.WellFormed) ∧ (∀ trace ∈ traces', trace.WellFormed) ∧
      (∀ trace ∈ traces', trace.Restartable sc ar') ∧
      outcomes sc ar' traces' = outcomes sc ar traces := by
  induction htwins with
  | nil => simp [outcomes]
  | @cons trace trace' traces traces' ht _ ih =>
      obtain ⟨hne, hnes⟩ := List.forall_mem_cons.mp hne
      obtain ⟨hwfs, hwfs', hnes', houtcomes⟩ := ih hnes
      refine ⟨List.forall_mem_cons.mpr ⟨ht.wellFormed, hwfs⟩,
        List.forall_mem_cons.mpr ⟨ht.wellFormed', hwfs'⟩,
        List.forall_mem_cons.mpr ⟨(ht.restartable_iff ar ar').mpr hne, hnes'⟩, ?_⟩
      rw [outcomes, outcomes, ht.outcome_eq ar ar', houtcomes]

/-- **The place of the arena does not matter to the driver.** Two drivers on any two arenas,
with any contents, and from null or stale free lists on, record the same statistics for two
lists of files that spell the same storable, well-formed and restartable traces and count the
same errors, or both die at address 4. -/
theorem evalFiles_relocate {d d' : Driver} {lib lib' : Libc} {k k' : ℕ}
    {files files' : List (String × Option (List Char))}
    (hfiles : List.Forall₂ (Spells lib) traces files)
    (hfiles' : List.Forall₂ (Spells lib') traces' files')
    (htwins : List.Forall₂ Trace.Twins traces traces')
    (hne : ∀ trace ∈ traces, trace.Restartable sc d.machine.arena)
    (hf : Stale d.machine d.machine.freeList) (hf' : Stale d'.machine d'.machine.freeList) :
    ∃ o, EndsWith d (evalFiles mmPackage sc lib k files d) o ∧
      EndsWith d' (evalFiles mmPackage sc lib' k' files' d') o := by
  obtain ⟨hwf, hwf', hne', houtcomes⟩ := twins_outcomes htwins hne d'.machine.arena
  refine ⟨outcomes sc d.machine.arena traces, ?_, ?_⟩
  · rw [evalFiles_eq hfiles]
    exact evalTraces_outcomes hwf hne hf
  · rw [evalFiles_eq hfiles', ← houtcomes]
    exact evalTraces_outcomes hwf' hne' hf'

/-- The driver when the arena is further up and full of ones. -/
def upperDriver (trace : Trace) : Driver := ⟨memInit upperArena fun _ => 255, trace, [], 0, ""⟩

/-- A library whose new memory is full of ones, too. -/
def onesLibc : Libc := { sampleLibc with junk := fun _ => 2 ^ 32 - 1 }

/-- The trace as it is read with this library. -/
def onesTrace : Trace :=
  { plainTrace with blocks := [2 ^ 32 - 1], blockSizes := [2 ^ 32 - 1] }

/-- The results for the file of one trace, on zeroed memory and further up. -/
theorem evalFiles_relocate_plain : ∃ o,
    EndsWith (sampleDriver plainTrace) (evalFiles mmPackage true sampleLibc 0
      [("plain.rep", some plainTrace.print)] (sampleDriver plainTrace)) o ∧
    EndsWith (upperDriver plainTrace) (evalFiles mmPackage true onesLibc 7
      [("copy.rep", some plainTrace.print)] (upperDriver plainTrace)) o := by
  have hones : onesTrace.Storable onesLibc :=
    ⟨by decide, by decide, by decide, by decide, by decide, rfl, rfl, rfl, rfl, rfl⟩
  have htext : Text onesTrace.words plainTrace.print := Trace.text_print
  have htwins : List.Forall₂ Trace.Twins [plainTrace] [onesTrace] :=
    .cons ⟨⟨rfl, rfl, rfl, by decide⟩, ⟨rfl, rfl, rfl, by decide⟩, rfl, rfl⟩ .nil
  exact evalFiles_relocate (.cons ⟨plainTrace_storable, by decide, _, rfl, Trace.text_print⟩ .nil)
    (.cons ⟨hones, by decide, _, rfl, htext⟩ .nil) htwins
    (by decide) (Or.inl rfl) (Or.inl rfl)

end OsAndC
