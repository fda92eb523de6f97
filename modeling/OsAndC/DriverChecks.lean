import OsAndC.Driver
import Mathlib.Order.CompletePartialOrder
import Mathlib.Order.Interval.Set.Disjoint

/-!
# What the Driver Checks, for any Package

The driver is there to judge packages that may be wrong, so these results are about every
`Mm` and every trace.

`errors_eq_count` accounts for the errors: of the traces that `main` runs, each that is not
valid has been reported once, and nothing else has been printed or counted. So
`errors == 0`, the condition for a performance index, says that every trace is valid.

`accepted_ranges` is what the test for overlaps in `add_range` is worth. The test looks at
the two ends of the new payload only, so a new payload may lie around an old one, and does
with the package `wrapping`; in every accepted run this is the only way for two recorded
payloads to meet.
-/

namespace OsAndC

/-! ### Intervals -/

/-- An interval with no end inside another one lies apart from it or around it. -/
theorem disjoint_or_around {α : Type*} [LinearOrder α] {a b c d : α} (hc : c ∉ Set.Icc a b)
    (hd : d ∉ Set.Icc a b) : Disjoint (Set.Icc c d) (Set.Icc a b) ∨ c < a ∧ b < d := by
  rcases lt_or_ge c a with hca | hac
  · rcases lt_or_ge b d with hbd | hdb
    · exact Or.inr ⟨hca, hbd⟩
    · have hda : d < a := lt_of_not_ge fun had => hd ⟨had, hdb⟩
      exact Or.inl (Set.disjoint_left.mpr fun x hx hx' => absurd (hx.2.trans_lt hda) hx'.1.not_gt)
  · have hbc : b < c := lt_of_not_ge fun hcb => hc ⟨hac, hcb⟩
    exact Or.inl (Set.disjoint_left.mpr fun x hx hx' => absurd (hx'.2.trans_lt hbc) hx.1.not_gt)

/-! ### Accounting for errors -/

/-- The program counts and prints nothing. -/
def Quiet {α : Type} (x : DriverM α) : Prop :=
  ∀ e o, Keeps (fun d => d.errors = e ∧ d.out = o) x fun _ => True

/-- The program returns false exactly when it has reported one error. -/
def Reports (tracenum : ℕ) (x : DriverM Bool) : Prop := ∀ d b d', x d = .ok b d' →
  if b then d'.errors = d.errors ∧ d'.out = d.out
  else d'.errors = d.errors + 1 ∧ ∃ opnum msg, d'.out = d.out ++ errorLine tracenum opnum msg

variable {α β : Type} {mm : Mm} {sc : Bool} {k i n p q : ℕ} {z : ℤ} {x : DriverM α}
  {f : α → DriverM β} {msg : String} {t : Totals}

namespace Quiet

/-- A value alone is quiet. -/
theorem pure {a : α} : Quiet (Pure.pure a : DriverM α) := fun _ _ => Keeps.pure trivial

/-- Quiet programs in sequence are quiet. -/
theorem bind (hx : Quiet x) (hf : ∀ a, Quiet (f a)) : Quiet (x >>= f) :=
  fun e o => (hx e o).bind fun a _ => hf a e o

/-- A branch between quiet programs is quiet. -/
theorem ite {c : Prop} [Decidable c] {y : DriverM α} (hx : Quiet x) (hy : Quiet y) :
    Quiet (if c then x else y) := fun e o => Keeps.ite (fun _ => hx e o) fun _ => hy e o

/-- Looking at the driver is quiet. -/
theorem read : Quiet (get : DriverM Driver) := by
  intro e o d a d' hd hrun
  cases hrun
  exact ⟨hd, trivial⟩

/-- So is a change that leaves the error count and the output alone. -/
theorem update {g : Driver → Driver} (hg : ∀ d, (g d).errors = d.errors ∧ (g d).out = d.out) :
    Quiet (modify g : DriverM Unit) := fun _ _ =>
  Keeps.update fun d hd => ⟨(hg d).1.trans hd.1, (hg d).2.trans hd.2⟩

/-- A program that stops does not return. -/
theorem fail {e : Stop} : Quiet (throw e : DriverM α) := by
  intro _ _ d a d' _ hrun
  cases hrun

/-- Only the machine changes in a call. -/
theorem callM {m : M α} : Quiet (callM m) := by
  intro e o d a d' hd hrun
  simp only [OsAndC.callM] at hrun
  cases hm : m d.machine with
  | ok b s =>
      rw [hm] at hrun
      cases hrun
      exact ⟨hd, trivial⟩
  | error b s =>
      rw [hm] at hrun
      cases hrun

/-- Taking a request of the trace is quiet. -/
theorem getOp : Quiet (getOp i) := by
  refine read.bind fun d => ?_
  cases d.trace.ops[i]? with
  | some op => exact pure
  | none => exact fail

/-- The bounds check of an index is quiet. -/
theorem position : Quiet (position z n) := ite pure fail

/-- Reading `blocks` is quiet. -/
theorem getBlock : Quiet (getBlock z) := read.bind fun _ => position.bind fun _ => pure

/-- Reading `block_sizes` is quiet. -/
theorem getBlockSize : Quiet (getBlockSize z) := read.bind fun _ => position.bind fun _ => pure

/-- Writing `blocks` is quiet. -/
theorem setBlock : Quiet (setBlock z p) :=
  read.bind fun _ => position.bind fun _ => update fun _ => ⟨rfl, rfl⟩

/-- Writing `block_sizes` is quiet. -/
theorem setBlockSize : Quiet (setBlockSize z p) :=
  read.bind fun _ => position.bind fun _ => update fun _ => ⟨rfl, rfl⟩

/-- `remove_range` is quiet. -/
theorem removeRange : Quiet (removeRange p) := update fun _ => ⟨rfl, rfl⟩

/-- `clear_ranges` is quiet. -/
theorem clearRanges : Quiet clearRanges := update fun _ => ⟨rfl, rfl⟩

/-- A sum of the utilization pass is quiet. -/
theorem addInt {z' : ℤ} : Quiet (addInt z z') := ite pure fail

/-- So is adding a size to the totals. -/
theorem count : Quiet (t.count z) := addInt.bind fun _ => pure

/-- `app_error` prints, but does not return. -/
theorem appError : Quiet (appError msg : DriverM α) := by
  intro e o d a d' _ hrun
  obtain ⟨_, _, -, hthrow⟩ := of_run_bind_ok hrun
  cases hthrow

end Quiet

namespace Reports

/-- A malloc error ends the pass. -/
theorem error : Reports k (do mallocError k i msg; return false) := by
  intro d b d' hrun
  cases hrun
  exact ⟨rfl, i, msg, rfl⟩

/-- Returning 1 reports nothing, and nothing is to be reported. -/
theorem pure : Reports k (return true) := by
  intro d b d' hrun
  cases hrun
  exact ⟨rfl, rfl⟩

/-- What is run before a test may be quiet. -/
theorem bind {g : α → DriverM Bool} (hx : Quiet x) (hg : ∀ a, Reports k (g a)) :
    Reports k (x >>= g) := by
  intro d b d' hrun
  obtain ⟨a, d₁, hx₁, hg₁⟩ := of_run_bind_ok hrun
  obtain ⟨⟨herr, hout⟩, -⟩ := hx d.errors d.out d a d₁ ⟨rfl, rfl⟩ hx₁
  have hrep := hg a d₁ b d' hg₁
  rwa [herr, hout] at hrep

/-- A branch between programs that report. -/
theorem ite {c : Prop} [Decidable c] {y z : DriverM Bool} (hy : Reports k y)
    (hz : Reports k z) : Reports k (if c then y else z) := by
  split_ifs
  · exact hy
  · exact hz

/-- A test that has reported its failure ends the pass without another report. -/
theorem test {y z : DriverM Bool} (hy : Reports k y) (hz : Reports k z) :
    Reports k (do if ← y then z else return false) := by
  intro d b d' hrun
  obtain ⟨c, d₁, hy₁, hz₁⟩ := of_run_bind_ok hrun
  have hrep := hy d c d₁ hy₁
  cases c with
  | true =>
      obtain ⟨herr, hout⟩ := hrep
      have hrep' := hz d₁ b d' hz₁
      rwa [herr, hout] at hrep'
  | false =>
      cases hz₁
      exact hrep

/-- `add_range` reports what it finds wrong. -/
theorem addRange : Reports k (addRange p z k i) := by
  refine .ite (fun d b d' hrun => by cases hrun) (.ite .error ?_)
  refine .bind .read fun _ => .bind .read fun _ => .ite .error (.bind .read fun d => ?_)
  cases d.ranges.find? fun r => r.Overlaps p (p + z.toNat - 1) with
  | some r => exact .error
  | none => exact .bind (.update fun _ => ⟨rfl, rfl⟩) fun _ => .pure

/-- One request of `eval_mm_valid` reports what it finds wrong. -/
theorem validRequest : Reports k (validRequest mm sc k i) := by
  refine .bind .getOp fun op => ?_
  obtain ⟨type, index, size⟩ := op
  cases type with
  | alloc =>
      refine .bind .callM fun p => .ite .error (.test .addRange ?_)
      exact .bind .callM fun _ => .bind .setBlock fun _ => .bind .setBlockSize fun _ => .pure
  | realloc =>
      refine .bind .getBlock fun oldp => .bind .callM fun newp => .ite .error ?_
      refine .bind .removeRange fun _ => .test .addRange (.bind .getBlockSize fun oldsize => ?_)
      refine .bind .callM fun kept => .ite ?_ .error
      exact .bind .callM fun _ => .bind .setBlock fun _ => .bind .setBlockSize fun _ => .pure
  | free =>
      exact .bind .getBlock fun _ => .bind .removeRange fun _ => .bind .callM fun _ => .pure

/-- The loop of `eval_mm_valid` reports the first error and ends. -/
theorem validLoop : Reports k (validLoop mm sc k n i) := by
  induction n generalizing i with
  | zero => exact .pure
  | succ n ih => exact .test .validRequest ih

/-- `eval_mm_valid` returns 0 exactly when it has reported one error. -/
theorem evalMmValid : Reports k (evalMmValid mm sc k) :=
  .bind .callM fun _ => .bind .clearRanges fun _ => .bind .callM fun _ =>
    .ite .error (.bind .read fun _ => .validLoop)

end Reports

namespace Quiet

/-- One request of `eval_mm_util` is quiet. -/
theorem utilRequest : Quiet (utilRequest mm i t) := by
  refine getOp.bind fun op => ?_
  obtain ⟨type, index, size⟩ := op
  cases type with
  | alloc =>
      exact callM.bind fun _ => ite appError (setBlock.bind fun _ => setBlockSize.bind fun _ =>
        count)
  | realloc =>
      refine getBlockSize.bind fun _ => getBlock.bind fun _ => callM.bind fun _ => ite appError ?_
      exact setBlock.bind fun _ => setBlockSize.bind fun _ => addInt.bind fun _ => count
  | free =>
      exact getBlockSize.bind fun _ => getBlock.bind fun _ => callM.bind fun _ =>
        addInt.bind fun _ => pure

/-- The loop of `eval_mm_util` is quiet. -/
theorem utilLoop : Quiet (utilLoop mm n i t) := by
  induction n generalizing i t with
  | zero => exact pure
  | succ n ih => exact utilRequest.bind fun _ => ih

/-- `eval_mm_util` is quiet. -/
theorem evalMmUtil : Quiet (evalMmUtil mm) :=
  callM.bind fun _ => callM.bind fun _ => ite appError <|
    read.bind fun _ => utilLoop.bind fun _ => read.bind fun _ => pure

/-- One request of `eval_mm_speed` is quiet. -/
theorem speedRequest : Quiet (speedRequest mm i) := by
  refine getOp.bind fun op => ?_
  obtain ⟨type, index, size⟩ := op
  cases type with
  | alloc => exact callM.bind fun _ => ite appError setBlock
  | realloc => exact getBlock.bind fun _ => callM.bind fun _ => ite appError setBlock
  | free => exact getBlock.bind fun _ => callM

/-- The loop of `eval_mm_speed` is quiet. -/
theorem speedLoop : Quiet (speedLoop mm n i) := by
  induction n generalizing i with
  | zero => exact pure
  | succ n ih => exact speedRequest.bind fun _ => ih

/-- `eval_mm_speed` is quiet. -/
theorem evalMmSpeed : Quiet (evalMmSpeed mm) :=
  callM.bind fun _ => callM.bind fun _ => ite appError <| read.bind fun _ => speedLoop

/-- Timing a quiet function is quiet. -/
theorem ftimerGettod {f : DriverM Unit} (hf : Quiet f) : Quiet (ftimerGettod f n) := by
  induction n with
  | zero => exact pure
  | succ n ih => exact hf.bind fun _ => ih

end Quiet

variable {d d' : Driver} {stats : List Stats} {trace : Trace} {traces : List Trace} {b : Bool}

/-- A trace that is not valid has been reported once; any other leaves no mark. -/
theorem evalTrace_errors {st : Stats} (hrun : evalTrace mm sc k trace d = .ok st d') :
    if st.valid then d'.errors = d.errors ∧ d'.out = d.out else d'.errors = d.errors + 1 := by
  obtain ⟨_, d₀, hset, hrun⟩ := of_run_bind_ok hrun
  cases hset
  obtain ⟨valid, d₁, hvalid, hrest⟩ := of_run_bind_ok hrun
  have hrep := Reports.evalMmValid _ _ _ hvalid
  cases valid with
  | true =>
      obtain ⟨util, d₂, hutil, hrest⟩ := of_run_bind_ok hrest
      obtain ⟨_, d₃, hspeed, hrest⟩ := of_run_bind_ok hrest
      obtain ⟨hd₂, -⟩ := Quiet.evalMmUtil _ _ _ _ _ hrep hutil
      obtain ⟨hd₃, -⟩ := Quiet.evalMmSpeed.ftimerGettod _ _ _ _ _ hd₂ hspeed
      cases hrest
      exact hd₃
  | false =>
      cases hrest
      exact hrep.1

/-- **Errors count the invalid traces.** Whatever the package is: when the loop of `main` is
through, as many errors have been added as traces are marked invalid, and if there are none
nothing has been printed. In particular the count is left alone, and a performance index is
printed, exactly when every trace is valid. -/
theorem errors_eq_count (hrun : evalTraces mm sc k traces d = .ok stats d') :
    stats.length = traces.length ∧
      d'.errors = d.errors + stats.countP (fun st => !st.valid) ∧
      (d'.errors = d.errors ↔ ∀ st ∈ stats, st.valid = true) ∧
      ((∀ st ∈ stats, st.valid = true) → d'.out = d.out) := by
  have hcount : stats.length = traces.length ∧
      d'.errors = d.errors + stats.countP (fun st => !st.valid) ∧
      ((∀ st ∈ stats, st.valid = true) → d'.out = d.out) := by
    induction traces generalizing k d stats with
    | nil =>
        cases hrun
        exact ⟨rfl, rfl, fun _ => rfl⟩
    | cons trace traces ih =>
        obtain ⟨st, d₁, htrace, hrest⟩ := of_run_bind_ok hrun
        obtain ⟨sts, d₂, htraces, hrest⟩ := of_run_bind_ok hrest
        cases hrest
        obtain ⟨hlen, herr, hout⟩ := ih htraces
        have hst := evalTrace_errors htrace
        refine ⟨congrArg (· + 1) hlen, ?_, fun hall => ?_⟩
        · rw [List.countP_cons, herr]
          cases hv : st.valid with
          | true =>
              rw [hv] at hst
              rw [hst.1]
              rfl
          | false =>
              rw [hv] at hst
              rw [show d₁.errors = d.errors + 1 from hst]
              exact Nat.add_right_comm _ _ _
        · rw [hall st List.mem_cons_self] at hst
          exact (hout fun st hst => hall st (List.mem_cons_of_mem _ hst)).trans hst.2
  obtain ⟨hlen, herr, hout⟩ := hcount
  refine ⟨hlen, herr, ?_, hout⟩
  have hzero : stats.countP (fun st => !st.valid) = 0 ↔ ∀ st ∈ stats, st.valid = true := by
    simp [List.countP_eq_zero]
  rw [← hzero, herr]
  exact Nat.add_eq_left

/-- A trace with the requests `ops`, before its arrays are written. -/
def sampleTrace (ids : ℕ) (ops : List Traceop) : Trace :=
  ⟨0, ids, ops.length, 1, ops, List.replicate ids 0, List.replicate ids 0⟩

/-- The driver when `mem_init` has got an arena at address 4096. -/
def sampleDriver (trace : Trace) : Driver := ⟨memInit sampleArena fun _ => 0, trace, [], 0, ""⟩

/-- The package of `mm.c` with an `mm_init` that fails. -/
def failing : Mm := { mmPackage with init := return -1 }

/-- Two traces, neither of which gets past the `mm_init` that fails. -/
theorem errors_eq_count_failing :
    ∃ stats d', evalTraces failing true 0 [sampleTrace 0 [], sampleTrace 1 [⟨.alloc, 0, 8⟩]]
        (sampleDriver (sampleTrace 0 [])) = .ok stats d' ∧
      stats.length = 2 ∧ d'.errors = 0 + stats.countP (fun st => !st.valid) ∧
      (d'.errors = 0 ↔ ∀ st ∈ stats, st.valid = true) ∧
      ((∀ st ∈ stats, st.valid = true) → d'.out = "") := by
  obtain ⟨stats, d', hrun⟩ : ∃ stats d',
      evalTraces failing true 0 [sampleTrace 0 [], sampleTrace 1 [⟨.alloc, 0, 8⟩]]
        (sampleDriver (sampleTrace 0 [])) = .ok stats d' := ⟨_, _, rfl⟩
  exact ⟨stats, d', hrun, errors_eq_count hrun⟩

/-! ### What the range list excludes -/

/-- Every recorded range is aligned and not empty, and no end of a range lies in one that was
recorded before it. -/
structure Checked (ranges : List RangeT) : Prop where
  aligned : ∀ r ∈ ranges, r.lo % 8 = 0 ∧ r.lo ≤ r.hi
  ends : ranges.Pairwise fun new old => ¬ old.Overlaps new.lo new.hi

/-- Fewer ranges pass the checks too. -/
theorem Checked.sublist {l l' : List RangeT} (h : Checked l) (hsub : l'.Sublist l) : Checked l' :=
  ⟨fun r hr => h.aligned r (hsub.mem hr), h.ends.sublist hsub⟩

/-- The range list as an invariant of the driver. -/
def KeepsChecked (x : DriverM α) : Prop := Keeps (fun d => Checked d.ranges) x fun _ => True

namespace KeepsChecked

/-- Programs in sequence keep the ranges checked. -/
theorem bind (hx : KeepsChecked x) (hf : ∀ a, KeepsChecked (f a)) : KeepsChecked (x >>= f) :=
  Keeps.bind hx fun a _ => hf a

/-- A value alone changes no range. -/
theorem pure {a : α} : KeepsChecked (Pure.pure a : DriverM α) := Keeps.pure trivial

/-- A branch between two programs that keep the ranges checked. -/
theorem ite {c : Prop} [Decidable c] {y : DriverM α} (hx : KeepsChecked x) (hy : KeepsChecked y) :
    KeepsChecked (if c then x else y) := Keeps.ite (fun _ => hx) fun _ => hy

/-- A program that leaves the range list alone. -/
theorem of_ranges (h : ∀ d a d', x d = .ok a d' → d'.ranges = d.ranges) : KeepsChecked x := by
  intro d a d' hd hrun
  have heq := h d a d' hrun
  exact ⟨show Checked d'.ranges by rwa [heq], trivial⟩

/-- A call of the package does not touch the ranges. -/
theorem callM {m : M α} : KeepsChecked (callM m) := of_ranges fun d a d' hrun => by
  simp only [OsAndC.callM] at hrun
  cases hm : m d.machine with
  | ok b s =>
      rw [hm] at hrun
      cases hrun
      rfl
  | error b s =>
      rw [hm] at hrun
      cases hrun

/-- Nor does taking a request of the trace. -/
theorem getOp : KeepsChecked (getOp i) := of_ranges fun d a d' hrun => by
  obtain ⟨_, _, hget, hrun⟩ := of_run_bind_ok hrun
  cases hget
  cases hop : d.trace.ops[i]? with
  | some op =>
      rw [hop] at hrun
      cases hrun
      rfl
  | none =>
      rw [hop] at hrun
      cases hrun

/-- Nor does the bounds check of an index. -/
theorem position : KeepsChecked (position z n) := of_ranges fun d a d' hrun => by
  simp only [OsAndC.position] at hrun
  split_ifs at hrun with h
  · cases hrun
    rfl
  · cases hrun

/-- Nor does looking at the driver. -/
theorem read : KeepsChecked (get : DriverM Driver) := of_ranges fun d a d' hrun => by
  cases hrun
  rfl

/-- A change of the driver that leaves the ranges checked. -/
theorem update {g : Driver → Driver} (hg : ∀ d, Checked d.ranges → Checked (g d).ranges) :
    KeepsChecked (modify g : DriverM Unit) := Keeps.update hg

/-- Reporting an error does not touch the ranges. -/
theorem error : KeepsChecked (do mallocError k i msg; return false) :=
  of_ranges fun d a d' hrun => by
    cases hrun
    rfl

/-- Nor does reading `blocks`. -/
theorem getBlock : KeepsChecked (getBlock z) := read.bind fun _ => position.bind fun _ => pure

/-- Nor does reading `block_sizes`. -/
theorem getBlockSize : KeepsChecked (getBlockSize z) :=
  read.bind fun _ => position.bind fun _ => pure

/-- Nor does writing `blocks`. -/
theorem setBlock : KeepsChecked (setBlock z p) :=
  read.bind fun _ => position.bind fun _ => update fun _ hd => hd

/-- Nor does writing `block_sizes`. -/
theorem setBlockSize : KeepsChecked (setBlockSize z p) :=
  read.bind fun _ => position.bind fun _ => update fun _ hd => hd

/-- `remove_range` only takes a range away. -/
theorem removeRange : KeepsChecked (removeRange p) :=
  update fun _ hd => hd.sublist List.eraseP_sublist

/-- The checks of `add_range` establish the invariant for the new record. -/
theorem addRange : KeepsChecked (addRange p z k i) := by
  intro d b d' hd hrun
  simp only [OsAndC.addRange] at hrun
  split_ifs at hrun with hz halign
  · cases hrun
  · obtain ⟨_, d₁, hget, hrun⟩ := of_run_bind_ok hrun
    cases hget
    obtain ⟨_, d₁, hget, hrun⟩ := of_run_bind_ok hrun
    cases hget
    split_ifs at hrun with hheap
    · exact error d b d' hd hrun
    · obtain ⟨_, d₁, hget, hrun⟩ := of_run_bind_ok hrun
      cases hget
      cases hfind : d.ranges.find? fun r => r.Overlaps p (p + z.toNat - 1) with
      | some r =>
          rw [hfind] at hrun
          exact error d b d' hd hrun
      | none =>
          rw [hfind] at hrun
          cases hrun
          rw [List.find?_eq_none] at hfind
          refine ⟨⟨fun r hr => ?_, List.pairwise_cons.mpr ⟨fun r hr => ?_, hd.ends⟩⟩, trivial⟩
          · rcases List.mem_cons.mp hr with rfl | hr
            · exact ⟨halign, show p ≤ p + z.toNat - 1 by omega⟩
            · exact hd.aligned r hr
          · simpa using hfind r hr
  · exact error d b d' hd hrun

/-- One request of `eval_mm_valid` records only ranges that have passed the checks. -/
theorem validRequest : KeepsChecked (validRequest mm sc k i) := by
  refine getOp.bind fun op => ?_
  obtain ⟨type, index, size⟩ := op
  cases type with
  | alloc =>
      refine callM.bind fun p => ite error (addRange.bind fun added => ite ?_ pure)
      exact callM.bind fun _ => setBlock.bind fun _ => setBlockSize.bind fun _ => pure
  | realloc =>
      refine getBlock.bind fun oldp => callM.bind fun newp => ite error ?_
      refine removeRange.bind fun _ => addRange.bind fun added => ite ?_ pure
      refine getBlockSize.bind fun oldsize => callM.bind fun kept => ite ?_ error
      exact callM.bind fun _ => setBlock.bind fun _ => setBlockSize.bind fun _ => pure
  | free => exact getBlock.bind fun _ => removeRange.bind fun _ => callM.bind fun _ => pure

/-- So does its loop. -/
theorem validLoop : KeepsChecked (validLoop mm sc k n i) := by
  induction n generalizing i with
  | zero => exact pure
  | succ n ih => exact validRequest.bind fun _ => ite ih pure

end KeepsChecked

/-- **What the overlap test excludes.** Whatever the package and the trace are: when
`eval_mm_valid` returns, every recorded payload is aligned and not empty, and of two of them
the one recorded later lies apart from the other or strictly around it. -/
theorem accepted_ranges (hrun : evalMmValid mm sc k d = .ok b d') :
    (∀ r ∈ d'.ranges, r.lo % 8 = 0 ∧ r.lo ≤ r.hi) ∧
      d'.ranges.Pairwise fun new old =>
        Disjoint (Set.Icc new.lo new.hi) (Set.Icc old.lo old.hi) ∨
          new.lo < old.lo ∧ old.hi < new.hi := by
  obtain ⟨_, d₁, -, hrun⟩ := of_run_bind_ok hrun
  obtain ⟨_, d₂, hclear, hrun⟩ := of_run_bind_ok hrun
  cases hclear
  have hnil : Checked [] := ⟨by simp, .nil⟩
  have hkeeps : KeepsChecked (do
      if (← callM mm.init) < 0 then
        mallocError k 0 "mm_init failed."
        return false
      else
        validLoop mm sc k (← get).trace.numOps.toNat 0) :=
    KeepsChecked.callM.bind fun _ => .ite .error (.bind .read fun _ => .validLoop)
  obtain ⟨⟨haligned, hends⟩, -⟩ := hkeeps _ _ _ hnil hrun
  refine ⟨haligned, hends.imp fun {new old} hnot => ?_⟩
  exact disjoint_or_around (fun hlo => hnot (Or.inl hlo)) fun hhi => hnot (Or.inr hhi)

/-- A package that hands out the payload of a large request around that of a small one. -/
def wrapping : Mm where
  init := do
    let _ ← memSbrk 4096
    return 0
  malloc n := return if n ≤ 8 then 4128 else 4104
  free _ := return ()
  realloc p _ := return p

/-- The driver accepts `wrapping`: the payload of 96 bytes at 4104 contains that of 8 bytes at
4128. -/
theorem accepted_ranges_wrapping :
    ∃ d', evalMmValid wrapping true 0
        (sampleDriver (sampleTrace 2 [⟨.alloc, 0, 8⟩, ⟨.alloc, 1, 96⟩])) = .ok true d' ∧
      d'.ranges = [⟨4104, 4199⟩, ⟨4128, 4135⟩] ∧
      (∀ r ∈ d'.ranges, r.lo % 8 = 0 ∧ r.lo ≤ r.hi) ∧
      d'.ranges.Pairwise fun new old =>
        Disjoint (Set.Icc new.lo new.hi) (Set.Icc old.lo old.hi) ∨
          new.lo < old.lo ∧ old.hi < new.hi := by
  obtain ⟨d', hrun, hranges⟩ : ∃ d', evalMmValid wrapping true 0
      (sampleDriver (sampleTrace 2 [⟨.alloc, 0, 8⟩, ⟨.alloc, 1, 96⟩])) = .ok true d' ∧
      d'.ranges = [⟨4104, 4199⟩, ⟨4128, 4135⟩] := ⟨_, rfl, rfl⟩
  exact ⟨d', hrun, hranges, accepted_ranges hrun⟩

end OsAndC
