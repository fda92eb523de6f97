import OsAndC.DriverChecks
import OsAndC.Follow

/-!
# The Validity Pass over the Package of `mm.c`

`eval_mm_valid` linked with `mm.c` carries out the replay of its trace: `evalMmValid_verdict`
says that on every well-formed trace, from any heap that can be started again, the pass ends
as `Replay.verdict` tells. It accepts the trace, and then the range list names the blocks
held and the pointers are those of the replay; or it reports that `mm_realloc` has lost data,
which is never true, for the comparison reads a byte of 128 or more as a negative `char`; or
the arena gets too small, and the process dies at address 4 before it can report anything.

`Judged` adds to `Sized` what the validity pass records: the ranges, and a payload filled with
the low byte of its index.
-/

namespace OsAndC

open Layout

/-! ### The bytes of a payload -/

variable {d : Driver} {s s' : Machine} {i j k p v : ℕ} {z : ℤ} {op : Traceop} {sc : Bool}
  {c : UInt8}

/-- `memset` in the heap goes through. -/
theorem memset_eq (h : s.InHeap p k) :
    memset p v k s = .ok () { s with mem := s.mem.fill p k (UInt8.ofNat v) } := by
  rw [memset, run_bind_ok (checked_inHeap h)]
  rfl

/-- And so does reading a byte. -/
theorem getByte_eq (h : s.InHeap p 1) : getByte p s = .ok (s.mem p) s := by
  rw [getByte, run_bind_ok (checked_inHeap h)]
  rfl

/-- `memset` changes the range it fills. -/
theorem Frame.fill (s : Machine) (p k : ℕ) (c : UInt8) :
    Frame (Set.Ico p (p + k)) s { s with mem := s.mem.fill p k c } :=
  ⟨rfl, rfl, rfl, rfl, rfl, fun _ ha => if_neg ha⟩

/-- The byte that stands for an index is read back as the index, unless it has the sign bit
and a `char` has a sign. -/
theorem charValue_lowByte :
    charValue sc (UInt8.ofNat (lowByte z)) = lowByte z ↔ ¬ (sc = true ∧ 128 ≤ lowByte z) := by
  have hlt : lowByte z < 256 := by
    simp only [lowByte]
    omega
  have hnat : (UInt8.ofNat (lowByte z)).toNat = lowByte z := UInt8.toNat_ofNat_of_lt' hlt
  cases sc with
  | false => simp [charValue, hnat]
  | true =>
      simp only [charValue, hnat, if_true, Int.bmod_def, true_and]
      omega

/-- The comparison after a `realloc`, on bytes that all stand for the index. -/
theorem dataKept_eq (hin : ∀ l, j ≤ l → l < j + k → s.InHeap (p + l) 1 ∧
      s.mem (p + l) = UInt8.ofNat (lowByte z)) :
    dataKept sc p z k j s = .ok (decide (¬ (sc = true ∧ 128 ≤ lowByte z) ∨ k = 0)) s := by
  induction k generalizing j with
  | zero => simp [dataKept, run_pure]
  | succ k ih =>
      obtain ⟨hheap, hbyte⟩ := hin j le_rfl (by omega)
      rw [dataKept, run_bind_ok (getByte_eq hheap), hbyte]
      by_cases hread : charValue sc (UInt8.ofNat (lowByte z)) = lowByte z
      · rw [if_neg (not_not.mpr hread), ih fun l h₁ h₂ => hin l (by omega) (by omega)]
        have hok := charValue_lowByte.mp hread
        rw [decide_eq_true (Or.inl hok), decide_eq_true (Or.inl hok)]
      · rw [if_pos hread, decide_eq_false (not_or.mpr ⟨fun hok => hread (charValue_lowByte.mpr hok),
          by omega⟩)]
        rfl

/-! ### The range list -/

/-- The record of a grant. -/
def Grant.toRange (g : Grant) : RangeT := ⟨g.ptr, g.ptr + g.size - 1⟩

/-- Removing the record that starts at `p` removes the grant at `p`. -/
theorem eraseP_toRange {gs : List Grant} (hnd : (gs.map Grant.ptr).Nodup) :
    (gs.map Grant.toRange).eraseP (fun r => r.lo = p) =
      (gs.filter fun g => g.ptr ≠ p).map Grant.toRange := by
  induction gs with
  | nil => rfl
  | cons g gs ih =>
      obtain ⟨hnot, hnd⟩ := List.nodup_cons.mp hnd
      have hlo : g.toRange.lo = g.ptr := rfl
      by_cases hp : g.ptr = p
      · have hrest : gs.filter (fun g => g.ptr ≠ p) = gs :=
          List.filter_eq_self.mpr fun g' hg' => decide_eq_true fun heq =>
            hnot (List.mem_map.mpr ⟨g', hg', heq.trans hp.symm⟩)
        rw [List.map_cons, List.eraseP_cons_of_pos (by simpa [hlo] using hp),
          List.filter_cons_of_neg (by simpa using hp), hrest]
      · rw [List.map_cons, List.eraseP_cons_of_neg (by simpa [hlo] using hp), ih hnd,
          List.filter_cons_of_pos (by simpa using hp), List.map_cons]

/-- A new grant passes the checks of `add_range`. -/
theorem addRange_eq {h : Layout} {gs : List Grant} {q : ℕ} (hz : 0 < z ∧ z < 2 ^ 31)
    (ht : Tended d.machine h (⟨q, sizeT z⟩ :: gs)) (hranges : d.ranges = gs.map Grant.toRange) :
    addRange q z k i d =
      .ok true { d with ranges := (⟨q, sizeT z⟩ :: gs).map Grant.toRange } := by
  obtain ⟨heq, hpos, -⟩ := sizeT_eq hz
  have hnat : z.toNat = sizeT z := by omega
  obtain ⟨h8, hlo, -, hhi⟩ : q % 8 = 0 ∧ d.machine.memHeapLo + 16 ≤ q ∧ 0 < sizeT z ∧
      q + sizeT z + 8 ≤ d.machine.memBrk := ht.bounds List.mem_cons_self
  have hfind : d.ranges.find? (fun r => r.Overlaps q (q + sizeT z - 1)) = none := by
    rw [hranges, List.find?_map, Option.map_eq_none_iff, List.find?_eq_none]
    intro g hg
    have hne : q ≠ g.ptr := fun heq =>
      (List.nodup_cons.mp ht.nodup).1 (List.mem_map.mpr ⟨g, hg, heq.symm⟩)
    have hgpos := (ht.bounds (List.mem_cons_of_mem _ hg)).2.2.1
    have hapart : q + sizeT z ≤ g.ptr ∨ g.ptr + g.size ≤ q :=
      ht.apart List.mem_cons_self (List.mem_cons_of_mem _ hg) hne
    simp only [Function.comp_apply, decide_eq_true_eq]
    simp only [RangeT.Overlaps, Grant.toRange]
    omega
  simp only [addRange, hnat]
  rw [if_neg (by omega), if_neg (not_not.mpr (show IsAligned q from h8)), run_get_bind,
    run_get_bind, if_neg (by simp only [Machine.memHeapHi]; omega), run_get_bind, hfind]
  change EStateM.Result.ok true { d with ranges := ⟨q, q + sizeT z - 1⟩ :: d.ranges } = _
  rw [hranges]
  rfl

/-! ### The simulation -/

/-- What the validity pass keeps in addition: a record for each grant, and in each payload
held the low byte of its index. -/
structure Judged (ar : Arena) (trace : Trace) (d : Driver) (r : Replay)
    (owned : Finset ℤ) : Prop extends Sized ar trace d r owned where
  ranges : d.ranges = r.live.map Grant.toRange
  filled : ∀ j ∈ owned, ∀ a ∈ (r.grantOf j).range,
    d.machine.mem a = UInt8.ofNat (lowByte j)

variable {ar : Arena} {trace : Trace} {r : Replay} {owned : Finset ℤ}

namespace Judged

/-- The assignments after a request for memory: the payload is filled, the arrays get the new
grant, and the ranges are those of the replay. -/
theorem assigned (hj : Judged ar trace d r owned) (hfits : op.Fits trace.numIds owned)
    (htype : op.type ≠ .free) (harena : s'.arena = ar)
    (ht' : Tended s' (r.step op).layout (r.step op).live)
    (hkeeps : ∀ j ∈ owned, j ≠ op.index → ∀ a ∈ (r.grantOf j).range,
      s'.mem a = d.machine.mem a) {d' : Driver}
    (hmachine : d'.machine = { s' with
      mem := s'.mem.fill ((op.call r.blocks).apply r.layout).2 (sizeT op.size)
        (UInt8.ofNat (lowByte op.index)) })
    (htrace : d'.trace = { d.trace with
      blocks := d.trace.blocks.set op.index.toNat ((op.call r.blocks).apply r.layout).2
      blockSizes := d.trace.blockSizes.set op.index.toNat (sizeT op.size) })
    (hranges : d'.ranges = (r.step op).live.map Grant.toRange) :
    Judged ar trace d' (r.step op) (op.ownedAfter owned) := by
  have hnew := hj.owns.mem_live hj.tended hfits htype
  have hblocks : (r.step op).blocks =
      r.blocks.set op.index.toNat ((op.call r.blocks).apply r.layout).2 := if_neg htype
  have hsizes : (r.step op).blockSizes = r.blockSizes.set op.index.toNat (sizeT op.size) :=
    if_neg htype
  have hframe := Frame.fill s' ((op.call r.blocks).apply r.layout).2 (sizeT op.size)
    (UInt8.ofNat (lowByte op.index))
  refine ⟨hj.toSized.assigned hfits htype ?_ ?_ htrace, hranges, fun j hjo a ha => ?_⟩
  · rw [hmachine]
    exact harena
  · rw [hmachine]
    exact ht'.write hnew hframe (fun a ha => ha) rfl
  · have hset : (r.step op).grantOf j =
        if j = op.index then ⟨((op.call r.blocks).apply r.layout).2, sizeT op.size⟩
        else r.grantOf j :=
      hj.owns.grantOf_set hfits.index ((hj.owns.step hj.tended hfits).grant j hjo).1.1 hblocks
        hsizes
    rw [hset] at ha
    rw [hmachine]
    by_cases hji : j = op.index
    · rw [if_pos hji] at ha
      rw [hji]
      exact if_pos ha
    · rw [if_neg hji] at ha
      have hjo' : j ∈ owned := (Traceop.mem_ownedAfter hjo).resolve_left hji
      have hout := hj.owns.apart_answer hj.tended ht' hfits htype hjo' hji ha
      exact (hframe.mem hout).trans ((hkeeps j hjo' hji a ha).trans (hj.filled j hjo' a ha))

/-- The driver after a request for memory has been answered with `q`, when the book is
`gs`. -/
def answered (d : Driver) (s' : Machine) (op : Traceop) (q : ℕ) (gs : List Grant) : Driver :=
  { d with
    machine := { s' with
      mem := s'.mem.fill q (sizeT op.size) (UInt8.ofNat (lowByte op.index)) }
    trace := { d.trace with
      blocks := d.trace.blocks.set op.index.toNat q
      blockSizes := d.trace.blockSizes.set op.index.toNat (sizeT op.size) }
    ranges := gs.map Grant.toRange }

/-- The last lines of a request for memory, which fill the new payload and record it. -/
theorem answer_eq {l : List RangeT} {q : ℕ} {gs : List Grant} (hheap : s'.InHeap q (sizeT op.size))
    (hb : 0 ≤ op.index ∧ op.index < (d.trace.blocks.length : ℤ))
    (hs : 0 ≤ op.index ∧ op.index < (d.trace.blockSizes.length : ℤ))
    (hl : l = gs.map Grant.toRange) :
    (do callM (memset q (lowByte op.index) (sizeT op.size))
        setBlock op.index q
        setBlockSize op.index (sizeT op.size)
        return true : DriverM Bool) { d with machine := s', ranges := l } =
      .ok true (answered d s' op q gs) := by
  rw [run_bind_ok (callM_ok (memset_eq hheap)), run_bind_ok (setBlock_eq (by exact hb)),
    run_bind_ok (setBlockSize_eq (by exact hs)), hl]
  rfl

/-- An `alloc` is answered. -/
theorem request_alloc (hj : Judged ar trace d r owned) (hop : trace.ops[i]? = some op)
    (hfits : op.Fits trace.numIds owned)
    (hserved : (op.call r.blocks).Served r.layout (ar.base + maxHeap)) (htype : op.type = .alloc) :
    ∃ d', validRequest mmPackage sc k i d = .ok true d' ∧
      Judged ar trace d' (r.step op) (op.ownedAfter owned) := by
  have hfree : op.type ≠ .free := by simp [htype]
  have hne := hj.apply_ne_zero hfits hfree
  obtain ⟨s', hrun, harena, ht', hkeeps, -⟩ := hj.call hfits hserved
  have hlive : (r.step op).live = _ := Traceop.call_update fun _ =>
    ⟨(sizeT_eq (hfits.size hfree)).2.1, hne⟩
  refine ⟨answered d s' op _ (r.step op).live, ?_,
    hj.assigned hfits hfree harena ht' hkeeps rfl rfl rfl⟩
  rw [Traceop.call_run, htype] at hrun
  rw [htype] at hlive
  rw [hlive] at ht' ⊢
  generalize ((op.call r.blocks).apply r.layout).2 = q at *
  have hmalloc : callM (mmPackage.malloc (sizeT op.size)) d = _ := callM_ok hrun
  have hadd := addRange_eq (d := { d with machine := s' }) (i := i) (k := k) (hfits.size hfree)
    ht' hj.ranges
  rw [validRequest, run_bind_ok (hj.getOp hop)]
  simp only [htype]
  rw [run_bind_ok hmalloc, if_neg hne, run_bind_ok hadd, if_pos rfl]
  exact answer_eq (ht'.inHeap List.mem_cons_self) (hj.blocks_index hfits)
    (hj.blockSizes_index hfits) rfl

/-- The record of a grant is taken off the list. -/
theorem removeRange_eq (hj : Judged ar trace d r owned) (s' : Machine) (p : ℕ) :
    removeRange p { d with machine := s' } = .ok () { d with
      machine := s'
      ranges := (r.live.filter fun g => g.ptr ≠ p).map Grant.toRange } := by
  rw [← eraseP_toRange hj.tended.nodup, ← hj.ranges]
  rfl

/-- The comparison after a `realloc` finds the bytes kept, unless it misreads them. -/
theorem compared {q : ℕ} (sc : Bool) (hj : Judged ar trace d r owned)
    (hfits : op.Fits trace.numIds owned)
    (htype : op.type = .realloc) (hheap : s'.InHeap q (sizeT op.size))
    (hdata : ∀ l, l < min (r.grantOf op.index).size (sizeT op.size) →
      s'.mem (q + l) = d.machine.mem ((r.grantOf op.index).ptr + l)) (ranges : List RangeT) :
    callM (dataKept sc q op.index (min (r.grantOf op.index).size (sizeT op.size)) 0)
        { d with machine := s', ranges := ranges } =
      .ok (decide (¬ op.Misread sc)) { d with machine := s', ranges := ranges } := by
  have hfree : op.type ≠ .free := by simp [htype]
  have halloc : op.type ≠ .alloc := by simp [htype]
  have hsize := hj.size_lt (hj.owns.grant _ (hfits.owned halloc)).2
  have hz := sizeT_eq (hfits.size hfree)
  refine callM_ok ((dataKept_eq fun l _ hl => ⟨⟨?_, ?_⟩, ?_⟩).trans ?_)
  · exact hheap.1.trans (Nat.le_add_right q l)
  · have hhi : q + sizeT op.size ≤ s'.memBrk := hheap.2
    change q + l + 1 ≤ s'.memBrk
    omega
  · rw [hdata l (by omega)]
    exact hj.filled _ (hfits.owned halloc) _ ⟨by omega, by omega⟩
  · have hpos : min (r.grantOf op.index).size (sizeT op.size) ≠ 0 := by omega
    simp [Traceop.Misread, htype, hpos]

/-- The comparison covers what both sizes have in common. -/
theorem smaller_size (hj : Judged ar trace d r owned) (hfits : op.Fits trace.numIds owned)
    (htype : op.type = .realloc) :
    (if op.size < toInt (r.grantOf op.index).size then op.size
      else toInt (r.grantOf op.index).size).toNat =
        min (r.grantOf op.index).size (sizeT op.size) := by
  have hsize := hj.size_lt (hj.owns.grant _ (hfits.owned (by simp [htype]))).2
  have hz := sizeT_eq (hfits.size (by simp [htype]))
  rw [toInt_eq hsize.2]
  split_ifs <;> omega

/-- A `realloc` comes to the comparison of the bytes kept, and no byte has been lost. -/
theorem request_realloc (hj : Judged ar trace d r owned) (hop : trace.ops[i]? = some op)
    (hfits : op.Fits trace.numIds owned)
    (hserved : (op.call r.blocks).Served r.layout (ar.base + maxHeap))
    (htype : op.type = .realloc) :
    ∃ s' q, s'.arena = ar ∧ Tended s' (r.step op).layout (r.step op).live ∧
      Judged ar trace (answered d s' op q (r.step op).live) (r.step op) owned ∧
      validRequest mmPackage sc k i d =
        if op.Misread sc then
          (do mallocError k i "mm_realloc did not preserve the data from old block"
              return false : DriverM Bool)
            { d with machine := s', ranges := (r.step op).live.map Grant.toRange }
        else .ok true (answered d s' op q (r.step op).live) := by
  have hfree : op.type ≠ .free := by simp [htype]
  have hne := hj.apply_ne_zero hfits hfree
  obtain ⟨s', hrun, harena, ht', hkeeps, hdata⟩ := hj.call hfits hserved
  have hlive : (r.step op).live = _ := Traceop.call_update fun _ =>
    ⟨(sizeT_eq (hfits.size hfree)).2.1, hne⟩
  have howned : op.ownedAfter owned = owned := by rw [Traceop.ownedAfter, htype]
  have hassigned : Judged ar trace (answered d s' op _ (r.step op).live) (r.step op)
      (op.ownedAfter owned) := hj.assigned hfits hfree harena ht' hkeeps rfl rfl rfl
  rw [howned] at hassigned
  rw [Traceop.call_run, htype] at hrun
  simp only [htype] at hlive
  rw [hlive] at ht'
  generalize ((op.call r.blocks).apply r.layout).2 = q at *
  refine ⟨s', q, harena, hlive ▸ ht', hassigned, ?_⟩
  have hrealloc : callM (mmPackage.realloc (r.blocks.getD op.index.toNat 0) (sizeT op.size)) d =
    _ := callM_ok hrun
  have hremove := hj.removeRange_eq s' (r.blocks.getD op.index.toNat 0)
  have hadd : addRange q op.size k i { d with
        machine := s'
        ranges := (r.live.filter fun g =>
          g.ptr ≠ r.blocks.getD op.index.toNat 0).map Grant.toRange } =
      .ok true { d with
        machine := s'
        ranges := (r.step op).live.map Grant.toRange } := by
    rw [hlive]
    exact addRange_eq (d := { d with machine := s', ranges := _ }) (hfits.size hfree) ht' rfl
  have hcount := hj.smaller_size hfits htype
  have hold : getBlockSize op.index { d with
        machine := s'
        ranges := (r.step op).live.map Grant.toRange } = _ := hj.getBlockSize hfits rfl
  have hheap := ht'.inHeap List.mem_cons_self
  have hkept := hj.compared sc hfits htype hheap (hdata htype)
    ((r.step op).live.map Grant.toRange)
  rw [validRequest, run_bind_ok (hj.getOp hop)]
  simp only [htype]
  rw [run_bind_ok (hj.getBlock hfits), run_bind_ok hrealloc, if_neg hne, run_bind_ok hremove,
    run_bind_ok hadd, if_pos rfl, run_bind_ok hold, hcount,
    run_bind_ok hkept]
  by_cases hread : op.Misread sc
  · rw [decide_eq_false (not_not.mpr hread), if_pos hread]
    rfl
  · rw [decide_eq_true hread, if_neg hread, if_pos rfl]
    exact answer_eq hheap (hj.blocks_index hfits) (hj.blockSizes_index hfits) rfl

/-- A `free` is carried out, and its record goes. -/
theorem request_free (hj : Judged ar trace d r owned) (hop : trace.ops[i]? = some op)
    (hfits : op.Fits trace.numIds owned)
    (hserved : (op.call r.blocks).Served r.layout (ar.base + maxHeap)) (htype : op.type = .free) :
    ∃ d', validRequest mmPackage sc k i d = .ok true d' ∧
      Judged ar trace d' (r.step op) (op.ownedAfter owned) := by
  obtain ⟨s', hrun, harena, ht', hkeeps, -⟩ := hj.call hfits hserved
  have hlive : (r.step op).live = _ := Traceop.call_update fun hfree => absurd htype hfree
  have howned : op.ownedAfter owned = owned.erase op.index := by rw [Traceop.ownedAfter, htype]
  have hblocks : (r.step op).blocks = r.blocks := if_pos htype
  have hsizes : (r.step op).blockSizes = r.blockSizes := if_pos htype
  have hgrant : ∀ j, (r.step op).grantOf j = r.grantOf j := fun j => by
    rw [Replay.grantOf, Replay.grantOf, hblocks, hsizes]
  simp only [htype] at hlive
  refine ⟨{ d with machine := s', ranges := (r.step op).live.map Grant.toRange }, ?_,
    ⟨hj.toSized.released hfits htype harena ht' rfl, rfl, fun j hjo a ha => ?_⟩⟩
  · have hremove : removeRange (r.blocks.getD op.index.toNat 0) d =
        .ok () { d with ranges := (r.step op).live.map Grant.toRange } := by
      rw [hlive]
      exact hj.removeRange_eq d.machine _
    rw [Traceop.call_run, htype] at hrun
    obtain ⟨u, s₁, hfree, hret⟩ := of_run_bind_ok hrun
    obtain rfl : s₁ = s' := by
      rw [run_pure] at hret
      injection hret
    have hfree' : callM (mmPackage.free (r.blocks.getD op.index.toNat 0))
        { d with ranges := (r.step op).live.map Grant.toRange } = _ := callM_ok hfree
    rw [validRequest, run_bind_ok (hj.getOp hop)]
    simp only [htype]
    rw [run_bind_ok (hj.getBlock hfits), run_bind_ok hremove, run_bind_ok hfree']
    rfl
  · rw [howned] at hjo
    obtain ⟨hne, hjo⟩ := Finset.mem_erase.mp hjo
    rw [hgrant] at ha
    exact (hkeeps j hjo hne a ha).trans (hj.filled j hjo a ha)

/-- **An accepted request** of the validity pass. -/
theorem request_ok (hj : Judged ar trace d r owned) (hop : trace.ops[i]? = some op)
    (hfits : op.Fits trace.numIds owned)
    (hserved : (op.call r.blocks).Served r.layout (ar.base + maxHeap))
    (hread : ¬ op.Misread sc) :
    ∃ d', validRequest mmPackage sc k i d = .ok true d' ∧
      Judged ar trace d' (r.step op) (op.ownedAfter owned) := by
  cases htype : op.type with
  | alloc => exact hj.request_alloc hop hfits hserved htype
  | free => exact hj.request_free hop hfits hserved htype
  | realloc =>
      obtain ⟨s', q, -, -, hj', hrun⟩ := hj.request_realloc hop hfits hserved htype
      rw [if_neg hread] at hrun
      have howned : op.ownedAfter owned = owned := by rw [Traceop.ownedAfter, htype]
      rw [howned]
      exact ⟨_, hrun, hj'⟩

/-- **A misread request**: the driver reports that data was lost. -/
theorem request_misread (hj : Judged ar trace d r owned) (hop : trace.ops[i]? = some op)
    (hfits : op.Fits trace.numIds owned)
    (hserved : (op.call r.blocks).Served r.layout (ar.base + maxHeap)) (hread : op.Misread sc) :
    ∃ d', validRequest mmPackage sc k i d = .ok false d' ∧ d'.machine.arena = ar ∧
      Tended d'.machine (r.step op).layout (r.step op).live ∧ d'.errors = d.errors + 1 ∧
      d'.out = d.out ++
        errorLine k i "mm_realloc did not preserve the data from old block" := by
  obtain ⟨s', q, harena, ht', -, hrun⟩ := hj.request_realloc hop hfits hserved hread.2.1
  rw [if_pos hread] at hrun
  exact ⟨_, hrun, harena, ht', rfl, rfl⟩

/-- **A request that is not served** stops the process. -/
theorem request_refused (hj : Judged ar trace d r owned) (hop : trace.ops[i]? = some op)
    (hfits : op.Fits trace.numIds owned)
    (hserved : ¬ (op.call r.blocks).Served r.layout (ar.base + maxHeap)) :
    ∃ d', validRequest mmPackage sc k i d = .error (.fault (.outside (.load 4 4))) d' := by
  obtain ⟨s', hrun⟩ := hj.call_refused hfits hserved
  rw [Traceop.call_run] at hrun
  rw [validRequest, run_bind_ok (hj.getOp hop)]
  cases htype : op.type with
  | alloc =>
      rw [htype] at hrun
      have hmalloc : callM (mmPackage.malloc (sizeT op.size)) d = _ := callM_error hrun
      exact ⟨_, run_bind_error hmalloc⟩
  | free =>
      rw [Traceop.call, htype] at hserved
      exact absurd trivial hserved
  | realloc =>
      rw [htype] at hrun
      have hrealloc : callM (mmPackage.realloc (r.blocks.getD op.index.toNat 0)
        (sizeT op.size)) d = _ := callM_error hrun
      exact ⟨_, (run_bind_ok (hj.getBlock hfits)).trans (run_bind_error hrealloc)⟩

end Judged

/-! ### The verdict -/

/-- The validity pass from `d` with the result `x` ends as the verdict tells, in the state of
the replay `r`: it accepts and prints nothing; it reports lost data; or it dies at
address 4. -/
def EndsAs (ar : Arena) (trace : Trace) (k : ℕ) (d : Driver) (r : Replay)
    (x : EStateM.Result Stop Driver Bool) : Verdict → Prop
  | .accepted => ∃ d' owned, x = .ok true d' ∧ Judged ar trace d' r owned ∧
      d'.errors = d.errors ∧ d'.out = d.out
  | .lostData i => ∃ d', x = .ok false d' ∧ d'.machine.arena = ar ∧
      Tended d'.machine r.layout r.live ∧ d'.errors = d.errors + 1 ∧
      d'.out = d.out ++ errorLine k i "mm_realloc did not preserve the data from old block"
  | .outOfMemory => ∃ d', x = .error (.fault (.outside (.load 4 4))) d'

/-- An accepted request before the pass does not change how it ends. -/
theorem EndsAs.after {d₁ : Driver} {x : EStateM.Result Stop Driver Bool} {w : Verdict}
    (herr : d₁.errors = d.errors) (hout : d₁.out = d.out) (h : EndsAs ar trace k d₁ r x w) :
    EndsAs ar trace k d r x w := by
  cases w with
  | accepted => rwa [EndsAs, herr, hout] at h
  | lostData i => rwa [EndsAs, herr, hout] at h
  | outOfMemory => exact h

/-- The loop of the validity pass. -/
theorem Judged.loop {pre ops : List Traceop} (hj : Judged ar trace d r owned)
    (hops : trace.ops = pre ++ ops) (hbal : Balanced trace.numIds owned ops) :
    EndsAs ar trace k d (r.judged sc ops) (validLoop mmPackage sc k ops.length pre.length d)
      (r.verdict sc (ar.base + maxHeap) pre.length ops) := by
  induction ops generalizing pre d r owned with
  | nil => exact ⟨d, owned, rfl, hj, rfl, rfl⟩
  | cons op ops ih =>
      obtain ⟨hfits, hbal⟩ := hbal
      have hop : trace.ops[pre.length]? = some op := by simp [hops]
      rw [List.length_cons, validLoop, Replay.verdict, Replay.judged]
      by_cases hserved : (op.call r.blocks).Served r.layout (ar.base + maxHeap)
      · rw [if_neg (not_not.mpr hserved)]
        by_cases hread : op.Misread sc
        · rw [if_pos hread, if_pos hread]
          obtain ⟨d₁, hrun, hrest⟩ := hj.request_misread (k := k) hop hfits hserved hread
          exact ⟨d₁, run_bind_ok hrun, hrest⟩
        · rw [if_neg hread, if_neg hread]
          obtain ⟨d₁, hrun, hj₁⟩ := hj.request_ok (k := k) hop hfits hserved hread
          obtain ⟨herr, hout⟩ : d₁.errors = d.errors ∧ d₁.out = d.out :=
            Reports.validRequest _ _ _ hrun
          have hrest := ih (hj₁) (show trace.ops = (pre ++ [op]) ++ ops by rw [hops]; simp) hbal
          rw [List.length_append, List.length_singleton] at hrest
          rw [run_bind_ok hrun, if_pos rfl]
          exact hrest.after herr hout
      · rw [if_pos hserved]
        obtain ⟨d₁, hrun⟩ := hj.request_refused (k := k) hop hfits hserved
        exact ⟨d₁, run_bind_error hrun⟩

/-- **The validity pass** over a well-formed trace, from any heap whose free list does not
start on the new epilogue, ends as the replay tells. -/
theorem evalMmValid_verdict (hwf : d.trace.WellFormed)
    (hf : Stale d.machine d.machine.freeList) :
    EndsAs d.machine.arena d.trace k d (d.replay.judged sc d.trace.ops)
      (evalMmValid mmPackage sc k d)
      (d.replay.verdict sc d.machine.memMaxAddr 0 d.trace.ops) := by
  obtain ⟨s₁, s₂, hreset, hinit, harena, ht⟩ := begin_pass hf
  have hclear : clearRanges { d with machine := s₁ } =
      .ok () { d with machine := s₁, ranges := [] } := rfl
  have hj : Judged d.machine.arena d.trace { d with machine := s₂, ranges := [] } d.replay ∅ :=
    ⟨.begin hwf harena ht, rfl, by simp⟩
  rw [evalMmValid, run_bind_ok hreset, run_bind_ok hclear, run_bind_ok (hinit []),
    if_neg (by simp), run_get_bind, hwf.numOps_toNat]
  exact .after rfl rfl (hj.loop (List.nil_append _).symm hwf.balanced)

/-- From such a heap `eval_mm_valid` accepts the trace if and only if this is the verdict of the
replay. -/
theorem evalMmValid_true_iff (hwf : d.trace.WellFormed)
    (hf : Stale d.machine d.machine.freeList) :
    (∃ d', evalMmValid mmPackage sc k d = .ok true d') ↔
      d.replay.verdict sc d.machine.memMaxAddr 0 d.trace.ops = .accepted := by
  have hends : EndsAs _ _ _ _ _ (evalMmValid mmPackage sc k d) _ := evalMmValid_verdict hwf hf
  cases hv : d.replay.verdict sc d.machine.memMaxAddr 0 d.trace.ops with
  | accepted =>
      rw [hv] at hends
      obtain ⟨d', -, hrun, -⟩ := hends
      exact ⟨fun _ => rfl, fun _ => ⟨d', hrun⟩⟩
  | lostData j =>
      rw [hv] at hends
      obtain ⟨d', hrun, -⟩ := hends
      simp [hrun]
  | outOfMemory =>
      rw [hv] at hends
      obtain ⟨d', hrun⟩ := hends
      simp [hrun]

/-- **What the driver accepts.** Linked with `mm.c`, and from any heap whose free list does not
start on the new epilogue, `eval_mm_valid` accepts a well-formed trace exactly when the arena
is large enough for every request and no `realloc` has an index whose low byte reads as a
negative `char`. -/
theorem evalMmValid_accepts_iff (hwf : d.trace.WellFormed)
    (hf : Stale d.machine d.machine.freeList) :
    (∃ d', evalMmValid mmPackage sc k d = .ok true d') ↔
      (∀ pre op post, d.trace.ops = pre ++ op :: post →
        (op.call (d.replay.run pre).blocks).Served (d.replay.run pre).layout
          d.machine.memMaxAddr) ∧
        ∀ op ∈ d.trace.ops, ¬ op.Misread sc := by
  rw [evalMmValid_true_iff hwf hf]
  exact Replay.verdict_accepted

/-- A trace that resizes the block under the index 0. -/
def plainTrace : Trace := sampleTrace 1 [⟨.alloc, 0, 8⟩, ⟨.realloc, 0, 24⟩, ⟨.free, 0, 0⟩]

/-- The same trace under the index 128, whose byte has the sign bit. -/
def signedTrace : Trace :=
  sampleTrace 129 [⟨.alloc, 128, 8⟩, ⟨.realloc, 128, 24⟩, ⟨.free, 128, 0⟩]

/-- Two traces that differ in the index only: the driver accepts the first and not the
second, although the package is correct. -/
theorem evalMmValid_accepts_signed :
    (∃ d', evalMmValid mmPackage true 0 (sampleDriver plainTrace) = .ok true d') ∧
      ¬ ∃ d', evalMmValid mmPackage true 0 (sampleDriver signedTrace) = .ok true d' := by
  constructor
  · have hacc : (sampleDriver plainTrace).replay.verdict true
        (sampleDriver plainTrace).machine.memMaxAddr 0 plainTrace.ops = .accepted := rfl
    exact (evalMmValid_accepts_iff ⟨rfl, rfl, rfl, by decide⟩ (Or.inl rfl)).mpr
      (Replay.verdict_accepted.mp hacc)
  · intro haccepts
    obtain ⟨-, hread⟩ :=
      (evalMmValid_accepts_iff ⟨rfl, rfl, rfl, by decide⟩ (Or.inl rfl)).mp haccepts
    exact hread ⟨.realloc, 128, 24⟩ (by decide) (by decide)

end OsAndC
