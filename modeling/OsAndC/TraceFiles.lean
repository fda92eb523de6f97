import OsAndC.ReadTrace

/-!
# Trace Files

The format that `read_trace` reads. The words of a trace are the numbers of its header and,
for each request, a letter and one or two numbers. If the trace is `Storable`, every text with
these words is read as this trace (`readTrace_text`), whatever the white space is, and
`Trace.print` writes such a text, so reading undoes printing (`readTrace_print`).

With this the driver can be run on files: `evalFiles_outcomes` leads from the bytes of the
trace files to the statistics that `main` records, for traces that are restartable.
-/

namespace OsAndC

variable {lib : Libc} {path : String} {cap k n : ℕ} {z : ℤ} {cs rest : List Char}
  {ws : List (List Char)} {v : Reading} {op : Traceop} {ops : List Traceop} {trace : Trace}
  {d : Driver}

/-! ### The round trip -/

/-- The letter that stands for a request. -/
def Request.letter : Request → Char
  | .alloc => 'a'
  | .free => 'f'
  | .realloc => 'r'

/-- The words of a request line. -/
def Traceop.words (op : Traceop) : List (List Char) :=
  [op.type.letter] :: Nat.toDigits 10 (sizeT op.index) ::
    if op.type = .free then [] else [Nat.toDigits 10 (sizeT op.size)]

/-- The words of a trace file. -/
def Trace.words (trace : Trace) : List (List Char) :=
  Nat.toDigits 10 trace.suggHeapsize.toNat :: Nat.toDigits 10 trace.numIds.toNat ::
    Nat.toDigits 10 trace.numOps.toNat :: Nat.toDigits 10 trace.weight.toNat ::
      trace.ops.flatMap Traceop.words

/-- A trace that a file can contain: its numbers are those of its requests, and there is
memory for it. The arrays hold what new memory holds. -/
structure Trace.Storable (lib : Libc) (trace : Trace) : Prop where
  suggHeapsize : 0 ≤ trace.suggHeapsize ∧ trace.suggHeapsize < 2 ^ 31
  weight : 0 ≤ trace.weight ∧ trace.weight < 2 ^ 31
  numOps : trace.numOps = trace.ops.length ∧ trace.ops.length * 12 < 2 ^ 32
  numIds : trace.numIds = topIndex trace.ops + 1 ∧ trace.numIds < 2 ^ 30
  ops : ∀ op ∈ trace.ops, op.IsInt ∧ (op.type = .free → op.size = 0)
  blocks : trace.blocks = (List.range trace.numIds.toNat).map lib.junk
  blockSizes : trace.blockSizes = (List.range trace.numIds.toNat).map lib.junk
  room : lib.room 28 = true ∧ lib.room (trace.ops.length * 12) = true ∧
    lib.room (trace.numIds.toNat * 4) = true

/-- An `int` goes through a file as an `unsigned`. -/
theorem toInt_sizeT_eq (h : -2 ^ 31 ≤ z ∧ z < 2 ^ 31) : toInt (sizeT z) = z := by
  rw [toInt, sizeT]
  split_ifs <;> omega

/-- `%d` reads a number that is spelt out and stops behind it. -/
theorem scanD_text (hn : n < 2 ^ 31) (h : Text (Nat.toDigits 10 n :: ws) cs) :
    ∃ rest, scanD cs d = .ok (some (n : ℤ), rest) d ∧ Text ws rest := by
  obtain ⟨rest, hscan, -, hrest⟩ := h.scanNumeral
  refine ⟨rest, ?_, hrest⟩
  simp only [scanD, hscan]
  rw [if_pos (by omega)]
  rfl

/-- `%u` reads one, too, and stops at the white space behind it. -/
theorem scanU_text (hn : n < 2 ^ 32) (h : Text (Nat.toDigits 10 n :: ws) cs) :
    ∃ rest, scanU cs d = .ok (some n, rest) d ∧ AtGap rest ∧ Text ws rest := by
  obtain ⟨rest, hscan, hgap, hrest⟩ := h.scanNumeral
  refine ⟨rest, ?_, hgap, hrest⟩
  have hsize : sizeT n = n := by
    simp only [sizeT]
    omega
  simp only [scanU, hscan]
  rw [if_pos (by omega), hsize]
  rfl

/-- The two numbers of an `alloc` or a `realloc`. -/
theorem readRequest_text {type : Request} (hop : op.IsInt) (htype : op.type = type)
    (hne : type ≠ .free) (hlt : v.ops.length < cap) (hmax : v.maxIndex = topIndex v.ops)
    (h : Text (Nat.toDigits 10 (sizeT op.index) :: Nat.toDigits 10 (sizeT op.size) :: ws) cs) :
    ∃ v' rest, readRequest type cap v cs d = .ok (v', rest) d ∧ v'.ops = v.ops ++ [op] ∧
      v'.maxIndex = topIndex v'.ops ∧ Text ws rest := by
  obtain ⟨rest, hindex, -, hrest⟩ := scanU_text (d := d) sizeT_lt h
  obtain ⟨rest', hsize, -, hrest'⟩ := scanU_text (d := d) sizeT_lt hrest
  have hscan : scanUU v cs d =
      .ok ({ v with index := sizeT op.index, size := some (sizeT op.size) }, rest') d := by
    rw [scanUU, run_bind_ok hindex]
    simp only []
    rw [run_bind_ok hsize]
    rfl
  have hop' : (⟨type, toInt (sizeT op.index), toInt (sizeT op.size)⟩ : Traceop) = op := by
    rw [toInt_sizeT_eq hop.index, toInt_sizeT_eq hop.size, ← htype]
  refine ⟨{ v with
    index := sizeT op.index
    size := some (sizeT op.size)
    ops := v.ops ++ [op]
    maxIndex := topIndex (v.ops ++ [op]) }, rest', ?_, rfl, rfl, hrest'⟩
  have htop : topIndex (v.ops ++ [op]) =
      if sizeT op.index > v.maxIndex then sizeT op.index else v.maxIndex := by
    rw [topIndex_append, if_neg (htype ▸ hne), hmax]
    split_ifs <;> omega
  rw [readRequest, run_bind_ok hscan]
  simp only []
  rw [if_neg (not_not.mpr hlt), htop]
  simp only [initialised, pure_bind, hop']
  rfl

/-- The number of a `free`; the white space behind it is no `d`. -/
theorem readFree_text (hop : op.IsInt) (hsize : op.size = 0) (htype : op.type = .free)
    (hlt : v.ops.length < cap) (hmax : v.maxIndex = topIndex v.ops)
    (h : Text (Nat.toDigits 10 (sizeT op.index) :: ws) cs) :
    ∃ v' rest, readFree cap v cs d = .ok (v', rest) d ∧ v'.ops = v.ops ++ [op] ∧
      v'.maxIndex = topIndex v'.ops ∧ Text ws rest := by
  obtain ⟨rest, hindex, hgap, hrest⟩ := scanU_text (d := d) sizeT_lt h
  have hscan : scanUd v cs d = .ok ({ v with index := sizeT op.index }, rest) d := by
    have hletter : scanLetterD rest = rest := by
      rw [scanLetterD.eq_def]
      split
      · cases hgap 'd' rfl
      · rfl
    rw [scanUd, run_bind_ok hindex]
    simp only [hletter]
    rfl
  have hop' : (⟨.free, toInt (sizeT op.index), 0⟩ : Traceop) = op := by
    rw [toInt_sizeT_eq hop.index, ← hsize, ← htype]
  refine ⟨{ v with index := sizeT op.index, ops := v.ops ++ [op] }, rest, ?_, rfl, ?_, hrest⟩
  · rw [readFree, run_bind_ok hscan]
    simp only []
    rw [if_neg (not_not.mpr hlt), hop']
    rfl
  · rw [topIndex_append, if_pos htype]
    exact hmax

/-- **One request line** of a text. -/
theorem readLine_text (hop : op.IsInt) (hsize : op.type = .free → op.size = 0)
    (hlt : v.ops.length < cap) (hmax : v.maxIndex = topIndex v.ops)
    (h : Text (op.words ++ ws) cs) :
    ∃ v' rest rest', scanWord cs = some ([op.type.letter], rest) ∧
      readLine path cap [op.type.letter] v rest d = .ok (v', rest') d ∧
      v'.ops = v.ops ++ [op] ∧ v'.maxIndex = topIndex v'.ops ∧ Text ws rest' := by
  obtain ⟨rest, hword, hrest⟩ := h.scanWord
  have hlen : ¬ 1024 ≤ [op.type.letter].length := by simp
  cases htype : op.type with
  | alloc =>
      rw [htype] at hword hlen
      rw [if_neg (by simp [htype])] at hrest
      obtain ⟨v', rest', hrun, hv'⟩ :=
        readRequest_text (d := d) hop htype (by simp) hlt hmax hrest
      exact ⟨v', rest, rest', hword, hrun, hv'⟩
  | free =>
      rw [htype] at hword hlen
      rw [if_pos htype] at hrest
      obtain ⟨v', rest', hrun, hv'⟩ :=
        readFree_text (d := d) hop (hsize htype) htype hlt hmax hrest
      exact ⟨v', rest, rest', hword, hrun, hv'⟩
  | realloc =>
      rw [htype] at hword hlen
      rw [if_neg (by simp [htype])] at hrest
      obtain ⟨v', rest', hrun, hv'⟩ :=
        readRequest_text (d := d) hop htype (by simp) hlt hmax hrest
      exact ⟨v', rest, rest', hword, hrun, hv'⟩

/-- **All request lines** of a text. -/
theorem readLoop_text (hops : ∀ op ∈ ops, op.IsInt ∧ (op.type = .free → op.size = 0))
    (hlen : v.ops.length + ops.length ≤ cap) (hmax : v.maxIndex = topIndex v.ops)
    (hn : ops.length < n) (h : Text (ops.flatMap Traceop.words) cs) :
    ∃ v', readLoop path cap n v cs d = .ok v' d ∧ v'.ops = v.ops ++ ops ∧
      v'.maxIndex = topIndex v'.ops := by
  induction ops generalizing v cs n with
  | nil =>
      obtain ⟨n, rfl⟩ : ∃ l, n = l + 1 := Nat.exists_eq_add_one.mpr hn
      refine ⟨v, ?_, (List.append_nil _).symm, hmax⟩
      rw [readLoop, h.scanWord_nil]
      rfl
  | cons op ops ih =>
      obtain ⟨n, rfl⟩ : ∃ l, n = l + 1 := Nat.exists_eq_add_one.mpr (Nat.zero_lt_of_lt hn)
      obtain ⟨⟨hop, hsize⟩, hops⟩ := List.forall_mem_cons.mp hops
      simp only [List.length_cons] at hlen hn
      have hlt : v.ops.length < cap := by omega
      obtain ⟨v₁, rest, rest', hword, hrun, hv₁, hmax₁, hrest⟩ :
          ∃ v₁ rest rest', scanWord cs = some ([op.type.letter], rest) ∧
            readLine path cap [op.type.letter] v rest d = .ok (v₁, rest') d ∧
            v₁.ops = v.ops ++ [op] ∧ v₁.maxIndex = topIndex v₁.ops ∧
            Text (ops.flatMap Traceop.words) rest' :=
        readLine_text hop hsize hlt hmax h
      have hlen₁ : v₁.ops.length + ops.length ≤ cap := by
        rw [hv₁, List.length_append, List.length_singleton]
        omega
      obtain ⟨v', hloop, hv', hmax'⟩ := ih (n := n) hops hlen₁ hmax₁ (by omega) hrest
      refine ⟨v', ?_, by rw [hv', hv₁, List.append_assoc]; rfl, hmax'⟩
      rw [readLoop, hword]
      simp only []
      rw [run_bind_ok hrun]
      exact hloop

/-- An array there is memory for is as long as it was asked for. -/
theorem newArray_eq {size : ℕ} {msg : String} (hz : z = n) (hsize : 0 < size)
    (hsmall : n * size < 2 ^ 32) (hroom : lib.room (n * size) = true) :
    newArray lib z size msg d = .ok n d := by
  have hn : n < 2 ^ 32 := (Nat.le_mul_of_pos_right n hsize).trans_lt hsmall
  have hbytes : sizeT z * size % 2 ^ 32 = n * size := by
    have hnum : sizeT z = n := by
      rw [hz, sizeT]
      omega
    rw [hnum, Nat.mod_eq_of_lt hsmall]
  rw [newArray, hbytes, if_pos hroom, Nat.mul_div_cancel _ hsize]
  rfl

/-- Every request has a word. -/
theorem length_le_words : ops.length ≤ (ops.flatMap Traceop.words).length := by
  induction ops with
  | nil => exact le_rfl
  | cons op ops ih =>
      simp only [List.flatMap_cons, List.length_append, List.length_cons, Traceop.words]
      omega

/-- **The round trip.** Every text that spells a storable trace is read as this trace, whatever
the white space between the words is, if the path fits the buffer. -/
theorem readTrace_text (ht : trace.Storable lib) (hpath : path.length < 1024)
    (h : Text trace.words cs) : readTrace lib path (some cs) d = .ok trace d := by
  obtain ⟨hroom, hroomOps, hroomIds⟩ := ht.room
  obtain ⟨hnumOps, hsmall⟩ := ht.numOps
  obtain ⟨hnumIds, hids⟩ := ht.numIds
  have hsugg := ht.suggHeapsize
  have hweight := ht.weight
  obtain ⟨cs₁, h₁, ht₁⟩ := scanD_text (d := d) (by omega) h
  obtain ⟨cs₂, h₂, ht₂⟩ := scanD_text (d := d) (by omega) ht₁
  obtain ⟨cs₃, h₃, ht₃⟩ := scanD_text (d := d) (by omega) ht₂
  obtain ⟨cs₄, h₄, ht₄⟩ := scanD_text (d := d) (by omega) ht₃
  -- the arrays are as long as the header says
  have hcast : ∀ {z : ℤ}, 0 ≤ z → (z.toNat : ℤ) = z := Int.toNat_of_nonneg
  rw [hcast hsugg.1] at h₁
  rw [hcast (by omega)] at h₂ h₃
  rw [hcast hweight.1] at h₄
  have harray {msg} : newArray lib trace.numOps 12 msg d = .ok trace.ops.length d :=
    newArray_eq hnumOps (by simp) hsmall hroomOps
  have harray' {msg} : newArray lib trace.numIds 4 msg d = .ok trace.numIds.toNat d :=
    newArray_eq (hcast (by omega)).symm (by simp) (by omega) hroomIds
  have hrounds : trace.ops.length < cs₄.length + 1 := by
    have hwords : trace.ops.length ≤ (trace.ops.flatMap Traceop.words).length :=
      length_le_words
    have := ht₄.length_le
    omega
  obtain ⟨v, hloop, hv, hmax⟩ : ∃ v,
      readLoop path trace.ops.length (cs₄.length + 1) ⟨0, none, 0, []⟩ cs₄ d = .ok v d ∧
        v.ops = [] ++ trace.ops ∧ v.maxIndex = topIndex v.ops :=
    readLoop_text ht.ops (by simp) rfl hrounds ht₄
  have hlast : addInt trace.numIds (-1) d = .ok (trace.numIds - 1) d :=
    addInt_eq (by omega)
  have hassert : ¬ (v.maxIndex ≠ sizeT (trace.numIds - 1) ∨
      sizeT trace.numOps ≠ v.ops.length) := by
    rw [hmax, hv, List.nil_append]
    simp only [sizeT]
    omega
  simp only [readTrace]
  rw [if_neg (by simpa using hroom), if_neg (by omega), run_bind_ok h₁]
  simp only []
  rw [run_bind_ok h₂]
  simp only []
  rw [run_bind_ok h₃]
  simp only []
  rw [run_bind_ok h₄]
  simp only [initialised, pure_bind]
  rw [run_bind_ok harray, run_bind_ok harray', run_bind_ok harray', run_bind_ok hloop,
    run_bind_ok hlast, if_neg hassert, hv, List.nil_append]
  simp only [Option.getD_some, ← ht.blocks]
  exact congrArg (fun l => EStateM.Result.ok { trace with blockSizes := l } d)
    (ht.blocks.trans ht.blockSizes.symm)

/-! ### Writing trace files -/

/-- The words of a request line, each with the character behind it. -/
def Traceop.fields (op : Traceop) : List (List Char × Char) :=
  ([op.type.letter], ' ') ::
    if op.type = .free then [(Nat.toDigits 10 (sizeT op.index), '\n')]
    else [(Nat.toDigits 10 (sizeT op.index), ' '), (Nat.toDigits 10 (sizeT op.size), '\n')]

/-- The trace as a file: a line for each number of the header and for each request. -/
def Trace.print (trace : Trace) : List Char :=
  ((([trace.suggHeapsize, trace.numIds, trace.numOps, trace.weight].map fun z =>
      (Nat.toDigits 10 z.toNat, '\n')) ++ trace.ops.flatMap Traceop.fields).flatMap
    fun x => x.1 ++ [x.2])

/-- Without the characters behind them the words of the request. -/
theorem Traceop.fields_words : op.fields.map Prod.fst = op.words := by
  rw [fields, words]
  split_ifs <;> rfl

/-- The words are words, and the characters behind them white space. -/
theorem Traceop.word_fields : ∀ x ∈ op.fields, Word x.1 ∧ isBlank x.2 = true := by
  have hletter : Word [op.type.letter] := by
    refine ⟨by simp, fun c hc => ?_⟩
    rw [List.mem_singleton.mp hc]
    cases op.type <;> rfl
  rw [fields]
  split_ifs
  · simpa using ⟨⟨hletter, rfl⟩, word_toDigits, rfl⟩
  · simpa using ⟨⟨hletter, rfl⟩, ⟨word_toDigits, rfl⟩, word_toDigits, rfl⟩

/-- The file spells the trace. -/
theorem Trace.text_print : Text trace.words trace.print := by
  have htext := Text.fields (l := ([trace.suggHeapsize, trace.numIds, trace.numOps,
    trace.weight].map fun z => (Nat.toDigits 10 z.toNat, '\n')) ++
      trace.ops.flatMap Traceop.fields) fun x hx => by
    rcases List.mem_append.mp hx with hx | hx
    · obtain ⟨z, -, rfl⟩ := List.mem_map.mp hx
      exact ⟨word_toDigits, rfl⟩
    · obtain ⟨op, -, hx⟩ := List.mem_flatMap.mp hx
      exact Traceop.word_fields x hx
  have hops : (trace.ops.flatMap Traceop.fields).map Prod.fst =
      trace.ops.flatMap Traceop.words := by
    rw [List.map_flatMap]
    exact congrArg (trace.ops.flatMap ·) (funext fun op => Traceop.fields_words)
  rw [List.map_append, hops] at htext
  exact htext

/-- **Printing and reading.** A storable trace that is printed is read back, under any path
that fits the buffer, so two storable traces that are printed alike are the same. -/
theorem readTrace_print (ht : trace.Storable lib) (hpath : path.length < 1024) :
    readTrace lib path (some trace.print) d = .ok trace d ∧
      ∀ trace', trace'.Storable lib → trace'.print = trace.print → trace' = trace := by
  have hread := readTrace_text (d := d) ht hpath Trace.text_print
  refine ⟨hread, fun trace' ht' heq => ?_⟩
  have hread' := readTrace_text (d := d) ht' hpath Trace.text_print
  rw [heq, hread] at hread'
  injection hread' with htrace
  exact htrace.symm

instance (op : Traceop) : Decidable op.IsInt :=
  decidable_of_iff ((-2 ^ 31 ≤ op.index ∧ op.index < 2 ^ 31) ∧
    (-2 ^ 31 ≤ op.size ∧ op.size < 2 ^ 31)) ⟨fun h => ⟨h.1, h.2⟩, fun h => ⟨h.index, h.size⟩⟩

/-- The sample trace is storable. -/
theorem plainTrace_storable : plainTrace.Storable sampleLibc :=
  ⟨by decide, by decide, by decide, by decide, by decide, rfl, rfl, rfl, rfl, rfl⟩

/-- The file of the sample trace is read back. -/
theorem readTrace_print_plain :
    readTrace sampleLibc "plain.rep" (some "0\n1\n3\n1\na 0 8\nr 0 24\nf 0\n".toList)
      (sampleDriver plainTrace) = .ok plainTrace (sampleDriver plainTrace) :=
  (readTrace_print plainTrace_storable (by decide)).1

/-! ### The driver on files -/

/-- The file at a path, short enough for the buffer, spells the trace. -/
def Spells (lib : Libc) (trace : Trace) (file : String × Option (List Char)) : Prop :=
  trace.Storable lib ∧ file.1.length < 1024 ∧ ∃ cs, file.2 = some cs ∧ Text trace.words cs

variable {mm : Mm} {sc : Bool} {traces : List Trace} {files : List (String × Option (List Char))}

/-- Linked with any package, the driver does on files what it does on the traces they
spell. -/
theorem evalFiles_eq (hfiles : List.Forall₂ (Spells lib) traces files) :
    evalFiles mm sc lib k files d = evalTraces mm sc k traces d := by
  induction hfiles generalizing k d with
  | nil => rfl
  | @cons trace file traces files hspells _ ih =>
      obtain ⟨path, content⟩ := file
      obtain ⟨ht, hpath, cs, rfl, htext⟩ := hspells
      rw [evalFiles, evalTraces, run_bind_ok (readTrace_text ht hpath htext)]
      cases htrace : evalTrace mm sc k trace d with
      | error e d₁ => rw [run_bind_error htrace, run_bind_error htrace]
      | ok stats d₁ =>
          rw [run_bind_ok htrace, run_bind_ok htrace]
          cases hrest : evalTraces mm sc (k + 1) traces d₁ with
          | error e d₂ => rw [run_bind_error (ih.trans hrest), run_bind_error hrest]
          | ok stats' d₂ => rw [run_bind_ok (ih.trans hrest), run_bind_ok hrest]

/-- **From files to results.** For files that spell storable, well-formed and restartable
traces, and from a null or stale free list on, the driver linked with `mm.c` records for each
file the outcome of its trace and counts those that are not valid, or it dies at address 4 in
the first one the arena is too small for. -/
theorem evalFiles_outcomes (hfiles : List.Forall₂ (Spells lib) traces files)
    (hwf : ∀ trace ∈ traces, trace.WellFormed)
    (hne : ∀ trace ∈ traces, trace.Restartable sc d.machine.arena)
    (hf : Stale d.machine d.machine.freeList) :
    EndsWith d (evalFiles mmPackage sc lib k files d) (outcomes sc d.machine.arena traces) := by
  rw [evalFiles_eq hfiles]
  exact evalTraces_outcomes hwf hne hf

/-- The files of two traces, printed in different ways: the first is accepted, with a peak of
24 bytes in a heap of 4112, and the second is not. -/
theorem evalFiles_outcomes_signed :
    ∃ d', evalFiles mmPackage true sampleLibc 0 [("plain.rep", some plainTrace.print),
        ("signed.rep", some signedTrace.print)] (sampleDriver plainTrace) =
      .ok [⟨3, true, 24, 4112⟩, ⟨3, false, 0, 0⟩] d' ∧ d'.errors = 1 := by
  have hsigned : signedTrace.Storable sampleLibc :=
    ⟨by decide, by decide, by decide, by decide, by decide, rfl, rfl, rfl, rfl, rfl⟩
  have hfiles : List.Forall₂ (Spells sampleLibc) [plainTrace, signedTrace]
      [("plain.rep", some plainTrace.print), ("signed.rep", some signedTrace.print)] :=
    .cons ⟨plainTrace_storable, by decide, _, rfl, Trace.text_print⟩
      (.cons ⟨hsigned, by decide, _, rfl, Trace.text_print⟩ .nil)
  have hwf : ∀ trace ∈ [plainTrace, signedTrace], trace.WellFormed :=
    List.forall_mem_cons.mpr ⟨⟨rfl, rfl, rfl, by decide⟩,
      List.forall_mem_singleton.mpr ⟨rfl, rfl, rfl, by decide⟩⟩
  have hne : ∀ trace ∈ [plainTrace, signedTrace], trace.Restartable true sampleArena := by decide
  have hrun : EndsWith (sampleDriver plainTrace) (evalFiles mmPackage true sampleLibc 0
      [("plain.rep", some plainTrace.print), ("signed.rep", some signedTrace.print)]
      (sampleDriver plainTrace)) (outcomes true sampleArena [plainTrace, signedTrace]) :=
    evalFiles_outcomes hfiles hwf hne (Or.inl rfl)
  exact hrun

end OsAndC
