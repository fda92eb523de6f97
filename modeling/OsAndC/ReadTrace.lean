import OsAndC.DriverRun
import OsAndC.Scanf

/-!
# Reading Trace Files

A translation of `read_trace` of `mdriver.c` and of the loop of `main` over the trace files.
The file is a list of characters, which stand for bytes, and what `fscanf` returns is ignored
as in the source: a failing conversion stores nothing. `Libc` is what the function gets from
the C library.

`Reading.Sound` is the invariant of the loop over the request lines, and `readLoop_rounds`
says that the bound on its rounds is never met. `readTrace_wellFormed_iff` says what an
accepted file can still do wrong. The two assertions bound the indices of `alloc` and
`realloc`, so what is left is a size that is not positive and a request for a block that is
not held.
-/

namespace OsAndC

/-! ### The program -/

/-- The C library: whether `malloc` finds room for a number of bytes, what the words of new
memory hold, and the text `strerror` gives for an error. -/
structure Libc where
  room : ℕ → Bool
  junk : ℕ → ℕ
  strerror : String

/-- `unix_error`. -/
def unixError {α : Type} (lib : Libc) (msg : String) : DriverM α := do
  print (msg ++ ": " ++ lib.strerror ++ "\n")
  throw (.exit 1)

/-- `fscanf(tracefile, "%d", &x)`: the number stored, if there is one, and the rest of the
file. A number that is no `int` has no defined effect. -/
def scanD (cs : List Char) : DriverM (Option ℤ × List Char) :=
  match scanNumeral cs with
  | (some z, cs) => if -2 ^ 31 ≤ z ∧ z < 2 ^ 31 then return (some z, cs) else throw .overflow
  | (none, cs) => return (none, cs)

/-- `fscanf(tracefile, "%u", &x)`. A minus is allowed and counts down from 0. -/
def scanU (cs : List Char) : DriverM (Option ℕ × List Char) :=
  match scanNumeral cs with
  | (some z, cs) =>
      if -2 ^ 32 < z ∧ z < 2 ^ 32 then return (some (sizeT z), cs) else throw .overflow
  | (none, cs) => return (none, cs)

/-- The variables of the loop of `read_trace`; `size` has no value at first. The requests
stored are `trace->ops[0]` to `trace->ops[op_index - 1]`. -/
structure Reading where
  index : ℕ
  size : Option ℕ
  maxIndex : ℕ
  ops : List Traceop
  deriving DecidableEq, Repr

/-- `fscanf(tracefile, "%u %u", &index, &size)`. -/
def scanUU (v : Reading) (cs : List Char) : DriverM (Reading × List Char) := do
  match ← scanU cs with
  | (none, cs) => return (v, cs)
  | (some index, cs) =>
      let (size, cs) ← scanU cs
      return ({ v with index := index, size := size.or v.size }, cs)

/-- The `d` in a format, which is no part of a conversion. -/
def scanLetterD : List Char → List Char
  | 'd' :: cs => cs
  | cs => cs

/-- `fscanf(tracefile, "%ud", &index)`: a number, and a letter `d` if there is one. -/
def scanUd (v : Reading) (cs : List Char) : DriverM (Reading × List Char) := do
  match ← scanU cs with
  | (none, cs) => return (v, cs)
  | (some index, cs) => return ({ v with index := index }, scanLetterD cs)

/-- The value of a variable that must have got one. -/
def initialised {α : Type} : Option α → DriverM α
  | some a => return a
  | none => throw .uninitialised

/-- The cases `'a'` and `'r'`, which store into an array of `cap` entries. -/
def readRequest (type : Request) (cap : ℕ) (v : Reading) (cs : List Char) :
    DriverM (Reading × List Char) := do
  let (v, cs) ← scanUU v cs
  if ¬ v.ops.length < cap then
    throw .outOfBounds
  else
    let size ← initialised v.size
    return ({ v with
      ops := v.ops ++ [⟨type, toInt v.index, toInt size⟩]
      maxIndex := if v.index > v.maxIndex then v.index else v.maxIndex }, cs)

/-- The case `'f'`. The size in the array is not assigned, and nothing depends on it. -/
def readFree (cap : ℕ) (v : Reading) (cs : List Char) : DriverM (Reading × List Char) := do
  let (v, cs) ← scanUd v cs
  if ¬ v.ops.length < cap then
    throw .outOfBounds
  else
    return ({ v with ops := v.ops ++ [⟨.free, toInt v.index, 0⟩] }, cs)

/-- The `switch` on the first character of the type, which has been read into a buffer of
1024 characters. -/
def readLine (path : String) (cap : ℕ) (type : List Char) (v : Reading) (cs : List Char) :
    DriverM (Reading × List Char) :=
  if 1024 ≤ type.length then throw .outOfBounds
  else match type.headD '\x00' with
    | 'a' => readRequest .alloc cap v cs
    | 'r' => readRequest .realloc cap v cs
    | 'f' => readFree cap v cs
    | c => do
        print ("Bogus type character (" ++ String.singleton c ++ ") in tracefile " ++ path ++ "\n")
        throw (.exit 1)

/-- The loop over the request lines, which takes at least one character of the file in each
round; `n` bounds the number of rounds. -/
def readLoop (path : String) (cap : ℕ) : ℕ → Reading → List Char → DriverM Reading
  | 0, v, _ => return v
  | n + 1, v, cs =>
      match scanWord cs with
      | none => return v
      | some (type, cs) => do
          let (v, cs) ← readLine path cap type v cs
          readLoop path cap n v cs

/-- `malloc(num * size)`, which is computed as an `unsigned`: the number of entries. -/
def newArray (lib : Libc) (num : ℤ) (size : ℕ) (msg : String) : DriverM ℕ :=
  if lib.room (sizeT num * size % 2 ^ 32) then return sizeT num * size % 2 ^ 32 / size
  else unixError lib msg

/-- `read_trace`, where `file` is what can be read from the file at `path`. -/
def readTrace (lib : Libc) (path : String) (file : Option (List Char)) : DriverM Trace :=
  if ¬ lib.room 28 then unixError lib "malloc 1 failed in read_trance"
  else if 1024 ≤ path.length then throw .outOfBounds
  else match file with
    | none => unixError lib ("Could not open " ++ path ++ " in read_trace")
    | some cs => do
        let (suggHeapsize, cs) ← scanD cs
        let (numIds, cs) ← scanD cs
        let (numOps, cs) ← scanD cs
        let (weight, cs) ← scanD cs
        let numOps ← initialised numOps
        let cap ← newArray lib numOps 12 "malloc 2 failed in read_trace"
        let numIds ← initialised numIds
        let blocks ← newArray lib numIds 4 "malloc 3 failed in read_trace"
        let blockSizes ← newArray lib numIds 4 "malloc 4 failed in read_trace"
        let v ← readLoop path cap (cs.length + 1) ⟨0, none, 0, []⟩ cs
        let last ← addInt numIds (-1)
        if v.maxIndex ≠ sizeT last ∨ sizeT numOps ≠ v.ops.length then
          throw .assertion
        else
          return {
            suggHeapsize := suggHeapsize.getD 0
            numIds := numIds
            numOps := numOps
            weight := weight.getD 0
            ops := v.ops
            blocks := (List.range blocks).map lib.junk
            blockSizes := (List.range blockSizes).map lib.junk }

/-- The loop of `main` over the trace files, the first of which has number `i`: each with its
path and its content. -/
def evalFiles (mm : Mm) (signedChar : Bool) (lib : Libc) :
    ℕ → List (String × Option (List Char)) → DriverM (List Stats)
  | _, [] => return []
  | i, (path, file) :: files => do
      let trace ← readTrace lib path file
      let stats ← evalTrace mm signedChar i trace
      return stats :: (← evalFiles mm signedChar lib (i + 1) files)

/-! ### What an accepted file guarantees -/

/-- The largest index of an `alloc` or a `realloc`, as an `unsigned`. -/
def topIndex (ops : List Traceop) : ℕ :=
  ops.foldl (fun m op => if op.type = .free then m else max m (sizeT op.index)) 0

/-- Both numbers are of type `int`. -/
structure Traceop.IsInt (op : Traceop) : Prop where
  index : -2 ^ 31 ≤ op.index ∧ op.index < 2 ^ 31
  size : -2 ^ 31 ≤ op.size ∧ op.size < 2 ^ 31

/-- The variables of the loop, with room for `cap` requests. -/
structure Reading.Sound (cap : ℕ) (v : Reading) : Prop where
  index : v.index < 2 ^ 32
  size : ∀ n ∈ v.size, n < 2 ^ 32
  length : v.ops.length ≤ cap
  maxIndex : v.maxIndex = topIndex v.ops
  isInt : ∀ op ∈ v.ops, op.IsInt

/-- The program leaves the driver as it is, and its result satisfies `Q`. -/
def Reads {α : Type} (x : DriverM α) (Q : α → Prop) : Prop := ∀ d₀, Keeps (fun d => d = d₀) x Q

variable {α β : Type} {x : DriverM α} {f : α → DriverM β} {P : α → Prop} {Q : β → Prop}
  {lib : Libc} {path : String} {cap i j k n : ℕ} {z : ℤ} {cs rest w : List Char}
  {ws : List (List Char)} {v : Reading} {op : Traceop} {ops : List Traceop} {trace : Trace}
  {d d' : Driver}

namespace Reads

/-- A value that satisfies the property. -/
theorem pure {a : α} (h : P a) : Reads (Pure.pure a : DriverM α) P := fun _ => Keeps.pure h

/-- One step and then the next, which may rely on what the first has read. -/
theorem bind (hx : Reads x P) (hf : ∀ a, P a → Reads (f a) Q) : Reads (x >>= f) Q :=
  fun d₀ => (hx d₀).bind fun a ha => hf a ha d₀

/-- Whichever branch is taken, what decided it is known there. -/
theorem ite {c : Prop} [Decidable c] {y : DriverM α} (hx : c → Reads x P) (hy : ¬ c → Reads y P) :
    Reads (if c then x else y) P := fun d₀ => Keeps.ite (fun h => hx h d₀) fun h => hy h d₀

/-- A program that never returns. -/
theorem fail (hx : ∀ d a d', x d ≠ .ok a d') : Reads x P :=
  fun _ d a d' _ hrun => absurd hrun (hx d a d')

/-- A step that stops reads nothing. -/
theorem throw {e : Stop} : Reads (throw e : DriverM α) P := .fail fun d a d' hrun => by cases hrun

end Reads

/-- A `size_t` has 32 bits. -/
theorem sizeT_lt : sizeT z < 2 ^ 32 := by
  simp only [sizeT]
  omega

/-- And an `int` has them too. -/
theorem toInt_isInt (h : n < 2 ^ 32) : -2 ^ 31 ≤ toInt n ∧ toInt n < 2 ^ 31 := by
  rw [toInt]
  split_ifs <;> omega

/-- The conversion to `int` and back. -/
theorem sizeT_toInt (h : n < 2 ^ 32) : sizeT (toInt n) = n := by
  rw [toInt, sizeT]
  split_ifs <;> omega

/-- A further line counts for the largest index unless it is a free. -/
theorem topIndex_append : topIndex (ops ++ [op]) =
    if op.type = .free then topIndex ops else max (topIndex ops) (sizeT op.index) := by
  rw [topIndex, List.foldl_append]
  rfl

/-- Reading a sign takes no characters back. -/
theorem scanSign_length : (scanSign cs).2.length ≤ cs.length := by
  rw [scanSign.eq_def]
  split <;> simp

/-- Nor does passing over the letters of a length modifier. -/
theorem scanLetterD_length : (scanLetterD cs).length ≤ cs.length := by
  rw [scanLetterD.eq_def]
  split <;> simp

/-- A conversion takes no character it does not have. -/
theorem scanNumeral_length : (scanNumeral cs).2.length ≤ cs.length :=
  calc (scanNumeral cs).2.length
      ≤ (scanSign (skipSpace cs)).2.length := List.length_dropWhile_le _ _
    _ ≤ (skipSpace cs).length := scanSign_length
    _ ≤ cs.length := List.length_dropWhile_le _ _

/-- A word has a character. -/
theorem scanWord_length (h : scanWord cs = some (w, rest)) : rest.length < cs.length := by
  rw [scanWord] at h
  split_ifs at h with hnil
  obtain ⟨rfl, rfl⟩ := Prod.mk.inj (Option.some.inj h)
  obtain ⟨c, l, hc⟩ := List.exists_cons_of_ne_nil hnil
  have hblank : isBlank c = false := by
    have := List.head?_dropWhile_not isBlank cs
    rw [show cs.dropWhile isBlank = c :: l from hc] at this
    simpa using this
  have hle : (skipSpace cs).length ≤ cs.length := List.length_dropWhile_le _ _
  rw [hc] at hle ⊢
  rw [List.dropWhile_cons_of_pos (by simp [hblank])]
  have := List.length_dropWhile_le (!isBlank ·) l
  simp only [List.length_cons] at hle
  omega

/-- What `%d` reads is an `int`. -/
theorem scanD_reads : Reads (scanD cs) fun p => ∀ z ∈ p.1, -2 ^ 31 ≤ z ∧ z < 2 ^ 31 := by
  rw [scanD.eq_def]
  split
  · refine .ite (fun h => .pure ?_) fun _ => .throw
    rintro z ⟨rfl⟩
    exact h
  · exact .pure (by simp)

/-- What `%u` reads has 32 bits. -/
theorem scanU_reads : Reads (scanU cs) fun p =>
    (∀ n ∈ p.1, n < 2 ^ 32) ∧ p.2.length ≤ cs.length := by
  have hlen : (scanNumeral cs).2.length ≤ cs.length := scanNumeral_length
  rw [scanU.eq_def]
  split
  · next z rest heq =>
      rw [heq] at hlen
      refine .ite (fun h => .pure ⟨?_, hlen⟩) fun _ => .throw
      rintro n ⟨rfl⟩
      exact sizeT_lt
  · next rest heq =>
      rw [heq] at hlen
      exact .pure ⟨by simp, hlen⟩

namespace Reading.Sound

/-- Scanning changes two variables. -/
theorem scanned {index : ℕ} {size : Option ℕ} (hv : v.Sound cap) (hi : index < 2 ^ 32)
    (hs : ∀ n ∈ size, n < 2 ^ 32) : ({ v with index := index, size := size } : Reading).Sound cap :=
  ⟨hi, hs, hv.length, hv.maxIndex, hv.isInt⟩

/-- A request is stored. -/
theorem stored (hv : v.Sound cap) (hlt : v.ops.length < cap) (hop : op.IsInt)
    (hmax : n = topIndex (v.ops ++ [op])) :
    ({ v with ops := v.ops ++ [op], maxIndex := n } : Reading).Sound cap := by
  refine ⟨hv.index, hv.size, ?_, hmax, fun op' hop' => ?_⟩
  · simp only [List.length_append, List.length_singleton]
    omega
  · rcases List.mem_append.mp hop' with hold | hnew
    · exact hv.isInt op' hold
    · rw [List.mem_singleton.mp hnew]
      exact hop

/-- Both numbers of a request, wherever the first of them stops. -/
theorem scanUU (hv : v.Sound cap) : Reads (scanUU v cs) fun p =>
    (p.1.Sound cap ∧ p.1.ops = v.ops) ∧ p.2.length ≤ cs.length := by
  refine scanU_reads.bind fun ⟨index, rest⟩ ⟨hindex, hlen⟩ => ?_
  cases index with
  | none => exact .pure ⟨⟨hv, rfl⟩, hlen⟩
  | some index =>
      refine scanU_reads.bind fun ⟨size, rest'⟩ ⟨hsize, hlen'⟩ =>
        .pure ⟨⟨hv.scanned (hindex index rfl) ?_, rfl⟩, hlen'.trans hlen⟩
      cases size with
      | none => exact hv.size
      | some size => exact hsize

/-- An index and a size that may be read as negative. -/
theorem scanUd (hv : v.Sound cap) : Reads (scanUd v cs) fun p =>
    (p.1.Sound cap ∧ p.1.ops = v.ops) ∧ p.2.length ≤ cs.length := by
  refine scanU_reads.bind fun ⟨index, rest⟩ ⟨hindex, hlen⟩ => ?_
  cases index with
  | none => exact .pure ⟨⟨hv, rfl⟩, hlen⟩
  | some index =>
      exact .pure ⟨⟨hv.scanned (hindex index rfl) hv.size, rfl⟩, scanLetterD_length.trans hlen⟩

/-- A line `a` or `r` leaves the buffers sound, whether it can be read or not. -/
theorem readRequest {type : Request} (hv : v.Sound cap) (htype : type ≠ .free) :
    Reads (readRequest type cap v cs) fun p => p.1.Sound cap ∧ p.2.length ≤ cs.length := by
  refine hv.scanUU.bind fun ⟨v', rest⟩ ⟨⟨hv', _⟩, hlen⟩ => .ite (fun _ => .throw) fun hlt => ?_
  rw [not_not] at hlt
  have hsize : Reads (initialised v'.size) fun n => n < 2 ^ 32 := by
    cases hs : v'.size with
    | none => exact .throw
    | some n => exact .pure (hv'.size n hs)
  refine hsize.bind fun size hsize => .pure ⟨?_, hlen⟩
  refine hv'.stored hlt ⟨toInt_isInt hv'.index, toInt_isInt hsize⟩ ?_
  have hmax : (if v'.index > v'.maxIndex then v'.index else v'.maxIndex) =
      max v'.maxIndex v'.index := by
    split_ifs <;> omega
  rw [topIndex_append, if_neg htype, sizeT_toInt hv'.index, ← hv'.maxIndex]
  exact hmax

/-- And so does a line `f`. -/
theorem readFree (hv : v.Sound cap) :
    Reads (readFree cap v cs) fun p => p.1.Sound cap ∧ p.2.length ≤ cs.length := by
  refine hv.scanUd.bind fun ⟨v', rest⟩ ⟨⟨hv', _⟩, hlen⟩ => .ite (fun _ => .throw) fun hlt => ?_
  rw [not_not] at hlt
  refine .pure ⟨hv'.stored hlt ⟨toInt_isInt hv'.index, by simp⟩ ?_, hlen⟩
  rw [topIndex_append, if_pos rfl, hv'.maxIndex]

/-- **One request line** keeps the variables sound. -/
theorem readLine (hv : v.Sound cap) :
    Reads (readLine path cap w v cs) fun p => p.1.Sound cap ∧ p.2.length ≤ cs.length := by
  refine .ite (fun _ => .throw) fun _ => ?_
  split
  · exact hv.readRequest (by simp)
  · exact hv.readRequest (by simp)
  · exact hv.readFree
  · refine .fail fun d a d' hrun => ?_
    obtain ⟨_, _, -, hthrow⟩ := of_run_bind_ok hrun
    cases hthrow

/-- **All request lines** do. -/
theorem readLoop (hv : v.Sound cap) : Reads (readLoop path cap n v cs) (Reading.Sound cap) := by
  induction n generalizing v cs with
  | zero => exact .pure hv
  | succ n ih =>
      rw [OsAndC.readLoop]
      split
      · exact .pure hv
      · exact hv.readLine.bind fun p hp => ih hp.1

end Reading.Sound

/-- **The number of rounds** does not matter when it is larger than the number of characters
left. -/
theorem readLoop_rounds (hv : v.Sound cap) (hi : cs.length < i) (hj : cs.length < j) :
    readLoop path cap i v cs d = readLoop path cap j v cs d := by
  induction i generalizing j v cs d with
  | zero => exact absurd hi (Nat.not_lt_zero _)
  | succ i ih =>
      obtain ⟨j, rfl⟩ : ∃ l, j = l + 1 := Nat.exists_eq_add_one.mpr (Nat.zero_lt_of_lt hj)
      rw [readLoop, readLoop]
      cases hword : scanWord cs with
      | none => rfl
      | some p =>
          obtain ⟨type, rest⟩ := p
          have hlt := scanWord_length hword
          simp only []
          cases hline : readLine path cap type v rest d with
          | error e d₁ => rw [run_bind_error hline, run_bind_error hline]
          | ok p d₁ =>
              obtain ⟨-, hv', hlen⟩ := hv.readLine d d p d₁ rfl hline
              rw [run_bind_ok hline, run_bind_ok hline]
              exact ih hv' (by omega) (by omega)

/-- **What `read_trace` checks.** A file that is accepted has as many requests as it says, the
largest index of an `alloc` or a `realloc` is one less than the number of indices, and the
driver is left as it was. -/
theorem readTrace_reads {file : Option (List Char)} :
    Reads (readTrace lib path file) fun trace =>
      (-2 ^ 31 ≤ trace.numIds ∧ trace.numIds < 2 ^ 31) ∧
      trace.numOps = trace.ops.length ∧ topIndex trace.ops = sizeT (trace.numIds - 1) ∧
      (∀ op ∈ trace.ops, op.IsInt) ∧
      trace.blocks.length = sizeT trace.numIds * 4 % 2 ^ 32 / 4 ∧
      trace.blockSizes.length = sizeT trace.numIds * 4 % 2 ^ 32 / 4 := by
  have herror : ∀ {α : Type} {P : α → Prop} {msg : String}, Reads (unixError lib msg) P := by
    refine .fail fun d a d' hrun => ?_
    obtain ⟨_, _, -, hthrow⟩ := of_run_bind_ok hrun
    cases hthrow
  have hinit : ∀ {o : Option ℤ}, (∀ z ∈ o, -2 ^ 31 ≤ z ∧ z < 2 ^ 31) →
      Reads (initialised o) fun z => -2 ^ 31 ≤ z ∧ z < 2 ^ 31 := fun {o} ho => by
    cases o with
    | none => exact .throw
    | some z => exact .pure (ho z rfl)
  have harray : ∀ {z size msg}, Reads (newArray lib z size msg) fun n =>
      n = sizeT z * size % 2 ^ 32 / size := fun {z size msg} =>
    .ite (fun _ => .pure rfl) fun _ => herror
  refine .ite (fun _ => herror) fun _ => .ite (fun _ => .throw) fun _ => ?_
  cases file with
  | none => exact herror
  | some cs =>
      refine scanD_reads.bind fun p₁ _ => scanD_reads.bind fun p₂ hids =>
        scanD_reads.bind fun p₃ hops => scanD_reads.bind fun p₄ _ => ?_
      refine (hinit hops).bind fun numOps hnumOps => harray.bind fun cap hcap =>
        (hinit hids).bind fun numIds hnumIds => harray.bind fun blocks hblocks =>
        harray.bind fun blockSizes hsizes => ?_
      have hstart : Reading.Sound cap ⟨0, none, 0, []⟩ := ⟨by simp, by simp, by simp, rfl, by simp⟩
      refine hstart.readLoop.bind fun v hv => ?_
      have hlast : Reads (addInt numIds (-1)) fun z => z = numIds - 1 :=
        .ite (fun _ => .pure rfl) fun _ => .throw
      refine hlast.bind fun last hlast => .ite (fun _ => .throw) fun hassert => .pure ?_
      obtain ⟨hmax, hlen⟩ := not_or.mp hassert
      rw [not_not] at hmax hlen
      have hle := hv.length
      refine ⟨hnumIds, ?_, ?_, hv.isInt, ?_, ?_⟩
      · simp only [sizeT] at hlen hcap ⊢
        omega
      · rw [← hv.maxIndex, hmax, hlast]
      · simp [hblocks]
      · simp [hsizes]

/-- What the assertions do not check: sizes are positive, and only blocks that are held are
resized or released. -/
def Sensible : Finset ℤ → List Traceop → Prop
  | _, [] => True
  | owned, op :: ops =>
      ((op.type ≠ .free → 0 < op.size) ∧ (op.type ≠ .alloc → op.index ∈ owned)) ∧
        Sensible (op.ownedAfter owned) ops

variable {m : ℤ} {owned : Finset ℤ}

/-- No index of an `alloc` or a `realloc` is larger than the top. -/
theorem le_topIndex (hop : op ∈ ops) (htype : op.type ≠ .free) :
    sizeT op.index ≤ topIndex ops := by
  induction ops using List.reverseRecOn with
  | nil => cases hop
  | append_singleton ops op' ih =>
      rw [topIndex_append]
      rcases List.mem_append.mp hop with hold | hnew
      · split_ifs
        · exact ih hold
        · exact (ih hold).trans (le_max_left _ _)
      · rw [← List.mem_singleton.mp hnew, if_neg htype]
        exact le_max_right _ _

/-- The top is an index, or there is none but 0. -/
theorem topIndex_mem : topIndex ops = 0 ∨
    ∃ op ∈ ops, op.type ≠ .free ∧ sizeT op.index = topIndex ops := by
  induction ops using List.reverseRecOn with
  | nil => exact Or.inl rfl
  | append_singleton ops op ih =>
      have hold : topIndex ops = 0 ∨
          ∃ op' ∈ ops ++ [op], op'.type ≠ .free ∧ sizeT op'.index = topIndex ops :=
        ih.imp_right fun ⟨op', hop', hrest⟩ => ⟨op', List.mem_append_left _ hop', hrest⟩
      rw [topIndex_append]
      split_ifs with htype
      · exact hold
      · rcases max_choice (topIndex ops) (sizeT op.index) with heq | heq
        · rw [heq]
          exact hold
        · exact Or.inr ⟨op, by simp, htype, heq.symm⟩

/-- A list is balanced when it is sensible and its indices are in range. -/
theorem balanced_iff (hint : ∀ op ∈ ops, op.IsInt) (howned : ∀ j ∈ owned, 0 ≤ j ∧ j < m) :
    Balanced m owned ops ↔
      (∀ op ∈ ops, op.type ≠ .free → 0 ≤ op.index ∧ op.index < m) ∧ Sensible owned ops := by
  induction ops generalizing owned with
  | nil => simp [Balanced, Sensible]
  | cons op ops ih =>
      obtain ⟨hop, hint⟩ := List.forall_mem_cons.mp hint
      have hafter : (0 ≤ op.index ∧ op.index < m) →
          ∀ j ∈ op.ownedAfter owned, 0 ≤ j ∧ j < m := fun hindex j hj => by
        rcases Traceop.mem_ownedAfter hj with rfl | hj
        · exact hindex
        · exact howned j hj
      rw [List.forall_mem_cons, Balanced, Sensible]
      constructor
      · rintro ⟨hfits, hbal⟩
        obtain ⟨hrange, hsensible⟩ := (ih hint (hafter hfits.index)).mp hbal
        exact ⟨⟨fun _ => hfits.index, hrange⟩,
          ⟨fun htype => (hfits.size htype).1, hfits.owned⟩, hsensible⟩
      · rintro ⟨⟨hindex, hrange⟩, ⟨hsize, hheld⟩, hsensible⟩
        have hindex' : 0 ≤ op.index ∧ op.index < m := by
          by_cases htype : op.type = .free
          · exact howned _ (hheld (by simp [htype]))
          · exact hindex htype
        exact ⟨⟨hindex', fun htype => ⟨hsize htype, hop.size.2⟩, hheld⟩,
          (ih hint (hafter hindex')).mpr ⟨hrange, hsensible⟩⟩

/-- **What `read_trace` does not check.** An accepted file is a well-formed trace exactly when
it states between 1 and `2 ^ 30 - 1` indices, its sizes are positive and it resizes and
releases only what is held. -/
theorem readTrace_wellFormed_iff {file : Option (List Char)}
    (hrun : readTrace lib path file d = .ok trace d') :
    trace.WellFormed ↔
      (0 < trace.numIds ∧ trace.numIds < 2 ^ 30) ∧ Sensible ∅ trace.ops := by
  obtain ⟨-, hids, hops, htop, hint, hblocks, hsizes⟩ := readTrace_reads d d trace d' rfl hrun
  have hbal : Balanced trace.numIds ∅ trace.ops ↔ _ := balanced_iff hint (by simp)
  constructor
  · intro hwf
    obtain ⟨hrange, hsensible⟩ := hbal.mp hwf.balanced
    have hlen := hwf.blocks
    rw [hblocks] at hlen
    have hpos : 0 ≤ trace.numIds := by omega
    have hne : trace.numIds ≠ 0 := fun h0 => by
      have hmem : topIndex trace.ops = 0 ∨ ∃ op ∈ trace.ops, op.type ≠ .free ∧ _ := topIndex_mem
      rcases hmem with hzero | ⟨op, hop, htype, -⟩
      · rw [htop, h0] at hzero
        cases hzero
      · have := hrange op hop htype
        omega
    refine ⟨⟨by omega, ?_⟩, hsensible⟩
    simp only [sizeT] at hlen
    omega
  · rintro ⟨⟨hpos, hlt⟩, hsensible⟩
    have hlen : ((sizeT trace.numIds * 4 % 2 ^ 32 / 4 : ℕ) : ℤ) = trace.numIds := by
      simp only [sizeT]
      omega
    refine ⟨hops, by rw [hblocks, hlen], by rw [hsizes, hlen],
      hbal.mpr ⟨fun op hop htype => ?_, hsensible⟩⟩
    have hle := le_topIndex hop htype
    have hindex := (hint op hop).index
    rw [htop] at hle
    simp only [sizeT] at hle
    omega

/-- A library with memory for everything. -/
def sampleLibc : Libc := ⟨fun _ => true, fun _ => 0, "Success"⟩

/-- The file "0 1 1 1 f 9" is accepted, and releases what was never allocated. -/
theorem readTrace_wellFormed_stray : ∃ trace d',
    readTrace sampleLibc "stray.rep" (some "0 1 1 1 f 9".toList) (sampleDriver plainTrace) =
      .ok trace d' ∧ ¬ trace.WellFormed := by
  obtain ⟨trace, d', hrun, hops⟩ : ∃ trace d', readTrace sampleLibc "stray.rep"
      (some "0 1 1 1 f 9".toList) (sampleDriver plainTrace) = .ok trace d' ∧
      trace.ops = [⟨.free, 9, 0⟩] := ⟨_, _, rfl, rfl⟩
  refine ⟨trace, d', hrun, fun hwf => ?_⟩
  obtain ⟨-, hsensible⟩ := (readTrace_wellFormed_iff hrun).mp hwf
  rw [hops] at hsensible
  exact absurd (hsensible.1.2 (by simp)) (by simp)

end OsAndC
