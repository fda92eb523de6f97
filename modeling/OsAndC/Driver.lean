import OsAndC.Check

/-!
# The Trace Driver `mdriver.c`

A translation of the part of `mdriver.c` that judges an allocator: the range list, and the
three passes over a trace, `eval_mm_valid`, `eval_mm_util` and `eval_mm_speed`, with the
body of the loop in `main` that runs them. The driver is linked with some implementation of
`mm.h`; here this is a parameter `Mm`, and `mmPackage` is the one of `mm.c`.

The state `Driver` adds to the machine of the allocator what the driver keeps in memory of
its own: the trace with its arrays `blocks` and `block_sizes`, the range list from its head
on, the number of errors, and what has been printed. An access outside one of the arrays is
undefined in C and stops the model, and so does a failing `assert`. A function that returns
0 or 1 returns a `Bool`. The elapsed time, the only thing measured in floating point before
the summary, is left out.
-/

namespace OsAndC

/-! ### Types -/

/-- The functions of `mm.h`. -/
structure Mm where
  init : M ℤ
  malloc : ℕ → M ℕ
  free : ℕ → M Unit
  realloc : ℕ → ℕ → M ℕ

/-- The package of `mm.c`. -/
def mmPackage : Mm := ⟨mmInit, mmMalloc, mmFree, mmRealloc⟩

/-- The type of a request. -/
inductive Request
  | alloc
  | free
  | realloc
  deriving DecidableEq, Repr

/-- `traceop_t`: `index` and `size` are of type `int`. -/
structure Traceop where
  type : Request
  index : ℤ
  size : ℤ
  deriving DecidableEq, Repr

/-- `trace_t`, with the arrays its pointers point to. -/
structure Trace where
  suggHeapsize : ℤ
  numIds : ℤ
  numOps : ℤ
  weight : ℤ
  ops : List Traceop
  blocks : List ℕ
  blockSizes : List ℕ
  deriving DecidableEq, Repr

/-- `range_t`: the first and the last byte of a payload. -/
structure RangeT where
  lo : ℕ
  hi : ℕ
  deriving DecidableEq, Repr

/-- The memory of the driver and the machine of the allocator. -/
structure Driver where
  machine : Machine
  trace : Trace
  ranges : List RangeT
  errors : ℕ
  out : String

/-- The ways in which the driver ends early. -/
inductive Stop
  /-- The allocator, or an access to its heap, has no defined continuation. -/
  | fault (f : Fault)
  /-- An access outside an array of the trace. -/
  | outOfBounds
  /-- A sum that leaves the range of `int`. -/
  | overflow
  /-- A read of a variable without a value. -/
  | uninitialised
  /-- A failing `assert`. -/
  | assertion
  /-- A call of `exit`. -/
  | exit (code : ℕ)
  deriving DecidableEq, Repr

/-- A C function of the driver. -/
abbrev DriverM := EStateM Stop Driver

/-- A call of a function of `mm.h` or `memlib.c`, or an access to the heap. -/
def callM {α : Type} (m : M α) : DriverM α := fun d =>
  match m d.machine with
  | .ok a s => .ok a { d with machine := s }
  | .error f s => .error (.fault f) { d with machine := s }

/-! ### Conversions -/

/-- The conversion of an `int` to `size_t`. -/
def sizeT (n : ℤ) : ℕ := (n % 2 ^ 32).toNat

/-- `index & 0xFF`. -/
def lowByte (index : ℤ) : ℕ := (index % 256).toNat

/-- The value of a `char` when it is promoted to `int`. Whether a plain `char` has a sign is
up to the compiler; on the x86 it has. -/
def charValue (signedChar : Bool) (c : UInt8) : ℤ :=
  if signedChar then (c.toNat : ℤ).bmod (2 ^ 8) else c.toNat

/-- What `%p` prints for a pointer that is not null. -/
def pointerText (p : ℕ) : String := "0x" ++ String.ofList (Nat.toDigits 16 p)

/-! ### Output -/

/-- `printf`. -/
def print (text : String) : DriverM Unit := modify fun d => { d with out := d.out ++ text }

/-- The line `malloc_error` prints: requests are counted from 0, and the first one stands in
line 5 of the trace file. -/
def errorLine (tracenum opnum : ℕ) (msg : String) : String :=
  "ERROR [trace " ++ toString tracenum ++ ", line " ++ toString (opnum + 5) ++ "]: " ++ msg ++ "\n"

/-- `malloc_error`. -/
def mallocError (tracenum opnum : ℕ) (msg : String) : DriverM Unit := do
  modify fun d => { d with errors := d.errors + 1 }
  print (errorLine tracenum opnum msg)

/-- `app_error`. -/
def appError {α : Type} (msg : String) : DriverM α := do
  print (msg ++ "\n")
  throw (.exit 1)

/-! ### Memory -/

/-- The memory after the `n` bytes from `p` on are set to `v`. -/
def Mem.fill (m : Mem) (p n : ℕ) (v : UInt8) : Mem := fun a =>
  if p ≤ a ∧ a < p + n then v else m a

/-- `memset(p, v, n)`. -/
def memset (p v n : ℕ) : M Unit := do
  checked (.store p n) p n
  modify fun s => { s with mem := s.mem.fill p n (UInt8.ofNat v) }

/-- The byte at `p`. -/
def getByte (p : ℕ) : M UInt8 := do
  checked (.load p 1) p 1
  return (← get).mem p

/-- `trace->ops[i]`. -/
def getOp (i : ℕ) : DriverM Traceop := do
  match (← get).trace.ops[i]? with
  | some op => return op
  | none => throw .outOfBounds

/-- The position an index of type `int` names in an array of length `n`. -/
def position (index : ℤ) (n : ℕ) : DriverM ℕ :=
  if 0 ≤ index ∧ index < n then return index.toNat else throw .outOfBounds

/-- `trace->blocks[index]`. -/
def getBlock (index : ℤ) : DriverM ℕ := do
  let blocks := (← get).trace.blocks
  return blocks.getD (← position index blocks.length) 0

/-- `trace->block_sizes[index]`. -/
def getBlockSize (index : ℤ) : DriverM ℕ := do
  let blockSizes := (← get).trace.blockSizes
  return blockSizes.getD (← position index blockSizes.length) 0

/-- The assignment `trace->blocks[index] = p`. -/
def setBlock (index : ℤ) (p : ℕ) : DriverM Unit := do
  let i ← position index (← get).trace.blocks.length
  modify fun d => { d with trace := { d.trace with blocks := d.trace.blocks.set i p } }

/-- The assignment `trace->block_sizes[index] = size`. -/
def setBlockSize (index : ℤ) (size : ℕ) : DriverM Unit := do
  let i ← position index (← get).trace.blockSizes.length
  modify fun d =>
    { d with trace := { d.trace with blockSizes := d.trace.blockSizes.set i size } }

/-! ### The range list -/

/-- `IS_ALIGNED(p)`. -/
def IsAligned (p : ℕ) : Prop := p % 8 = 0

/-- The test of `add_range` against the recorded range `p`: one of the ends of the new range
lies in it. -/
def RangeT.Overlaps (p : RangeT) (lo hi : ℕ) : Prop :=
  (lo ≥ p.lo ∧ lo ≤ p.hi) ∨ (hi ≥ p.lo ∧ hi ≤ p.hi)

instance (p : ℕ) : Decidable (IsAligned p) := inferInstanceAs (Decidable (_ = _))

instance (p : RangeT) (lo hi : ℕ) : Decidable (p.Overlaps lo hi) :=
  inferInstanceAs (Decidable (_ ∨ _))

def addRange (lo : ℕ) (size : ℤ) (tracenum opnum : ℕ) : DriverM Bool := do
  let hi := lo + size.toNat - 1
  if size ≤ 0 then
    throw .assertion
  else if ¬ IsAligned lo then
    mallocError tracenum opnum
      ("Payload address (" ++ pointerText lo ++ ") not aligned to 8 bytes")
    return false
  else
    let heapLo := (← get).machine.memHeapLo
    let heapHi := (← get).machine.memHeapHi
    if lo < heapLo ∨ lo > heapHi ∨ hi < heapLo ∨ hi > heapHi then
      mallocError tracenum opnum
        ("Payload (" ++ pointerText lo ++ ":" ++ pointerText hi ++ ") lies outside heap (" ++
          pointerText heapLo ++ ":" ++ pointerText heapHi ++ ")")
      return false
    else
      match (← get).ranges.find? fun p => p.Overlaps lo hi with
      | some p =>
          mallocError tracenum opnum
            ("Payload (" ++ pointerText lo ++ ":" ++ pointerText hi ++
              ") overlaps another payload (" ++ pointerText p.lo ++ ":" ++ pointerText p.hi ++
              ")\n")
          return false
      | none =>
          modify fun d => { d with ranges := ⟨lo, hi⟩ :: d.ranges }
          return true

/-- `remove_range`: the first record of a range that starts at `lo` goes. -/
def removeRange (lo : ℕ) : DriverM Unit := modify fun d =>
  { d with ranges := d.ranges.eraseP fun p => p.lo = lo }

def clearRanges : DriverM Unit := modify fun d => { d with ranges := [] }

/-! ### The validity pass -/

/-- The loop over the bytes that `mm_realloc` must have kept: the `n` bytes from `newp[j]` on
are compared with the low byte of the index. -/
def dataKept (signedChar : Bool) (newp : ℕ) (index : ℤ) : ℕ → ℕ → M Bool
  | 0, _ => return true
  | n + 1, j => do
      if charValue signedChar (← getByte (newp + j)) ≠ lowByte index then
        return false
      else
        dataKept signedChar newp index n (j + 1)

/-- The body of the loop of `eval_mm_valid`: whether the loop goes on. -/
def validRequest (mm : Mm) (signedChar : Bool) (tracenum i : ℕ) : DriverM Bool := do
  let op ← getOp i
  let index := op.index
  let size := op.size
  match op.type with
  | .alloc => do
      let p ← callM (mm.malloc (sizeT size))
      if p = 0 then
        mallocError tracenum i "mm_malloc failed."
        return false
      else if ← addRange p size tracenum i then
        callM (memset p (lowByte index) (sizeT size))
        setBlock index p
        setBlockSize index (sizeT size)
        return true
      else
        return false
  | .realloc => do
      let oldp ← getBlock index
      let newp ← callM (mm.realloc oldp (sizeT size))
      if newp = 0 then
        mallocError tracenum i "mm_realloc failed."
        return false
      else
        removeRange oldp
        if ← addRange newp size tracenum i then
          let oldsize := toInt (← getBlockSize index)
          let oldsize := if size < oldsize then size else oldsize
          if ← callM (dataKept signedChar newp index oldsize.toNat 0) then
            callM (memset newp (lowByte index) (sizeT size))
            setBlock index newp
            setBlockSize index (sizeT size)
            return true
          else
            mallocError tracenum i "mm_realloc did not preserve the data from old block"
            return false
        else
          return false
  | .free => do
      let p ← getBlock index
      removeRange p
      callM (mm.free p)
      return true

/-- The loop of `eval_mm_valid`: `n` requests from number `i` on. -/
def validLoop (mm : Mm) (signedChar : Bool) (tracenum : ℕ) : ℕ → ℕ → DriverM Bool
  | 0, _ => return true
  | n + 1, i => do
      if ← validRequest mm signedChar tracenum i then
        validLoop mm signedChar tracenum n (i + 1)
      else
        return false

def evalMmValid (mm : Mm) (signedChar : Bool) (tracenum : ℕ) : DriverM Bool := do
  callM memResetBrk
  clearRanges
  if (← callM mm.init) < 0 then
    mallocError tracenum 0 "mm_init failed."
    return false
  else
    validLoop mm signedChar tracenum (← get).trace.numOps.toNat 0

/-! ### The utilization pass -/

/-- The sum of two values of type `int`. -/
def addInt (a b : ℤ) : DriverM ℤ :=
  if -2 ^ 31 ≤ a + b ∧ a + b < 2 ^ 31 then return a + b else throw .overflow

/-- The variables `total_size` and `max_total_size`. -/
structure Totals where
  totalSize : ℤ
  maxTotalSize : ℤ
  deriving DecidableEq, Repr

/-- The update of the statistics after a request that increases the total by `n`. -/
def Totals.count (t : Totals) (n : ℤ) : DriverM Totals := do
  let totalSize ← addInt t.totalSize n
  return ⟨totalSize, if totalSize > t.maxTotalSize then totalSize else t.maxTotalSize⟩

/-- The body of the loop of `eval_mm_util`. -/
def utilRequest (mm : Mm) (i : ℕ) (t : Totals) : DriverM Totals := do
  let op ← getOp i
  let index := op.index
  match op.type with
  | .alloc => do
      let size := op.size
      let p ← callM (mm.malloc (sizeT size))
      if p = 0 then
        appError "mm_malloc failed in eval_mm_util"
      else
        setBlock index p
        setBlockSize index (sizeT size)
        t.count size
  | .realloc => do
      let newsize := op.size
      let oldsize := toInt (← getBlockSize index)
      let oldp ← getBlock index
      let newp ← callM (mm.realloc oldp (sizeT newsize))
      if newp = 0 then
        appError "mm_realloc failed in eval_mm_util"
      else
        setBlock index newp
        setBlockSize index (sizeT newsize)
        t.count (← addInt newsize (-oldsize))
  | .free => do
      let size := toInt (← getBlockSize index)
      let p ← getBlock index
      callM (mm.free p)
      return { t with totalSize := ← addInt t.totalSize (-size) }

/-- The loop of `eval_mm_util`. -/
def utilLoop (mm : Mm) : ℕ → ℕ → Totals → DriverM Totals
  | 0, _, t => return t
  | n + 1, i, t => do utilLoop mm n (i + 1) (← utilRequest mm i t)

/-- `eval_mm_util`: the two numbers of which it returns the quotient, `max_total_size` and
`mem_heapsize()`. -/
def evalMmUtil (mm : Mm) : DriverM (ℤ × ℕ) := do
  callM memResetBrk
  if (← callM mm.init) < 0 then
    appError "mm_init failed in eval_mm_util"
  else
    let t ← utilLoop mm (← get).trace.numOps.toNat 0 ⟨0, 0⟩
    return (t.maxTotalSize, (← get).machine.memHeapsize)

/-! ### The speed pass -/

/-- The body of the loop of `eval_mm_speed`. -/
def speedRequest (mm : Mm) (i : ℕ) : DriverM Unit := do
  let op ← getOp i
  let index := op.index
  match op.type with
  | .alloc => do
      let p ← callM (mm.malloc (sizeT op.size))
      if p = 0 then
        appError "mm_malloc error in eval_mm_speed"
      else
        setBlock index p
  | .realloc => do
      let oldp ← getBlock index
      let newp ← callM (mm.realloc oldp (sizeT op.size))
      if newp = 0 then
        appError "mm_realloc error in eval_mm_speed"
      else
        setBlock index newp
  | .free => do
      let block ← getBlock index
      callM (mm.free block)

/-- The loop of `eval_mm_speed`. -/
def speedLoop (mm : Mm) : ℕ → ℕ → DriverM Unit
  | 0, _ => return ()
  | n + 1, i => do
      speedRequest mm i
      speedLoop mm n (i + 1)

def evalMmSpeed (mm : Mm) : DriverM Unit := do
  callM memResetBrk
  if (← callM mm.init) < 0 then
    appError "mm_init failed in eval_mm_speed"
  else
    speedLoop mm (← get).trace.numOps.toNat 0

/-! ### All passes -/

/-- `ftimer_gettod(f, argp, n)` without the clock: `n` calls of `f`. -/
def ftimerGettod (f : DriverM Unit) : ℕ → DriverM Unit
  | 0 => return ()
  | n + 1 => do
      f
      ftimerGettod f n

/-- `fsecs(f, argp)`, which times ten calls. -/
def fsecs (f : DriverM Unit) : DriverM Unit := ftimerGettod f 10

/-- `stats_t`, without the seconds; `util` is the pair of `evalMmUtil`. -/
structure Stats where
  ops : ℤ
  valid : Bool
  util : ℤ × ℕ
  deriving DecidableEq, Repr

/-- The passes that `main` makes over the trace it has read as number `i`. -/
def evalTrace (mm : Mm) (signedChar : Bool) (i : ℕ) (trace : Trace) : DriverM Stats := do
  modify fun d => { d with trace := trace }
  if ← evalMmValid mm signedChar i then
    let util ← evalMmUtil mm
    fsecs (evalMmSpeed mm)
    return ⟨trace.numOps, true, util⟩
  else
    return ⟨trace.numOps, false, (0, 0)⟩

/-- The loop of `main` over the traces, the first of which has number `i`. -/
def evalTraces (mm : Mm) (signedChar : Bool) : ℕ → List Trace → DriverM (List Stats)
  | _, [] => return []
  | i, trace :: traces => do
      let stats ← evalTrace mm signedChar i trace
      return stats :: (← evalTraces mm signedChar (i + 1) traces)

end OsAndC
