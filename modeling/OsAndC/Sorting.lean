import OsAndC.Database
import OsAndC.BubbleSort

/-!
# The Sorting Program `ex18`

A translation of `bubble_sort` of `lecture-6/ex18.c` and of the comparators `main` passes
to it. The state is the memory and the objects that are live in it; an access that does not
stay inside one of them is undefined in C and ends the model with `Exit.fault`, and so
does a `memcpy` between overlapping ranges. `malloc` is a parameter, with its contract in
`Malloc.Grants`. A comparator is a function of two values of type `int`.
-/

namespace OsAndC.Ex18

/-- The memory, and the address and the size of each live object. -/
structure State where
  mem : Mem
  objects : List (ℕ × ℕ)

/-- A C function of the program. -/
abbrev Prog := EStateM Exit State

/-- `compare_cb`. -/
abbrev CompareCb := Int32 → Int32 → Int32

/-- `malloc`: the address it returns for a number of bytes, and the memory it leaves. -/
abbrev Malloc := ℕ → State → ℕ × Mem

/-- What `malloc` promises when it does not return null: the new object lies apart from the
live ones, and these keep their bytes. -/
structure Malloc.Grants (malloc : Malloc) (n : ℕ) (s : State) : Prop where
  ne_null : (malloc n s).1 ≠ 0
  apart : ∀ o ∈ s.objects, o.1 + o.2 ≤ (malloc n s).1 ∨ (malloc n s).1 + n ≤ o.1
  keeps : ∀ o ∈ s.objects, Set.EqOn (malloc n s).2 s.mem (Set.Ico o.1 (o.1 + o.2))

def die {α : Type} (message : String) : Prog α := throw (.die message)

/-- A call of `malloc`. -/
def callMalloc (malloc : Malloc) (n : ℕ) : Prog ℕ := do
  let (p, mem) := malloc n (← get)
  modify fun s => ⟨mem, if p = 0 then s.objects else (p, n) :: s.objects⟩
  return p

/-- The `n` bytes at `a` lie in a live object. -/
def State.Live (s : State) (a n : ℕ) : Prop := ∃ o ∈ s.objects, o.1 ≤ a ∧ a + n ≤ o.1 + o.2

instance (s : State) (a n : ℕ) : Decidable (s.Live a n) :=
  inferInstanceAs (Decidable (∃ o ∈ s.objects, o.1 ≤ a ∧ a + n ≤ o.1 + o.2))

/-- An access to the `n` bytes at `a`. -/
def access (a n : ℕ) : Prog Unit := do
  if (← get).Live a n then return () else throw .fault

def memcpy (dst src n : ℕ) : Prog Unit := do
  access dst n
  access src n
  if dst < src + n ∧ src < dst + n then throw .fault
  else modify fun s => { s with mem := s.mem.copy dst src n }

/-- The `int` at address `a`. -/
def intAt (m : Mem) (a : ℕ) : Int32 := Int32.ofNat (m.load32 a)

/-- The value of `numbers[j]`. -/
def getInt (numbers j : ℕ) : Prog Int32 := do
  access (numbers + 4 * j) 4
  return intAt (← get).mem (numbers + 4 * j)

/-- The assignment `numbers[j] = v`. -/
def setInt (numbers j : ℕ) (v : Int32) : Prog Unit := do
  access (numbers + 4 * j) 4
  modify fun s => { s with mem := s.mem.store32 (numbers + 4 * j) v.toUInt32.toNat }

/-- The body of the inner loop of `bubble_sort`. -/
def sortStep (target : ℕ) (cmp : CompareCb) (j : ℕ) : Prog Unit := do
  if 0 < cmp (← getInt target j) (← getInt target (j + 1)) then
    let temp ← getInt target (j + 1)
    setInt target (j + 1) (← getInt target j)
    setInt target j temp

/-- `count * sizeof(int)`, a `size_t`. -/
def sizeOfInts (count : Int32) : ℕ := (count.toInt * 4 % 2 ^ 64).toNat

def bubbleSort (malloc : Malloc) (numbers : ℕ) (count : Int32) (cmp : CompareCb) : Prog ℕ := do
  let target ← callMalloc malloc (sizeOfInts count)
  if target = 0 then die "Mem bad"
  memcpy target numbers (sizeOfInts count)
  (List.range count.toInt.toNat).forM fun _ =>
    (List.range (count.toInt - 1).toNat).forM (sortStep target cmp)
  return target

/-- The value of a comparison. -/
def ofBool (b : Bool) : Int32 := if b then 1 else 0

def sortedOrder (a b : Int32) : Int32 := ofBool (a > b) - ofBool (a < b)

def reverseOrder (a b : Int32) : Int32 := ofBool (a < b) - ofBool (a > b)

/-- `strange_order`. The remainder of the least `int` by `-1`, undefined in C, is zero
here. -/
def strangeOrder (a b : Int32) : Int32 := if a = 0 ∨ b = 0 then 0 else a % b

end OsAndC.Ex18
