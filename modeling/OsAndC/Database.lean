import OsAndC.CString
import OsAndC.Running

/-!
# The Address Database `ex17`

A translation of `lecture-5/ex17.c` and of `lecture-5/ex17-old.c`, an earlier version of it:
a table of 100 addresses kept in a file, read and rewritten as a whole by every invocation of
the program. The older one differs in what it stores as the id of an empty row, in a line that
it prints, in two messages, and in a test of what `fflush` returns that takes every success
for a failure. `Version` has these differences as parameters, and the functions in which they
appear are written once, over any version; `ex17` and `ex17Old` are the values of the two files.
One invocation is a run of `Version.main` from a `Process` whose `db` is the block `malloc`
returns, with any contents.

The table is an array of structs, and its bytes matter: `printf` prints a field up to the
first NUL, wherever that is. So `db` is a byte memory in which row `i` starts at
`i * 1032`, with `id` and `set` in the first two words and the two fields of 512 bytes
behind them. An access to a row that does not exist, or to a byte behind the last row, is
undefined in C and ends the model with `Exit.fault`.

`die` ends the run; whether its message goes to `stdout` or, by `perror`, to `stderr`
depends on `errno`, so the message is kept in the `Exit` and not in the output. Memory for
the table, opening the file for writing, and writing to it do not fail, and `fflush` returns 0.
-/

namespace OsAndC

/-! ### The C library -/

/-- The code of a character. -/
def chr (c : Char) : UInt8 := UInt8.ofNat c.toNat

/-- What `%d` prints. -/
def decimal (n : ℤ) : List UInt8 :=
  (if n < 0 then [chr '-'] else []) ++ (Nat.toDigits 10 n.natAbs).map chr

/-- The white space that `strtol` skips. -/
def isSpace (c : UInt8) : Bool := c = chr ' ' || (9 ≤ c && c ≤ 13)

/-- A decimal digit. -/
def isDigit (c : UInt8) : Bool := chr '0' ≤ c && c ≤ chr '9'

/-- The number that the digits in front of `s` denote. -/
def digits (s : List UInt8) : ℤ :=
  (s.takeWhile isDigit).foldl (fun n c => 10 * n + (c.toNat - 48)) 0

/-- `strtol(s, NULL, 10)`, with the bounds of a 64-bit `long`. -/
def strtol (s : List UInt8) : ℤ :=
  let n := match s.dropWhile isSpace with
    | [] => 0
    | c :: rest =>
        if c = chr '-' then -digits rest
        else if c = chr '+' then digits rest
        else digits (c :: rest)
  max (-2 ^ 63) (min n (2 ^ 63 - 1))

/-- `atoi(s)`: the value of `strtol`, converted to an `int`. -/
def atoi (s : CString) : ℤ := (strtol s.bytes).bmod (2 ^ 32)

/-! ### Types -/

/-- `MAX_DATA`. -/
def maxData : ℕ := 512

/-- `MAX_ROWS`. -/
def maxRows : ℕ := 100

/-- The offset of the member `set` of `struct Address`. -/
def setOffset : ℕ := 4

/-- The offset of the member `name` of `struct Address`. -/
def nameOffset : ℕ := 8

/-- The offset of the member `email` of `struct Address`. -/
def emailOffset : ℕ := nameOffset + maxData

/-- `sizeof(struct Address)`. -/
def addressSize : ℕ := emailOffset + maxData

/-- `sizeof(struct Database)`. -/
def databaseSize : ℕ := maxRows * addressSize

/-- The ways in which a run ends early. -/
inductive Exit
  /-- A call of `die`. -/
  | die (message : String)
  /-- An access outside the objects of the program. -/
  | fault
  deriving DecidableEq, Repr

/-- The state of a run: the contents of the file, if it exists, the table behind
`conn->db`, and what has been printed. -/
structure Process where
  file : Option (List UInt8)
  db : Mem
  out : List UInt8

/-- A C function of the program. -/
abbrev Prog := EStateM Exit Process

def die {α : Type} (message : String) : Prog α := throw (.die message)

/-- An assignment to the table. -/
def modifyDb (f : Mem → Mem) : Prog Unit := modify fun s => { s with db := f s.db }

/-- The address `&conn->db->rows[id]`, for an access to that row. -/
def rowAddr (id : ℤ) : Prog ℕ :=
  if 0 ≤ id ∧ id < maxRows then return id.toNat * addressSize else throw .fault

/-- The string a `%s` prints, which starts at `a` in the table. -/
def stringAt (a : ℕ) : Prog (List UInt8) := do
  match (← get).db.scan a (databaseSize - a) with
  | some l => return l
  | none => throw .fault

/-! ### The functions in which the versions agree -/

def addressPrint (addr : ℕ) : Prog Unit := do
  let id := ((← get).db.load32 addr : ℤ).bmod (2 ^ 32)
  let name ← stringAt (addr + nameOffset)
  let email ← stringAt (addr + emailOffset)
  modify fun s => { s with
    out := s.out ++ (decimal id ++ [chr ' '] ++ name ++ [chr ' '] ++ email ++ [chr '\n']) }

/-- `struct Address addr = {.id = id, .set = 0}`: the members that are not named are zero. -/
def emptyAddress (id : ℕ) : Mem := Mem.store32 (fun _ => 0) 0 id

/-- `Database_set`. What `strncpy` returns is its first argument and not null. -/
def databaseSet (id : ℤ) (name email : CString) : Prog Unit := do
  let addr ← rowAddr id
  if (← get).db.load32 (addr + setOffset) ≠ 0 then
    die "Already set, delete it first"
  else
    modifyDb fun db => db.store32 (addr + setOffset) 1
    modifyDb fun db => db.strncpy (addr + nameOffset) name maxData
    modifyDb fun db => db.strncpy (addr + emailOffset) email maxData

def databaseGet (id : ℤ) : Prog Unit := do
  let addr ← rowAddr id
  if (← get).db.load32 (addr + setOffset) ≠ 0 then
    addressPrint addr
  else
    die "ID is not set"

/-- The body of the loop of `Database_list`. -/
def listRow (i : ℕ) : Prog Unit := do
  let cur := i * addressSize
  if (← get).db.load32 (cur + setOffset) ≠ 0 then
    addressPrint cur
  else
    return ()

def databaseList : Prog Unit := (List.range maxRows).forM listRow

/-- `argv[i]`. -/
def argAt (argv : List CString) (i : ℕ) : CString := argv.getD i ⟨[], List.not_mem_nil⟩

/-- `argv[2][0]`. -/
def actionOf (argv : List CString) : UInt8 := (argAt argv 2).bytes.headD 0

/-- The variable `id` of `main` when the action is looked at. -/
def idOf (argv : List CString) : ℤ := if argv.length > 3 then atoi (argAt argv 3) else 0

/-! ### The versions -/

/-- In what the versions differ: the id of an empty row `i`, what `Database_open` prints, the
message of `Database_load`, and the test of what `fflush` returns, with its message. -/
structure Version where
  emptyId : ℕ → ℕ
  opening : UInt8 → List UInt8
  loadMessage : String
  flushFails : ℤ → Bool
  flushMessage : String

/-- `ex17.c`. -/
def ex17 : Version where
  emptyId := fun i => i
  opening := fun _ => []
  loadMessage := "Failed to load database."
  flushFails := fun rc => rc = -1
  flushMessage := "Cannot flush database."

/-- `ex17-old.c`. -/
def ex17Old : Version where
  emptyId := fun _ => 0
  opening := fun mode =>
    [chr 'A', chr 'H', chr 'H', chr 'H', chr ' ', mode, chr '\n']
  loadMessage := "Failed to load database"
  flushFails := fun rc => rc ≠ 1
  flushMessage := "Failed to flush database"

namespace Version

variable (v : Version)

/-- `Database_load`: `fread` of one `struct Database`. -/
def databaseLoad : Prog Unit := do
  match (← get).file with
  | some bytes =>
      if databaseSize ≤ bytes.length then
        modifyDb fun db => db.write 0 (bytes.take databaseSize)
      else
        die v.loadMessage
  | none => throw .fault

def databaseOpen (mode : UInt8) : Prog Unit := do
  modify fun s => { s with out := s.out ++ v.opening mode }
  if mode = chr 'c' then
    modify fun s => { s with file := some [] }
  else
    match (← get).file with
    | some _ => v.databaseLoad
    | none => die "Failed to open the file"

/-- `Database_write`: the table replaces the first bytes of the file, and is flushed. -/
def databaseWrite : Prog Unit := do
  modify fun s =>
    { s with file := s.file.map fun old => s.db.bytes 0 databaseSize ++ old.drop databaseSize }
  if v.flushFails 0 then die v.flushMessage else return ()

/-- The assignment of an empty struct to row `i`. -/
def clearRow (i : ℕ) : Prog Unit :=
  modifyDb fun db => db.write (i * addressSize) ((emptyAddress (v.emptyId i)).bytes 0 addressSize)

def databaseCreate : Prog Unit := (List.range maxRows).forM v.clearRow

def databaseDelete (id : ℤ) : Prog Unit := do
  let _ ← rowAddr id
  v.clearRow id.toNat

/-- The `switch` of `main`. -/
def switch (argv : List CString) : Prog Unit :=
  let action := actionOf argv
  let id := idOf argv
  if action = chr 'c' then do
    v.databaseCreate
    v.databaseWrite
  else if action = chr 'g' then
    if argv.length ≠ 4 then die "Need an id to get"
    else databaseGet id
  else if action = chr 's' then
    if argv.length ≠ 6 then die "Need id, name, email to set"
    else do
      databaseSet id (argAt argv 4) (argAt argv 5)
      v.databaseWrite
  else if action = chr 'd' then
    if argv.length ≠ 4 then die "Need id to delete"
    else do
      v.databaseDelete id
      v.databaseWrite
  else if action = chr 'l' then
    databaseList
  else
    die "Invalid action: c=create, g=get, s=set, d=del, l=list"

def main (argv : List CString) : Prog Unit :=
  if argv.length < 3 then
    die "USAGE: ex17 <dbfile> <action> [action params]"
  else do
    v.databaseOpen (actionOf argv)
    if idOf argv ≥ maxRows then
      die "There's not that many records."
    else
      v.switch argv

end Version

end OsAndC
