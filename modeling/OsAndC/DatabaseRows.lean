import OsAndC.Database

/-!
# The Rows of the Table

What the functions of the program do to the table, row by row, in either version. `Cleared`
and `FieldsHold` say what a row holds. `clearRow` and `Database_set` change one row and leave
the bytes of all others alone (`SameRow`); writing the table and loading it again gives the
same rows (`loaded_written`). What is printed for a row is `rowLine?`, if the scans for the NUL
end inside the table.
-/

namespace OsAndC

/-- A name and an email. -/
abbrev Entry := CString × CString

/-- The member `id` of row `i`. -/
def rowId (db : Mem) (i : ℕ) : ℕ := db.load32 (i * addressSize)

/-- The member `set` of row `i`. -/
def rowSet (db : Mem) (i : ℕ) : ℕ := db.load32 (i * addressSize + setOffset)

/-- Row `i` has the same bytes in both tables. -/
def SameRow (db db' : Mem) (i : ℕ) : Prop :=
  ∀ k < addressSize, db' (i * addressSize + k) = db (i * addressSize + k)

/-- The two fields of row `i` hold the entry. -/
structure FieldsHold (db : Mem) (i : ℕ) (e : Entry) : Prop where
  name : db.Padded (i * addressSize + nameOffset) maxData e.1.bytes
  email : db.Padded (i * addressSize + emailOffset) maxData e.2.bytes

variable {v : Version} {s : Process} {db db' : Mem} {i j label : ℕ} {e : Entry}
  {name email : CString}

/-- The fields of `struct Address` need no padding: 4 + 4 + 512 + 512 bytes. -/
theorem addressSize_eq : addressSize = 1032 := rfl

/-- The layout of `struct Address`. -/
theorem address_layout : addressSize = 1032 ∧ setOffset = 4 ∧ nameOffset = 8 ∧
    emailOffset = 520 ∧ maxData = 512 := ⟨rfl, rfl, rfl, rfl, rfl⟩

/-! ### Same bytes, same row -/

namespace SameRow

/-- A row is the same as itself. -/
theorem refl (db : Mem) (i : ℕ) : SameRow db db i := fun _ _ => rfl

/-- What is the same twice is the same. -/
theorem trans {db'' : Mem} (h : SameRow db db' i) (h' : SameRow db' db'' i) :
    SameRow db db'' i := fun k hk => (h' k hk).trans (h k hk)

/-- The id of such a row. -/
theorem rowId (h : SameRow db db' i) : rowId db' i = rowId db i :=
  Mem.load32_congr fun c h₁ h₂ => by
    have := h (c - i * addressSize) (by rw [addressSize_eq] at *; omega)
    rwa [Nat.add_sub_cancel' h₁] at this

/-- Its flag. -/
theorem rowSet (h : SameRow db db' i) : rowSet db' i = rowSet db i :=
  Mem.load32_congr fun c h₁ h₂ => by
    have hle : i * addressSize ≤ c := (Nat.le_add_right _ _).trans h₁
    have := h (c - i * addressSize) (by rw [addressSize_eq, setOffset] at *; omega)
    rwa [Nat.add_sub_cancel' hle] at this

/-- And an entry that stands in the one stands in the other. -/
theorem fieldsHold (h : SameRow db db' i) (hf : FieldsHold db i e) : FieldsHold db' i e := by
  refine ⟨hf.name.congr fun k hk => ?_, hf.email.congr fun k hk => ?_⟩
  · rw [Nat.add_assoc]
    exact h _ (by simp only [nameOffset, maxData, addressSize_eq] at *; omega)
  · rw [Nat.add_assoc]
    exact h _ (by simp only [emailOffset, nameOffset, maxData, addressSize_eq] at *; omega)

/-- A change that stays inside row `j` leaves row `i` alone. -/
theorem of_frame (hij : i ≠ j)
    (h : ∀ c, c < j * addressSize ∨ j * addressSize + addressSize ≤ c → db' c = db c) :
    SameRow db db' i := by
  intro k hk
  refine h _ ?_
  rw [addressSize_eq] at *
  omega

end SameRow

/-! ### Access to a row -/

/-- A row the file has is found at its offset. -/
theorem rowAddr_eq (hi : i < maxRows) : rowAddr i s = .ok (i * addressSize) s := by
  rw [rowAddr, if_pos ⟨Int.natCast_nonneg i, Int.ofNat_lt.mpr hi⟩, Int.toNat_natCast]
  rfl

/-- A negative id leads out of the object. -/
theorem rowAddr_fault {id : ℤ} (h : id < 0) : rowAddr id s = .error .fault s := by
  rw [rowAddr, if_neg (by omega)]
  rfl

/-! ### Clearing rows -/

/-- An empty row with this id. -/
def Cleared (db : Mem) (i label : ℕ) : Prop := rowId db i = label ∧ rowSet db i = 0

/-- The ids of the empty rows print as they are. -/
def Version.Small (v : Version) : Prop := ∀ i < maxRows, v.emptyId i < 2 ^ 31

/-- Both versions store small ids. -/
theorem small_of_mem (hv : v ∈ [ex17, ex17Old]) : v.Small := by
  intro i hi
  have hi : i < 100 := hi
  simp only [List.mem_cons, List.not_mem_nil, or_false] at hv
  rcases hv with rfl | rfl
  · exact hi.trans (by decide)
  · exact Nat.two_pow_pos 31

/-- `ex17.c` stores small ids. -/
theorem ex17_small : ex17.Small := small_of_mem List.mem_cons_self

/-- An empty row stays one where its bytes stay. -/
theorem SameRow.cleared (h : SameRow db db' i) (hc : Cleared db i label) : Cleared db' i label :=
  ⟨h.rowId.trans hc.1, h.rowSet.trans hc.2⟩

namespace Version

/-- Assigning an empty struct to row `i` changes no other row. -/
theorem clearRow_spec (hv : v.Small) (hi : i < maxRows) :
    ∃ db', v.clearRow i s = .ok () { s with db := db' } ∧ Cleared db' i (v.emptyId i) ∧
      ∀ j, j ≠ i → SameRow s.db db' j := by
  have hsmall := hv i hi
  refine ⟨_, rfl, ⟨?_, ?_⟩, fun j hji => SameRow.of_frame hji fun c hc => ?_⟩
  · have hid := Mem.load32_write_bytes s.db (emptyAddress (v.emptyId i)) (a := i * addressSize)
      (b := 0) (k := 0) (n := addressSize) (by decide)
    rw [Nat.add_zero] at hid
    rw [rowId, hid, emptyAddress, Mem.load32_store32_self, Nat.mod_eq_of_lt (by omega)]
  · have hset := Mem.load32_write_bytes s.db (emptyAddress (v.emptyId i)) (a := i * addressSize)
      (b := 0) (k := setOffset) (n := addressSize) (by decide)
    rw [rowSet, hset, emptyAddress, setOffset, Mem.load32_store32_of_disjoint (by omega)]
    rfl
  · exact Mem.write_of_notMem (by rwa [Mem.length_bytes])

/-- The loop of `Database_create`, over any rows. -/
theorem clearRows_spec (hv : v.Small) (l : List ℕ) (hl : ∀ i ∈ l, i < maxRows) :
    ∃ db', l.forM v.clearRow s = .ok PUnit.unit { s with db := db' } ∧
      (∀ i ∈ l, Cleared db' i (v.emptyId i)) ∧ ∀ j ∉ l, SameRow s.db db' j := by
  induction l generalizing s with
  | nil => exact ⟨s.db, rfl, by simp, fun j _ => SameRow.refl _ _⟩
  | cons i l ih =>
      obtain ⟨db₁, hrun₁, hc₁, hsame₁⟩ := clearRow_spec (s := s) hv (hl i List.mem_cons_self)
      obtain ⟨db₂, hrun₂, hc₂, hsame₂⟩ := ih (s := { s with db := db₁ })
        fun j hj => hl j (List.mem_cons_of_mem i hj)
      refine ⟨db₂, ?_, fun j hj => ?_, fun j hj => ?_⟩
      · change (v.clearRow i >>= fun _ => l.forM v.clearRow) s = _
        rw [run_bind_ok hrun₁, hrun₂]
      · by_cases hjl : j ∈ l
        · exact hc₂ j hjl
        · obtain rfl := (List.mem_cons.mp hj).resolve_right hjl
          exact (hsame₂ j hjl).cleared hc₁
      · rw [List.mem_cons, not_or] at hj
        exact (hsame₁ j hj.1).trans (hsame₂ j hj.2)

/-- `Database_create` clears every row. -/
theorem databaseCreate_spec (hv : v.Small) :
    ∃ db', v.databaseCreate s = .ok () { s with db := db' } ∧
      ∀ i < maxRows, Cleared db' i (v.emptyId i) := by
  obtain ⟨db', hrun, hc, -⟩ := clearRows_spec (s := s) hv (List.range maxRows)
    fun i hi => List.mem_range.mp hi
  exact ⟨db', hrun, fun i hi => hc i (List.mem_range.mpr hi)⟩

/-- `Database_delete` clears one row. -/
theorem databaseDelete_spec (hv : v.Small) (hi : i < maxRows) :
    ∃ db', v.databaseDelete i s = .ok () { s with db := db' } ∧ Cleared db' i (v.emptyId i) ∧
      ∀ j, j ≠ i → SameRow s.db db' j := by
  obtain ⟨db', hclear, hc, hsame⟩ := clearRow_spec (s := s) hv hi
  refine ⟨db', ?_, hc, hsame⟩
  rw [databaseDelete, run_bind_ok (rowAddr_eq hi), Int.toNat_natCast, hclear]

end Version

/-! ### Setting a row -/

/-- The table after `Database_set` has filled row `i`. -/
def filled (db : Mem) (i : ℕ) (name email : CString) : Mem :=
  ((db.store32 (i * addressSize + setOffset) 1).strncpy (i * addressSize + nameOffset) name
    maxData).strncpy (i * addressSize + emailOffset) email maxData

/-- A row that is not set takes the name and the email. -/
theorem databaseSet_unset (hi : i < maxRows) (hset : rowSet s.db i = 0) :
    databaseSet i name email s = .ok () { s with db := filled s.db i name email } := by
  rw [rowSet] at hset
  rw [databaseSet, run_bind_ok (rowAddr_eq hi), run_get_bind, if_neg (not_not.mpr hset)]
  rfl

/-- A row that is set is refused, and nothing has changed. -/
theorem databaseSet_set (hi : i < maxRows) (hset : rowSet s.db i ≠ 0) :
    databaseSet i name email s = .error (.die "Already set, delete it first") s := by
  rw [rowSet] at hset
  rw [databaseSet, run_bind_ok (rowAddr_eq hi), run_get_bind, if_pos hset]
  rfl

/-- The filled row holds the two strings and keeps its id; all other rows stay. -/
theorem filled_spec (db : Mem) (i : ℕ) (name email : CString) :
    rowId (filled db i name email) i = rowId db i ∧ rowSet (filled db i name email) i = 1 ∧
      FieldsHold (filled db i name email) i (name, email) ∧
      ∀ j, j ≠ i → SameRow db (filled db i name email) j := by
  obtain ⟨hsize, hset, hname, hemail, hdata⟩ := address_layout
  have hkeep : ∀ c, c < i * addressSize + nameOffset ∨ i * addressSize + addressSize ≤ c →
      filled db i name email c = db.store32 (i * addressSize + setOffset) 1 c := by
    intro c hc
    rw [filled, Mem.strncpy_of_notMem (by omega), Mem.strncpy_of_notMem (by omega)]
  have hword : ∀ k, k + 4 ≤ nameOffset →
      (filled db i name email).load32 (i * addressSize + k) =
        (db.store32 (i * addressSize + setOffset) 1).load32 (i * addressSize + k) := fun k hk =>
    Mem.load32_congr fun c _ h₂ => hkeep c (by omega)
  refine ⟨?_, ?_, ⟨?_, ?_⟩, fun j hji => SameRow.of_frame hji fun c hc => ?_⟩
  · have hid := hword 0 (by omega)
    rw [Nat.add_zero] at hid
    rw [rowId, hid, Mem.load32_store32_of_disjoint (by omega), rowId]
  · rw [rowSet, hword setOffset (by omega), Mem.load32_store32_self]
    rfl
  · exact Mem.strncpy_padded.congr fun k hk => Mem.strncpy_of_notMem (by omega)
  · exact Mem.strncpy_padded
  · rw [hkeep c (by omega), Mem.store32_of_notMem (by omega)]

/-! ### Writing and loading -/

namespace Version

/-- Loading reads the first bytes of the file into the table. -/
theorem databaseLoad_eq {bytes : List UInt8} (hf : s.file = some bytes)
    (hlen : databaseSize ≤ bytes.length) :
    v.databaseLoad s = .ok () { s with db := s.db.write 0 (bytes.take databaseSize) } := by
  rw [databaseLoad, run_get_bind]
  simp only [hf, if_pos hlen]
  rw [← hf]
  rfl

/-- A file that is too short is not loaded. -/
theorem databaseLoad_short {bytes : List UInt8} (hf : s.file = some bytes)
    (hlen : bytes.length < databaseSize) :
    v.databaseLoad s = .error (.die v.loadMessage) s := by
  rw [databaseLoad, run_get_bind]
  simp only [hf, if_neg (not_le.mpr hlen)]
  rfl

/-- Any mode but `c` loads an existing file. -/
theorem databaseOpen_existing {bytes : List UInt8} {mode : UInt8} (hf : s.file = some bytes)
    (hmode : mode ≠ chr 'c') :
    v.databaseOpen mode s = v.databaseLoad { s with out := s.out ++ v.opening mode } := by
  rw [databaseOpen, run_modify_bind, if_neg hmode, run_get_bind]
  simp only [hf]

end Version

/-- `ex17.c` prints nothing when it opens the file. -/
theorem ex17_opening {mode : UInt8} : ex17.opening mode = [] := rfl

/-- Opening an existing file is loading it, where nothing is printed. -/
theorem databaseOpen_eq {bytes : List UInt8} {mode : UInt8} (hf : s.file = some bytes)
    (hmode : mode ≠ chr 'c') : ex17.databaseOpen mode s = ex17.databaseLoad s := by
  rw [Version.databaseOpen_existing hf hmode, ex17_opening, List.append_nil]

/-- Writing, where a flush that succeeds is not taken for a failure. -/
theorem databaseWrite_eq {old : List UInt8} (hf : s.file = some old) : ex17.databaseWrite s =
    .ok () { s with file := some (s.db.bytes 0 databaseSize ++ old.drop databaseSize) } := by
  change EStateM.Result.ok () { s with file := s.file.map _ } = _
  rw [hf]
  rfl

/-- The table that a load of the file gives. -/
def tableOf (bytes : List UInt8) : Mem := fun c => bytes.getD c 0

/-- What has been loaded, byte by byte. -/
theorem loaded_apply {junk : Mem} {bytes : List UInt8} (hlen : databaseSize ≤ bytes.length)
    {c : ℕ} (hc : c < databaseSize) :
    junk.write 0 (bytes.take databaseSize) c = tableOf bytes c := by
  have hc' : c < (bytes.take databaseSize).length := by
    rw [List.length_take]
    omega
  have happly := Mem.write_apply (m := junk) (a := 0) hc'
  rw [Nat.zero_add] at happly
  rw [happly, tableOf, List.getD_eq_getElem _ _ hc', List.getD_eq_getElem _ _ (by omega),
    List.getElem_take]

/-- What has been written, byte by byte. -/
theorem written_apply {old : List UInt8} {c : ℕ} (hc : c < databaseSize) :
    tableOf (db.bytes 0 databaseSize ++ old.drop databaseSize) c = db c := by
  rw [tableOf, List.getD_append _ _ _ _ (by rwa [Mem.length_bytes]), Mem.bytes_getD hc,
    Nat.zero_add]

/-- A byte of row `i` is a byte of the table. -/
theorem row_lt {k : ℕ} (hi : i < maxRows) (hk : k < addressSize) :
    i * addressSize + k < databaseSize := by
  simp only [databaseSize, maxRows, addressSize_eq] at *
  omega

/-- Tables with the same bytes have the same rows. -/
theorem SameRow.of_table (h : ∀ c < databaseSize, db' c = db c) (hi : i < maxRows) :
    SameRow db db' i := fun _ hk => h _ (row_lt hi hk)

/-- What has been written is long enough to be loaded. -/
theorem le_written (db : Mem) (old : List UInt8) :
    databaseSize ≤ (db.bytes 0 databaseSize ++ old.drop databaseSize).length := by
  rw [List.length_append, Mem.length_bytes]
  exact Nat.le_add_right _ _

/-- Loading what has been written gives the same rows. -/
theorem loaded_written {junk : Mem} {old : List UInt8} (hi : i < maxRows) :
    SameRow db (junk.write 0 ((db.bytes 0 databaseSize ++ old.drop databaseSize).take
      databaseSize)) i := by
  refine SameRow.of_table (fun c hc => ?_) hi
  rw [loaded_apply (le_written db old) hc, written_apply hc]

/-! ### `main` -/

namespace Version

variable {s' : Process} {argv : List CString}

/-- Without an action the program dies before it opens the file. -/
theorem main_usage (h : argv.length < 3) : v.main argv s =
    .error (.die "USAGE: ex17 <dbfile> <action> [action params]") s := by
  rw [main, if_pos h]
  rfl

/-- An id that is too large is turned down after the file has been opened. -/
theorem main_large (hargs : 3 ≤ argv.length)
    (hopen : v.databaseOpen (actionOf argv) s = .ok () s') (hid : maxRows ≤ idOf argv) :
    v.main argv s = .error (.die "There's not that many records.") s' := by
  rw [main, if_neg (by omega), run_bind_ok hopen, if_pos hid]
  rfl

/-- Any other id is left to the `switch`. -/
theorem main_opened (hargs : 3 ≤ argv.length)
    (hopen : v.databaseOpen (actionOf argv) s = .ok () s') (hid : idOf argv < maxRows) :
    v.main argv s = v.switch argv s' := by
  rw [main, if_neg (by omega), run_bind_ok hopen, if_neg (by omega)]

/-- The case `c`. -/
theorem switch_create (h : actionOf argv = chr 'c') :
    v.switch argv = (do v.databaseCreate; v.databaseWrite) := if_pos h

/-- The case `g`. -/
theorem switch_get (h : actionOf argv = chr 'g') : v.switch argv =
    if argv.length ≠ 4 then die "Need an id to get" else databaseGet (idOf argv) := by
  rw [switch, h]
  rfl

/-- The case `s`. -/
theorem switch_set (h : actionOf argv = chr 's') : v.switch argv =
    if argv.length ≠ 6 then die "Need id, name, email to set"
    else (do databaseSet (idOf argv) (argAt argv 4) (argAt argv 5); v.databaseWrite) := by
  rw [switch, h]
  rfl

/-- The case `d`. -/
theorem switch_delete (h : actionOf argv = chr 'd') : v.switch argv =
    if argv.length ≠ 4 then die "Need id to delete"
    else (do v.databaseDelete (idOf argv); v.databaseWrite) := by
  rw [switch, h]
  rfl

/-- The case `l`. -/
theorem switch_list (h : actionOf argv = chr 'l') : v.switch argv = databaseList := by
  rw [switch, h]
  rfl

/-- The default case. -/
theorem switch_default
    (h : actionOf argv ∉ [chr 'c', chr 'g', chr 's', chr 'd', chr 'l']) : v.switch argv =
      die "Invalid action: c=create, g=get, s=set, d=del, l=list" := by
  simp only [List.mem_cons, List.not_mem_nil, or_false, not_or] at h
  obtain ⟨hc, hg, hs, hd, hl⟩ := h
  simp only [switch, if_neg hc, if_neg hg, if_neg hs, if_neg hd, if_neg hl]

end Version

/-! ### Printing -/

/-- What `Address_print` prints for row `i`, if both scans end inside the table. -/
def rowLine? (db : Mem) (i : ℕ) : Option (List UInt8) := do
  let name ← db.scan (i * addressSize + nameOffset) (databaseSize - (i * addressSize + nameOffset))
  let email ← db.scan (i * addressSize + emailOffset)
    (databaseSize - (i * addressSize + emailOffset))
  return decimal ((rowId db i : ℤ).bmod (2 ^ 32)) ++ [chr ' '] ++ name ++ [chr ' '] ++ email ++
    [chr '\n']

/-- What `Database_list` prints for row `i`. -/
def rowText? (db : Mem) (i : ℕ) : Option (List UInt8) :=
  if rowSet db i ≠ 0 then rowLine? db i else some []

/-- The effect of printing a text, or of running out of the table. -/
def printed (s : Process) : Option (List UInt8) → EStateM.Result Exit Process Unit
  | some l => .ok () { s with out := s.out ++ l }
  | none => .error .fault s

/-- A string that ends inside the object is read. -/
theorem stringAt_some {a : ℕ} {l : List UInt8} (h : s.db.scan a (databaseSize - a) = some l) :
    stringAt a s = .ok l s := by
  rw [stringAt, run_get_bind]
  simp only [h]
  rfl

/-- One that does not is read past the end of the object. -/
theorem stringAt_none {a : ℕ} (h : s.db.scan a (databaseSize - a) = none) :
    stringAt a s = .error .fault s := by
  rw [stringAt, run_get_bind]
  simp only [h]
  rfl

/-- What `Address_print` prints of a row. -/
theorem addressPrint_eq : addressPrint (i * addressSize) s = printed s (rowLine? s.db i) := by
  rw [addressPrint, run_get_bind, rowLine?]
  cases hname : s.db.scan (i * addressSize + nameOffset)
      (databaseSize - (i * addressSize + nameOffset)) with
  | none =>
      rw [run_bind_error (stringAt_none hname)]
      rfl
  | some name =>
      rw [run_bind_ok (stringAt_some hname)]
      cases hemail : s.db.scan (i * addressSize + emailOffset)
          (databaseSize - (i * addressSize + emailOffset)) with
      | none =>
          rw [run_bind_error (stringAt_none hemail)]
          rfl
      | some email =>
          rw [run_bind_ok (stringAt_some hemail)]
          rfl

/-- A turn of the loop of `Database_list` prints the row if it is set. -/
theorem listRow_eq : listRow i s = printed s (rowText? s.db i) := by
  rw [listRow, run_get_bind, rowText?, rowSet]
  split_ifs with hset
  · exact addressPrint_eq
  · simp only [printed, List.append_nil]
    rfl

/-- `Database_get` prints a row that is set. -/
theorem databaseGet_set (hi : i < maxRows) (hset : rowSet s.db i ≠ 0) :
    databaseGet i s = printed s (rowLine? s.db i) := by
  rw [rowSet] at hset
  rw [databaseGet, run_bind_ok (rowAddr_eq hi), run_get_bind, if_pos hset]
  exact addressPrint_eq

/-- And stops at one that is not. -/
theorem databaseGet_unset (hi : i < maxRows) (hset : rowSet s.db i = 0) :
    databaseGet i s = .error (.die "ID is not set") s := by
  rw [rowSet] at hset
  rw [databaseGet, run_bind_ok (rowAddr_eq hi), run_get_bind, if_neg (not_not.mpr hset)]
  rfl

/-- The loop of `Database_list` over rows that can all be printed. -/
theorem listRows_eq {f : ℕ → List UInt8} (l : List ℕ)
    (hl : ∀ i ∈ l, rowText? s.db i = some (f i)) :
    l.forM listRow s = .ok PUnit.unit { s with out := s.out ++ l.flatMap f } := by
  induction l generalizing s with
  | nil =>
      rw [List.flatMap_nil, List.append_nil]
      rfl
  | cons i l ih =>
      have hrun : listRow i s = .ok () { s with out := s.out ++ f i } := by
        rw [listRow_eq, hl i List.mem_cons_self]
        rfl
      have hrest := ih (s := { s with out := s.out ++ f i }) fun j hj =>
        hl j (List.mem_cons_of_mem i hj)
      change (listRow i >>= fun _ => l.forM listRow) s = _
      rw [run_bind_ok hrun, hrest, List.flatMap_cons, List.append_assoc]

/-- The line that shows the entry `e` under the id `i`. -/
def addressLine (i : ℕ) (e : Entry) : List UInt8 :=
  decimal i ++ [chr ' '] ++ e.1.bytes ++ [chr ' '] ++ e.2.bytes ++ [chr '\n']

/-- A number that fits in an `int` is not changed by the conversion. -/
theorem bmod_small (h : label < 2 ^ 31) : (label : ℤ).bmod (2 ^ 32) = label := by
  rw [Int.bmod_def]
  omega

/-- The index of a row fits in an `int`. -/
theorem lt_int_of_row (hi : i < maxRows) : i < 2 ^ 31 := hi.trans (by decide)

/-- A row whose strings are shorter than its fields is printed as it was stored, under the id
that it carries. -/
theorem rowLine?_eq (hi : i < maxRows) (hid : rowId db i = label) (hsmall : label < 2 ^ 31)
    (hf : FieldsHold db i e) (hname : e.1.bytes.length < maxData)
    (hemail : e.2.bytes.length < maxData) : rowLine? db i = some (addressLine label e) := by
  obtain ⟨hsize, -, hn, he, hdata⟩ := address_layout
  have hend : i * addressSize + addressSize ≤ databaseSize := by
    have := row_lt hi (k := 1031) (by omega)
    omega
  rw [rowLine?, hf.name.scan_eq hname (by omega), hf.email.scan_eq hemail (by omega), hid,
    bmod_small hsmall]
  rfl

end OsAndC
