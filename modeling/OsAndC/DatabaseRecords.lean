import OsAndC.DatabaseRows

/-!
# Reading Records Back

`Database_set` stores a string with `strncpy`, which leaves no NUL behind a string that fills
its field, and `Address_print` prints up to the next NUL, wherever that is. So a record is
read back as its first `MAX_DATA - 1` bytes (`ReadsBack`) exactly if both strings are shorter
than their fields (`readsBack_iff`): a longer one is printed with at least `MAX_DATA` bytes,
and what follows it is whatever the table has there.

The tables are those the program makes (`Made`). All that matters about them is that every
row has its own id in front: the id of the next row ends the scan of every row but the last.
-/

namespace OsAndC

/-- The tables the program makes: by `Database_create`, and from another one by `Database_set`,
`Database_delete`, or writing it to the file and loading it into other memory. -/
inductive Made : Mem → Prop
  | create {s s' : Process} : ex17.databaseCreate s = .ok () s' → Made s'.db
  | set {s s' : Process} {id : ℤ} {name email : CString} : Made s.db →
      databaseSet id name email s = .ok () s' → Made s'.db
  | delete {s s' : Process} {id : ℤ} : Made s.db → ex17.databaseDelete id s = .ok () s' → Made s'.db
  | reload {s s₁ s₂ : Process} {junk : Mem} : Made s.db → ex17.databaseWrite s = .ok () s₁ →
      ex17.databaseLoad { s₁ with db := junk } = .ok () s₂ → Made s₂.db

/-- Every row carries its own id. -/
def OwnIds (db : Mem) : Prop := ∀ i < maxRows, rowId db i = i

/-- `Database_set` and `Database_write`, and `Database_load` in a new process. -/
def storeThenLoad (i : ℕ) (name email : CString) (junk : Mem) : Prog Unit := do
  databaseSet i name email
  ex17.databaseWrite
  modify fun s => { s with db := junk, out := [] }
  ex17.databaseLoad

/-- The line for a row, each string cut off so that a NUL fits behind it. -/
def shownLine (i : ℕ) (name email : CString) : List UInt8 :=
  decimal i ++ [chr ' '] ++ name.bytes.take (maxData - 1) ++ [chr ' '] ++
    email.bytes.take (maxData - 1) ++ [chr '\n']

/-- `Database_list` gets to row `i`, and prints `text` for it. -/
def ListShows (s : Process) (i : ℕ) (text : List UInt8) : Prop :=
  ∃ rows rest out, List.range maxRows = rows ++ i :: rest ∧
    rows.forM listRow s = .ok PUnit.unit { s with out := out } ∧
    listRow i { s with out := out } = .ok () { s with out := out ++ text }

/-- What is stored in row `i` is read back, cut off, by `Database_get` and `Database_list`,
and every other row is as it was. -/
def ReadsBack (s : Process) (i : ℕ) (name email : CString) (junk : Mem) : Prop :=
  ∃ s', storeThenLoad i name email junk s = .ok () s' ∧
    databaseGet i s' = .ok () { s' with out := shownLine i name email } ∧
    ListShows s' i (shownLine i name email) ∧
    ∀ j < maxRows, j ≠ i → SameRow s.db s'.db j

variable {s s' : Process} {db db' junk : Mem} {i j : ℕ} {name email : CString} {id : ℤ}
  {old : List UInt8}

/-! ### Every row carries its own id -/

/-- A change of one row that keeps its id. -/
theorem OwnIds.update (hids : OwnIds db) (hi : i < maxRows → rowId db' i = i)
    (hsame : ∀ j < maxRows, j ≠ i → SameRow db db' j) : OwnIds db' := by
  intro j hj
  by_cases hji : j = i
  · subst hji
    exact hi hj
  · exact (hsame j hj hji).rowId.trans (hids j hj)

/-- The access to a row succeeds only for a row of the table. -/
theorem of_rowAddr_ok {a : ℕ} (h : rowAddr id s = .ok a s') :
    ∃ i : ℕ, id = i ∧ i < maxRows := by
  rw [rowAddr] at h
  split_ifs at h with hid
  · exact ⟨id.toNat, by omega, by omega⟩
  · cases h

/-- `Database_set` has filled a row of the table. -/
theorem of_databaseSet_ok (h : databaseSet id name email s = .ok () s') :
    ∃ i : ℕ, id = i ∧ s'.db = filled s.db i name email := by
  obtain ⟨a, s₁, haddr, -⟩ := of_run_bind_ok h
  obtain ⟨i, rfl, hi⟩ := of_rowAddr_ok haddr
  by_cases hset : rowSet s.db i = 0
  · rw [databaseSet_unset hi hset] at h
    cases h
    exact ⟨i, rfl, rfl⟩
  · rw [databaseSet_set hi hset] at h
    cases h

/-- `Database_delete` has cleared one and left the others. -/
theorem of_databaseDelete_ok (h : ex17.databaseDelete id s = .ok () s') :
    ∃ i : ℕ, id = i ∧ Cleared s'.db i i ∧ ∀ j, j ≠ i → SameRow s.db s'.db j := by
  obtain ⟨a, s₁, haddr, -⟩ := of_run_bind_ok h
  obtain ⟨i, rfl, hi⟩ := of_rowAddr_ok haddr
  obtain ⟨db', hclear, hcleared, hsame⟩ := Version.databaseDelete_spec (s := s) ex17_small hi
  rw [hclear] at h
  cases h
  exact ⟨i, rfl, hcleared, hsame⟩

/-- What is loaded after the table has been written has the same rows. -/
theorem of_write_load {s₁ s₂ : Process} (hwrite : ex17.databaseWrite s = .ok () s₁)
    (hload : ex17.databaseLoad s₂ = .ok () s') (hfile : s₂.file = s₁.file) (hi : i < maxRows) :
    SameRow s.db s'.db i := by
  cases hf : s.file with
  | none =>
      -- there is no file to load from
      cases hwrite
      have hnone : s₂.file = none := by
        rw [hfile]
        change s.file.map _ = none
        rw [hf]
        rfl
      rw [Version.databaseLoad, run_get_bind] at hload
      simp only [hnone] at hload
      cases hload
  | some old =>
      rw [databaseWrite_eq hf] at hwrite
      cases hwrite
      rw [Version.databaseLoad_eq hfile (le_written _ _)] at hload
      cases hload
      dsimp only
      exact loaded_written hi

/-- Every table the program makes has its own ids in its rows. -/
theorem Made.ownIds (h : Made db) : OwnIds db := by
  induction h with
  | @create s s' hrun =>
      obtain ⟨db', hcreate, hcleared⟩ := Version.databaseCreate_spec (s := s) ex17_small
      rw [hcreate] at hrun
      cases hrun
      exact fun i hi => (hcleared i hi).1
  | @set s s' id name email _ hrun ih =>
      obtain ⟨i, rfl, hdb⟩ := of_databaseSet_ok hrun
      obtain ⟨hid, -, -, hsame⟩ := filled_spec s.db i name email
      rw [hdb]
      exact OwnIds.update ih (fun hi => hid.trans (ih i hi)) fun j _ => hsame j
  | delete _ hrun ih =>
      obtain ⟨i, rfl, hcleared, hsame⟩ := of_databaseDelete_ok hrun
      exact OwnIds.update ih (fun _ => hcleared.1) fun j _ => hsame j
  | @reload s s₁ s₂ junk _ hwrite hload ih =>
      exact fun i hi => (of_write_load hwrite hload rfl hi).rowId.trans (ih i hi)

/-! ### Rows that can be printed -/

/-- In a table with ids, the string in any row but the last ends in the next row at the
latest. -/
theorem OwnIds.exists_scan (hids : OwnIds db) (hj : j + 1 < maxRows) {k : ℕ}
    (hk : k < addressSize) :
    ∃ l, db.scan (j * addressSize + k) (databaseSize - (j * addressSize + k)) = some l := by
  have hlt : rowId db (j + 1) < 256 := by
    rw [hids _ hj]
    exact hj.trans (by decide)
  rw [rowId] at hlt
  have hzero : db ((j + 1) * addressSize + 1) = 0 := Mem.eq_zero_of_load32_lt hlt
  have hend := row_lt hj (k := 1) (by decide)
  rw [Nat.succ_mul] at hzero hend
  refine Mem.exists_scan (i := addressSize + 1 - k) (by omega) ?_
  rwa [show j * addressSize + k + (addressSize + 1 - k) = j * addressSize + addressSize + 1 by
    omega]

/-- So `Database_list` gets past every row but the last. -/
theorem OwnIds.exists_rowText (hids : OwnIds db) (hj : j + 1 < maxRows) :
    ∃ text, rowText? db j = some text := by
  obtain ⟨name, hname⟩ := hids.exists_scan hj (k := nameOffset) (by decide)
  obtain ⟨email, hemail⟩ := hids.exists_scan hj (k := emailOffset) (by decide)
  rw [rowText?]
  split_ifs
  · rw [rowLine?, hname, hemail]
    exact ⟨_, rfl⟩
  · exact ⟨_, rfl⟩

/-- `Database_list` shows the text of any row that has one. -/
theorem OwnIds.listShows (hids : OwnIds s.db) (hi : i < maxRows) {text : List UInt8}
    (htext : rowText? s.db i = some text) : ListShows s i text := by
  have hrange : List.range maxRows =
      List.range i ++ i :: (List.range (maxRows - (i + 1))).map (i + 1 + ·) := by
    rw [List.append_cons, ← List.range_succ, ← List.range_add]
    exact congrArg List.range (by omega)
  have hrows := listRows_eq (s := s) (f := fun j => (rowText? s.db j).getD []) (List.range i)
    fun j hj => by
      obtain ⟨text, htext⟩ := hids.exists_rowText (j := j) (by have := List.mem_range.mp hj; omega)
      rw [htext]
      rfl
  refine ⟨_, _, _, hrange, hrows, ?_⟩
  rw [listRow_eq]
  dsimp only
  rw [htext]
  rfl

/-- What is printed for a row has at least the bytes that are stored in it. -/
theorem le_rowLine_length {e : Entry} {line : List UInt8} (hid : rowId db i = i)
    (hi : i < maxRows) (hf : FieldsHold db i e) (hline : rowLine? db i = some line) :
    (decimal i).length + min e.1.bytes.length maxData + min e.2.bytes.length maxData + 3 ≤
      line.length := by
  rw [rowLine?, hid, bmod_small (lt_int_of_row hi)] at hline
  obtain ⟨name, hname, hline⟩ := Option.bind_eq_some_iff.mp hline
  obtain ⟨email, hemail, hline⟩ := Option.bind_eq_some_iff.mp hline
  have hname' := hf.name.le_scan_length hname
  have hemail' := hf.email.le_scan_length hemail
  cases hline
  simp only [List.length_append, List.length_singleton]
  omega

/-! ### Storing and reading back -/

/-- After storing and loading, the row holds the strings and is set, and every other row is as
it was. -/
theorem storeThenLoad_spec (name email : CString) (junk : Mem) (hi : i < maxRows)
    (hset : rowSet s.db i = 0) (hfile : s.file = some old) : ∃ file db',
      storeThenLoad i name email junk s = .ok () ⟨file, db', []⟩ ∧
      rowId db' i = rowId s.db i ∧ rowSet db' i = 1 ∧ FieldsHold db' i (name, email) ∧
      ∀ j < maxRows, j ≠ i → SameRow s.db db' j := by
  obtain ⟨hid, hone, hfields, hsame⟩ := filled_spec s.db i name email
  have hwrite := databaseWrite_eq (s := { s with db := filled s.db i name email }) hfile
  have hload := Version.databaseLoad_eq (v := ex17) (s := ⟨some ((filled s.db i name email).bytes
    0 databaseSize ++ old.drop databaseSize), junk, []⟩) rfl
    (le_written (filled s.db i name email) old)
  dsimp only at hwrite hload
  have hloaded := fun j => of_write_load (i := j) hwrite hload rfl
  dsimp only at hloaded
  refine ⟨_, _, Eq.trans ?_ hload, (hloaded i hi).rowId.trans hid, (hloaded i hi).rowSet.trans hone,
    (hloaded i hi).fieldsHold hfields, fun j hj hji => (hsame j hji).trans (hloaded j hj)⟩
  rw [storeThenLoad, run_bind_ok (databaseSet_unset hi hset), run_bind_ok hwrite, run_modify_bind]

/-- Whatever is read back is shorter than its field. -/
theorem lt_of_readsBack (hids : OwnIds s.db) (hi : i < maxRows) (hset : rowSet s.db i = 0)
    (hfile : s.file = some old) (h : ReadsBack s i name email junk) :
    name.bytes.length < maxData ∧ email.bytes.length < maxData := by
  obtain ⟨file, db', hrun, hid, hone, hfields, -⟩ := storeThenLoad_spec name email junk
    hi hset hfile
  obtain ⟨s', hrun', hget', -, -⟩ := h
  rw [hrun] at hrun'
  cases hrun'
  have hget := databaseGet_set (s := ⟨file, db', []⟩) hi (by rw [hone]; decide)
  rw [hget'] at hget
  cases hline : rowLine? db' i with
  | none =>
      rw [hline] at hget
      cases hget
  | some line =>
      rw [hline] at hget
      have hshown : shownLine i name email = line :=
        congrArg Process.out (EStateM.Result.ok.inj hget).2
      have hle := le_rowLine_length (hid.trans (hids i hi)) hi hfields hline
      rw [← hshown] at hle
      simp only [shownLine, List.length_append, List.length_singleton, List.length_take] at hle
      have hdata : maxData = 512 := rfl
      omega

/-- **Records read back exactly if they are short enough.** -/
theorem readsBack_iff (hmade : Made s.db) (hi : i < maxRows) (hset : rowSet s.db i = 0)
    (hfile : s.file = some old) : ReadsBack s i name email junk ↔
      name.bytes.length < maxData ∧ email.bytes.length < maxData := by
  refine ⟨lt_of_readsBack hmade.ownIds hi hset hfile, ?_⟩
  rintro ⟨hname, hemail⟩
  obtain ⟨file, db', hrun, hid, hone, hfields, hsame⟩ := storeThenLoad_spec name email junk
    hi hset hfile
  have hown : OwnIds db' := OwnIds.update hmade.ownIds
    (fun _ => hid.trans (hmade.ownIds i hi)) hsame
  have hset' : rowSet db' i ≠ 0 := by
    rw [hone]
    decide
  have hline : rowLine? db' i = some (shownLine i name email) := by
    rw [rowLine?_eq hi (hown i hi) (lt_int_of_row hi) hfields hname hemail, shownLine,
      List.take_of_length_le (by omega), List.take_of_length_le (by omega)]
    rfl
  have hget := databaseGet_set (s := ⟨file, db', []⟩) hi hset'
  rw [hline] at hget
  exact ⟨⟨file, db', []⟩, hrun, hget, hown.listShows hi (by rw [rowText?, if_pos hset', hline]),
    hsame⟩

/-- A name that is one byte too long. -/
def longName : CString :=
  ⟨List.replicate 512 (chr 'a'), fun h => absurd (List.eq_of_mem_replicate h) (by decide)⟩

/-- A row of a new file, with a name and an email of one character. -/
theorem readsBack_iff_rowSeven : ∃ s, ex17.databaseCreate ⟨some [], fun _ => 0, []⟩ = .ok () s ∧
    (ReadsBack s 7 (.of [chr 'a']) (.of [chr 'b']) (fun _ => 1) ↔
      [chr 'a'].length < maxData ∧ [chr 'b'].length < maxData) := by
  obtain ⟨db', hcreate, hcleared⟩ :=
    Version.databaseCreate_spec (s := ⟨some [], fun _ => 0, []⟩) ex17_small
  exact ⟨_, hcreate, readsBack_iff (.create hcreate) (by decide) (hcleared 7 (by decide)).2 rfl⟩

/-- In a new database, a name of 512 bytes is not read back. -/
theorem not_readsBack_longName : ∃ s, ex17.databaseCreate ⟨some [], fun _ => 0, []⟩ = .ok () s ∧
    ¬ ReadsBack s 7 longName (.of [chr 'b']) (fun _ => 1) := by
  obtain ⟨db', hcreate, hcleared⟩ :=
    Version.databaseCreate_spec (s := ⟨some [], fun _ => 0, []⟩) ex17_small
  refine ⟨_, hcreate, fun h => ?_⟩
  have hlt := (lt_of_readsBack (Made.create hcreate).ownIds (by decide)
    (hcleared 7 (by decide)).2 rfl h).1
  rw [longName, List.length_replicate] at hlt
  exact absurd hlt (by decide)

end OsAndC
