import OsAndC.DatabaseMap

/-!
# Rejected Commands

An invocation that is no valid command should end in `die` and leave the file as it was
(`Rejected`). `Invalid` lists what makes an invocation invalid, with the number of arguments
the program asks for itself: `c` and `l` take any. Two slips of `main` let some of them
through. The file is opened before the arguments are looked at, so a `c` that is turned down
has truncated it already; and only one end of the range of ids is tested, so a negative id
reaches the table, or goes unnoticed where no row is looked up.

`rejected_iff` says that these are the only ones: an invalid invocation is rejected exactly
if it is none of `Slips`.
-/

namespace OsAndC

/-- On a file with these bytes, the invocation is no valid command. -/
inductive Invalid (argv : List CString) (bytes : List UInt8) : Prop
  | usage : argv.length < 3 → Invalid argv bytes
  | action : actionOf argv ∉ [chr 'c', chr 'g', chr 's', chr 'd', chr 'l'] → Invalid argv bytes
  | arity : (actionOf argv = chr 'g' ∨ actionOf argv = chr 'd') ∧ argv.length ≠ 4 ∨
      actionOf argv = chr 's' ∧ argv.length ≠ 6 → Invalid argv bytes
  | id : idOf argv < 0 ∨ maxRows ≤ idOf argv → Invalid argv bytes
  | short : actionOf argv ≠ chr 'c' → bytes.length < databaseSize → Invalid argv bytes
  | alreadySet {i : ℕ} : actionOf argv = chr 's' → idOf argv = i → i < maxRows →
      rowSet (tableOf bytes) i ≠ 0 → Invalid argv bytes
  | notSet {i : ℕ} : actionOf argv = chr 'g' → idOf argv = i → i < maxRows →
      rowSet (tableOf bytes) i = 0 → Invalid argv bytes

/-- The run ends in `die`, so no row outside the table has been touched, and the file is byte
for byte what it was. -/
def Rejected (argv : List CString) (junk : Mem) (bytes : List UInt8) : Prop :=
  ∃ message, ex17.invoke argv junk (some bytes) = (some bytes, .error (.die message))

/-- What gets through: a `c` with a negative id; a `c` with an id that is too large, which is
turned down after it has emptied the file; and any other command with a negative id, if it
gets as far as using it. -/
inductive Slips (argv : List CString) (bytes : List UInt8) : Prop
  | createNegative : actionOf argv = chr 'c' → idOf argv < 0 → Slips argv bytes
  | createTruncates : actionOf argv = chr 'c' → maxRows ≤ idOf argv → bytes ≠ [] →
      Slips argv bytes
  | negative : idOf argv < 0 → databaseSize ≤ bytes.length →
      (actionOf argv = chr 'g' ∨ actionOf argv = chr 'd') ∧ argv.length = 4 ∨
        actionOf argv = chr 's' ∧ argv.length = 6 ∨ actionOf argv = chr 'l' → Slips argv bytes

variable {s : Process} {db junk : Mem} {bytes : List UInt8} {argv : List CString} {message : String}

/-! ### How a run can end -/

/-- A run that dies and has changed no file has rejected the invocation. -/
theorem rejected_of_die (h : ex17.main argv ⟨some bytes, junk, []⟩ =
    .error (.die message) ⟨some bytes, db, []⟩) : Rejected argv junk bytes :=
  ⟨message, Version.invoke_error h⟩

/-- One that succeeds has not. -/
theorem not_rejected_of_ok (h : ex17.main argv ⟨some bytes, junk, []⟩ = .ok () s) :
    ¬ Rejected argv junk bytes := by
  rintro ⟨message, hrej⟩
  rw [Version.invoke_ok h] at hrej
  cases congrArg Prod.snd hrej

/-- One that leaves the object has not either. -/
theorem not_rejected_of_fault (h : ex17.main argv ⟨some bytes, junk, []⟩ = .error .fault s) :
    ¬ Rejected argv junk bytes := by
  rintro ⟨message, hrej⟩
  rw [Version.invoke_error h] at hrej
  cases congrArg Prod.snd hrej

/-- `Database_list` does not end in `die`. -/
theorem listRows_ends (l : List ℕ) : (∃ s', l.forM listRow s = .ok PUnit.unit s') ∨
    ∃ s', l.forM listRow s = .error .fault s' := by
  induction l generalizing s with
  | nil => exact Or.inl ⟨s, rfl⟩
  | cons i l ih =>
      change (∃ s', (listRow i >>= fun _ => l.forM listRow) s = _) ∨
        ∃ s', (listRow i >>= fun _ => l.forM listRow) s = _
      have hrun := listRow_eq (s := s) (i := i)
      cases htext : rowText? s.db i with
      | none =>
          rw [htext] at hrun
          exact Or.inr ⟨s, run_bind_error hrun⟩
      | some text =>
          rw [htext] at hrun
          rw [run_bind_ok hrun]
          exact ih

/-! ### The commands one by one -/

/-- `c` is rejected only for an id that is too large, and then only on an empty file. -/
theorem create_rejected_iff (hargs : 3 ≤ argv.length) (haction : actionOf argv = chr 'c') :
    Rejected argv junk bytes ↔ maxRows ≤ idOf argv ∧ bytes = [] := by
  have hopen : ex17.databaseOpen (actionOf argv) ⟨some bytes, junk, []⟩ =
      .ok () ⟨some [], junk, []⟩ := by
    rw [haction]
    rfl
  by_cases hid : maxRows ≤ idOf argv
  · have hrun := Version.main_large hargs hopen hid
    constructor
    · rintro ⟨message, hrej⟩
      rw [Version.invoke_error hrun] at hrej
      exact ⟨hid, (Option.some.inj (congrArg Prod.fst hrej)).symm⟩
    · rintro ⟨-, rfl⟩
      exact rejected_of_die hrun
  · obtain ⟨db', hcreate, -⟩ := Version.databaseCreate_spec (s := ⟨some [], junk, []⟩) ex17_small
    have hrun : ∃ s', ex17.main argv ⟨some bytes, junk, []⟩ = .ok () s' := by
      rw [Version.main_opened hargs hopen (by omega), Version.switch_create haction,
        run_bind_ok hcreate]
      exact ⟨_, databaseWrite_eq rfl⟩
    obtain ⟨s', hrun⟩ := hrun
    exact ⟨fun hrej => absurd hrej (not_rejected_of_ok hrun), fun h => absurd h.1 hid⟩

/-- Any other command is rejected on a file that is too short. -/
theorem short_rejected (hargs : 3 ≤ argv.length) (haction : actionOf argv ≠ chr 'c')
    (hshort : bytes.length < databaseSize) : Rejected argv junk bytes := by
  have hrun : ex17.main argv ⟨some bytes, junk, []⟩ =
      .error (.die "Failed to load database.") ⟨some bytes, junk, []⟩ := by
    rw [Version.main, if_neg (by omega), run_bind_error]
    rw [databaseOpen_eq rfl haction, Version.databaseLoad_short rfl hshort]
    rfl
  exact rejected_of_die hrun

/-- On any other file it gets as far as the test of the id, with the table loaded. -/
theorem opened (junk : Mem) (haction : actionOf argv ≠ chr 'c')
    (hlen : databaseSize ≤ bytes.length) :
    ∃ db, ex17.databaseOpen (actionOf argv) ⟨some bytes, junk, []⟩ = .ok () ⟨some bytes, db, []⟩ ∧
      ∀ i < maxRows, rowSet db i = rowSet (tableOf bytes) i := by
  refine ⟨junk.write 0 (bytes.take databaseSize), ?_, fun i hi => ?_⟩
  · rw [databaseOpen_eq rfl haction, Version.databaseLoad_eq rfl hlen]
  · exact (SameRow.of_table (fun c hc => loaded_apply hlen hc) hi).rowSet

/-- A negative id that is used is not rejected. -/
theorem negative_not_rejected (hargs : 3 ≤ argv.length) (hlen : databaseSize ≤ bytes.length)
    (hid : idOf argv < 0)
    (huse : (actionOf argv = chr 'g' ∨ actionOf argv = chr 'd') ∧ argv.length = 4 ∨
      actionOf argv = chr 's' ∧ argv.length = 6 ∨ actionOf argv = chr 'l') :
    ¬ Rejected argv junk bytes := by
  have hc : actionOf argv ≠ chr 'c' := by
    rcases huse with ⟨h | h, -⟩ | ⟨h, -⟩ | h <;> rw [h] <;> decide
  obtain ⟨db, hopen, -⟩ := opened junk hc hlen
  have hmain := Version.main_opened hargs hopen (by omega)
  rcases huse with ⟨hg | hd, h4⟩ | ⟨hs, h6⟩ | hl
  · refine not_rejected_of_fault (s := ⟨some bytes, db, []⟩) ?_
    rw [hmain, Version.switch_get hg, if_neg (not_not.mpr h4), databaseGet,
      run_bind_error (rowAddr_fault hid)]
  · refine not_rejected_of_fault (s := ⟨some bytes, db, []⟩) ?_
    rw [hmain, Version.switch_delete hd, if_neg (not_not.mpr h4), run_bind_error]
    rw [Version.databaseDelete, run_bind_error (rowAddr_fault hid)]
  · refine not_rejected_of_fault (s := ⟨some bytes, db, []⟩) ?_
    rw [hmain, Version.switch_set hs, if_neg (not_not.mpr h6), run_bind_error]
    rw [databaseSet, run_bind_error (rowAddr_fault hid)]
  · rw [Version.switch_list hl] at hmain
    rcases listRows_ends (s := ⟨some bytes, db, []⟩) (List.range maxRows) with
      ⟨s', hrun⟩ | ⟨s', hrun⟩
    · exact not_rejected_of_ok (hmain.trans hrun)
    · exact not_rejected_of_fault (hmain.trans hrun)

/-- The `switch` dies of an unknown action. -/
theorem switch_unknown (h : actionOf argv ∉ [chr 'c', chr 'g', chr 's', chr 'd', chr 'l']) :
    ∃ message, ex17.switch argv s = .error (.die message) s := by
  rw [Version.switch_default h]
  exact ⟨_, rfl⟩

/-- The `switch` dies of a wrong number of arguments. -/
theorem switch_arity (h : (actionOf argv = chr 'g' ∨ actionOf argv = chr 'd') ∧ argv.length ≠ 4 ∨
    actionOf argv = chr 's' ∧ argv.length ≠ 6) :
    ∃ message, ex17.switch argv s = .error (.die message) s := by
  rcases h with ⟨hg | hd, h4⟩ | ⟨hs, h6⟩
  · rw [Version.switch_get hg, if_pos h4]
    exact ⟨_, rfl⟩
  · rw [Version.switch_delete hd, if_pos h4]
    exact ⟨_, rfl⟩
  · rw [Version.switch_set hs, if_pos h6]
    exact ⟨_, rfl⟩

/-- A known action with the right number of arguments uses its id. -/
theorem uses_id (haction : actionOf argv ≠ chr 'c')
    (hknown : actionOf argv ∈ [chr 'c', chr 'g', chr 's', chr 'd', chr 'l'])
    (harity : ¬ ((actionOf argv = chr 'g' ∨ actionOf argv = chr 'd') ∧ argv.length ≠ 4 ∨
      actionOf argv = chr 's' ∧ argv.length ≠ 6)) :
    (actionOf argv = chr 'g' ∨ actionOf argv = chr 'd') ∧ argv.length = 4 ∨
      actionOf argv = chr 's' ∧ argv.length = 6 ∨ actionOf argv = chr 'l' := by
  simp only [List.mem_cons, List.not_mem_nil, or_false] at hknown
  tauto

/-- On a file that is long enough, an invalid command other than `c` is rejected unless it is
a slip. -/
theorem loaded_rejected (hargs : 3 ≤ argv.length) (haction : actionOf argv ≠ chr 'c')
    (hlen : databaseSize ≤ bytes.length) (hinv : Invalid argv bytes)
    (hslip : ¬ Slips argv bytes) : Rejected argv junk bytes := by
  obtain ⟨db, hopen, hset⟩ := opened junk haction hlen
  by_cases hlarge : maxRows ≤ idOf argv
  · exact rejected_of_die (Version.main_large hargs hopen hlarge)
  have hmain := Version.main_opened hargs hopen (by omega)
  have hdies : (∃ message, ex17.switch argv ⟨some bytes, db, []⟩ =
      .error (.die message) ⟨some bytes, db, []⟩) → Rejected argv junk bytes :=
    fun ⟨_, h⟩ => rejected_of_die (hmain.trans h)
  by_cases hknown : actionOf argv ∈ [chr 'c', chr 'g', chr 's', chr 'd', chr 'l']
  swap
  · exact hdies (switch_unknown hknown)
  by_cases harity : (actionOf argv = chr 'g' ∨ actionOf argv = chr 'd') ∧ argv.length ≠ 4 ∨
      actionOf argv = chr 's' ∧ argv.length ≠ 6
  · exact hdies (switch_arity harity)
  have huse := uses_id haction hknown harity
  -- what is left to be wrong is the id, or the row it selects
  cases hinv with
  | usage h => omega
  | action h => exact absurd hknown h
  | arity h => exact absurd h harity
  | id h => exact absurd (.negative (h.resolve_right hlarge) hlen huse) hslip
  | short _ h => omega
  | @alreadySet i hs hid hi hrow =>
      have h6 : argv.length = 6 := by
        by_contra h6
        exact harity (Or.inr ⟨hs, h6⟩)
      refine hdies ⟨"Already set, delete it first", ?_⟩
      rw [Version.switch_set hs, if_neg (not_not.mpr h6), hid, run_bind_error]
      exact databaseSet_set hi (by rw [hset i hi]; exact hrow)
  | @notSet i hg hid hi hrow =>
      have h4 : argv.length = 4 := by
        by_contra h4
        exact harity (Or.inl ⟨Or.inl hg, h4⟩)
      refine hdies ⟨"ID is not set", ?_⟩
      rw [Version.switch_get hg, if_neg (not_not.mpr h4), hid]
      exact databaseGet_unset hi (by rw [hset i hi]; exact hrow)

/-! ### The exact condition -/

/-- An invalid `c` has an id that is out of range. -/
theorem Invalid.id_of_create (hinv : Invalid argv bytes) (hargs : 3 ≤ argv.length)
    (haction : actionOf argv = chr 'c') : idOf argv < 0 ∨ maxRows ≤ idOf argv := by
  have hne : ∀ x ∈ [chr 'g', chr 's', chr 'd', chr 'l'], actionOf argv ≠ x := by
    simp only [haction, List.forall_mem_cons]
    exact ⟨by decide, by decide, by decide, by decide, by simp⟩
  cases hinv with
  | usage h => omega
  | action h => exact absurd (by rw [haction]; simp) h
  | arity h =>
      rcases h with ⟨hg | hd, -⟩ | ⟨hs, -⟩
      · exact absurd hg (hne _ (by simp))
      · exact absurd hd (hne _ (by simp))
      · exact absurd hs (hne _ (by simp))
  | id h => exact h
  | short h _ => exact absurd haction h
  | alreadySet hs _ _ _ => exact absurd hs (hne _ (by simp))
  | notSet hg _ _ _ => exact absurd hg (hne _ (by simp))

/-- **Invalid invocations are rejected exactly if they are no slips.** -/
theorem rejected_iff (hinv : Invalid argv bytes) :
    Rejected argv junk bytes ↔ ¬ Slips argv bytes := by
  by_cases hargs : 3 ≤ argv.length
  swap
  · have hid : idOf argv = 0 := if_neg (by omega)
    have hrej : Rejected argv junk bytes := rejected_of_die (Version.main_usage (by omega))
    refine iff_of_true hrej fun hslip => ?_
    cases hslip with
    | createNegative _ h => omega
    | createTruncates _ h _ => exact absurd (hid ▸ h) (by decide)
    | negative h _ _ => omega
  by_cases haction : actionOf argv = chr 'c'
  · rw [create_rejected_iff hargs haction]
    constructor
    · rintro ⟨hlarge, rfl⟩ hslip
      cases hslip with
      | createNegative _ h => omega
      | createTruncates _ _ h => exact h rfl
      | negative h _ _ => omega
    · intro hslip
      rcases hinv.id_of_create hargs haction with hid | hid
      · exact absurd (.createNegative haction hid) hslip
      · refine ⟨hid, ?_⟩
        by_contra hne
        exact hslip (.createTruncates haction hid hne)
  · constructor
    · rintro hrej (⟨hc, -⟩ | ⟨hc, -⟩ | ⟨hid, hlen, huse⟩)
      · exact haction hc
      · exact haction hc
      · exact negative_not_rejected hargs hlen hid huse hrej
    · intro hslip
      by_cases hlen : databaseSize ≤ bytes.length
      · exact loaded_rejected hargs haction hlen hinv hslip
      · exact short_rejected hargs haction (by omega)

/-- The arguments `ex17 f c`. -/
def createPlain : List CString := [.of [chr 'x'], .of [chr 'f'], .of [chr 'c']]

/-- What `ex17 f c` leaves is a file that can be loaded. -/
theorem exists_created : ∃ bytes, ex17.invoke createPlain (fun _ => 0) none =
    (some bytes, .ok []) ∧ bytes.length = databaseSize := by
  have hstart : Command.create = .create ∨ FileHolds none fun _ => none := Or.inl rfl
  have hinvokes : Invokes createPlain .create := .create rfl
  obtain ⟨hanswer, bytes, hfile, hlen, -⟩ := invoke_refines (fun _ => 0) hinvokes hstart
  exact ⟨bytes, Prod.ext hfile hanswer, hlen⟩

/-- The arguments `ex17 f g 100`. -/
def getHundred : List CString :=
  [.of [chr 'x'], .of [chr 'f'], .of [chr 'g'], .of [chr '1', chr '0', chr '0']]

/-- The id 100, on the file that `ex17 f c` makes. -/
theorem rejected_iff_getHundred : ∃ bytes,
    ex17.invoke createPlain (fun _ => 0) none = (some bytes, .ok []) ∧
    (Rejected getHundred (fun _ => 0) bytes ↔ ¬ Slips getHundred bytes) := by
  obtain ⟨bytes, hcreated, -⟩ := exists_created
  exact ⟨bytes, hcreated, rejected_iff (.id (Or.inr (by decide)))⟩

/-- The arguments `ex17 f c 100`. -/
def createHundred : List CString :=
  [.of [chr 'x'], .of [chr 'f'], .of [chr 'c'], .of [chr '1', chr '0', chr '0']]

/-- The arguments `ex17 f g -1`. -/
def getMinusOne : List CString :=
  [.of [chr 'x'], .of [chr 'f'], .of [chr 'g'], .of [chr '-', chr '1']]

/-- On the file that `ex17 f c` makes, `ex17 f c 100` dies and has emptied the file, and
`ex17 f g -1` accesses a row that does not exist. -/
theorem not_rejected_created : ∃ bytes,
    ex17.invoke createPlain (fun _ => 0) none = (some bytes, .ok []) ∧
    Invalid createHundred bytes ∧ ¬ Rejected createHundred (fun _ => 0) bytes ∧
    Invalid getMinusOne bytes ∧ ¬ Rejected getMinusOne (fun _ => 0) bytes := by
  obtain ⟨bytes, hcreated, hlen⟩ := exists_created
  refine ⟨bytes, hcreated, .id (Or.inr (by decide)), ?_, .id (Or.inl (by decide)), ?_⟩
  · rw [create_rejected_iff (by decide) (by decide)]
    rintro ⟨-, rfl⟩
    exact absurd hlen (by decide)
  · exact negative_not_rejected (by decide) hlen.ge (by decide) (Or.inl ⟨Or.inl rfl, rfl⟩)

end OsAndC
