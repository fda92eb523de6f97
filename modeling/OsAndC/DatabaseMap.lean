import Mathlib.Data.List.Forall2
import Mathlib.Logic.Function.Basic
import OsAndC.DatabaseRows

/-!
# The Database Is a Map

Seen from outside, the program keeps a map from ids to names and emails between its
invocations. `Command.apply` says what each command does to such a map and what it answers,
and `session` runs the program once for each command, each time with nothing but the file to
go on. `session_refines` relates the two: after a first `c`, every answer is that of the map,
and the file written holds the map, with every row under its own id.

A version may store another id in an empty row, so the map has labels for its rows
(`Labelled`), and `Version.enter` says what a command does to them. The relation between file
and map is `FileKeeps`; one command of either version carries it along (`Version.agrees`), from
whatever was in the memory of the new process. For `ex17.c` the labels are the rows themselves
(`ex17_enter`).
-/

namespace OsAndC

/-! ### The map and its commands -/

/-- A map from ids to entries. -/
abbrev Book := ℕ → Option Entry

/-- The commands of the program. -/
inductive Command
  | create
  | set (id : ℕ) (name email : CString)
  | get (id : ℕ)
  | delete (id : ℕ)
  | list

/-- The map after a command, and the answer: what is printed, or why it failed. -/
def Command.apply (b : Book) : Command → Book × Except String (List UInt8)
  | create => (fun _ => none, .ok [])
  | set id name email =>
      if (b id).isSome then (b, .error "Already set, delete it first")
      else (Function.update b id (some (name, email)), .ok [])
  | get id =>
      match b id with
      | some e => (b, .ok (addressLine id e))
      | none => (b, .error "ID is not set")
  | delete id => (Function.update b id none, .ok [])
  | list => (b, .ok ((List.range maxRows).flatMap fun i => ((b i).map (addressLine i)).getD []))

/-- The maps and answers along a list of commands. -/
def Book.session : Book → List Command → List (Book × Except String (List UInt8))
  | _, [] => []
  | b, c :: cs => c.apply b :: Book.session (c.apply b).1 cs

/-- A map from ids to entries, and the id that each row carries. -/
structure Labelled where
  book : Book
  ids : ℕ → ℕ

/-- What a version reports when it has changed the file. -/
def Version.report (v : Version) (mode : UInt8) : Except String (List UInt8) :=
  if v.flushFails 0 then .error v.flushMessage else .ok (v.opening mode)

/-- The map and its labels after a command, and the answer. -/
def Version.enter (v : Version) (l : Labelled) : Command → Labelled × Except String (List UInt8)
  | .create => (⟨fun _ => none, v.emptyId⟩, v.report (chr 'c'))
  | .set id name email =>
      if (l.book id).isSome then (l, .error "Already set, delete it first")
      else ({ l with book := Function.update l.book id (some (name, email)) }, v.report (chr 's'))
  | .get id =>
      match l.book id with
      | some e => (l, .ok (v.opening (chr 'g') ++ addressLine (l.ids id) e))
      | none => (l, .error "ID is not set")
  | .delete id =>
      (⟨Function.update l.book id none, Function.update l.ids id (v.emptyId id)⟩,
        v.report (chr 'd'))
  | .list => (l, .ok (v.opening (chr 'l') ++
      (List.range maxRows).flatMap fun i => ((l.book i).map (addressLine (l.ids i))).getD []))

/-! ### Invocations -/

/-- The argument vectors that stand for a command: any program and file name, any action
word that starts with the letter of the command, any argument that `atoi` maps to the id,
and strings that fit their fields. -/
inductive Invokes : List CString → Command → Prop
  | create {prog file action : CString} : action.bytes.head? = some (chr 'c') →
      Invokes [prog, file, action] .create
  | set {prog file action arg name email : CString} {id : ℕ} :
      action.bytes.head? = some (chr 's') → atoi arg = id → id < maxRows →
      name.bytes.length < maxData → email.bytes.length < maxData →
      Invokes [prog, file, action, arg, name, email] (.set id name email)
  | get {prog file action arg : CString} {id : ℕ} : action.bytes.head? = some (chr 'g') →
      atoi arg = id → id < maxRows → Invokes [prog, file, action, arg] (.get id)
  | delete {prog file action arg : CString} {id : ℕ} : action.bytes.head? = some (chr 'd') →
      atoi arg = id → id < maxRows → Invokes [prog, file, action, arg] (.delete id)
  | list {prog file action : CString} : action.bytes.head? = some (chr 'l') →
      Invokes [prog, file, action] .list

/-- One invocation on a file: the file it leaves, and what it prints or how it ends. The
memory `malloc` returns holds `junk`. -/
def Version.invoke (v : Version) (argv : List CString) (junk : Mem) (file : Option (List UInt8)) :
    Option (List UInt8) × Except Exit (List UInt8) :=
  match v.main argv ⟨file, junk, []⟩ with
  | .ok _ s => (s.file, .ok s.out)
  | .error e s => (s.file, .error e)

/-- One invocation of `ex17.c` after the other, each in a new process. -/
def session : Option (List UInt8) → List (List CString × Mem) →
    List (Option (List UInt8) × Except Exit (List UInt8))
  | _, [] => []
  | file, (argv, junk) :: calls =>
      ex17.invoke argv junk file :: session (ex17.invoke argv junk file).1 calls

/-! ### The relation -/

/-- Row `i` carries the label, which prints as it is, and holds the entry, if there is one. -/
structure RowShows (db : Mem) (i label : ℕ) (o : Option Entry) : Prop where
  id : rowId db i = label
  small : label < 2 ^ 31
  set : rowSet db i = if o.isSome then 1 else 0
  fields : ∀ e ∈ o, FieldsHold db i e ∧ e.1.bytes.length < maxData ∧ e.2.bytes.length < maxData

/-- The table holds the map and its labels. -/
def TableKeeps (db : Mem) (l : Labelled) : Prop :=
  ∀ i < maxRows, RowShows db i (l.ids i) (l.book i)

/-- The file holds the map and its labels. -/
def FileKeeps (file : Option (List UInt8)) (l : Labelled) : Prop :=
  ∃ bytes, file = some bytes ∧ bytes.length = databaseSize ∧ TableKeeps (tableOf bytes) l

/-- The file of `ex17.c` holds the map: every row is labelled with its own index. -/
def FileHolds (file : Option (List UInt8)) (b : Book) : Prop := FileKeeps file ⟨b, fun i => i⟩

/-- In the file, row `i` carries the id `i`. -/
def CarriesIds (file : Option (List UInt8)) : Prop :=
  ∃ bytes, file = some bytes ∧ ∀ i < maxRows, rowId (tableOf bytes) i = i

variable {v : Version} {s s' : Process} {db db' junk : Mem} {l : Labelled} {b : Book} {c : Command}
  {i id label : ℕ} {file : Option (List UInt8)} {o : Option Entry} {e : Entry}
  {argv : List CString} {name email : CString} {mode : UInt8}

namespace RowShows

/-- A row that has not changed shows what it showed. -/
theorem congr (h : SameRow db db' i) (hr : RowShows db i label o) : RowShows db' i label o :=
  ⟨h.rowId.trans hr.id, hr.small, h.rowSet.trans hr.set, fun e he =>
    ⟨h.fieldsHold (hr.fields e he).1, (hr.fields e he).2⟩⟩

/-- The flag says whether the map has an entry there. -/
theorem set_ne_zero (h : RowShows db i label o) : rowSet db i ≠ 0 ↔ o.isSome := by
  rw [h.set]
  cases o <;> simp

/-- The line printed for a row shows its label. -/
theorem rowLine?_eq (hi : i < maxRows) (h : RowShows db i label (some e)) :
    rowLine? db i = some (addressLine label e) := by
  obtain ⟨hf, hname, hemail⟩ := h.fields e rfl
  exact OsAndC.rowLine?_eq hi h.id h.small hf hname hemail

/-- What `Database_list` prints for a row. -/
theorem rowText?_eq (hi : i < maxRows) (h : RowShows db i label o) :
    rowText? db i = some ((o.map (addressLine label)).getD []) := by
  rw [rowText?]
  cases o with
  | none =>
      rw [if_neg (by simpa using h.set)]
      rfl
  | some e =>
      rw [if_pos (h.set_ne_zero.mpr rfl), h.rowLine?_eq hi]
      rfl

end RowShows

/-- An empty row. -/
theorem Cleared.rowShows (h : Cleared db i label) (hsmall : label < 2 ^ 31) :
    RowShows db i label none := ⟨h.1, hsmall, h.2, by simp⟩

/-- Changing one row. -/
theorem TableKeeps.update (ids : ℕ → ℕ) (h : TableKeeps db l) (hi : RowShows db' i (ids i) o)
    (hids : ∀ j, j ≠ i → ids j = l.ids j) (hsame : ∀ j, j ≠ i → SameRow db db' j) :
    TableKeeps db' ⟨Function.update l.book i o, ids⟩ := by
  intro j hj
  by_cases hji : j = i
  · subst hji
    simpa only [Function.update_self] using hi
  · simp only [Function.update_of_ne hji, hids j hji]
    exact (h j hj).congr (hsame j hji)

/-- A file of `ex17.c` has the rows under their own ids. -/
theorem FileHolds.carriesIds (h : FileHolds file b) : CarriesIds file := by
  obtain ⟨bytes, hf, -, ht⟩ := h
  exact ⟨bytes, hf, fun i hi => (ht i hi).id⟩

/-! ### Opening, writing and the end of a run -/

namespace Version

/-- Opening an existing file loads the map. -/
theorem databaseOpen_keeps (h : FileKeeps s.file l) (hmode : mode ≠ chr 'c') :
    ∃ db', v.databaseOpen mode s = .ok () ⟨s.file, db', s.out ++ v.opening mode⟩ ∧
      TableKeeps db' l := by
  obtain ⟨bytes, hf, hlen, ht⟩ := h
  refine ⟨s.db.write 0 (bytes.take databaseSize), ?_, fun i hi => ?_⟩
  · rw [databaseOpen_existing hf hmode]
    exact databaseLoad_eq (s := { s with out := s.out ++ v.opening mode }) hf hlen.ge
  · exact (ht i hi).congr (SameRow.of_table (fun c hc => loaded_apply hlen.ge hc) hi)

/-- A command other than `c` gets as far as the `switch`, with the map loaded. -/
theorem main_loaded (v : Version) (argv : List CString) (junk : Mem)
    (h : FileKeeps file l) (hargs : 3 ≤ argv.length) (haction : actionOf argv ≠ chr 'c')
    (hid : idOf argv < maxRows) :
    ∃ db', TableKeeps db' l ∧ v.main argv ⟨file, junk, []⟩ =
      v.switch argv ⟨file, db', v.opening (actionOf argv)⟩ := by
  obtain ⟨db', hopen, ht⟩ := v.databaseOpen_keeps (s := ⟨file, junk, []⟩) h haction
  exact ⟨db', ht, main_opened hargs hopen hid⟩

/-- What an invocation does when its run returns. -/
theorem invoke_ok (h : v.main argv ⟨file, junk, []⟩ = .ok () s) :
    v.invoke argv junk file = (s.file, .ok s.out) := by
  rw [invoke, h]

/-- What an invocation does when its run ends early. -/
theorem invoke_error {e : Exit} (h : v.main argv ⟨file, junk, []⟩ = .error e s) :
    v.invoke argv junk file = (s.file, .error e) := by
  rw [invoke, h]

/-- A run that ends with writing the table stores the map, and reports on the flush. -/
theorem invoke_write {old : List UInt8}
    (hrun : v.main argv ⟨file, junk, []⟩ = v.databaseWrite s) (hout : s.out = v.opening mode)
    (hf : s.file = some old) (hlen : old.length ≤ databaseSize) (ht : TableKeeps s.db l) :
    (v.invoke argv junk file).2 = (v.report mode).mapError .die ∧
      FileKeeps (v.invoke argv junk file).1 l := by
  have hkeeps : FileKeeps (s.file.map fun old => s.db.bytes 0 databaseSize ++
      old.drop databaseSize) l := by
    refine ⟨s.db.bytes 0 databaseSize ++ old.drop databaseSize, by rw [hf]; rfl, ?_,
      fun i hi => ?_⟩
    · rw [List.length_append, Mem.length_bytes, List.length_drop]
      omega
    · exact (ht i hi).congr (SameRow.of_table (fun c hc => written_apply hc) hi)
  rw [databaseWrite, run_modify_bind] at hrun
  by_cases hfails : v.flushFails 0
  · rw [if_pos hfails] at hrun
    rw [invoke_error hrun, report, if_pos hfails]
    exact ⟨rfl, hkeeps⟩
  · rw [if_neg hfails] at hrun
    rw [invoke_ok hrun, report, if_neg hfails]
    exact ⟨congrArg Except.ok hout, hkeeps⟩

end Version

/-! ### One command -/

/-- The letter of an action word. -/
theorem actionOf_eq {prog file' action : CString} {rest : List CString} {x : UInt8}
    (h : action.bytes.head? = some x) : actionOf (prog :: file' :: action :: rest) = x := by
  change action.bytes.headD 0 = x
  rw [List.headD_eq_head?_getD, h]
  rfl

/-- An invocation answers as `Version.enter` says, and the file keeps the map and its labels. -/
def Version.Agrees (v : Version) (argv : List CString) (junk : Mem)
    (file : Option (List UInt8)) (l : Labelled) (c : Command) : Prop :=
  (v.invoke argv junk file).2 = (v.enter l c).2.mapError .die ∧
    FileKeeps (v.invoke argv junk file).1 (v.enter l c).1

/-- `c` makes a file that keeps the empty map, whatever was there. -/
theorem Version.create_agrees (hv : v.Small) {prog file' action : CString}
    (h : action.bytes.head? = some (chr 'c')) :
    v.Agrees [prog, file', action] junk file l .create := by
  have haction : actionOf [prog, file', action] = chr 'c' := actionOf_eq h
  have hopen : v.databaseOpen (actionOf [prog, file', action]) ⟨file, junk, []⟩ =
      .ok () ⟨some [], junk, v.opening (chr 'c')⟩ := by
    rw [haction]
    rfl
  obtain ⟨db', hcreate, hcleared⟩ :=
    databaseCreate_spec (s := ⟨some [], junk, v.opening (chr 'c')⟩) hv
  have hmain : v.main [prog, file', action] ⟨file, junk, []⟩ =
      v.databaseWrite ⟨some [], db', v.opening (chr 'c')⟩ := by
    rw [main_opened (by simp) hopen (show (0 : ℤ) < maxRows by decide), switch_create haction,
      run_bind_ok hcreate]
  exact invoke_write hmain rfl rfl (Nat.zero_le _) fun i hi => (hcleared i hi).rowShows (hv i hi)

/-- `s` enters the name and the email under the id, if it is unset. -/
theorem Version.set_agrees {prog file' action arg : CString}
    (h : action.bytes.head? = some (chr 's')) (hid : atoi arg = id) (hlt : id < maxRows)
    (hname : name.bytes.length < maxData) (hemail : email.bytes.length < maxData)
    (hf : FileKeeps file l) :
    v.Agrees [prog, file', action, arg, name, email] junk file l (.set id name email) := by
  have haction : actionOf [prog, file', action, arg, name, email] = chr 's' := actionOf_eq h
  have hidOf : idOf [prog, file', action, arg, name, email] = id := hid
  obtain ⟨db', ht, hmain⟩ := v.main_loaded [prog, file', action, arg, name, email] junk hf
    (by simp) (by rw [haction]; decide) (by rw [hidOf]; exact_mod_cast hlt)
  have hswitch : v.switch [prog, file', action, arg, name, email] =
      (do databaseSet id name email; v.databaseWrite) := by
    rw [switch, haction, hidOf]
    rfl
  rw [hswitch, haction] at hmain
  have hrow := ht id hlt
  simp only [Agrees, enter]
  by_cases hset : (l.book id).isSome
  · have hrun : databaseSet id name email ⟨file, db', v.opening (chr 's')⟩ =
        .error (.die "Already set, delete it first") ⟨file, db', v.opening (chr 's')⟩ :=
      databaseSet_set hlt (hrow.set_ne_zero.mpr hset)
    rw [if_pos hset, invoke, hmain, run_bind_error hrun]
    exact ⟨rfl, hf⟩
  · have hunset : rowSet db' id = 0 := by
      rw [hrow.set, if_neg hset]
    have hrun : databaseSet id name email ⟨file, db', v.opening (chr 's')⟩ =
        .ok () ⟨file, filled db' id name email, v.opening (chr 's')⟩ :=
      databaseSet_unset hlt hunset
    obtain ⟨hkid, hkset, hkfields, hksame⟩ := filled_spec db' id name email
    have hheld := ht.update l.ids (o := some (name, email))
      ⟨hkid.trans hrow.id, hrow.small, hkset, fun e he => by
        obtain rfl := Option.some.inj he
        exact ⟨hkfields, hname, hemail⟩⟩ (fun _ _ => rfl) hksame
    obtain ⟨bytes, hbytes, hlen, -⟩ := hf
    rw [if_neg hset]
    exact invoke_write (hmain.trans (run_bind_ok hrun)) rfl hbytes hlen.le hheld

/-- `g` prints the entry of the id, if there is one. -/
theorem Version.get_agrees {prog file' action arg : CString}
    (h : action.bytes.head? = some (chr 'g')) (hid : atoi arg = id) (hlt : id < maxRows)
    (hf : FileKeeps file l) : v.Agrees [prog, file', action, arg] junk file l (.get id) := by
  have haction : actionOf [prog, file', action, arg] = chr 'g' := actionOf_eq h
  have hidOf : idOf [prog, file', action, arg] = id := hid
  obtain ⟨db', ht, hmain⟩ := v.main_loaded [prog, file', action, arg] junk hf
    (by simp) (by rw [haction]; decide) (by rw [hidOf]; exact_mod_cast hlt)
  have hswitch : v.switch [prog, file', action, arg] = databaseGet id := by
    rw [switch, haction, hidOf]
    rfl
  rw [hswitch, haction] at hmain
  have hrow := ht id hlt
  simp only [Agrees, enter]
  cases hb : l.book id with
  | none =>
      rw [hb] at hrow
      have hrun := databaseGet_unset (s := ⟨file, db', v.opening (chr 'g')⟩) hlt hrow.set
      rw [invoke, hmain, hrun]
      exact ⟨rfl, hf⟩
  | some e =>
      rw [hb] at hrow
      have hrun := databaseGet_set (s := ⟨file, db', v.opening (chr 'g')⟩) hlt
        (hrow.set_ne_zero.mpr rfl)
      rw [hrow.rowLine?_eq hlt] at hrun
      rw [invoke, hmain, hrun]
      exact ⟨rfl, hf⟩

/-- `d` forgets the entry of the id and labels its row as the program does. -/
theorem Version.delete_agrees (hv : v.Small) {prog file' action arg : CString}
    (h : action.bytes.head? = some (chr 'd')) (hid : atoi arg = id) (hlt : id < maxRows)
    (hf : FileKeeps file l) : v.Agrees [prog, file', action, arg] junk file l (.delete id) := by
  have haction : actionOf [prog, file', action, arg] = chr 'd' := actionOf_eq h
  have hidOf : idOf [prog, file', action, arg] = id := hid
  obtain ⟨db', ht, hmain⟩ := v.main_loaded [prog, file', action, arg] junk hf
    (by simp) (by rw [haction]; decide) (by rw [hidOf]; exact_mod_cast hlt)
  rw [switch_delete haction, if_neg (by simp), hidOf, haction] at hmain
  obtain ⟨db₁, hrun, hcleared, hsame⟩ :=
    databaseDelete_spec (s := ⟨file, db', v.opening (chr 'd')⟩) hv hlt
  obtain ⟨bytes, hbytes, hlen, -⟩ := hf
  refine invoke_write (hmain.trans (run_bind_ok hrun)) rfl hbytes hlen.le ?_
  exact ht.update _ (by rw [Function.update_self]; exact hcleared.rowShows (hv id hlt))
    (fun j hj => Function.update_of_ne hj _ _) hsame

/-- `l` prints all entries in the order of their rows. -/
theorem Version.list_agrees {prog file' action : CString}
    (h : action.bytes.head? = some (chr 'l')) (hf : FileKeeps file l) :
    v.Agrees [prog, file', action] junk file l .list := by
  have haction : actionOf [prog, file', action] = chr 'l' := actionOf_eq h
  have hid : idOf [prog, file', action] = 0 := rfl
  obtain ⟨db', ht, hmain⟩ := v.main_loaded [prog, file', action] junk hf
    (by simp) (by rw [haction]; decide) (by rw [hid]; decide)
  have hswitch : v.switch [prog, file', action] = databaseList := by
    rw [switch, haction]
    rfl
  rw [hswitch, haction] at hmain
  have hrun := listRows_eq (s := ⟨file, db', v.opening (chr 'l')⟩) (List.range maxRows)
    fun i hi => (ht i (List.mem_range.mp hi)).rowText?_eq (List.mem_range.mp hi)
  simp only [Agrees, enter]
  rw [invoke, hmain, databaseList, hrun]
  exact ⟨rfl, hf⟩

/-- **One command**, for either version, on a file that either version has left. -/
theorem Version.agrees (hv : v.Small) (junk : Mem) (hinv : Invokes argv c)
    (h : c = .create ∨ FileKeeps file l) : v.Agrees argv junk file l c := by
  cases hinv with
  | create haction => exact create_agrees hv haction
  | set haction hid hlt hname hemail =>
      exact set_agrees haction hid hlt hname hemail (h.resolve_left (by simp))
  | get haction hid hlt => exact get_agrees haction hid hlt (h.resolve_left (by simp))
  | delete haction hid hlt => exact delete_agrees hv haction hid hlt (h.resolve_left (by simp))
  | list haction => exact list_agrees haction (h.resolve_left (by simp))

/-! ### Sessions of `ex17.c` -/

/-- `ex17.c` reports a change with nothing. -/
theorem ex17_report : ex17.report mode = .ok [] := rfl

/-- With the values of `ex17.c`, the labels stay as they are and the answers are those of the
map. -/
theorem ex17_enter (b : Book) (c : Command) :
    ex17.enter ⟨b, fun i => i⟩ c = (⟨(c.apply b).1, fun i => i⟩, (c.apply b).2) := by
  cases c with
  | create => rfl
  | set id name email =>
      simp only [Version.enter, Command.apply, ex17_report]
      split <;> rfl
  | get id =>
      simp only [Version.enter, Command.apply, ex17_opening, List.nil_append]
      cases b id <;> rfl
  | delete id =>
      have hids : Function.update (fun i => i) id (ex17.emptyId id) = fun i => i :=
        Function.update_eq_self id fun i => i
      simp only [Version.enter, Command.apply, ex17_report, hids]
  | list =>
      have htext : (ex17.enter ⟨b, fun i => i⟩ .list).2 = (Command.list.apply b).2 := by
        rw [Version.enter, Command.apply, ex17_opening, List.nil_append]
      exact Prod.ext rfl htext

/-- **One command** of `ex17.c`: it answers as the map does, and the file it leaves holds the
map after the command. -/
theorem invoke_refines (junk : Mem) (hinv : Invokes argv c) (h : c = .create ∨ FileHolds file b) :
    (ex17.invoke argv junk file).2 = (c.apply b).2.mapError .die ∧
      FileHolds (ex17.invoke argv junk file).1 (c.apply b).1 := by
  have hagrees := Version.agrees ex17_small junk hinv h
  rw [Version.Agrees, ex17_enter] at hagrees
  exact hagrees

/-- A session that starts on a file that holds the map. -/
theorem session_refines_from {calls : List (List CString × Mem)} {cs : List Command}
    (hcalls : List.Forall₂ (fun call c => Invokes call.1 c) calls cs) (hf : FileHolds file b) :
    List.Forall₂ (fun r a => r.2 = a.2.mapError .die ∧ FileHolds r.1 a.1)
      (session file calls) (b.session cs) := by
  induction hcalls generalizing file b with
  | nil => exact .nil
  | @cons call c calls cs hinv _ ih =>
      obtain ⟨argv, junk⟩ := call
      have hstep := invoke_refines junk hinv (Or.inr hf)
      exact .cons hstep (ih hstep.2)

/-- **The database refines a map.** Every sequence of separate invocations that begins with
`c`, on whatever file, answers as a map does that starts empty, and in every file left behind
row `i` carries the id `i`. -/
theorem session_refines {calls : List (List CString × Mem)} {cs : List Command}
    (hcalls : List.Forall₂ (fun call c => Invokes call.1 c) calls (.create :: cs)) :
    List.Forall₂ (fun r a => r.2 = a.2.mapError .die ∧ CarriesIds r.1) (session file calls)
      (Book.session (fun _ => none) (.create :: cs)) := by
  cases hcalls with
  | @cons call _ calls _ hinv hrest =>
      obtain ⟨argv, junk⟩ := call
      have hstart : Command.create = .create ∨ FileHolds file fun _ => none := Or.inl rfl
      have hstep := invoke_refines junk hinv hstart
      exact .cons ⟨hstep.1, hstep.2.carriesIds⟩
        ((session_refines_from hrest hstep.2).imp fun r a h => ⟨h.1, h.2.carriesIds⟩)

/-- The invocations `ex17 f c`, `ex17 f s 7 a b` and `ex17 f g 7`. -/
def sampleCalls : List (List CString × Mem) :=
  [([.of [chr 'x'], .of [chr 'f'], .of [chr 'c']], fun _ => 0),
   ([.of [chr 'x'], .of [chr 'f'], .of [chr 's'], .of [chr '7'], .of [chr 'a'], .of [chr 'b']],
     fun _ => 1),
   ([.of [chr 'x'], .of [chr 'f'], .of [chr 'g'], .of [chr '7']], fun _ => 2)]

/-- A file is made, row 7 is set and read back. -/
theorem session_refines_sampleCalls :
    List.Forall₂ (fun r a => r.2 = a.2.mapError .die ∧ CarriesIds r.1) (session none sampleCalls)
      (Book.session (fun _ => none)
        [.create, .set 7 (.of [chr 'a']) (.of [chr 'b']), .get 7]) :=
  session_refines (.cons (.create rfl) (.cons
    (.set rfl (by decide) (by decide) (by decide) (by decide)) (.cons
      (.get rfl (by decide) (by decide)) .nil)))

end OsAndC
