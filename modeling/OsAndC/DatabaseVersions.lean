import OsAndC.DatabaseMap

/-!
# Two Versions of the Database

`lecture-5/ex17-old.c` works on the same files as `ex17.c`. `mixedSession_refines` is about
sequences of valid commands that begin with `c`, each given to either of the two versions: the
file always holds one map, on which the versions agree, and what differs is said by
`Version.enter`. The older one prints every record it has made room for under the id 0, and
reports every change as failed that it has stored.

A command is valid if it has the arguments the program asks for, an id from 0 to 99, and a
name and an email that are shorter than their fields (`Invokes`). What happens to others is
the subject of `rejected_iff` and `readsBack_iff`.
-/

namespace OsAndC

/-! ### Sessions with either version -/

/-- The maps, labels and answers along a list of commands, each for a version. -/
def Labelled.session : Labelled → List (Version × Command) →
    List (Labelled × Except String (List UInt8))
  | _, [] => []
  | l, (v, c) :: cs => v.enter l c :: Labelled.session (v.enter l c).1 cs

/-- One invocation after the other, each of a version of the program. -/
def mixedSession : Option (List UInt8) → List (Version × List CString × Mem) →
    List (Option (List UInt8) × Except Exit (List UInt8))
  | _, [] => []
  | file, (v, argv, junk) :: calls =>
      v.invoke argv junk file :: mixedSession (v.invoke argv junk file).1 calls

variable {v : Version} {l : Labelled} {file : Option (List UInt8)}

/-- A call that stands for a command, by one of the two versions. -/
def Calls (call : Version × List CString × Mem) (c : Version × Command) : Prop :=
  call.1 = c.1 ∧ c.1 ∈ [ex17, ex17Old] ∧ Invokes call.2.1 c.2

/-- A session that starts on a file that keeps the map and its labels. -/
theorem mixedSession_refines_from {calls : List (Version × List CString × Mem)}
    {cs : List (Version × Command)} (hcalls : List.Forall₂ Calls calls cs) (hf : FileKeeps file l) :
    List.Forall₂ (fun r a => r.2 = a.2.mapError .die ∧ FileKeeps r.1 a.1)
      (mixedSession file calls) (l.session cs) := by
  induction hcalls generalizing file l with
  | nil => exact .nil
  | @cons call c calls cs hcall _ ih =>
      obtain ⟨v, argv, junk⟩ := call
      obtain ⟨v', c⟩ := c
      obtain ⟨rfl, hv, hinv⟩ := hcall
      have hstep := Version.agrees (small_of_mem hv) junk hinv (Or.inr hf)
      exact .cons hstep (ih hstep.2)

/-- The map does not depend on the versions. -/
theorem Version.enter_book (v : Version) (l : Labelled) (c : Command) :
    (v.enter l c).1.book = (c.apply l.book).1 := by
  cases c with
  | set id name email =>
      simp only [Version.enter, Command.apply]
      split <;> rfl
  | get id =>
      simp only [Version.enter, Command.apply]
      cases l.book id <;> rfl
  | _ => rfl

/-- The maps along a session do not depend on the versions. -/
theorem Labelled.session_books (l : Labelled) (cs : List (Version × Command)) :
    (l.session cs).map (fun a => a.1.book) =
      (l.book.session (cs.map Prod.snd)).map Prod.fst := by
  induction cs generalizing l with
  | nil => rfl
  | cons c cs ih =>
      obtain ⟨v, c⟩ := c
      simp only [Labelled.session, Book.session, List.map_cons, ih, v.enter_book l c]

/-- **The versions work on one map.** In every sequence of invocations that stand for valid
commands, the first of them `c`, each by either version, every answer is the one of that
version for the map and its labels, every file left behind keeps them, and the maps are those
of the commands alone. -/
theorem mixedSession_refines (l : Labelled) {calls : List (Version × List CString × Mem)}
    {v : Version} {cs : List (Version × Command)}
    (hcalls : List.Forall₂ Calls calls ((v, .create) :: cs)) :
    List.Forall₂ (fun r a => r.2 = a.2.mapError .die ∧ FileKeeps r.1 a.1)
        (mixedSession file calls) (l.session ((v, .create) :: cs)) ∧
      (l.session ((v, .create) :: cs)).map (fun a => a.1.book) =
        (Book.session (fun _ => none) (.create :: cs.map Prod.snd)).map Prod.fst := by
  refine ⟨?_, (l.session_books _).trans rfl⟩
  cases hcalls with
  | @cons call _ calls _ hcall hrest =>
      obtain ⟨v', argv, junk⟩ := call
      obtain ⟨rfl, hv, hinv⟩ := hcall
      have hstart : Command.create = .create ∨ FileKeeps file l := Or.inl rfl
      have hstep := Version.agrees (small_of_mem hv) junk hinv hstart
      exact .cons hstep (mixedSession_refines_from hrest hstep.2)

/-- The older version makes the file and sets a row, the newer one prints it under the id 0. -/
theorem mixedSession_refines_sampleCalls :
    List.Forall₂ (fun r a => r.2 = a.2.mapError .die ∧ FileKeeps r.1 a.1)
        (mixedSession none ([ex17Old, ex17Old, ex17].zip sampleCalls))
        (Labelled.session ⟨fun _ => none, fun _ => 0⟩ [(ex17Old, .create),
          (ex17Old, .set 7 (.of [chr 'a']) (.of [chr 'b'])), (ex17, .get 7)]) ∧
      (Labelled.session ⟨fun _ => none, fun _ => 0⟩ [(ex17Old, .create),
          (ex17Old, .set 7 (.of [chr 'a']) (.of [chr 'b'])), (ex17, .get 7)]).map
          (fun a => a.1.book) =
        (Book.session (fun _ => none)
          [.create, .set 7 (.of [chr 'a']) (.of [chr 'b']), .get 7]).map Prod.fst :=
  mixedSession_refines ⟨fun _ => none, fun _ => 0⟩
    (.cons ⟨rfl, by simp, .create rfl⟩ (.cons
      ⟨rfl, by simp, .set rfl (by decide) (by decide) (by decide) (by decide)⟩ (.cons
        ⟨rfl, by simp, .get rfl (by decide) (by decide)⟩ .nil)))

end OsAndC
