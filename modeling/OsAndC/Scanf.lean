import Mathlib.Data.List.TakeWhile

/-!
# Conversions of `scanf`

The conversions `%s`, `%d` and `%u` on an input that is a list of characters. White space in
front of a field is skipped; `scanWord` takes the characters up to the next white space, and
`scanNumeral` an optional sign and as many digits as there are. A numeral without a digit is
a matching failure, and the characters read up to there are gone.

`Text ws cs` says that the input `cs` consists of the words `ws`, with any white space
between them. On such a text `%s` reads the next word (`Text.scanWord`), and a numeral reads
the next word if this is a number in decimal (`Text.scanNumeral`). `Text.fields` gives a text
for every list of words.
-/

namespace OsAndC

/-! ### Conversions -/

/-- `isspace` in the C locale. -/
def isBlank (c : Char) : Bool :=
  c = ' ' || c = '\t' || c = '\n' || c = Char.ofNat 11 || c = Char.ofNat 12 || c = '\r'

def skipSpace (cs : List Char) : List Char := cs.dropWhile isBlank

/-- The field of `%s` and the rest of the input, or `none` at the end of the file. -/
def scanWord (cs : List Char) : Option (List Char × List Char) :=
  if skipSpace cs = [] then none
  else some ((skipSpace cs).takeWhile (!isBlank ·), (skipSpace cs).dropWhile (!isBlank ·))

/-- An optional sign, and whether it is a minus. -/
def scanSign : List Char → Bool × List Char
  | '-' :: cs => (true, cs)
  | '+' :: cs => (false, cs)
  | cs => (false, cs)

/-- The field of `%d` and `%u` as an integer, or `none` when there is no digit, and the rest of
the input. -/
def scanNumeral (cs : List Char) : Option ℤ × List Char :=
  let (minus, cs) := scanSign (skipSpace cs)
  let digits := cs.takeWhile Char.isDigit
  let n : ℤ := Nat.ofDigitChars 10 digits 0
  (if digits = [] then none else some (if minus then -n else n), cs.dropWhile Char.isDigit)

/-! ### Texts -/

/-- White space only. -/
def Blank (gap : List Char) : Prop := ∀ c ∈ gap, isBlank c = true

/-- The input is at its end or goes on with white space. -/
def AtGap (cs : List Char) : Prop := ∀ c ∈ cs.head?, isBlank c = true

/-- At least one character, and no white space. -/
structure Word (w : List Char) : Prop where
  ne_nil : w ≠ []
  solid : ∀ c ∈ w, isBlank c = false

/-- The words of the input. -/
inductive Text : List (List Char) → List Char → Prop
  | nil {gap : List Char} : Blank gap → Text [] gap
  | cons {gap w rest : List Char} {ws : List (List Char)} :
      Blank gap → Word w → AtGap rest → Text ws rest → Text (w :: ws) (gap ++ (w ++ rest))

variable {α : Type} {f : α → Bool} {c : Char} {cs gap w rest : List Char}
  {ws : List (List Char)} {n : ℕ}

/-- Where a run of `f` ends. -/
theorem takeWhile_append_eq {l₁ l₂ : List α} (h₁ : ∀ a ∈ l₁, f a = true)
    (h₂ : ∀ a ∈ l₂.head?, f a = false) :
    (l₁ ++ l₂).takeWhile f = l₁ ∧ (l₁ ++ l₂).dropWhile f = l₂ := by
  rw [List.takeWhile_append_of_pos h₁, List.dropWhile_append_of_pos h₁]
  cases l₂ with
  | nil => simp
  | cons a l₂ =>
      have ha : ¬ f a = true := by simp [h₂ a rfl]
      rw [List.takeWhile_cons_of_neg ha, List.dropWhile_cons_of_neg ha]
      exact ⟨List.append_nil l₁, rfl⟩

/-- White space in front of the input is skipped. -/
theorem skipSpace_blank (hgap : Blank gap) : skipSpace (gap ++ cs) = skipSpace cs :=
  List.dropWhile_append_of_pos hgap

/-- Nothing is skipped in front of a word. -/
theorem skipSpace_word (hw : Word w) : skipSpace (w ++ cs) = w ++ cs := by
  obtain ⟨c, w, rfl⟩ := List.exists_cons_of_ne_nil hw.ne_nil
  exact List.dropWhile_cons_of_neg (by simp [hw.solid c List.mem_cons_self])

/-- No digit follows. -/
theorem AtGap.isDigit (h : AtGap cs) : ∀ c ∈ cs.head?, c.isDigit = false := by
  intro c hc
  have hspace := h c hc
  simp only [isBlank, Bool.or_eq_true, decide_eq_true_eq] at hspace
  rcases hspace with ((((rfl | rfl) | rfl) | rfl) | rfl) | rfl <;> rfl

/-- A number in decimal is a word without a sign. -/
theorem word_toDigits : Word (Nat.toDigits 10 n) := by
  refine ⟨Nat.toDigits_ne_nil, fun c hc => ?_⟩
  have hdigit := Nat.isDigit_of_mem_toDigits (by decide) (by decide) hc
  by_contra hspace
  have hgap : AtGap [c] := by simpa [AtGap] using hspace
  rw [hgap.isDigit c rfl] at hdigit
  cases hdigit

/-- A digit is no sign. -/
theorem scanSign_digit (hc : c.isDigit = true) : scanSign (c :: cs) = (false, c :: cs) := by
  have hminus : c ≠ '-' := by
    rintro rfl
    cases hc
  have hplus : c ≠ '+' := by
    rintro rfl
    cases hc
  simp [scanSign, hminus, hplus]

namespace Text

/-- `%s` reads the next word. -/
theorem scanWord (h : Text (w :: ws) cs) : ∃ rest, scanWord cs = some (w, rest) ∧ Text ws rest := by
  cases h with
  | @cons gap w rest ws hgap hw hend hrest =>
      refine ⟨rest, ?_, hrest⟩
      obtain ⟨htake, hdrop⟩ : (w ++ rest).takeWhile (!isBlank ·) = w ∧
          (w ++ rest).dropWhile (!isBlank ·) = rest :=
        takeWhile_append_eq (fun c hc => by simp [hw.solid c hc])
          (fun c hc => by simp [hend c hc])
      rw [OsAndC.scanWord, skipSpace_blank hgap, skipSpace_word hw,
        if_neg (by simp [hw.ne_nil]), htake, hdrop]

/-- At the end of the text `%s` meets the end of the file. -/
theorem scanWord_nil (h : Text [] cs) : OsAndC.scanWord cs = none := by
  cases h with
  | nil hgap => exact if_pos (List.dropWhile_eq_nil_iff.mpr hgap)

/-- `%d` and `%u` read the next word if it is a number. -/
theorem scanNumeral (h : Text (Nat.toDigits 10 n :: ws) cs) :
    ∃ rest, scanNumeral cs = (some (n : ℤ), rest) ∧ AtGap rest ∧ Text ws rest := by
  cases h with
  | @cons gap w rest ws hgap hw hend hrest =>
      refine ⟨rest, ?_, hend, hrest⟩
      have hdigits : ∀ c ∈ Nat.toDigits 10 n, c.isDigit = true := fun c hc =>
        Nat.isDigit_of_mem_toDigits (by decide) (by decide) hc
      obtain ⟨htake, hdrop⟩ := takeWhile_append_eq hdigits hend.isDigit
      have hsign : scanSign (Nat.toDigits 10 n ++ rest) = (false, Nat.toDigits 10 n ++ rest) := by
        obtain ⟨c, w, hcw⟩ := List.exists_cons_of_ne_nil (Nat.toDigits_ne_nil (n := n) (b := 10))
        rw [hcw] at hdigits ⊢
        exact scanSign_digit (hdigits c List.mem_cons_self)
      simp only [OsAndC.scanNumeral, skipSpace_blank hgap, skipSpace_word hw, hsign, htake, hdrop,
        Nat.ofDigitChars_ten_toDigits]
      rw [if_neg Nat.toDigits_ne_nil]
      rfl

/-- Every word has a character. -/
theorem length_le (h : Text ws cs) : ws.length ≤ cs.length := by
  induction h with
  | nil => exact Nat.zero_le _
  | cons _ hw _ _ ih =>
      have hpos := List.length_pos_iff.mpr hw.ne_nil
      simp only [List.length_cons, List.length_append]
      omega

/-- More white space in front. -/
theorem blank (hc : isBlank c = true) (h : Text ws cs) : Text ws (c :: cs) := by
  cases h with
  | nil hgap => exact .nil (List.forall_mem_cons.mpr ⟨hc, hgap⟩)
  | cons hgap hw hend hrest =>
      have hgap' : Blank (c :: _) := List.forall_mem_cons.mpr ⟨hc, hgap⟩
      exact .cons hgap' hw hend hrest

/-- Words with a white space character behind each. -/
theorem fields {l : List (List Char × Char)} (hl : ∀ x ∈ l, Word x.1 ∧ isBlank x.2 = true) :
    Text (l.map Prod.fst) (l.flatMap fun x => x.1 ++ [x.2]) := by
  induction l with
  | nil => exact .nil (by simp [Blank])
  | cons x l ih =>
      obtain ⟨⟨hw, hc⟩, hl⟩ := List.forall_mem_cons.mp hl
      have hrest := (ih hl).blank hc
      have hgap : Blank [] := by simp [Blank]
      have htext := cons hgap hw (by simp [AtGap, hc]) hrest
      simpa using htext

end Text

end OsAndC
