import Mathlib.Init

/-!
# Running Stateful, Fallible Programs

A program in `EStateM ε σ` either returns a value and a state or stops with an error and
the state it had reached. Where the effect of a program is known exactly, it is stated as
an equation `x s = .ok a s'`, and the `run_*` lemmas below evaluate a longer program one
action at a time. `finalState` is the state an outcome carries, whether it returned or
failed.

Where less is known, `Keeps I x Q` is the partial-correctness triple for an invariant: if
`x` is started in a state with `I` and returns, then `I` holds again and the result
satisfies `Q`. A program that fails satisfies every `Keeps`. The rules follow the shape of
the program: `Keeps.pure`, `Keeps.bind`, `Keeps.read`, `Keeps.update` and `Keeps.ite`.
-/

namespace OsAndC

universe u

variable {ε σ α β : Type u}

/-- The state an outcome carries: the one returned in, or the one the error occurred in. -/
def finalState : EStateM.Result ε σ α → σ
  | .ok _ s => s
  | .error _ s => s

/-- A run that returned ended where it returned. -/
@[simp] theorem finalState_ok (a : α) (s : σ) :
    finalState (.ok a s : EStateM.Result ε σ α) = s := rfl

/-- A run that stopped ended where it stopped. -/
@[simp] theorem finalState_error (e : ε) (s : σ) :
    finalState (.error e s : EStateM.Result ε σ α) = s := rfl

/-! ### Running a program -/

/-- Returning changes nothing. -/
theorem run_pure (a : α) (s : σ) : (pure a : EStateM ε σ α) s = .ok a s := rfl

/-- Reading the state hands it on. -/
theorem run_get_bind (f : σ → EStateM ε σ α) (s : σ) :
    ((get : EStateM ε σ σ) >>= f) s = f s s := rfl

/-- Changing the state, and then the rest. -/
theorem run_modify_bind (g : σ → σ) (f : PUnit → EStateM ε σ α) (s : σ) :
    ((modify g : EStateM ε σ PUnit) >>= f) s = f PUnit.unit (g s) := rfl

/-- Sequencing after a first action that returned. -/
theorem run_bind_ok {x : EStateM ε σ α} {f : α → EStateM ε σ β} {s s' : σ} {a : α}
    (h : x s = .ok a s') : (x >>= f) s = f a s' := by
  change EStateM.bind x f s = _
  simp only [EStateM.bind, h]

/-- Sequencing after a first action that failed. -/
theorem run_bind_error {x : EStateM ε σ α} {f : α → EStateM ε σ β} {s s' : σ} {e : ε}
    (h : x s = .error e s') : (x >>= f) s = .error e s' := by
  change EStateM.bind x f s = _
  simp only [EStateM.bind, h]

/-- Sequencing after a first action that runs like another one. -/
theorem run_bind_congr {x y : EStateM ε σ α} {f : α → EStateM ε σ β} {s s' : σ}
    (h : x s = y s') : (x >>= f) s = (y >>= f) s' := by
  change EStateM.bind x f s = EStateM.bind y f s'
  simp only [EStateM.bind, h]

/-- Two sequences whose first actions run alike, and whose second ones do from there on. -/
theorem run_bind_agree {x y : EStateM ε σ α} {f g : α → EStateM ε σ β} {s : σ} (hxy : x s = y s)
    (hfg : ∀ a s', y s = .ok a s' → f a s' = g a s') : (x >>= f) s = (y >>= g) s := by
  rw [run_bind_congr hxy]
  cases hy : y s with
  | ok a s' => rw [run_bind_ok hy, run_bind_ok hy, hfg a s' hy]
  | error e s' => rw [run_bind_error hy, run_bind_error hy]

/-- A sequence that returned did so through its first action. -/
theorem of_run_bind_ok {x : EStateM ε σ α} {f : α → EStateM ε σ β} {s s' : σ} {b : β}
    (h : (x >>= f) s = .ok b s') : ∃ a s₁, x s = .ok a s₁ ∧ f a s₁ = .ok b s' := by
  cases hx : x s with
  | ok a s₁ => exact ⟨a, s₁, rfl, by rw [← run_bind_ok (f := f) hx, h]⟩
  | error e s₁ =>
      rw [run_bind_error hx] at h
      cases h

/-! ### Keeping an invariant -/

/-- Whenever `x` starts in a state with `I` and returns, `I` holds again and the result
satisfies `Q`. -/
def Keeps (I : σ → Prop) (x : EStateM ε σ α) (Q : α → Prop) : Prop :=
  ∀ s a s', I s → x s = .ok a s' → I s' ∧ Q a

namespace Keeps

variable {I : σ → Prop} {P Q : α → Prop} {R : β → Prop} {x y : EStateM ε σ α}
  {f : α → EStateM ε σ β}

/-- Returning keeps the invariant. -/
theorem pure {a : α} (h : Q a) : Keeps I (Pure.pure a : EStateM ε σ α) Q := by
  intro s b s' hI hrun
  cases hrun
  exact ⟨hI, h⟩

/-- The sequencing rule. -/
theorem bind (hx : Keeps I x P) (hf : ∀ a, P a → Keeps I (f a) R) : Keeps I (x >>= f) R := by
  intro s b s' hI hrun
  obtain ⟨a, s₁, hx₁, hf₁⟩ := of_run_bind_ok hrun
  obtain ⟨hI₁, hP⟩ := hx s a s₁ hI hx₁
  exact hf a hP s₁ b s' hI₁ hf₁

/-- The state that is read has the invariant. -/
theorem read : Keeps I (get : EStateM ε σ σ) I := by
  intro s a s' hI hrun
  cases hrun
  exact ⟨hI, hI⟩

/-- An update that keeps it. -/
theorem update {g : σ → σ} (hg : ∀ s, I s → I (g s)) :
    Keeps I (modify g : EStateM ε σ PUnit) fun _ => True := by
  intro s a s' hI hrun
  cases hrun
  exact ⟨hg s hI, trivial⟩

/-- Whichever branch is taken. -/
theorem ite {c : Prop} [Decidable c] (hx : c → Keeps I x Q) (hy : ¬ c → Keeps I y Q) :
    Keeps I (if c then x else y) Q := by
  by_cases hc : c
  · rw [if_pos hc]
    exact hx hc
  · rw [if_neg hc]
    exact hy hc

end Keeps

end OsAndC
