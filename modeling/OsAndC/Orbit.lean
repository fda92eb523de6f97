import Mathlib.Data.Finset.Card
import Mathlib.Data.Finset.Range
import Mathlib.Logic.Function.Iterate

/-!
# Following a Successor Function inside a Set

`Orbit f P a l` says that `l` are the values met by iterating `f` from `a` until the first
value outside `P`, in order. There is at most one such list (`Orbit.unique`). The iteration
may also stay in `P` forever, but then, where `P` is finite, some value is met twice:
`Orbit.exists_of_neverRepeats` finds the list under `NeverRepeats`, and the list is no longer
than `P` is large (`Orbit.length_le`).
-/

namespace OsAndC

variable {α : Type*} {f : α → α} {P : Finset α} {a b : α} {l l' : List α}

/-- The values met from `a` on until the first one outside `P`. -/
inductive Orbit (f : α → α) (P : Finset α) : α → List α → Prop
  | stop {a : α} : a ∉ P → Orbit f P a []
  | visit {a : α} {l : List α} : a ∈ P → Orbit f P (f a) l → Orbit f P a (a :: l)

/-- As long as the iteration from `a` stays in `P`, it meets no value twice. -/
def NeverRepeats (f : α → α) (P : Finset α) (a : α) : Prop :=
  ∀ i j, i < j → (∀ k ≤ j, f^[k] a ∈ P) → f^[i] a ≠ f^[j] a

namespace Orbit

/-- There is one orbit at most. -/
theorem unique (h : Orbit f P a l) (h' : Orbit f P a l') : l = l' := by
  induction h generalizing l' with
  | stop ha =>
      cases h' with
      | stop _ => rfl
      | visit ha' _ => exact absurd ha' ha
  | visit ha _ ih =>
      cases h' with
      | stop ha' => exact absurd ha ha'
      | visit _ hrest => rw [ih hrest]

/-- An orbit stays in the set. -/
theorem subset (h : Orbit f P a l) : ∀ b ∈ l, b ∈ P := by
  induction h with
  | stop _ => simp
  | visit ha _ ih => exact fun b hb => (List.mem_cons.mp hb).elim (fun h0 => h0 ▸ ha) (ih b)

/-- The values are the iterates. -/
theorem getElem_eq (h : Orbit f P a l) (i : ℕ) (hi : i < l.length) : l[i] = f^[i] a := by
  induction h generalizing i with
  | stop _ => cases hi
  | visit _ _ ih =>
      cases i with
      | zero => rfl
      | succ i => exact ih i (Nat.lt_of_succ_lt_succ hi)

/-- A list without repetitions is no longer than the set is large. -/
theorem length_le (h : Orbit f P a l) (hnd : l.Nodup) : l.length ≤ P.card := by
  classical
  rw [← List.toFinset_card_of_nodup hnd]
  exact Finset.card_le_card fun b hb => h.subset b (List.mem_toFinset.mp hb)

/-- An iteration that leaves `P` has an orbit. -/
theorem exists_of_leaves {n : ℕ} (hn : f^[n] a ∉ P) : ∃ l, Orbit f P a l := by
  classical
  induction n generalizing a with
  | zero => exact ⟨[], .stop hn⟩
  | succ n ih =>
      by_cases ha : a ∈ P
      · obtain ⟨l, hl⟩ := ih (a := f a) hn
        exact ⟨a :: l, .visit ha hl⟩
      · exact ⟨[], .stop ha⟩

/-- What never repeats visits no point twice. -/
theorem nodup (h : Orbit f P a l) (hne : NeverRepeats f P a) : l.Nodup := by
  refine List.pairwise_iff_getElem.mpr fun i j hi hj hij => ?_
  rw [h.getElem_eq i hi, h.getElem_eq j hj]
  refine hne i j hij fun k hk => ?_
  rw [← h.getElem_eq k (by omega)]
  exact h.subset _ (List.getElem_mem _)

/-- An iteration that never repeats leaves a finite set. -/
theorem exists_of_neverRepeats (hne : NeverRepeats f P a) : ∃ l, Orbit f P a l ∧ l.Nodup := by
  obtain ⟨n, hn⟩ : ∃ n, f^[n] a ∉ P := by
    by_contra hall
    push Not at hall
    -- more iterates than the set has members
    obtain ⟨i, -, j, -, hij, heq⟩ := Finset.exists_ne_map_eq_of_card_lt_of_maps_to
      (s := Finset.range (P.card + 1)) (t := P) (f := fun k => f^[k] a) (by simp)
      fun k _ => hall k
    rcases Nat.lt_or_gt_of_ne hij with hlt | hlt
    · exact hne i j hlt (fun k _ => hall k) heq
    · exact hne j i hlt (fun k _ => hall k) heq.symm
  obtain ⟨l, hl⟩ := exists_of_leaves hn
  exact ⟨l, hl, hl.nodup hne⟩

end Orbit

end OsAndC
