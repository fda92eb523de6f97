import Mathlib.Data.List.Sort
import Mathlib.Logic.Function.Iterate
import Mathlib.Order.RelClasses

/-!
# Bubble Sort by a Comparison

A pass of bubble sort over a list carries one element along and swaps it with its right
neighbour where `gt` holds between the two: `sweep gt a l` is the pass that carries `a` into
`l`. As many passes as there are elements sort the list, by a strict weak order.

Nothing is assumed of `gt` for the result to be a permutation. If `gt` is a strict weak
order, a pass leaves the element it carries last above all the others (`exists_sweep_append`),
so each pass adds one to the settled elements at the end (`Settled`), and no element of
the result is greater than a later one (`pairwise_bubble`). A pass swaps only what `gt` tells
apart, so elements that are equal for `gt` keep their order (`filter_bubble`).
-/

namespace OsAndC

variable {α β : Type*}

/-- A strict weak order is negatively transitive. -/
theorem not_gt_trans {gt : α → α → Prop} [IsStrictWeakOrder α gt] {a b c : α}
    (hab : ¬gt a b) (hbc : ¬gt b c) : ¬gt a c := by
  intro hac
  have hba : ¬gt b a := fun hba => hbc (IsTrans.trans _ _ _ hba hac)
  have hcb : ¬gt c b := fun hcb => hab (IsTrans.trans _ _ _ hac hcb)
  exact (IsStrictWeakOrder.incomp_trans a b c ⟨hab, hba⟩ ⟨hbc, hcb⟩).1 hac

variable (gt : α → α → Prop) [DecidableRel gt]

/-- The pass that carries `a` into the list. -/
def sweep : α → List α → List α
  | a, [] => [a]
  | a, b :: l => if gt a b then b :: sweep a l else a :: sweep b l

/-- A pass over the whole list. -/
def pass : List α → List α
  | [] => []
  | a :: l => sweep gt a l

/-- Bubble sort: as many passes as there are elements. -/
def bubble (l : List α) : List α := (pass gt)^[l.length] l

/-! ### Permutation -/

/-- A sweep loses nothing. -/
theorem sweep_perm (a : α) (l : List α) : (sweep gt a l).Perm (a :: l) := by
  induction l generalizing a with
  | nil => exact List.Perm.refl _
  | cons b l ih =>
      rw [sweep]
      split
      · exact ((ih a).cons b).trans (List.Perm.swap a b l)
      · exact (ih b).cons a

/-- Nor does a pass. -/
theorem pass_perm (l : List α) : (pass gt l).Perm l := by
  cases l with
  | nil => exact List.Perm.refl _
  | cons a l => exact sweep_perm gt a l

/-- Nor do any number of them. -/
theorem iterate_pass_perm (k : ℕ) (l : List α) : ((pass gt)^[k] l).Perm l :=
  Function.Iterate.rec (fun l' : List α => l'.Perm l) (List.Perm.refl l)
    (fun l' h => (pass_perm gt l').trans h) k

/-- The result has the same elements. -/
theorem bubble_perm (l : List α) : (bubble gt l).Perm l := iterate_pass_perm gt _ l

variable {gt} {a x : α} {l : List α} {p : α → Bool} {k : ℕ}

/-! ### Stability -/

/-- A pass keeps the order of elements that are not told apart. -/
theorem filter_sweep (hp : ∀ a b, p a → p b → ¬gt a b) (a : α) (l : List α) :
    (sweep gt a l).filter p = (a :: l).filter p := by
  induction l generalizing a with
  | nil => rfl
  | cons b l ih =>
      rw [sweep]
      split
      case isTrue hgt =>
        rw [List.filter_cons, ih a]
        rcases hpa : p a with _ | _
        · simp only [List.filter_cons, hpa, Bool.false_eq_true, if_false]
        · have hpb : p b = false := by
            rw [← Bool.not_eq_true]
            exact fun hpb => hp a b hpa hpb hgt
          simp only [List.filter_cons, hpb, Bool.false_eq_true, if_false]
      case isFalse hgt => rw [List.filter_cons, ih b, ← List.filter_cons]

/-- The result has the elements that are not told apart in their order. -/
theorem filter_bubble (hp : ∀ a b, p a → p b → ¬gt a b) (l : List α) :
    (bubble gt l).filter p = l.filter p := by
  have hpass (l : List α) : (pass gt l).filter p = l.filter p := by
    cases l with
    | nil => rfl
    | cons a l => exact filter_sweep hp a l
  exact Function.Iterate.rec (fun l' : List α => l'.filter p = l.filter p) rfl
    (fun l' h => (hpass l').trans h) l.length

/-! ### Order -/

/-- A pass over a list in order changes nothing. -/
theorem sweep_of_pairwise (h : (a :: l).Pairwise fun x y => ¬gt x y) : sweep gt a l = a :: l := by
  induction l generalizing a with
  | nil => rfl
  | cons b l ih =>
      obtain ⟨ha, hl⟩ := List.pairwise_cons.mp h
      rw [sweep, if_neg (ha b List.mem_cons_self), ih hl]

section Order

variable [IsStrictWeakOrder α gt]

variable (gt) in
/-- A pass leaves elements behind and carries on one that none of them is greater than. -/
theorem exists_sweep_append (a : α) (l : List α) :
    ∃ f m, (∀ x ∈ a :: l, ¬gt x m) ∧ ∀ r, sweep gt a (l ++ r) = f ++ sweep gt m r := by
  induction l generalizing a with
  | nil =>
      refine ⟨[], a, fun x hx => ?_, fun r => rfl⟩
      rw [List.mem_singleton.mp hx]
      exact irrefl a
  | cons b l ih =>
      by_cases hgt : gt a b
      · obtain ⟨f, m, hmax, happ⟩ := ih a
        obtain ⟨ham, hlm⟩ := List.forall_mem_cons.mp hmax
        have hbm : ¬gt b m := not_gt_trans (asymm hgt) ham
        refine ⟨b :: f, m, ?_, fun r => ?_⟩
        · exact List.forall_mem_cons.mpr ⟨ham, List.forall_mem_cons.mpr ⟨hbm, hlm⟩⟩
        · rw [List.cons_append, sweep, if_pos hgt, happ, List.cons_append]
      · obtain ⟨f, m, hmax, happ⟩ := ih b
        have ham : ¬gt a m := not_gt_trans hgt (hmax b List.mem_cons_self)
        refine ⟨a :: f, m, List.forall_mem_cons.mpr ⟨ham, hmax⟩, fun r => ?_⟩
        rw [List.cons_append, sweep, if_neg hgt, happ, List.cons_append]

variable (gt) in
/-- The last `k` elements are in order, and none of the others is greater than one of
them. -/
def Settled (k : ℕ) (l : List α) : Prop :=
  ∃ f r, l = f ++ r ∧ r.length = k ∧ (r.Pairwise fun x y => ¬gt x y) ∧
    ∀ x ∈ f, ∀ y ∈ r, ¬gt x y

/-- A pass settles one more element. -/
theorem Settled.succ (h : Settled gt k l) (hk : k < l.length) :
    Settled gt (k + 1) (pass gt l) := by
  obtain ⟨f, r, rfl, hlen, hr, hfr⟩ := h
  cases f with
  | nil =>
      simp only [List.nil_append] at hk
      omega
  | cons a f =>
      obtain ⟨g, m, hmax, happ⟩ := exists_sweep_append gt a f
      have hperm : (g ++ [m]).Perm (a :: f) := by
        have := sweep_perm gt a f
        rwa [← List.append_nil f, happ, List.append_nil] at this
      have hm : m ∈ a :: f := hperm.subset (List.mem_append_right g List.mem_cons_self)
      have hmr : (m :: r).Pairwise fun x y => ¬gt x y :=
        List.pairwise_cons.mpr ⟨hfr m hm, hr⟩
      refine ⟨g, m :: r, ?_, by rw [List.length_cons, hlen], hmr, fun x hx => ?_⟩
      · rw [List.cons_append, pass, happ, sweep_of_pairwise hmr]
      · have hx' : x ∈ a :: f := hperm.subset (List.mem_append_left [m] hx)
        exact List.forall_mem_cons.mpr ⟨hmax x hx', hfr x hx'⟩

variable (gt) in
/-- In the result no element is greater than a later one. -/
theorem pairwise_bubble (l : List α) : (bubble gt l).Pairwise fun x y => ¬gt x y := by
  have hsettled (k : ℕ) (hk : k ≤ l.length) : Settled gt k ((pass gt)^[k] l) := by
    induction k with
    | zero =>
        exact ⟨l, [], by simp, rfl, List.Pairwise.nil, fun x hx y hy => absurd hy (by simp)⟩
    | succ k ih =>
        rw [Function.iterate_succ_apply']
        refine (ih (by omega)).succ ?_
        rw [(iterate_pass_perm gt k l).length_eq]
        omega
  obtain ⟨f, r, happ, hlen, hr, -⟩ := hsettled l.length le_rfl
  have hf : f.length = 0 := by
    have := (iterate_pass_perm gt l.length l).length_eq
    rw [happ, List.length_append] at this
    omega
  rw [bubble, happ, List.length_eq_zero_iff.mp hf]
  exact hr

end Order

/-! ### An order on the elements only -/

/-- Sorting commutes with a map that keeps the comparison. -/
theorem bubble_map (f : β → α) (l : List β) :
    bubble gt (l.map f) = (bubble (fun x y => gt (f x) (f y)) l).map f := by
  have hsweep (a : β) (l : List β) :
      sweep gt (f a) (l.map f) = (sweep (fun x y => gt (f x) (f y)) a l).map f := by
    induction l generalizing a with
    | nil => rfl
    | cons b l ih =>
        rw [List.map_cons, sweep, sweep]
        split
        · rw [ih, List.map_cons]
        · rw [ih, List.map_cons]
  have hpass : Function.Semiconj (List.map f) (pass fun x y => gt (f x) (f y)) (pass gt) := by
    intro l
    cases l with
    | nil => rfl
    | cons a l => exact (hsweep a l).symm
  rw [bubble, List.length_map, bubble]
  exact ((hpass.iterate_right l.length) l).symm

variable (gt) in
/-- In the result no element is greater than a later one, if `gt` is a strict weak order
on the elements. -/
theorem pairwise_bubble_of_mem (h : IsStrictWeakOrder {a // a ∈ l} fun x y => gt x y) :
    (bubble gt l).Pairwise fun x y => ¬gt x y := by
  have hsorted := pairwise_bubble (fun x y : {a // a ∈ l} => gt x y) l.attach
  rw [← List.attach_map_subtype_val l, bubble_map]
  exact List.pairwise_map.mpr hsorted

variable (gt) in
/-- The result has the elements that are equal to one of them in their order, if `gt` is a
strict weak order on the elements. -/
theorem filter_bubble_of_mem (h : IsStrictWeakOrder {a // a ∈ l} fun x y => gt x y)
    (hx : x ∈ l) : (bubble gt l).filter (fun y => ¬gt x y ∧ ¬gt y x) =
      l.filter fun y => ¬gt x y ∧ ¬gt y x := by
  have hequal (a b : {a // a ∈ l}) (ha : decide (¬gt x a ∧ ¬gt a x))
      (hb : decide (¬gt x b ∧ ¬gt b x)) : ¬gt a b :=
    (h.incomp_trans a ⟨x, hx⟩ b (of_decide_eq_true ha).symm (of_decide_eq_true hb)).1
  have hfilter := filter_bubble hequal l.attach
  rw [← List.attach_map_subtype_val l, bubble_map, List.filter_map, List.filter_map]
  exact congrArg _ hfilter

end OsAndC
