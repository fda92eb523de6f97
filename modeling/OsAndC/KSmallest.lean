import Mathlib.Data.List.Sort
import Mathlib.Data.List.TakeWhile
import Mathlib.Order.Bounds.Defs

/-!
# The k Smallest Entries of a List

`kSmallest k xs` is the list of the `k` smallest entries of `xs`, in order; it has fewer than
`k` entries only when `xs` has. `kSmallest_eq` recognises it: a sorted list of `k` entries
that are not larger than the others. The other lemmas say how the list changes when `xs`
gets one more entry, which is what a program needs that keeps it up to date.
-/

namespace OsAndC

variable {α : Type*} [LinearOrder α] {k : ℕ} {xs l l' : List α} {a b x : α}

/-- The `k` smallest entries, in order. -/
def kSmallest (k : ℕ) (xs : List α) : List α := (xs.insertionSort (· ≤ ·)).take k

/-- The sorted list `l` with `x` behind all entries that are not larger. -/
def insertAfter (x : α) (l : List α) : List α :=
  l.takeWhile (· ≤ x) ++ x :: l.dropWhile (· ≤ x)

/-- There are `k` entries or all of them. -/
theorem length_kSmallest (k : ℕ) (xs : List α) :
    (kSmallest k xs).length = min k xs.length := by
  rw [kSmallest, List.length_take, List.length_insertionSort]

/-- They are in order. -/
theorem kSmallest_sorted (k : ℕ) (xs : List α) :
    (kSmallest k xs).Pairwise (· ≤ ·) :=
  (List.pairwise_insertionSort (· ≤ ·) xs).sublist (List.take_sublist k _)

/-- A sorted list of entries none of which is larger than one of the others. -/
theorem kSmallest_eq (hperm : (l ++ l').Perm xs) (hl : l.Pairwise (· ≤ ·))
    (hle : ∀ a ∈ l, ∀ b ∈ l', a ≤ b) : kSmallest l.length xs = l := by
  have hsorted : (l ++ l'.insertionSort (· ≤ ·)).Pairwise (· ≤ ·) := by
    refine List.pairwise_append.mpr ⟨hl, List.pairwise_insertionSort _ _, fun a ha b hb => ?_⟩
    exact hle a ha b ((List.mem_insertionSort _).mp hb)
  have hperm' : (xs.insertionSort (· ≤ ·)).Perm (l ++ l'.insertionSort (· ≤ ·)) :=
    (List.perm_insertionSort _ xs).trans <| hperm.symm.trans <|
      (List.perm_insertionSort _ l').symm.append_left l
  have heq := hperm'.eq_of_pairwise' (List.pairwise_insertionSort _ xs) hsorted
  rw [kSmallest, heq, List.take_left']
  rfl

/-- All entries, when there are not more than `k`. -/
theorem kSmallest_of_length_le (hk : xs.length ≤ k) :
    kSmallest k xs = xs.insertionSort (· ≤ ·) :=
  List.take_of_length_le (by rwa [List.length_insertionSort])

/-- The other entries of the list are not smaller. -/
theorem exists_rest (k : ℕ) (xs : List α) : ∃ l', (kSmallest k xs ++ l').Perm xs ∧
    ∀ a ∈ kSmallest k xs, ∀ b ∈ l', a ≤ b := by
  refine ⟨(xs.insertionSort (· ≤ ·)).drop k, ?_, ?_⟩
  · rw [kSmallest, List.take_append_drop]
    exact List.perm_insertionSort _ xs
  · have hsorted := List.pairwise_insertionSort (· ≤ ·) xs
    rw [← List.take_append_drop k (xs.insertionSort (· ≤ ·))] at hsorted
    exact (List.pairwise_append.mp hsorted).2.2

/-- The first of the smallest entries is the smallest. -/
theorem isLeast_head (ha : a ∈ (kSmallest k xs).head?) : IsLeast {x | x ∈ xs} a := by
  obtain ⟨l, hl⟩ := List.head?_eq_some_iff.mp ha
  obtain ⟨l', hperm, hle⟩ := exists_rest k xs
  have hsorted := kSmallest_sorted k xs
  rw [hl] at hperm hle hsorted
  refine ⟨hperm.mem_iff.mp (List.mem_append_left l' List.mem_cons_self), fun b hb => ?_⟩
  rcases List.mem_append.mp (hperm.mem_iff.mpr hb) with hb | hb
  · rcases List.mem_cons.mp hb with rfl | hb
    · exact le_rfl
    · exact (List.pairwise_cons.mp hsorted).1 b hb
  · exact hle a List.mem_cons_self b hb

/-! ### One more entry -/

/-- The entries are the old ones and the new one. -/
theorem insertAfter_perm : (insertAfter x l).Perm (l ++ [x]) := by
  have hfront : (insertAfter x l).Perm (x :: (l.takeWhile (· ≤ x) ++ l.dropWhile (· ≤ x))) :=
    List.perm_middle
  rw [List.takeWhile_append_dropWhile] at hfront
  exact hfront.trans (List.perm_append_singleton x l).symm

/-- Their number grows by one. -/
theorem length_insertAfter : (insertAfter x l).length = l.length + 1 := by
  rw [insertAfter_perm.length_eq, List.length_append, List.length_singleton]

/-- What comes behind `x` is larger. -/
theorem lt_of_mem_dropWhile (hl : l.Pairwise (· ≤ ·)) (hb : b ∈ l.dropWhile (· ≤ x)) : x < b := by
  induction l with
  | nil => cases hb
  | cons c l ih =>
      obtain ⟨hc, hl⟩ := List.pairwise_cons.mp hl
      by_cases hcx : c ≤ x
      · rw [List.dropWhile_cons_of_pos (by simpa using hcx)] at hb
        exact ih hl hb
      · rw [List.dropWhile_cons_of_neg (by simpa using hcx)] at hb
        rcases List.mem_cons.mp hb with rfl | hb
        · exact lt_of_not_ge hcx
        · exact (lt_of_not_ge hcx).trans_le (hc b hb)

/-- And they stay in order. -/
theorem insertAfter_sorted (hl : l.Pairwise (· ≤ ·)) : (insertAfter x l).Pairwise (· ≤ ·) := by
  have hle : ∀ a ∈ l.takeWhile (· ≤ x), a ≤ x := fun a ha => by
    simpa using List.mem_takeWhile_imp ha
  have hlt : ∀ b ∈ l.dropWhile (· ≤ x), x < b := fun b hb => lt_of_mem_dropWhile hl hb
  refine List.pairwise_append.mpr ⟨hl.sublist (List.takeWhile_sublist _),
    List.pairwise_cons.mpr ⟨fun b hb => (hlt b hb).le, hl.sublist (List.dropWhile_sublist _)⟩,
    fun a ha b hb => ?_⟩
  rcases List.mem_cons.mp hb with rfl | hb
  · exact hle a ha
  · exact (hle a ha).trans (hlt b hb).le

/-- At the end, when no entry is larger. -/
theorem insertAfter_of_forall_le (hl : ∀ a ∈ l, a ≤ x) : insertAfter x l = l ++ [x] := by
  have hall : ∀ a ∈ l, decide (a ≤ x) = true := fun a ha => decide_eq_true (hl a ha)
  rw [insertAfter, List.takeWhile_eq_self_iff.mpr hall, List.dropWhile_eq_nil_iff.mpr hall]

/-- A larger last entry stays the last. -/
theorem insertAfter_concat (hx : x < a) : insertAfter x (l ++ [a]) = insertAfter x l ++ [a] := by
  induction l with
  | nil => simp [insertAfter, hx]
  | cons b l ih =>
      by_cases hb : b ≤ x
      · simpa [insertAfter, hb] using ih
      · simp [insertAfter, hb]

/-- The list grows as long as it is not full. -/
theorem kSmallest_concat (hk : xs.length < k) :
    kSmallest k (xs ++ [x]) = insertAfter x (kSmallest k xs) := by
  have hlen : (xs ++ [x]).length ≤ k := by
    rw [List.length_append, List.length_singleton]
    exact hk
  rw [kSmallest_of_length_le hlen, kSmallest_of_length_le hk.le]
  have hsorted := List.pairwise_insertionSort (· ≤ ·) xs
  have hperm : ((xs ++ [x]).insertionSort (· ≤ ·)).Perm
      (insertAfter x (xs.insertionSort (· ≤ ·))) :=
    (List.perm_insertionSort _ _).trans <|
      ((List.perm_insertionSort _ xs).symm.append_right [x]).trans insertAfter_perm.symm
  exact hperm.eq_of_pairwise' (List.pairwise_insertionSort _ _) (insertAfter_sorted hsorted)

/-- In a full list a smaller entry takes the place of the last one. -/
theorem kSmallest_concat_lt (hl : kSmallest k xs = l ++ [a]) (hk : l.length + 1 = k) (hx : x < a) :
    kSmallest k (xs ++ [x]) = insertAfter x l := by
  obtain ⟨l', hperm, hle⟩ := exists_rest k xs
  have hsorted := kSmallest_sorted k xs
  rw [hl] at hperm hle hsorted
  obtain ⟨hl₁, -, hl₂⟩ := List.pairwise_append.mp hsorted
  have hperm' : (insertAfter x l ++ a :: l').Perm (xs ++ [x]) := by
    have hfront : (l ++ [x] ++ a :: l').Perm (x :: (l ++ [a] ++ l')) := by
      simp
    have hback : (l ++ [a] ++ l' ++ [x]).Perm (x :: (l ++ [a] ++ l')) :=
      List.perm_append_singleton x _
    exact (insertAfter_perm.append_right _).trans <|
      hfront.trans <| hback.symm.trans (hperm.append_right [x])
  rw [← hk, ← length_insertAfter (x := x)]
  refine kSmallest_eq hperm' (insertAfter_sorted hl₁) fun b hb c hc => ?_
  have hba : b ≤ a := by
    rcases List.mem_append.mp (insertAfter_perm.mem_iff.mp hb) with hb | hb
    · exact hl₂ b hb a (List.mem_singleton_self a)
    · rw [List.mem_singleton.mp hb]
      exact hx.le
  rcases List.mem_cons.mp hc with rfl | hc
  · exact hba
  · exact hba.trans (hle a (by simp) c hc)

/-- Any other entry does not matter to a full list. -/
theorem kSmallest_concat_ge (hl : kSmallest k xs = l ++ [a]) (hk : l.length + 1 = k)
    (hx : a ≤ x) : kSmallest k (xs ++ [x]) = l ++ [a] := by
  obtain ⟨l', hperm, hle⟩ := exists_rest k xs
  have hsorted := kSmallest_sorted k xs
  rw [hl] at hperm hle hsorted
  have hperm' : (l ++ [a] ++ (l' ++ [x])).Perm (xs ++ [x]) := by
    rw [← List.append_assoc]
    exact hperm.append_right [x]
  have hlen : (l ++ [a]).length = k := by
    rw [List.length_append, List.length_singleton, hk]
  rw [← hlen]
  refine kSmallest_eq hperm' hsorted fun b hb c hc => ?_
  rcases List.mem_append.mp hc with hc | hc
  · exact hle b hb c hc
  · rw [List.mem_singleton.mp hc]
    rcases List.mem_append.mp hb with hb | hb
    · exact ((List.pairwise_append.mp hsorted).2.2 b hb a (List.mem_singleton_self a)).trans hx
    · rw [List.mem_singleton.mp hb]
      exact hx

end OsAndC
