import OsAndC.Sorting

/-!
# What `bubble_sort` Returns

`State.Holds s p l` says that the array at `p` holds the values `l` and lies in a live
object. The loops of `bubble_sort` act on these values: an access at index `j` is one to
the `j`-th value, the inner loop is a pass, and the outer loop makes as many passes as there
are values. So the array that is returned holds what `bubble` makes of the input
(`bubbleSort_run`), and memory outside of it stays as `malloc` left it (`SameOutside`).
-/

namespace OsAndC.Ex18

/-- The array at `p` holds the values `l`. -/
def ArrayAt (m : Mem) (p : ℕ) (l : List Int32) : Prop :=
  ∀ i v, l[i]? = some v → intAt m (p + 4 * i) = v

/-- The array at `p` holds the values `l` and lies in a live object. -/
structure State.Holds (s : State) (p : ℕ) (l : List Int32) : Prop where
  live : s.Live p (4 * l.length)
  ints : ArrayAt s.mem p l

/-- The two states differ at most in the `n` bytes at `p`. -/
structure SameOutside (p n : ℕ) (s s' : State) : Prop where
  objects : s'.objects = s.objects
  mem : Set.EqOn s'.mem s.mem (Set.Ico p (p + n))ᶜ

/-- `cmp(a, b) > 0`. -/
abbrev CompareCb.Greater (cmp : CompareCb) (a b : Int32) : Prop := 0 < cmp a b

variable {m m' : Mem} {s s' s₁ s₂ : State} {p p' n i : ℕ} {l f r : List Int32} {a b v : Int32}
  {malloc : Malloc} {count : Int32}

namespace SameOutside

/-- Nothing has changed at all. -/
theorem refl (p n : ℕ) (s : State) : SameOutside p n s s := ⟨rfl, fun _ _ => rfl⟩

/-- What has changed twice has changed inside. -/
theorem trans (h : SameOutside p n s s₁) (h' : SameOutside p n s₁ s₂) : SameOutside p n s s₂ :=
  ⟨h'.objects.trans h.objects, h'.mem.trans h.mem⟩

end SameOutside

/-! ### Arrays of `int`s -/

/-- An `int` that is stored is read back. -/
theorem intAt_store32_self (m : Mem) (a : ℕ) (v : Int32) :
    intAt (m.store32 a v.toUInt32.toNat) a = v := by
  rw [intAt, Mem.load32_store32_self, Nat.mod_eq_of_lt v.toUInt32.toNat_lt]
  exact congrArg Int32.ofUInt32 (UInt32.ofNat_toNat (x := v.toUInt32))

/-- The values of an array depend on its bytes only. -/
theorem ArrayAt.congr (h : ArrayAt m p l) (hm : ∀ c, p ≤ c → c < p + 4 * l.length → m' c = m c) :
    ArrayAt m' p l := by
  intro i v hi
  have hlt : i < l.length := (List.getElem?_eq_some_iff.mp hi).1
  rw [← h i v hi, intAt, intAt, Mem.load32_congr]
  intro c h₁ h₂
  exact hm c (by omega) (by omega)

/-- A copy of an array holds the same values. -/
theorem ArrayAt.copy (h : ArrayAt m p l) : ArrayAt (m.copy p' p (4 * l.length)) p' l := by
  intro i v hi
  have hlt : i < l.length := (List.getElem?_eq_some_iff.mp hi).1
  have hbyte (k : ℕ) (hk : k < 4) :
      m.copy p' p (4 * l.length) (p' + 4 * i + k) = m (p + 4 * i + k) := by
    rw [Nat.add_assoc, Nat.add_assoc]
    exact Mem.copy_apply (by omega)
  rw [← h i v hi, intAt, intAt, Mem.load32, Mem.load32, hbyte 1 (by omega), hbyte 2 (by omega),
    hbyte 3 (by omega)]
  exact congrArg (fun b : UInt8 => Int32.ofNat (b.toNat + _ + _ + _)) (hbyte 0 (by omega))

/-- The access to an element stays inside the object. -/
theorem State.Holds.access (h : s.Holds p l) (hi : i < l.length) :
    access (p + 4 * i) 4 s = .ok () s := by
  obtain ⟨o, ho, h₁, h₂⟩ := h.live
  have hlive : s.Live (p + 4 * i) 4 := ⟨o, ho, by omega, by omega⟩
  rw [Ex18.access, run_get_bind, if_pos hlive]
  rfl

/-- An entry of the array is read. -/
theorem getInt_run (h : s.Holds p l) (hi : l[i]? = some v) : getInt p i s = .ok v s := by
  have hlt : i < l.length := (List.getElem?_eq_some_iff.mp hi).1
  rw [getInt, run_bind_ok (h.access hlt), run_get_bind, run_pure, h.ints i v hi]

/-- An assignment changes one element. -/
theorem setInt_run (h : s.Holds p l) (hi : i < l.length) (v : Int32) :
    ∃ s', setInt p i v s = .ok () s' ∧ s'.Holds p (l.set i v) ∧
      SameOutside p (4 * l.length) s s' := by
  refine ⟨{ s with mem := s.mem.store32 (p + 4 * i) v.toUInt32.toNat }, ?_, ⟨?_, ?_⟩, rfl, ?_⟩
  · rw [setInt, run_bind_ok (h.access hi)]
    rfl
  · rw [List.length_set]
    exact h.live
  · intro j w hj
    rw [List.getElem?_set] at hj
    split at hj
    case isTrue hij =>
      subst hij
      cases hj
      exact intAt_store32_self _ _ _
    case isFalse hij =>
      rw [← h.ints j w hj, intAt, intAt, Mem.load32_store32_of_disjoint]
      omega
  · refine (Mem.store32_eqOn _ _ _).mono (Set.compl_subset_compl.mpr ?_)
    exact Set.Ico_subset_Ico (by omega) (by omega)

/-! ### The loops -/

/-- One comparison, at the index behind `f`. -/
theorem sortStep_run (cmp : CompareCb) (h : s.Holds p (f ++ a :: b :: r)) :
    ∃ s', sortStep p cmp f.length s = .ok () s' ∧
      s'.Holds p (f ++ if cmp.Greater a b then b :: a :: r else a :: b :: r) ∧
      SameOutside p (4 * (f ++ a :: b :: r).length) s s' := by
  have ha : (f ++ a :: b :: r)[f.length]? = some a := by simp
  have hb : (f ++ a :: b :: r)[f.length + 1]? = some b := by simp
  rw [sortStep, run_bind_ok (getInt_run h ha), run_bind_ok (getInt_run h hb)]
  by_cases hgt : cmp.Greater a b
  · obtain ⟨s₁, hrun₁, hs₁, hsame₁⟩ := setInt_run h (i := f.length + 1) (by simp) a
    have hset₁ : (f ++ a :: b :: r).set (f.length + 1) a = f ++ a :: a :: r := by simp
    rw [hset₁] at hs₁
    obtain ⟨s₂, hrun₂, hs₂, hsame₂⟩ := setInt_run hs₁ (i := f.length) (by simp) b
    have hset₂ : (f ++ a :: a :: r).set f.length b = f ++ b :: a :: r := by simp
    rw [hset₂] at hs₂
    refine ⟨s₂, ?_, ?_, hsame₁.trans (by simpa using hsame₂)⟩
    · rw [if_pos hgt, run_bind_ok (getInt_run h hb), run_bind_ok (getInt_run h ha),
        run_bind_ok hrun₁, hrun₂]
    · rw [if_pos hgt]
      exact hs₂
  · rw [if_neg hgt, if_neg hgt]
    exact ⟨s, rfl, h, .refl _ _ _⟩

/-- The inner loop, from the index behind `f` on, carries `a` into the rest. -/
theorem sweep_run (cmp : CompareCb) (h : s.Holds p (f ++ a :: r)) :
    ∃ s', (List.range' f.length r.length).forM (sortStep p cmp) s = .ok () s' ∧
      s'.Holds p (f ++ sweep cmp.Greater a r) ∧
      SameOutside p (4 * (f ++ a :: r).length) s s' := by
  induction r generalizing f a s with
  | nil => exact ⟨s, rfl, h, .refl _ _ _⟩
  | cons b r ih =>
      obtain ⟨s₁, hrun₁, hs₁, hsame₁⟩ := sortStep_run cmp h
      -- `c` stays behind, and `d` is carried on
      have hstep : ∃ c d, sweep cmp.Greater a (b :: r) = c :: sweep cmp.Greater d r ∧
          s₁.Holds p (f ++ c :: d :: r) := by
        rw [sweep]
        by_cases hgt : cmp.Greater a b
        · rw [if_pos hgt] at hs₁ ⊢
          exact ⟨b, a, rfl, hs₁⟩
        · rw [if_neg hgt] at hs₁ ⊢
          exact ⟨a, b, rfl, hs₁⟩
      obtain ⟨c, d, hsweep, hs₁⟩ := hstep
      rw [List.append_cons] at hs₁
      obtain ⟨s₂, hrun₂, hs₂, hsame₂⟩ := ih hs₁
      refine ⟨s₂, ?_, ?_, hsame₁.trans (by simpa using hsame₂)⟩
      · rw [List.length_append, List.length_singleton] at hrun₂
        rw [List.length_cons, List.range'_succ]
        exact (run_bind_ok hrun₁).trans hrun₂
      · rwa [hsweep, List.append_cons]

/-- The inner loop is a pass. -/
theorem pass_run (cmp : CompareCb) (h : s.Holds p l) :
    ∃ s', (List.range (l.length - 1)).forM (sortStep p cmp) s = .ok () s' ∧
      s'.Holds p (pass cmp.Greater l) ∧ SameOutside p (4 * l.length) s s' := by
  cases l with
  | nil => exact ⟨s, rfl, h, .refl _ _ _⟩
  | cons a r =>
      rw [List.range_eq_range']
      exact sweep_run (f := []) cmp h

/-- The outer loop makes a pass for each of its indices. -/
theorem passes_run (cmp : CompareCb) (ks : List ℕ) (h : s.Holds p l) :
    ∃ s', (ks.forM fun _ => (List.range (l.length - 1)).forM (sortStep p cmp)) s = .ok () s' ∧
      s'.Holds p ((pass cmp.Greater)^[ks.length] l) ∧ SameOutside p (4 * l.length) s s' := by
  induction ks generalizing l s with
  | nil => exact ⟨s, rfl, h, .refl _ _ _⟩
  | cons k ks ih =>
      obtain ⟨s₁, hrun₁, hs₁, hsame₁⟩ := pass_run cmp h
      have hlen : (pass cmp.Greater l).length = l.length := (pass_perm _ l).length_eq
      have hrest := ih hs₁
      rw [hlen] at hrest
      obtain ⟨s₂, hrun₂, hs₂, hsame₂⟩ := hrest
      exact ⟨s₂, (run_bind_ok hrun₁).trans hrun₂, hs₂, hsame₁.trans hsame₂⟩

/-! ### The copy -/

/-- The size of an array is a number of bytes. -/
theorem sizeOfInts_eq (hcount : count.toInt = l.length) : sizeOfInts count = 4 * l.length := by
  have hlt := count.toInt_lt
  rw [sizeOfInts, hcount] at *
  omega

/-- A `malloc` that succeeds adds its object. -/
theorem callMalloc_run (hne : (malloc n s).1 ≠ 0) : callMalloc malloc n s =
    .ok (malloc n s).1 ⟨(malloc n s).2, ((malloc n s).1, n) :: s.objects⟩ := by
  have hrun : callMalloc malloc n s = .ok (malloc n s).1 ⟨(malloc n s).2,
      if (malloc n s).1 = 0 then s.objects else ((malloc n s).1, n) :: s.objects⟩ := rfl
  rw [hrun, if_neg hne]

/-- A copy between two objects that lie apart. -/
theorem memcpy_run (hdst : s.Live p' n) (hsrc : s.Live p n) (hapart : p + n ≤ p' ∨ p' + n ≤ p) :
    memcpy p' p n s = .ok () { s with mem := s.mem.copy p' p n } := by
  have haccess {a : ℕ} (h : s.Live a n) : access a n s = .ok () s := by
    rw [access, run_get_bind, if_pos h]
    rfl
  rw [memcpy, run_bind_ok (haccess hdst), run_bind_ok (haccess hsrc), if_neg (by omega)]
  rfl

/-- `malloc` and `memcpy` make an array with the values of the input. -/
theorem copy_run (h : s.Holds p l) (hm : malloc.Grants (4 * l.length) s) :
    ∃ s₁ s', callMalloc malloc (4 * l.length) s = .ok (malloc (4 * l.length) s).1 s₁ ∧
      memcpy (malloc (4 * l.length) s).1 p (4 * l.length) s₁ = .ok () s' ∧
      s'.Holds (malloc (4 * l.length) s).1 l ∧
      ∀ o ∈ s.objects, Set.EqOn s'.mem s.mem (Set.Ico o.1 (o.1 + o.2)) := by
  have hmalloc := callMalloc_run hm.ne_null
  obtain ⟨-, hapart, hkeeps⟩ := hm
  generalize (malloc (4 * l.length) s).1 = target at *
  generalize (malloc (4 * l.length) s).2 = mem at *
  obtain ⟨o, ho, hlo, hhi⟩ := h.live
  have hapart_o := hapart o ho
  have hdst : State.Live ⟨mem, (target, 4 * l.length) :: s.objects⟩ target (4 * l.length) :=
    ⟨_, List.mem_cons_self, le_rfl, le_rfl⟩
  have hsrc : State.Live ⟨mem, (target, 4 * l.length) :: s.objects⟩ p (4 * l.length) :=
    ⟨o, List.mem_cons_of_mem _ ho, hlo, hhi⟩
  have hints : ArrayAt mem p l := by
    refine h.ints.congr fun c h₁ h₂ => hkeeps o ho ?_
    exact Set.mem_Ico.mpr ⟨by omega, by omega⟩
  refine ⟨_, _, hmalloc, memcpy_run hdst hsrc (by omega), ⟨hdst, hints.copy⟩, fun o ho c hc => ?_⟩
  · have := hapart o ho
    rw [← hkeeps o ho hc]
    exact Mem.copy_eqOn _ _ _ _ (by simp only [Set.mem_compl_iff, Set.mem_Ico] at hc ⊢; omega)

/-- `bubble_sort` returns an array of the sorted values, and leaves every object that was live
as it was. -/
theorem bubbleSort_run (cmp : CompareCb) (hcount : count.toInt = l.length) (h : s.Holds p l)
    (hm : malloc.Grants (4 * l.length) s) :
    ∃ target s', bubbleSort malloc p count cmp s = .ok target s' ∧
      s'.Holds target (bubble cmp.Greater l) ∧
      ∀ o ∈ s.objects, Set.EqOn s'.mem s.mem (Set.Ico o.1 (o.1 + o.2)) := by
  obtain ⟨s₁, s₂, hmalloc, hcopy, hs₂, hkeeps⟩ := copy_run h hm
  obtain ⟨s', hsort, hs', hsame⟩ := passes_run cmp (List.range l.length) hs₂
  rw [List.length_range] at hs'
  refine ⟨_, s', ?_, hs', fun o ho c hc => ?_⟩
  · have hn : count.toInt.toNat = l.length := by omega
    have hn' : (count.toInt - 1).toNat = l.length - 1 := by omega
    rw [bubbleSort, sizeOfInts_eq hcount, run_bind_ok hmalloc, if_neg hm.ne_null]
    refine (run_bind_ok hcopy).trans ?_
    rw [hn, hn', run_bind_ok hsort, run_pure]
  · have := hm.apart o ho
    rw [← hkeeps o ho hc]
    exact hsame.mem (by simp only [Set.mem_compl_iff, Set.mem_Ico] at hc ⊢; omega)

example : [sortedOrder, reverseOrder, strangeOrder].map
      (fun cmp => bubble (CompareCb.Greater cmp) [4, 1, 7, 3, 2, 0, 8]) =
    [[0, 1, 2, 3, 4, 7, 8], [8, 7, 4, 3, 2, 1, 0], [3, 4, 2, 7, 1, 0, 8]] := by decide

/-! ### The comparators -/

/-- Where neither or one of two values is the smaller one, the difference has its sign. -/
theorem greater_sortedOrder : CompareCb.Greater sortedOrder a b ↔ b < a := by
  have hasymm : ¬(b < a ∧ a < b) := by
    rw [Int32.lt_iff_toInt_lt, Int32.lt_iff_toInt_lt]
    omega
  rw [CompareCb.Greater, sortedOrder]
  by_cases hba : b < a
  · have hab : ¬a < b := fun hab => hasymm ⟨hba, hab⟩
    rw [decide_eq_true hba, decide_eq_false hab]
    exact iff_of_true (by decide) hba
  · rw [decide_eq_false hba]
    refine iff_of_false ?_ hba
    by_cases hab : a < b
    · rw [decide_eq_true hab]
      decide
    · rw [decide_eq_false hab]
      decide

/-- `reverse_order` asks to swap where the first is smaller. -/
theorem greater_reverseOrder : CompareCb.Greater reverseOrder a b ↔ a < b :=
  greater_sortedOrder (a := b) (b := a)

/-- A comparator that compares keys orders all values. -/
theorem isStrictWeakOrder_of_key (cmp : CompareCb) (key : Int32 → ℤ)
    (h : ∀ a b, cmp.Greater a b ↔ key b < key a) :
    IsStrictWeakOrder Int32 cmp.Greater where
  irrefl a := by
    rw [h]
    omega
  trans a b c := by
    rw [h, h, h]
    omega
  incomp_trans a b c := by
    simp only [h]
    omega

/-- `sorted_order` gives the ascending arrangement. -/
theorem pairwise_sortedOrder (l : List Int32) :
    (bubble (CompareCb.Greater sortedOrder) l).Pairwise (· ≤ ·) := by
  have := isStrictWeakOrder_of_key sortedOrder Int32.toInt fun a b => by
    rw [greater_sortedOrder, Int32.lt_iff_toInt_lt]
  refine (pairwise_bubble _ l).imp fun {a b} h => ?_
  rwa [greater_sortedOrder, Int32.not_lt] at h

/-- `reverse_order` gives the descending arrangement. -/
theorem pairwise_reverseOrder (l : List Int32) :
    (bubble (CompareCb.Greater reverseOrder) l).Pairwise (· ≥ ·) := by
  have := isStrictWeakOrder_of_key reverseOrder (fun a => -a.toInt) fun a b => by
    rw [greater_reverseOrder, Int32.lt_iff_toInt_lt]
    omega
  refine (pairwise_bubble _ l).imp fun {a b} h => ?_
  rwa [greater_reverseOrder, Int32.not_lt] at h

/-- Each arrangement is the mirror image of the other. -/
theorem bubble_reverseOrder (l : List Int32) :
    bubble (CompareCb.Greater reverseOrder) l =
      (bubble (CompareCb.Greater sortedOrder) l).reverse := by
  have hperm : (bubble (CompareCb.Greater reverseOrder) l).Perm
      (bubble (CompareCb.Greater sortedOrder) l).reverse :=
    (bubble_perm _ l).trans ((bubble_perm _ l).symm.trans (List.reverse_perm _).symm)
  refine hperm.eq_of_pairwise (fun a b _ _ hab hba => Int32.le_antisymm hba hab)
    (pairwise_reverseOrder l) ?_
  exact List.pairwise_reverse.mpr (pairwise_sortedOrder l)

/-- `bubble_sort` returns a stably sorted copy of its input. -/
theorem bubbleSort_stable {numbers : ℕ} {xs : List Int32} (hcount : count.toInt = xs.length)
    (hxs : s.Holds numbers xs) (hm : malloc.Grants (4 * xs.length) s) :
    ∃ result : CompareCb → List Int32,
      (∀ cmp, ∃ target s', bubbleSort malloc numbers count cmp s = .ok target s' ∧
        s'.Holds target (result cmp) ∧ (result cmp).Perm xs ∧ ArrayAt s'.mem numbers xs ∧
        (∀ o ∈ s.objects, Set.EqOn s'.mem s.mem (Set.Ico o.1 (o.1 + o.2))) ∧
        (IsStrictWeakOrder {a // a ∈ xs} (fun a b => 0 < cmp a b) →
          (result cmp).Pairwise (fun a b => ¬0 < cmp a b) ∧
          ∀ x ∈ xs, (result cmp).filter (fun y => ¬0 < cmp x y ∧ ¬0 < cmp y x) =
            xs.filter fun y => ¬0 < cmp x y ∧ ¬0 < cmp y x)) ∧
      (result sortedOrder).Pairwise (· ≤ ·) ∧ (result reverseOrder).Pairwise (· ≥ ·) ∧
      result reverseOrder = (result sortedOrder).reverse := by
  refine ⟨fun cmp => bubble cmp.Greater xs, fun cmp => ?_, pairwise_sortedOrder xs,
    pairwise_reverseOrder xs, bubble_reverseOrder xs⟩
  obtain ⟨target, s', hrun, hs', hkeeps⟩ := bubbleSort_run cmp hcount hxs hm
  refine ⟨target, s', hrun, hs', bubble_perm _ xs, ?_, hkeeps, fun h => ?_⟩
  · obtain ⟨o, ho, hlo, hhi⟩ := hxs.live
    refine hxs.ints.congr fun c h₁ h₂ => hkeeps o ho ?_
    exact Set.mem_Ico.mpr ⟨by omega, by omega⟩
  · exact ⟨pairwise_bubble_of_mem _ h, fun x hx => filter_bubble_of_mem cmp.Greater h hx⟩

/-- The array `{4, 1, 7}` at address 4096. -/
def sampleState : State where
  mem c := if c = 4096 then 4 else if c = 4100 then 1 else if c = 4104 then 7 else 0
  objects := [(4096, 12)]

/-- A `malloc` that has room at address 8192. -/
def sampleMalloc : Malloc := fun _ s => (8192, s.mem)

/-- The array the sample sorts. -/
theorem sampleState_holds : sampleState.Holds 4096 [4, 1, 7] := by
  refine ⟨by decide, fun i v hi => ?_⟩
  match i, hi with
  | 0, rfl => rfl
  | 1, rfl => rfl
  | 2, rfl => rfl

/-- The sample's `malloc` finds room for a copy of it. -/
theorem sampleMalloc_grants : sampleMalloc.Grants 12 sampleState where
  ne_null := by decide
  apart := by decide
  keeps _ _ := fun _ _ => rfl

/-- Three numbers are sorted, and the array they came from is as it was. -/
theorem bubbleSort_sample : ∃ target s',
    bubbleSort sampleMalloc 4096 3 sortedOrder sampleState = .ok target s' ∧
      s'.Holds target [1, 4, 7] ∧ ArrayAt s'.mem 4096 [4, 1, 7] := by
  have hcount : (3 : Int32).toInt = ([4, 1, 7] : List Int32).length := rfl
  obtain ⟨result, hrun, hsorted, -, -⟩ :=
    bubbleSort_stable hcount sampleState_holds sampleMalloc_grants
  obtain ⟨target, s', hok, hs', hperm, hinput, -, -⟩ := hrun sortedOrder
  have hresult : result sortedOrder = [1, 4, 7] :=
    (hperm.trans (by decide)).eq_of_pairwise (fun a b _ _ => Int32.le_antisymm) hsorted (by decide)
  rw [hresult] at hs'
  exact ⟨target, s', hok, hs', hinput⟩

end OsAndC.Ex18
