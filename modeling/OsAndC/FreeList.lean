import Mathlib.Data.List.Pairwise
import OsAndC.LinkedList
import OsAndC.Mm

/-!
# The Free List in Memory

The free list of `mm.c` threads two link words through the payload of each free block: the
successor at the block pointer, the predecessor one word further, `0` at both ends, with
the global `free_list` pointing to the head. `FreeChain s l` says that the machine stores
the list `l` in this way, with link areas that lie in the heap and do not overlap.

The two list operations are cons and erase on the stored list: `addToFreeList_exact` and
`removeFromFreeList_exact`. Both write link words only, so everything stored elsewhere is
framed; conversely `FreeChain.frame` says that the list survives any change outside its
link words.
-/

namespace OsAndC

/-- The bytes of the link words of the nodes of `l`. -/
def linkBytes (l : List ℕ) : Set ℕ := {c | ∃ a ∈ l, a ≤ c ∧ c < a + 8}

/-- The bytes of the two link words at a place in the list: the word `next` of the node in
front of it and the word `prev` of the node behind it. -/
def seamBytes (pre post : List ℕ) : Set ℕ :=
  {c | (∃ p ∈ pre.getLast?, p ≤ c ∧ c < p + 4) ∨ ∃ n ∈ post.head?, n + 4 ≤ c ∧ c < n + 8}

/-- The machine stores `l` as its free list. -/
structure FreeChain (s : Machine) (l : List ℕ) : Prop where
  head : s.freeList = l.headD 0
  links : Seg s.word (fun a => s.word (a + wsize)) 0 l 0
  aligned : ∀ a ∈ l, a % 4 = 0
  inHeap : ∀ a ∈ l, s.InHeap a 8
  apart : l.Pairwise fun a b => a + 8 ≤ b ∨ b + 8 ≤ a

variable {s s' : Machine} {l pre post : List ℕ} {a b c v : ℕ} {S : Set ℕ}

/-- The link words at a place in the list are link words of its nodes. -/
theorem seamBytes_subset (hpre : ∀ a ∈ pre, a ∈ l) (hpost : ∀ a ∈ post, a ∈ l) :
    seamBytes pre post ⊆ linkBytes l := by
  rintro c (⟨p, hp, h₁, h₂⟩ | ⟨n, hn, h₁, h₂⟩)
  · exact ⟨p, hpre p (List.mem_of_getLast? hp), h₁, by omega⟩
  · exact ⟨n, hpost n (List.mem_of_head? hn), by omega, h₂⟩

namespace FreeChain

/-- No node is listed twice. -/
theorem nodup (h : FreeChain s l) : l.Nodup :=
  h.apart.imp fun hab => by rintro rfl; omega

/-- The link areas of two nodes do not overlap. -/
theorem disjoint (h : FreeChain s l) (ha : a ∈ l) (hb : b ∈ l) (hab : a ≠ b) :
    a + 8 ≤ b ∨ b + 8 ≤ a :=
  have : Std.Symm fun a b : ℕ => a + 8 ≤ b ∨ b + 8 ≤ a := ⟨fun _ _ => Or.symm⟩
  h.apart.forall ha hb hab

/-- Nodes are not the null pointer, nor is the word behind it one. -/
theorem eight_le (h : FreeChain s l) (ha : a ∈ l) : 8 ≤ a := (h.inHeap a ha).eight_le

/-- A node is an address. -/
theorem lt (h : FreeChain s l) (ha : a ∈ l) : a < 2 ^ 32 := by
  have := (h.inHeap a ha).lt
  omega

/-- The null pointer is not a node. -/
theorem zero_notMem (h : FreeChain s l) : 0 ∉ l := fun h0 => by
  have := h.eight_le h0
  omega

/-- A head that is not null is the first node. -/
theorem head?_eq (h : FreeChain s l) (h0 : s.freeList ≠ 0) : l.head? = some s.freeList := by
  rw [h.head] at *
  cases l with
  | nil => exact absurd rfl h0
  | cons c l => rfl

/-- So it is a node. -/
theorem head_mem (h : FreeChain s l) (h0 : s.freeList ≠ 0) : s.freeList ∈ l :=
  List.mem_of_head? (h.head?_eq h0)

/-- A link is aligned, be it NULL or a node. -/
theorem link_aligned (h : FreeChain s l) (hc : c ≠ 0 → c ∈ l) : c % 4 = 0 := by
  by_cases h0 : c = 0
  · omega
  · exact h.aligned c (hc h0)

/-- The two link words of nodes do not coincide, nor with those of the null node. -/
theorem ne_add_wsize (h : FreeChain s l) (ha : a ∈ l) (hc : c ≠ 0 → c ∈ l) :
    a ≠ c + wsize := by
  have h₁ := h.eight_le ha
  simp only [wsize]
  rintro rfl
  have hc := hc (by omega)
  have := h.disjoint ha hc (by omega)
  omega

/-- The second link word of a node is no node either. -/
theorem add_wsize_ne (h : FreeChain s l) (ha : a ∈ l) (hc : c ≠ 0 → c ∈ l) :
    a + wsize ≠ c := by
  have hws : wsize = 4 := rfl
  rintro rfl
  exact h.ne_add_wsize (hc (by omega)) (fun _ => ha) rfl

/-- The list survives a change of bytes outside its link words. -/
theorem frame (h : FreeChain s l) (hf : Frame S s s') (hfl : s'.freeList = s.freeList)
    (hS : ∀ a ∈ l, ∀ c ∈ S, c < a ∨ a + 8 ≤ c) : FreeChain s' l where
  head := hfl.trans h.head
  links := h.links.congr fun a ha => ⟨
    hf.word fun c hc => by have := hS a ha c hc; omega,
    hf.word fun c hc => by have := hS a ha c hc; simp only [wsize]; omega⟩
  aligned := h.aligned
  inHeap := fun a ha => hf.inHeap.mpr (h.inHeap a ha)
  apart := h.apart

end FreeChain

/-! ### Writing one link -/

namespace Machine

/-- The effect of `set_next_free_block_ptr`. -/
def linkNext (s : Machine) (a v : ℕ) : Machine := if a = 0 then s else s.store a v

/-- The effect of `set_prev_free_block_ptr`. -/
def linkPrev (s : Machine) (a v : ℕ) : Machine := if a = 0 then s else s.store (a + wsize) v

/-- Writing a link does not move the head. -/
@[simp] theorem linkNext_freeList : (s.linkNext a v).freeList = s.freeList := by
  simp only [linkNext]
  split_ifs <;> rfl

/-- Nor does writing the other one. -/
@[simp] theorem linkPrev_freeList : (s.linkPrev a v).freeList = s.freeList := by
  simp only [linkPrev]
  split_ifs <;> rfl

/-- Writing the link `next` changes that word. -/
theorem linkNext_frame (hS : ∀ c, a ≠ 0 → a ≤ c → c < a + 4 → c ∈ S) :
    Frame S s (s.linkNext a v) := by
  simp only [linkNext]
  split_ifs with h0
  · exact Frame.refl S s
  · exact Frame.store_of_subset fun c h₁ h₂ => hS c h0 h₁ h₂

/-- Writing the link `prev` changes that word. -/
theorem linkPrev_frame (hS : ∀ c, a ≠ 0 → a + 4 ≤ c → c < a + 8 → c ∈ S) :
    Frame S s (s.linkPrev a v) := by
  simp only [linkPrev]
  split_ifs with h0
  · exact Frame.refl S s
  · exact Frame.store_of_subset fun c h₁ h₂ => hS c h0 h₁ h₂

/-- The heap stays where it is. -/
@[simp] theorem linkNext_inHeap {n : ℕ} : (s.linkNext a v).InHeap b n ↔ s.InHeap b n :=
  (linkNext_frame fun _ _ _ _ => Set.mem_univ _).inHeap

/-- The same for the other link. -/
@[simp] theorem linkPrev_inHeap {n : ℕ} : (s.linkPrev a v).InHeap b n ↔ s.InHeap b n :=
  (linkPrev_frame fun _ _ _ _ => Set.mem_univ _).inHeap

/-- The words after writing a link `next`. -/
theorem word_linkNext (ha : a % 4 = 0) (hb : b % 4 = 0) (hb0 : b ≠ 0) :
    (s.linkNext a v).word b = if b = a then v % 2 ^ 32 else s.word b := by
  simp only [linkNext]
  split_ifs with h0 hba hba
  · omega
  · rfl
  · rw [word_store ha hb, if_pos hba]
  · rw [word_store ha hb, if_neg hba]

/-- The words after writing a link `prev`. -/
theorem word_linkPrev (ha : a % 4 = 0) (hb : b % 4 = 0) (hb4 : b ≠ wsize) :
    (s.linkPrev a v).word b = if b = a + wsize then v % 2 ^ 32 else s.word b := by
  unfold wsize at *
  unfold linkPrev
  split_ifs with h0 hba hba
  · omega
  · rfl
  · rw [wsize, word_store (by omega) hb, if_pos hba]
  · rw [wsize, word_store (by omega) hb, if_neg hba]

end Machine

/-- `set_next_free_block_ptr` writes the link of a node in the heap, or nothing for NULL. -/
theorem setNextFreeBlockPtr_eq (ha : a % 4 = 0) (h : a ≠ 0 → s.InHeap a 8) :
    setNextFreeBlockPtr a v s = .ok () (s.linkNext a v) := by
  simp only [setNextFreeBlockPtr, Machine.linkNext]
  split_ifs with h0
  · rfl
  · have := h h0
    exact setVal_eq ha ⟨this.1, by have := this.2; omega⟩

/-- And so does `set_prev_free_block_ptr`. -/
theorem setPrevFreeBlockPtr_eq (ha : a % 4 = 0) (h : a ≠ 0 → s.InHeap a 8) :
    setPrevFreeBlockPtr a v s = .ok () (s.linkPrev a v) := by
  simp only [setPrevFreeBlockPtr, Machine.linkPrev]
  split_ifs with h0
  · rfl
  · obtain ⟨h₁, h₂⟩ := h h0
    simp only [wsize]
    exact setVal_eq (by omega) ⟨by omega, by omega⟩

/-! ### Cons and erase -/

/-- What `add_to_free_list` stores, when the old head is NULL or lies in the heap. -/
theorem addToFreeList_eq {f : ℕ} (hb : b % 4 = 0) (hin : s.InHeap b 8) (hf : f = s.freeList)
    (hf4 : f % 4 = 0) (hfin : f ≠ 0 → s.InHeap f 8) :
    addToFreeList b s = .ok ()
      { ((s.linkNext b f).linkPrev f b).linkPrev b 0 with freeList := b } := by
  rw [addToFreeList, run_get_bind, ← hf, run_bind_ok (setNextFreeBlockPtr_eq hb fun _ => hin),
    run_get_bind, Machine.linkNext_freeList, ← hf,
    run_bind_ok (setPrevFreeBlockPtr_eq hf4 fun h0 => Machine.linkNext_inHeap.mpr (hfin h0)),
    run_bind_ok (setPrevFreeBlockPtr_eq hb fun _ =>
      Machine.linkPrev_inHeap.mpr (Machine.linkNext_inHeap.mpr hin))]
  rfl

/-- What `remove_from_free_list` stores, when each neighbour is NULL or lies in the heap. -/
theorem removeFromFreeList_eq {p n : ℕ} (hb : b % 4 = 0) (hin : s.InHeap b 8)
    (hp : p = s.word (b + wsize)) (hn : n = s.word b) (hp4 : p % 4 = 0) (hn4 : n % 4 = 0)
    (hpin : p ≠ 0 → s.InHeap p 8) (hnin : n ≠ 0 → s.InHeap n 8) :
    removeFromFreeList b s = .ok () { (s.linkNext p n).linkPrev n p with
      freeList := if p = 0 then n else s.freeList } := by
  have hws : wsize = 4 := rfl
  obtain ⟨h₁, h₂⟩ := hin
  have hprev : getPrevFreeBlockPtr b s = .ok p s := by
    rw [hp]
    exact getVal_eq (by omega) ⟨by omega, by omega⟩
  have hnext : getNextFreeBlockPtr b s = .ok n s := by
    rw [hn]
    exact getVal_eq hb ⟨h₁, by omega⟩
  rw [removeFromFreeList, run_bind_ok hprev, run_bind_ok hnext]
  by_cases h0 : p = 0
  · rw [if_neg (not_not.mpr h0), if_pos h0, h0, Machine.linkNext, if_pos rfl,
      run_bind_ok (setPrevFreeBlockPtr_eq hn4 hnin)]
    rfl
  · have hfl : ((s.linkNext p n).linkPrev n p).freeList = s.freeList := by simp
    rw [if_pos h0, if_neg h0, run_bind_ok (setNextFreeBlockPtr_eq hp4 hpin),
      setPrevFreeBlockPtr_eq hn4 fun h0 => Machine.linkNext_inHeap.mpr (hnin h0), ← hfl]

/-- **`add_to_free_list` is cons.** The new node must have a link area of its own. Its links are
written, and the link of the old head to it. -/
theorem addToFreeList_exact (h : FreeChain s l) (hb : b % 4 = 0) (hin : s.InHeap b 8)
    (hap : ∀ a ∈ l, b + 8 ≤ a ∨ a + 8 ≤ b) :
    ∃ s', addToFreeList b s = .ok () s' ∧ FreeChain s' (b :: l) ∧
      Frame (linkBytes [b] ∪ seamBytes [] l) s s' := by
  have hws : wsize = 4 := rfl
  have hb8 := hin.eight_le
  have hbl := hin.lt
  obtain ⟨f, hf⟩ : ∃ f, f = s.freeList := ⟨_, rfl⟩
  have hfhead : f ≠ 0 → l.head? = some f := by
    rw [hf]
    exact h.head?_eq
  have hfmem : f ≠ 0 → f ∈ l := fun h0 => List.mem_of_head? (hfhead h0)
  have hf4 : f % 4 = 0 := h.link_aligned hfmem
  have hfl : f < 2 ^ 32 := by
    by_cases hf0 : f = 0
    · omega
    · exact h.lt (hfmem hf0)
  let s₃ := ((s.linkNext b f).linkPrev f b).linkPrev b 0
  have hrun : addToFreeList b s = .ok () { s₃ with freeList := b } :=
    addToFreeList_eq hb hin hf hf4 fun h0 => h.inHeap f (hfmem h0)
  -- the words of the list in the new memory
  have hword : ∀ c, c % 4 = 0 → c ≠ 0 → c ≠ wsize → s₃.word c =
      if c = b + wsize then 0 else if c = f + wsize then b else if c = b then f else s.word c := by
    intro c hc hc0 hc4
    change Machine.word (Machine.linkPrev _ _ _) c = _
    rw [Machine.word_linkPrev hb hc hc4, Machine.word_linkPrev hf4 hc hc4,
      Machine.word_linkNext hb hc hc0, Nat.mod_eq_of_lt (by omega : b < 2 ^ 32),
      Nat.mod_eq_of_lt hfl, Nat.zero_mod]
  have hframe : Frame (linkBytes [b] ∪ seamBytes [] l) s { s₃ with freeList := b } := by
    refine Frame.trans ?_ (Frame.setFreeList s₃ b)
    refine ((Machine.linkNext_frame fun c _ h₁ h₂ => ?_).trans
      (Machine.linkPrev_frame fun c h0 h₁ h₂ => ?_)).trans
      (Machine.linkPrev_frame fun c _ h₁ h₂ => ?_)
    · exact Or.inl ⟨b, List.mem_singleton_self b, h₁, by omega⟩
    · exact Or.inr (Or.inr ⟨f, hfhead h0, h₁, h₂⟩)
    · exact Or.inl ⟨b, List.mem_singleton_self b, by omega, h₂⟩
  refine ⟨_, hrun, ⟨rfl, ?_, ?_, ?_, ?_⟩, hframe⟩
  · have hhead : l.headD 0 = f := by rw [hf, h.head]
    have hge : ∀ a ∈ l, 8 ≤ a := fun a ha => h.eight_le ha
    have hfb : f ≠ 0 → b + 8 ≤ f ∨ f + 8 ≤ b := fun h0 => hap f (hfmem h0)
    refine h.links.push h.nodup ?_ ?_ ?_ ?_ ?_
    · refine (hword b hb (by omega) (by omega)).trans ?_
      rw [hhead, if_neg (by omega), if_neg (by omega), if_pos rfl]
    · refine (hword (b + wsize) (by omega) (by omega) (by omega)).trans ?_
      rw [if_pos rfl]
    · intro a ha
      have h₁ := hap a ha
      have h₂ := hge a ha
      have h₃ : f ≠ a → f ≠ 0 → f + 8 ≤ a ∨ a + 8 ≤ f := fun hfa h0 =>
        h.disjoint (hfmem h0) ha hfa
      refine (hword a (h.aligned a ha) (by omega) (by omega)).trans ?_
      rw [if_neg (by omega), if_neg (by omega), if_neg (by omega)]
    · intro a ha haf
      have h₁ := hap a ha
      have h₂ := hge a ha
      have h₄ := h.aligned a ha
      rw [hhead] at haf
      refine (hword (a + wsize) (by omega) (by omega) (by omega)).trans ?_
      rw [if_neg (by omega), if_pos (by omega)]
    · intro a ha haf
      have h₁ := hap a ha
      have h₂ := hge a ha
      have h₄ := h.aligned a ha
      rw [hhead] at haf
      refine (hword (a + wsize) (by omega) (by omega) (by omega)).trans ?_
      rw [if_neg (by omega), if_neg (by omega), if_neg (by omega)]
  · exact fun a ha => (List.mem_cons.mp ha).elim (fun h0 => h0 ▸ hb) (h.aligned a)
  · exact fun a ha => hframe.inHeap.mpr
      ((List.mem_cons.mp ha).elim (fun h0 => h0 ▸ hin) (h.inHeap a))
  · exact List.pairwise_cons.mpr ⟨hap, h.apart⟩

/-- Cons, framed by the link words of the new list. -/
theorem addToFreeList_spec (h : FreeChain s l) (hb : b % 4 = 0) (hin : s.InHeap b 8)
    (hap : ∀ a ∈ l, b + 8 ≤ a ∨ a + 8 ≤ b) :
    ∃ s', addToFreeList b s = .ok () s' ∧ FreeChain s' (b :: l) ∧
      Frame (linkBytes (b :: l)) s s' := by
  obtain ⟨s', hrun, hchain, hf⟩ := addToFreeList_exact h hb hin hap
  refine ⟨s', hrun, hchain, hf.mono (Set.union_subset ?_ ?_)⟩
  · rintro c ⟨a, ha, hc⟩
    exact ⟨a, List.mem_cons.mpr (Or.inl (List.mem_singleton.mp ha)), hc⟩
  · exact seamBytes_subset (fun a ha => absurd ha List.not_mem_nil) fun a => List.mem_cons_of_mem b

/-- The head that is left when a node goes: its successor, if it was the head itself. -/
theorem FreeChain.head_unlink (h : FreeChain s (pre ++ b :: post)) :
    (if s.word (b + wsize) = 0 then s.word b else s.freeList) = (pre ++ post).headD 0 := by
  have hnd := h.nodup
  have hiff := h.links.prev_eq_null_iff h.zero_notMem hnd (b := b) (by simp)
  cases pre with
  | nil =>
      rw [if_pos (hiff.mpr rfl)]
      exact h.links.1
  | cons c pre =>
      have hcb : c ≠ b := by
        rintro rfl
        exact (List.nodup_cons.mp hnd).1 (by simp)
      rw [if_neg fun h0 => hcb (hiff.mp h0), h.head]
      rfl

/-- **`remove_from_free_list` is erase**, wherever the node stands in the list. Only the links to
the node are written. -/
theorem removeFromFreeList_exact (h : FreeChain s (pre ++ b :: post)) :
    ∃ s', removeFromFreeList b s = .ok () s' ∧ FreeChain s' (pre ++ post) ∧
      Frame (seamBytes pre post) s s' := by
  have hws : wsize = 4 := rfl
  have hb : b ∈ pre ++ b :: post := List.mem_append_right pre List.mem_cons_self
  have hb4 := h.aligned b hb
  have hbin := h.inHeap b hb
  obtain ⟨p, hp⟩ : ∃ p, p = s.word (b + wsize) := ⟨_, rfl⟩
  obtain ⟨n, hn⟩ : ∃ n, n = s.word b := ⟨_, rfl⟩
  have hplast : p ≠ 0 → pre.getLast? = some p := by
    rw [hp]
    exact h.links.prev_eq_getLast?
  have hnhead : n ≠ 0 → post.head? = some n := by
    rw [hn]
    exact h.links.next_eq_head?
  have hpmem : p ≠ 0 → p ∈ pre ++ b :: post := fun h0 =>
    List.mem_append_left _ (List.mem_of_getLast? (hplast h0))
  have hnmem : n ≠ 0 → n ∈ pre ++ b :: post := fun h0 =>
    List.mem_append_right pre (List.mem_cons_of_mem b (List.mem_of_head? (hnhead h0)))
  have hp4 : p % 4 = 0 := h.link_aligned hpmem
  have hn4 : n % 4 = 0 := h.link_aligned hnmem
  let s₂ := (s.linkNext p n).linkPrev n p
  let fl := if p = 0 then n else s.freeList
  have hrun : removeFromFreeList b s = .ok () { s₂ with freeList := fl } :=
    removeFromFreeList_eq hb4 hbin hp hn hp4 hn4 (fun h0 => h.inHeap p (hpmem h0))
      fun h0 => h.inHeap n (hnmem h0)
  have hword : ∀ c, c % 4 = 0 → c ≠ 0 → c ≠ wsize → s₂.word c =
      if c = n + wsize then p else if c = p then n else s.word c := by
    intro c hc hc0 hc4
    have hp32 : p < 2 ^ 32 := by rw [hp]; exact Machine.word_lt
    have hn32 : n < 2 ^ 32 := by rw [hn]; exact Machine.word_lt
    change Machine.word (Machine.linkPrev _ _ _) c = _
    rw [Machine.word_linkPrev hn4 hc hc4, Machine.word_linkNext hp4 hc hc0,
      Nat.mod_eq_of_lt hp32, Nat.mod_eq_of_lt hn32]
  have hframe : Frame (seamBytes pre post) s { s₂ with freeList := fl } := by
    refine Frame.trans ?_ (Frame.setFreeList s₂ fl)
    refine (Machine.linkNext_frame fun c h0 h₁ h₂ => ?_).trans
      (Machine.linkPrev_frame fun c h0 h₁ h₂ => ?_)
    · exact Or.inl ⟨p, hplast h0, h₁, h₂⟩
    · exact Or.inr ⟨n, hnhead h0, h₁, h₂⟩
  have hnd := h.nodup
  have hsub : ∀ a ∈ pre ++ post, a ∈ pre ++ b :: post := by
    intro a ha
    rcases List.mem_append.mp ha with ha | ha <;> simp [ha]
  refine ⟨_, hrun, ⟨?_, ?_, fun a ha => h.aligned a (hsub a ha),
    fun a ha => hframe.inHeap.mpr (h.inHeap a (hsub a ha)),
    h.apart.sublist (by simp)⟩, hframe⟩
  · have hhead := h.head_unlink
    rwa [← hp, ← hn] at hhead
  · have hne : ∀ a ∈ pre ++ post, a ≠ b := by
      rintro a ha rfl
      have hnd' := List.nodup_middle.mp hnd
      exact (List.nodup_cons.mp hnd').1 ha
    have hnext : ∀ a ∈ pre ++ post, s₂.word a = if a = p then n else s.word a := by
      intro a ha
      have h₁ := h.eight_le (hsub a ha)
      have h₂ := h.ne_add_wsize (hsub a ha) hnmem
      rw [hword a (h.aligned a (hsub a ha)) (by omega) (by omega), if_neg h₂]
    have hprev : ∀ a ∈ pre ++ post, s₂.word (a + wsize) =
        if a = n then p else s.word (a + wsize) := by
      intro a ha
      have h₁ := h.eight_le (hsub a ha)
      have h₂ := h.add_wsize_ne (hsub a ha) hpmem
      have h₃ := h.aligned a (hsub a ha)
      rw [hword (a + wsize) (by omega) (by omega) (by omega), if_neg h₂]
      simp only [Nat.add_right_cancel_iff]
    refine h.links.unlink hnd h.zero_notMem (fun a ha hap => ?_) (fun a ha hap => ?_)
      (fun a ha han => ?_) (fun a ha han => ?_)
    · exact (hnext a ha).trans (by rw [if_pos (hap.trans hp.symm), hn])
    · exact (hnext a ha).trans (if_neg fun h0 => hap (h0.trans hp))
    · exact (hprev a ha).trans (by rw [if_pos (han.trans hn.symm), hp])
    · exact (hprev a ha).trans (if_neg fun h0 => han (h0.trans hn))

/-- Erase, framed by the link words of the old list. -/
theorem removeFromFreeList_spec (h : FreeChain s l) (hb : b ∈ l) :
    ∃ s', removeFromFreeList b s = .ok () s' ∧ FreeChain s' (l.erase b) ∧
      Frame (linkBytes l) s s' := by
  obtain ⟨pre, post, rfl⟩ := List.append_of_mem hb
  obtain ⟨s', hrun, hchain, hf⟩ := removeFromFreeList_exact h
  have hpre : b ∉ pre := fun hmem =>
    (List.nodup_append.mp h.nodup).2.2 b hmem b List.mem_cons_self rfl
  rw [List.erase_append_right _ hpre, List.erase_cons_head]
  refine ⟨s', hrun, hchain, hf.mono (seamBytes_subset (fun a => List.mem_append_left _) ?_)⟩
  exact fun a ha => List.mem_append_right pre (List.mem_cons_of_mem b ha)

end OsAndC
