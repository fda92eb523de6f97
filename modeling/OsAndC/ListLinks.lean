import OsAndC.Client

/-!
# The List Operations anywhere in the Arena

`FreeChain` asks for nodes in the heap. The operations on the list do not know where the
heap ends: they go through for nodes anywhere in the arena, with an entry in `stray` for
each access behind the break. `LinkedList s l` is the list without a heap around it.

A machine whose break is raised to the end of the arena stores the same and strays nowhere.
What a list operation does there it also does on the machine itself (`Lowers`), so cons and
erase carry over (`LinkedList.add`, `LinkedList.remove`), with the link words that they change.
-/

namespace OsAndC

/-- `free_list` heads a list of the nodes `l`, linked both ways and ended by NULL, with link
areas that do not overlap. -/
structure LinkedList (s : Machine) (l : List ℕ) : Prop where
  head : s.freeList = l.headD 0
  links : Seg s.word (fun a => s.word (a + wsize)) 0 l 0
  aligned : ∀ a ∈ l, a % 4 = 0
  inArena : ∀ a ∈ l, s.InArena a 8
  apart : l.Pairwise fun a b => a + 8 ≤ b ∨ b + 8 ≤ a

/-- `t` stores what `s` does, and its break is at the end of the arena. -/
structure Raised (s t : Machine) : Prop where
  arena : t.arena = s.arena
  mem : t.mem = s.mem
  freeList : t.freeList = s.freeList
  memBrk : t.memBrk = t.memMaxAddr

/-- What the program does with the break at the end of the arena, it does with any break. -/
def Lowers {α : Type} (m : M α) : Prop := ∀ s t a t', Raised s t → m t = .ok a t' →
  ∃ s', m s = .ok a s' ∧ StrayFrame Set.univ s s' ∧ Raised s' t'

variable {α β : Type} {m m' : M α} {f : α → M β} {s s' t : Machine} {l pre post : List ℕ}
  {a b n v : ℕ}

namespace Raised

/-- The machine with its break at the end of the arena. -/
theorem exists_raised (s : Machine) : ∃ t, Raised s t :=
  ⟨{ s with
    memBrk := s.memMaxAddr
    base_le_brk := Nat.le_add_right _ _
    brk_le_max := le_rfl }, rfl, rfl, rfl, rfl⟩

/-- The words are the same. -/
theorem word (h : Raised s t) (a : ℕ) : t.word a = s.word a := by
  rw [Machine.word, Machine.word, h.mem]

/-- The arena is the same. -/
theorem inArena (h : Raised s t) : t.InArena a n ↔ s.InArena a n := by
  simp only [Machine.InArena, Machine.memHeapLo, Machine.memMaxAddr]
  rw [h.arena]

/-- The heap is the whole arena. -/
theorem inHeap (h : Raised s t) : t.InHeap a n ↔ s.InArena a n := by
  rw [← h.inArena, Machine.InHeap, Machine.InArena, h.memBrk]

/-- The list without a heap around it is the list in the raised heap. -/
theorem freeChain (h : Raised s t) : FreeChain t l ↔ LinkedList s l := by
  have hword : t.word = s.word := funext h.word
  constructor
  · rintro ⟨hhead, hlinks, haligned, hin, hapart⟩
    rw [hword] at hlinks
    exact ⟨h.freeList.symm.trans hhead, hlinks, haligned, fun a ha => h.inHeap.mp (hin a ha),
      hapart⟩
  · rintro ⟨hhead, hlinks, haligned, hin, hapart⟩
    rw [← hword] at hlinks
    exact ⟨h.freeList.trans hhead, hlinks, haligned, fun a ha => h.inHeap.mpr (hin a ha), hapart⟩

end Raised

/-! ### Any break -/

namespace Lowers

/-- A value alone. -/
theorem pure {a : α} : Lowers (Pure.pure a : M α) := by
  intro s t b t' h hrun
  cases hrun
  exact ⟨s, rfl, Frame.refl _ s, h⟩

/-- Programs in sequence. -/
theorem bind (hm : Lowers m) (hf : ∀ a, Lowers (f a)) : Lowers (m >>= f) := by
  intro s t b t' h hrun
  obtain ⟨a, t₁, hrun₁, hrun₂⟩ := of_run_bind_ok hrun
  obtain ⟨s₁, hs₁, hsame₁, h₁⟩ := hm s t a t₁ h hrun₁
  obtain ⟨s₂, hs₂, hsame₂, h₂⟩ := hf a s₁ t₁ b t' h₁ hrun₂
  exact ⟨s₂, (run_bind_ok hs₁).trans hs₂, hsame₁.trans hsame₂, h₂⟩

/-- A branch. -/
theorem ite {c : Prop} [Decidable c] (hm : Lowers m) (hm' : Lowers m') :
    Lowers (if c then m else m') := by
  split
  · exact hm
  · exact hm'

/-- Reading what does not depend on the break. -/
theorem read {k : Machine → M α} (hk : ∀ s t, Raised s t → k t = k s) (hf : ∀ s, Lowers (k s)) :
    Lowers (get >>= k) := by
  intro s t b t' h hrun
  rw [run_get_bind, hk s t h] at hrun
  exact hf s s t b t' h hrun

/-- A program that stops does not return. -/
theorem fail {e : Fault} : Lowers (throw e : M α) := by
  intro s t b t' _ hrun
  cases hrun

/-- The check lets pass, at any break, what it lets pass at the end of the arena. -/
theorem checked {x : Access} : Lowers (checked x a n) := by
  intro s t u t' h hrun
  by_cases hin : t.InHeap a n
  · rw [checked_inHeap hin] at hrun
    cases hrun
    by_cases hs : s.InHeap a n
    · exact ⟨s, checked_inHeap hs, Frame.refl _ s, h⟩
    · exact ⟨_, checked_inArena (h.inHeap.mp hin) hs, ⟨rfl, rfl, rfl, rfl, rfl, by simp⟩,
        h.arena, h.mem, h.freeList, h.memBrk⟩
  · have hout : ¬t.InArena a n := fun hin' => hin (h.inHeap.mpr (h.inArena.mp hin'))
    rw [checked_outside hout] at hrun
    cases hrun

/-- A load. -/
theorem getVal : Lowers (getVal a) :=
  .ite (Lowers.checked.bind fun _ => Lowers.read (fun s t h => by rw [h.word]) fun _ => .pure)
    .fail

/-- A store. -/
theorem setVal : Lowers (setVal a v) := by
  refine .ite (Lowers.checked.bind fun _ => ?_) .fail
  intro s t u t' h hrun
  cases hrun
  refine ⟨s.store a v, rfl, ⟨rfl, rfl, rfl, rfl, rfl, by simp⟩, h.arena, ?_, h.freeList, h.memBrk⟩
  exact congrArg (fun m => Mem.store32 m a v) h.mem

/-- The assignment to `free_list`. -/
theorem setFreeList : Lowers (setFreeList a) := by
  intro s t u t' h hrun
  cases hrun
  exact ⟨_, rfl, ⟨rfl, rfl, rfl, rfl, rfl, by simp⟩, h.arena, h.mem, rfl, h.memBrk⟩

/-- Writing a link. -/
theorem setNextFreeBlockPtr : Lowers (setNextFreeBlockPtr a v) := .ite .pure .setVal

/-- Writing the other one. -/
theorem setPrevFreeBlockPtr : Lowers (setPrevFreeBlockPtr a v) := .ite .pure .setVal

/-- `add_to_free_list` as a whole. -/
theorem addToFreeList : Lowers (addToFreeList a) := by
  unfold OsAndC.addToFreeList
  refine Lowers.read (fun s t h => by rw [h.freeList]) fun s => ?_
  refine Lowers.setNextFreeBlockPtr.bind fun _ => ?_
  refine Lowers.read (fun s t h => by rw [h.freeList]) fun s => ?_
  exact Lowers.setPrevFreeBlockPtr.bind fun _ => Lowers.setPrevFreeBlockPtr.bind fun _ =>
    .setFreeList

/-- `remove_from_free_list` as a whole. -/
theorem removeFromFreeList : Lowers (removeFromFreeList a) :=
  Lowers.getVal.bind fun _ => Lowers.getVal.bind fun _ =>
    .ite (Lowers.setNextFreeBlockPtr.bind fun _ => .setPrevFreeBlockPtr)
      (Lowers.setPrevFreeBlockPtr.bind fun _ => .setFreeList)

end Lowers

/-- What changes between two machines changes between the raised ones. -/
theorem Raised.strayFrame {S : Set ℕ} {t' : Machine} (h : Raised s t) (h' : Raised s' t')
    (hf : Frame S t t') (hs : StrayFrame Set.univ s s') : StrayFrame S s s' := by
  refine ⟨hs.arena, hs.memBrk, hs.heapPtr, hs.sbrks, rfl, ?_⟩
  have hmem := hf.mem
  rwa [h.mem, h'.mem] at hmem

/-! ### Cons and erase -/

/-- `add_to_free_list` is cons. -/
theorem LinkedList.add (h : LinkedList s l) (hb : b % 4 = 0) (hin : s.InArena b 8)
    (hap : ∀ a ∈ l, b + 8 ≤ a ∨ a + 8 ≤ b) :
    ∃ s', addToFreeList b s = .ok () s' ∧ LinkedList s' (b :: l) ∧
      StrayFrame (linkBytes [b] ∪ seamBytes [] l) s s' := by
  obtain ⟨t, ht⟩ := Raised.exists_raised s
  obtain ⟨t', hrun, hchain, hf⟩ :=
    addToFreeList_exact (ht.freeChain.mpr h) hb (ht.inHeap.mpr hin) hap
  obtain ⟨s', hrun', hs, ht'⟩ := Lowers.addToFreeList s t () t' ht hrun
  exact ⟨s', hrun', ht'.freeChain.mp hchain, ht.strayFrame ht' hf hs⟩

/-- `remove_from_free_list` is erase. -/
theorem LinkedList.remove (h : LinkedList s (pre ++ b :: post)) :
    ∃ s', removeFromFreeList b s = .ok () s' ∧ LinkedList s' (pre ++ post) ∧
      StrayFrame (seamBytes pre post) s s' := by
  obtain ⟨t, ht⟩ := Raised.exists_raised s
  obtain ⟨t', hrun, hchain, hf⟩ := removeFromFreeList_exact (ht.freeChain.mpr h)
  obtain ⟨s', hrun', hs, ht'⟩ := Lowers.removeFromFreeList s t () t' ht hrun
  exact ⟨s', hrun', ht'.freeChain.mp hchain, ht.strayFrame ht' hf hs⟩

/-- The operations on the free list are cons and erase in place. They change `free_list`, and
of the memory the links of the new node and the links to it. -/
theorem linkedList_cons_erase (h : LinkedList s l) :
    (∀ b, b % 4 = 0 → s.InArena b 8 → (∀ a ∈ l, b + 8 ≤ a ∨ a + 8 ≤ b) →
      ∃ s', addToFreeList b s = .ok () s' ∧ LinkedList s' (b :: l) ∧
        StrayFrame (linkBytes [b] ∪ seamBytes [] l) s s' ∧
        ∃ s'', removeFromFreeList b s' = .ok () s'' ∧ LinkedList s'' l) ∧
    ∀ pre b post, l = pre ++ b :: post →
      ∃ s', removeFromFreeList b s = .ok () s' ∧ LinkedList s' (pre ++ post) ∧
        StrayFrame (seamBytes pre post) s s' := by
  constructor
  · intro b hb hin hap
    obtain ⟨s', hrun, hs', hf⟩ := h.add hb hin hap
    have hfront : LinkedList s' ([] ++ b :: l) := hs'
    obtain ⟨s'', hrun', hs'', -⟩ := hfront.remove
    exact ⟨s', hrun, hs', hf, s'', hrun', hs''⟩
  · rintro pre b post rfl
    exact h.remove

/-- A list of one node at the start of an arena, where the heap is still empty. -/
def sampleList : Machine := { memInit sampleArena fun _ => 0 with freeList := 4096 }

/-- It is linked. -/
theorem sampleList_linkedList : LinkedList sampleList [4096] where
  head := rfl
  links := ⟨rfl, rfl, trivial⟩
  aligned := by decide
  inArena := by decide
  apart := List.pairwise_singleton _ _

/-- A node is added in front of another one, behind the break, and taken out again. -/
theorem linkedList_cons_erase_sample : ∃ s' s'',
    addToFreeList 4104 sampleList = .ok () s' ∧ LinkedList s' [4104, 4096] ∧
      removeFromFreeList 4104 s' = .ok () s'' ∧ LinkedList s'' [4096] := by
  obtain ⟨s', hadd, hs', -, s'', hremove, hs''⟩ :=
    (linkedList_cons_erase sampleList_linkedList).1 4104 (by decide) (by decide) (by decide)
  exact ⟨s', s'', hadd, hs', hremove, hs''⟩

end OsAndC
