import OsAndC.LinkWatch
import OsAndC.Walk

/-!
# Links Lead to Free Blocks

The list operations may be called only where the tags are in place and the free list is part
of the free blocks; `ListOps.Follows` says that operations behave there like those of
`mm.c`. The watched operations do, if the watch lets every free block pass
(`watched_follows`): whatever link is followed leads to a block that the walk over the heap
finds free.

The allocator keeps to that contract. Over any operations that follow it, each function runs
as the function of `mm.c` does (`Follows.mmMalloc`, `Follows.mmFree`, `Follows.mmRealloc`,
`Follows.mmInit`).
-/

namespace OsAndC

open Layout

/-- The walk over the heap finds a free block at `p`. -/
def FreeBlock (s : Machine) (p : ℕ) : Prop :=
  ∃ bs, HeapWalk s (s.memHeapLo + 16) bs ∧ ∃ b ∈ bs, b.addr = p ∧ b.alloc = false

/-- A watch that has no effect when it is shown a free block. -/
def Silent (watch : ℕ → M Unit) : Prop := ∀ s p, FreeBlock s p → watch p s = .ok () s

variable {s s₁ : Machine} {h : Layout} {l : List ℕ} {a k n p v : ℕ} {b d : Block}
  {xs ys zs : List Block} {al : Bool} {watch : ℕ → M Unit} {ops : ListOps}

/-- List operations that behave like those of `mm.c` wherever these may be called. -/
structure ListOps.Follows (ops : ListOps) : Prop where
  findFit {s : Machine} {h : Layout} {k : ℕ} : Wf s.memHeapLo h → Represents s h →
    ops.findFit k s = OsAndC.findFit k s
  add {s : Machine} {h : Layout} {l : List ℕ} {a : ℕ} : Wf s.memHeapLo h → TagsOf s h →
    FreeChain s l → h.free = a :: l → ops.add a s = addToFreeList a s
  remove {s : Machine} {h : Layout} {l : List ℕ} {a : ℕ} : Wf s.memHeapLo h → TagsOf s h →
    FreeChain s l → l ⊆ h.free → a ∈ l → ops.remove a s = removeFromFreeList a s
  setNext {s : Machine} {h : Layout} {a v : ℕ} : Wf s.memHeapLo h → TagsOf s h → a ∈ h.free →
    ops.setNext a v s = setNextFreeBlockPtr a v s
  setPrev {s : Machine} {h : Layout} {a v : ℕ} : Wf s.memHeapLo h → TagsOf s h → a ∈ h.free →
    ops.setPrev a v s = setPrevFreeBlockPtr a v s

namespace ListOps

/-- The operations of the source follow themselves. -/
theorem source_follows : source.Follows :=
  ⟨fun _ _ => rfl, fun _ _ _ _ => rfl, fun _ _ _ _ _ => rfl, fun _ _ _ => rfl, fun _ _ _ => rfl⟩

/-! ### The watched operations -/

/-- A watch that does nothing can be left out. -/
theorem watched_pure : watched (fun _ => pure ()) = source := by
  have hnext : setNextWatched (fun _ => pure ()) = setNextFreeBlockPtr := rfl
  have hprev : setPrevWatched (fun _ => pure ()) = setPrevFreeBlockPtr := rfl
  have hloop : ∀ fuel size blockPtr, findFitLoopWatched (fun _ => pure ()) size fuel blockPtr =
      findFitLoop size fuel blockPtr := by
    intro fuel size
    induction fuel with
    | zero => exact fun _ => rfl
    | succ fuel ih =>
        intro blockPtr
        rw [findFitLoopWatched, findFitLoop]
        simp only [pure_bind, ih]
  simp only [watched, source, hnext, hprev, hloop]
  rfl

/-- The blocks of a list that the tags show. -/
theorem silent_of_free (hwatch : Silent watch) (hw : Wf s.memHeapLo h) (ht : TagsOf s h)
    (ha : a ∈ h.free) : watch a s = .ok () s :=
  hwatch s a ⟨h.blocks, ht.walk hw, hw.mem_free.mp ha⟩

/-- A watch that is silent on free blocks does not notice the store. -/
theorem setNextWatched_eq (hwatch : Silent watch) (hw : Wf s.memHeapLo h) (ht : TagsOf s h)
    (ha : a ≠ 0 → a ∈ h.free) : setNextWatched watch a v s = setNextFreeBlockPtr a v s := by
  rw [setNextWatched, setNextFreeBlockPtr]
  split_ifs with h0
  · rfl
  · rw [run_bind_ok (silent_of_free hwatch hw ht (ha h0))]

/-- And neither with the other link. -/
theorem setPrevWatched_eq (hwatch : Silent watch) (hw : Wf s.memHeapLo h) (ht : TagsOf s h)
    (ha : a ≠ 0 → a ∈ h.free) : setPrevWatched watch a v s = setPrevFreeBlockPtr a v s := by
  rw [setPrevWatched, setPrevFreeBlockPtr]
  split_ifs with h0
  · rfl
  · rw [run_bind_ok (silent_of_free hwatch hw ht (ha h0))]

/-- A free block has room for two links. -/
theorem free_inHeap (hw : Wf s.memHeapLo h) (ht : TagsOf s h) (ha : a ∈ h.free) :
    a % 4 = 0 ∧ s.InHeap a 8 := by
  obtain ⟨d, hd, rfl, -⟩ := hw.mem_free.mp ha
  obtain ⟨h₁, h₂, h₃, h₄, h₅⟩ := ht.fits hw hd
  exact ⟨by omega, by omega, by omega⟩

/-- Writing a link of a free block leaves the tags alone. -/
theorem tagsOf_linkNext (hw : Wf s.memHeapLo h) (ht : TagsOf s h) (ha : a ≠ 0 → a ∈ h.free) :
    TagsOf (s.linkNext a v) h := by
  by_cases h0 : a = 0
  · rwa [Machine.linkNext, if_pos h0]
  · refine ht.frame_links hw (l := [a]) (fun x hx => ?_)
      (Machine.linkNext_frame fun c _ h₁ h₂ => ⟨a, List.mem_singleton_self a, h₁, by omega⟩)
    rw [List.mem_singleton.mp hx]
    exact ha h0

/-- Linking moves no block. -/
theorem wf_linkNext (hw : Wf s.memHeapLo h) : Wf (s.linkNext a v).memHeapLo h := by
  have hf : Frame Set.univ s (s.linkNext a v) :=
    Machine.linkNext_frame fun _ _ _ _ => Set.mem_univ _
  rwa [hf.memHeapLo]

/-- Adding a free block is not noticed. -/
theorem addWatched_eq (hwatch : Silent watch) (hw : Wf s.memHeapLo h) (ht : TagsOf s h)
    (hl : FreeChain s l) (hfree : h.free = a :: l) :
    addWatched watch a s = addToFreeList a s := by
  have ha : a ∈ h.free := by rw [hfree]; exact List.mem_cons_self
  obtain ⟨ha4, hain⟩ := free_inHeap hw ht ha
  have hset := setNextFreeBlockPtr_eq (v := s.freeList) ha4 fun _ => hain
  have ht₁ := tagsOf_linkNext (v := s.freeList) hw ht fun _ => ha
  rw [addWatched, addToFreeList, run_get_bind, run_get_bind, run_bind_ok hset, run_bind_ok hset,
    run_get_bind, run_get_bind, Machine.linkNext_freeList]
  refine run_bind_congr (setPrevWatched_eq hwatch (wf_linkNext hw) ht₁ fun h0 => ?_)
  rw [hfree]
  exact List.mem_cons_of_mem a (hl.head_mem h0)

/-- Removing one is not noticed either. -/
theorem removeWatched_eq (hwatch : Silent watch) (hw : Wf s.memHeapLo h) (ht : TagsOf s h)
    (hl : FreeChain s l) (hsub : l ⊆ h.free) (ha : a ∈ l) :
    removeWatched watch a s = removeFromFreeList a s := by
  obtain ⟨ha4, h₁, h₂⟩ := free_inHeap hw ht (hsub ha)
  have hprev : getPrevFreeBlockPtr a s = .ok (s.word (a + wsize)) s := by
    rw [getPrevFreeBlockPtr, wsize]
    exact getVal_eq (by omega) ⟨by omega, by omega⟩
  have hnext : getNextFreeBlockPtr a s = .ok (s.word a) s := getVal_eq ha4 ⟨h₁, by omega⟩
  have hp : s.word (a + wsize) ≠ 0 → s.word (a + wsize) ∈ h.free := fun h0 =>
    hsub ((hl.links.prev_mem ha).resolve_left h0)
  have hn : s.word a ≠ 0 → s.word a ∈ h.free := fun h0 =>
    hsub ((hl.links.next_mem ha).resolve_left h0)
  rw [removeWatched, removeFromFreeList, run_bind_ok hprev, run_bind_ok hprev, run_bind_ok hnext,
    run_bind_ok hnext]
  by_cases h0 : s.word (a + wsize) = 0
  · rw [if_neg (not_not.mpr h0), if_neg (not_not.mpr h0)]
    exact run_bind_congr (setPrevWatched_eq hwatch hw ht hn)
  · obtain ⟨hp4, hpin⟩ := free_inHeap hw ht (hp h0)
    have hset := setNextFreeBlockPtr_eq (v := s.word a) hp4 fun _ => hpin
    rw [if_pos h0, if_pos h0, run_bind_ok ((setNextWatched_eq hwatch hw ht hp).trans hset),
      run_bind_ok hset]
    exact setPrevWatched_eq hwatch (wf_linkNext hw) (tagsOf_linkNext hw ht hp) hn

/-- The loop of `find_fit`, on a rest of the free list. -/
theorem findFitLoopWatched_eq (hwatch : Silent watch) (hw : Wf s.memHeapLo h) (ht : TagsOf s h)
    (hl : l ⊆ h.free) {fuel : ℕ} (hseg : Seg s.word (fun a => s.word (a + wsize)) p l 0) :
    findFitLoopWatched watch k fuel (l.headD 0) s = findFitLoop k fuel (l.headD 0) s := by
  induction l generalizing p fuel with
  | nil => cases fuel <;> rfl
  | cons a l ih =>
      cases fuel with
      | zero => rfl
      | succ fuel =>
          have ha := hl List.mem_cons_self
          obtain ⟨ha4, hin⟩ := free_inHeap hw ht ha
          obtain ⟨d, hd, hda, -⟩ := hw.mem_free.mp ha
          obtain ⟨hnext, -, hrest⟩ := hseg
          have hsize : getSize (getHeaderPtr a) s = .ok d.size s :=
            hda ▸ (ht.blockTags d hd).1.getSize_eq
          have hlink : getNextFreeBlockPtr a s = .ok (l.headD 0) s :=
            hnext ▸ getVal_eq ha4 ⟨hin.1, by have := hin.2; omega⟩
          have ha0 : a ≠ 0 := by
            have := hin.eight_le
            omega
          rw [findFitLoopWatched, findFitLoop, List.headD_cons, if_pos ha0, if_pos ha0,
            run_bind_ok (silent_of_free hwatch hw ht ha), run_bind_ok hsize, run_bind_ok hsize]
          split_ifs
          · rfl
          · rw [run_bind_ok hlink, run_bind_ok hlink]
            exact ih (fun x hx => hl (List.mem_cons_of_mem a hx)) hrest

/-- With a silent watch the watched operations do what those of the source do. -/
theorem watched_follows (hwatch : Silent watch) : (watched watch).Follows where
  findFit := fun {s h k} hw hr => by
    change findFitLoopWatched watch k maxHeap s.freeList s = findFitLoop k maxHeap s.freeList s
    rw [hr.chain.head]
    exact findFitLoopWatched_eq hwatch hw hr.toTagsOf (List.Subset.refl _) hr.chain.links
  add := addWatched_eq hwatch
  remove := removeWatched_eq hwatch
  setNext := fun hw ht ha => setNextWatched_eq hwatch hw ht fun _ => ha
  setPrev := fun hw ht ha => setPrevWatched_eq hwatch hw ht fun _ => ha

/-! ### The allocator over such operations -/

namespace Follows

variable (hops : ops.Follows)

include hops

/-- Both runs of `place` add the rest to a list that is in order. -/
theorem place {T : Set ℕ} (hw : Wf s.memHeapLo h) (ht : TagsOf s h)
    (hbs : h.blocks = xs ++ zs ++ ys) (hf : Frame T s s₁)
    (hT : ∀ c ∈ T, c ∈ linkBytes h.free ∨ c ∈ d.space)
    (hd : ∀ c ∈ d.space, ∃ z ∈ zs, c ∈ z.space) (hfits : Fits s d)
    (htag : Tag s₁ (d.addr - wsize) d.size al) (hl : FreeChain s₁ l)
    (hsep : ∀ a ∈ l, a + 16 ≤ d.addr ∨ d.addr + d.size ≤ a) (hk : 16 ≤ k ∧ k % 8 = 0)
    (hkd : k ≤ d.size)
    (hw' : Wf s.memHeapLo ⟨xs ++ d.cut k ++ ys,
      if 16 ≤ d.size - k then (d.addr + k) :: l else l, h.brk⟩) :
    ops.place d.addr k s₁ = OsAndC.place d.addr k s₁ := by
  obtain ⟨s₂, hrun, hcut, hfl, hf₂⟩ := place_tags (hfits.of_frame hf) htag hk hkd
  rw [hrun ops, OsAndC.place, hrun source]
  split_ifs with h16
  · rw [if_pos h16] at hw'
    have hframe : Frame {c | c ∈ linkBytes h.free ∨ c ∈ d.space} s s₂ :=
      (hf.mono hT).trans (hf₂.mono fun c hc => Or.inr hc.1)
    have ht₂ := ht.update hw (d.cut k) ((d.addr + k) :: l) hbs hframe
      (fun c hc => hc.imp (mem_linkBytes_block hw (List.Subset.refl _)) (hd c)) hcut
    refine hops.add (hframe.memHeapLo ▸ hw') ht₂ (hl.frame hf₂ hfl fun a ha c hc => ?_) rfl
    obtain ⟨⟨h₁, h₂⟩, -⟩ := hc
    have := hsep a ha
    omega
  · rfl

/-- Unlinking and placing. -/
theorem take (hv : Valid s.memHeapLo h) (hr : Represents s h) (hb : b ∈ h.blocks)
    (hfree : b.alloc = false) (hk : 16 ≤ k ∧ k % 8 = 0) (hkb : k ≤ b.size) :
    (do ops.remove b.addr; ops.place b.addr k; return b.addr : M ℕ) s =
      (do removeFromFreeList b.addr; OsAndC.place b.addr k; return b.addr) s := by
  obtain ⟨xs, ys, hbs⟩ := List.append_of_mem hb
  have hbs' : h.blocks = xs ++ [b] ++ ys := by rw [hbs]; simp
  have hw := hv.toWf
  have hbf := hw.mem_free.mpr ⟨b, hb, rfl, hfree⟩
  obtain ⟨s₁, hrun₁, ht₁, hl₁, hf₁⟩ := unlink_spec hw hr.toTagsOf hr.chain (List.Subset.refl _) hbf
  have heq : h.take b.addr k = _ :=
    place_eq (h := { h with free := h.free.erase b.addr }) hw.tiles hbs
  have hremove := hops.remove hw hr.toTagsOf hr.chain (List.Subset.refl _) hbf
  rw [run_bind_ok (hremove.trans hrun₁), run_bind_ok hrun₁]
  exact run_bind_congr (hops.place hw hr.toTagsOf hbs' hf₁ (fun c hc => Or.inl hc)
    (fun c hc => ⟨b, List.mem_singleton_self b, hc⟩) (hr.fits hw hb) (ht₁.blockTags b hb).1 hl₁
    (fun a => hw.erase_apart hb) hk hkb (heq ▸ (hv.take hb hfree hk hkb).toWf))

/-- A neighbour that is unlinked is on the list. -/
theorem unlinkUnless {x : M ℕ} (hx : al = false → x s = .ok a s) (hw : Wf s.memHeapLo h)
    (hl : Listing s₁ s h l) (ha : al = false → a ∈ l) :
    (do unless al do ops.remove (← x) : M Unit) s =
      (do unless al do removeFromFreeList (← x) : M Unit) s := by
  cases al with
  | true => rfl
  | false =>
      change (x >>= ops.remove) s = (x >>= removeFromFreeList) s
      rw [run_bind_ok (hx rfl), run_bind_ok (hx rfl)]
      exact hops.remove hw hl.tags hl.chain hl.sub (ha rfl)

/-- `coalesce` unlinks nodes of the list, and adds a block that is none. -/
theorem coalesce (hw : Wf s.memHeapLo h) (hr : Represents s h)
    (hbs : h.blocks = xs ++ b :: ys) (hb : b.alloc = false) (hxs : Coalesced xs)
    (hys : Coalesced ys) : ops.coalesce b.addr s = OsAndC.coalesce b.addr s := by
  obtain ⟨s₁, s₂, s₃, l₁, l₂, hl₁, hl₂, hl₃, hn, hp, hb₂, hrun₁, hrun₂, hrun₃⟩ :=
    coalesce_unlinks hw hr hbs hb hxs hys rfl rfl
  obtain ⟨s₄, hrun₄, ht₄, ⟨l, hfree, -, hl₄⟩, hf₄⟩ :=
    coalesce_joins hw hr hbs hb hxs hys rfl rfl hl₃
  have hw₁ : Wf s₁.memHeapLo h := hl₁.frame.memHeapLo ▸ hw
  have hw₂ : Wf s₂.memHeapLo h := hl₂.frame.memHeapLo ▸ hw
  have hstart : ∀ {ops : ListOps}, ops.Follows → ops.coalesce b.addr s = (do
      addToFreeList (merged (prevOf s.memHeapLo xs) b (nextOf h.brk ys)).addr
      return (merged (prevOf s.memHeapLo xs) b (nextOf h.brk ys)).addr) s₄ := by
    intro ops hops
    have h₁ := (hops.unlinkUnless (fun _ => (hr.toTagsOf.neighbours hw hbs).2.2.2) hw
      ⟨hr.toTagsOf, hr.chain, List.Subset.refl _, Frame.refl _ s⟩ hn).trans hrun₁
    have hprev := (hl₁.tags.neighbours hw₁ hbs).2.2.1
    rw [hl₁.frame.memHeapLo] at hprev
    have h₂ := (hops.unlinkUnless (fun _ => hprev) hw₁ hl₁ hp).trans hrun₂
    have h₃ : (do if ← isFree (getHeaderPtr b.addr) then ops.remove b.addr) s₂ = .ok () s₃ := by
      rw [getHeaderPtr,
        run_bind_ok (hl₂.tags.blockTags b (by rw [hbs]; simp)).1.isFree_eq, hb]
      exact (hops.remove hw₂ hl₂.tags hl₂.chain hl₂.sub hb₂).trans hrun₃
    calc ops.coalesce b.addr s
      _ = _ := hr.toTagsOf.coalesce_start hw hbs rfl rfl ops
      _ = _ := run_bind_ok h₁
      _ = _ := run_bind_ok h₂
      _ = _ := run_bind_ok h₃
      _ = _ := run_bind_ok hrun₄
      _ = _ := run_bind_congr (hops.add
        (hf₄.memHeapLo ▸ (hw.coalesce_valid hbs hb hxs hys).toWf) ht₄ hl₄ hfree)
  exact (hstart hops).trans (hstart source_follows).symm

/-- Listing a free block and joining it with its neighbours. -/
theorem add_coalesce (hw : Wf s.memHeapLo h) (ht : TagsOf s h) (hl : FreeChain s l)
    (hfree : h.free = b.addr :: l) (hbs : h.blocks = xs ++ b :: ys) (hb : b.alloc = false)
    (hxs : Coalesced xs) (hys : Coalesced ys) :
    (do ops.add b.addr; ops.coalesce b.addr : M ℕ) s =
      (do addToFreeList b.addr; OsAndC.coalesce b.addr) s := by
  obtain ⟨s', hrun, hr', hf⟩ := add_spec hw ht hl hfree
  rw [run_bind_ok ((hops.add hw ht hl hfree).trans hrun), run_bind_ok hrun]
  exact hops.coalesce (hf.memHeapLo ▸ hw) hr' hbs hb hxs hys

/-- `extend_heap`, when `mem_sbrk` does not refuse. -/
theorem extendHeap {g : ℕ} (hv : Valid s.memHeapLo h) (hr : Represents s h)
    (hg : 16 ≤ g ∧ g % 8 = 0) (hlt : g < 2 ^ 32) (hgr : ¬ s.Refuses (toInt g)) :
    ops.extendHeap (g / wsize) s = OsAndC.extendHeap (g / wsize) s := by
  obtain ⟨s₁, hrun₁, ht₁, harena, -, hfl, -, -, hmem⟩ :=
    extendHeap_append hv hr.toTagsOf hg hlt hgr
  have hlo₁ : s₁.memHeapLo = s.memHeapLo := Machine.memHeapLo_congr harena
  rw [hrun₁ ops, OsAndC.extendHeap, hrun₁ source]
  exact hops.add_coalesce (b := ⟨h.brk, g, false⟩) (hlo₁ ▸ hv.appended hg) ht₁
    (hr.chain_appended hv.toWf ht₁ harena hfl hmem) rfl rfl rfl hv.coalesced List.isChain_nil

/-- `mm_malloc`, when `mem_sbrk` does not refuse. -/
theorem mmMalloc (hv : Valid s.memHeapLo h) (hr : Represents s h) (hwrap : need n < 2 ^ 32)
    (hgr : 0 < n → h.fit? (need n) = none → ¬ s.Refuses (toInt (max (need n) 4096))) :
    ops.mmMalloc n s = OsAndC.mmMalloc n s := by
  rw [ListOps.mmMalloc, OsAndC.mmMalloc, ListOps.mmMalloc]
  split_ifs with hn
  · rfl
  obtain ⟨h16, h8, -⟩ := need_pos (n := n) (by omega)
  have hfind := findFit_eq (k := need n) hv.toWf hr
  rw [calcBlockSize_eq hwrap, run_bind_ok ((hops.findFit hv.toWf hr).trans hfind),
    run_bind_ok hfind]
  cases hfit : h.fit? (need n) with
  | some a =>
      obtain ⟨b, hb, rfl, hfree, hkb⟩ := hv.fit?_some hfit
      have hb0 : b.addr ≠ 0 := by
        have := (hv.block hb).1
        omega
      rw [Option.getD_some, if_neg hb0, if_neg hb0]
      exact hops.take hv hr hb hfree ⟨h16, h8⟩ hkb
  | none =>
      have hg : 16 ≤ max (need n) 4096 ∧ max (need n) 4096 % 8 = 0 := by omega
      obtain ⟨s₁, hrun₁, hi₁, -⟩ := extend_implements hv hr hg (by omega)
        (hgr (by omega) hfit)
      obtain ⟨b, hb, hba, hfree, hgb⟩ := hv.extend_head hg
      have hchunk : chunksize = 4096 := rfl
      have hext := hops.extendHeap hv hr hg (by omega) (hgr (by omega) hfit)
      rw [Option.getD_none, if_pos rfl, if_pos rfl, hchunk, run_bind_ok (hext.trans hrun₁),
        run_bind_ok hrun₁, ← hba]
      exact hops.take hi₁.valid hi₁.represents hb hfree ⟨h16, h8⟩ (by omega)

/-- `mm_free` of an allocated block. -/
theorem mmFree (hv : Valid s.memHeapLo h) (hr : Represents s h) (hb : h.Allocated b) :
    ops.mmFree b.addr s = OsAndC.mmFree b.addr s := by
  obtain ⟨xs, ys, hbs, hxs, hys, -⟩ := hv.split hb.1
  obtain ⟨s₁, hrun₁, ht₁, hl₁, hf₁⟩ := mmFree_tags hv hr hbs hb.2
  have hplain : OsAndC.mmFree b.addr s = _ := hrun₁ .source
  have hjoin := hops.add_coalesce (b := { b with alloc := false })
    (hf₁.memHeapLo ▸ hv.marked hbs hb.2) ht₁ hl₁ rfl rfl rfl hxs hys
  have hall := run_bind_congr (f := fun _ => (pure () : M Unit)) hjoin
  rw [bind_assoc, bind_assoc] at hall
  exact (hrun₁ ops).trans (hall.trans hplain.symm)

/-- Growing in place. -/
theorem growInPlace (hv : Valid s.memHeapLo h) (hr : Represents s h) (hb : h.Allocated b)
    (hk : 16 ≤ k ∧ k % 8 = 0) :
    ops.growInPlace b.addr b.size k s = OsAndC.growInPlace b.addr b.size k s := by
  by_cases hg : h.CanGrow b.addr k
  swap
  · rw [ops.growInPlace_no hv hr hb.1 hg, OsAndC.growInPlace_no hv hr hb.1 hg]
  obtain ⟨xs, d, ys, hbs, hfree, hkd, hda⟩ := hv.canGrow hb.1 hg
  have hw := hv.toWf
  have hbs' : h.blocks = xs ++ [b, d] ++ ys := by rw [hbs]; simp
  have hdf := hw.mem_free.mpr ⟨d, by rw [hbs]; simp, rfl, hfree⟩
  obtain ⟨s₁, s₂, hstart, hrun₁, hset, hfits, htag₂, hl₂, hsep, hspan, hf₁₂⟩ :=
    grow_joins hv hr hbs hb.2 hfree hda hkd
  have hremove := (hops.remove hw hr.toTagsOf hr.chain (List.Subset.refl _) hdf).trans hrun₁
  have hplace := hops.place (d := ⟨b.addr, b.size + d.size, true⟩) hw hr.toTagsOf hbs' hf₁₂
    (fun c hc => hc.imp_right fun h₁ => ⟨h₁.1, by simp only []; omega⟩) hspan hfits htag₂ hl₂ hsep
    hk hkd (hv.grow_eq hbs hda ▸ (hv.grow hb.1 hk hg).toWf)
  have hplain : OsAndC.growInPlace b.addr b.size k s =
      (do OsAndC.place b.addr k; return true : M Bool) s₂ :=
    (hstart .source).trans ((run_bind_ok hrun₁).trans (run_bind_ok hset))
  rw [hstart ops, run_bind_ok hremove, run_bind_ok hset, hplain]
  exact run_bind_congr hplace

/-- `mm_realloc` of a live block, when `mem_sbrk` does not refuse. -/
theorem mmRealloc (hv : Valid s.memHeapLo h) (hr : Represents s h) (hb : h.Allocated b)
    (hn : 0 < n) (hwrap : need n < 2 ^ 32)
    (hgr : ¬ h.Stays b.addr n → h.fit? (need n) = none →
      ¬ s.Refuses (toInt (max (need n) 4096))) :
    ops.mmRealloc b.addr n s = OsAndC.mmRealloc b.addr n s := by
  obtain ⟨h16, h8, -⟩ := need_pos hn
  have hb0 := allocated_addr_ne_zero hv.toWf hb
  have hsize : getSize (getHeaderPtr b.addr) s = .ok b.size s :=
    (hr.blockTags b hb.1).1.getSize_eq
  have hn0 : n ≠ 0 := by omega
  rw [ListOps.mmRealloc, OsAndC.mmRealloc, ListOps.mmRealloc, if_neg hn0, if_neg hn0, if_neg hb0,
    if_neg hb0, run_bind_ok hsize, run_bind_ok hsize, calcBlockSize_eq hwrap]
  split_ifs with hfits
  · rfl
  refine run_bind_agree (hops.growInPlace hv hr hb ⟨h16, h8⟩) fun grown s₁ hgrow => ?_
  change OsAndC.growInPlace _ _ _ _ = _ at hgrow
  by_cases hg : h.CanGrow b.addr (need n)
  · obtain ⟨s', hrun, -⟩ := growInPlace_yes hv hr hb ⟨h16, h8⟩ (by omega) hg
    rw [hrun] at hgrow
    cases hgrow
    simp only [if_true]
  · rw [OsAndC.growInPlace_no hv hr hb.1 hg] at hgrow
    cases hgrow
    have hstay : ¬ h.Stays b.addr n := not_or.mpr ⟨by rwa [hv.sizeAt hb.1], hg⟩
    obtain ⟨s₁, s₂, size, hrun₁, hq0, hrun₂, hi₁, -, hr₂, -, -, hold, hf₂, -⟩ :=
      moveBlock_copies hv hr hb hn hwrap (hgr hstay)
    have hmalloc := hops.mmMalloc hv hr hwrap fun _ => hgr hstay
    simp only [if_false, Bool.false_eq_true]
    rw [run_bind_ok (hmalloc.trans hrun₁), run_bind_ok hrun₁, if_neg hq0, if_neg hq0,
      run_bind_ok hrun₂, run_bind_ok hrun₂]
    exact run_bind_congr (hops.mmFree (hf₂.memHeapLo ▸ hi₁.valid) hr₂ (hold b hb).1)

/-- The end of `mm_init`, on a free block. -/
theorem initList (hw : Wf s.memHeapLo h) (ht : TagsOf s h) (ha : a ∈ h.free) :
    ops.initList a s = source.initList a s := by
  have ha0 : a ≠ 0 := by
    obtain ⟨d, hd, rfl, -⟩ := hw.mem_free.mp ha
    have := (hw.block hd).1
    omega
  obtain ⟨t, ht'⟩ : ∃ t : Machine, t = { s with freeList := a } := ⟨_, rfl⟩
  have hf : Frame (linkBytes []) s t := ht' ▸ Frame.setFreeList s a
  have hfl : t.freeList = a := ht' ▸ rfl
  have hw₁ : Wf t.memHeapLo h := hf.memHeapLo ▸ hw
  have ht₁ : TagsOf t h := ht.frame_links hw (List.nil_subset _) hf
  obtain ⟨ha4, hin⟩ := free_inHeap hw₁ ht₁ ha
  have hset := setNextFreeBlockPtr_eq (v := 0) ha4 fun _ => hin
  have hstart : ∀ {ops : ListOps}, ops.Follows →
      ops.initList a s = (do ops.setPrev a 0; return 0 : M ℤ) (t.linkNext a 0) := by
    intro ops hops
    rw [ListOps.initList, if_neg ha0, setFreeList, run_modify_bind, ← ht', run_get_bind, hfl,
      run_bind_ok ((hops.setNext hw₁ ht₁ ha).trans hset), run_get_bind, Machine.linkNext_freeList,
      hfl]
  rw [hstart hops, hstart source_follows]
  exact run_bind_congr (hops.setPrev (wf_linkNext hw₁) (tagsOf_linkNext hw₁ ht₁ fun _ => ha) ha)

/-- The first `mm_init`. -/
theorem mmInit (hbrk : s.memBrk = s.arena.base) (hfl : s.freeList = 0) :
    ops.mmInit s = OsAndC.mmInit s := by
  obtain ⟨s₂, hrun₂, ht₂, harena₂, hfl₂, -, -⟩ := mmInit_extend hbrk
  have hlo₂ : s₂.memHeapLo = s.memHeapLo := Machine.memHeapLo_congr harena₂
  have hl₂ : FreeChain s₂ [] :=
    ⟨hfl₂.trans hfl, trivial, by simp, by simp, List.Pairwise.nil⟩
  rw [← hlo₂] at ht₂ hrun₂
  have hw₂ : Wf s₂.memHeapLo (initial s₂.memHeapLo) := (initial_valid s₂.arena.aligned).toWf
  -- the only block, whose address is all that counts from here on
  obtain ⟨b, hbs, hb, hfree, hba⟩ : ∃ b : Block, (initial s₂.memHeapLo).blocks = [] ++ b :: [] ∧
      b.alloc = false ∧ (initial s₂.memHeapLo).free = b.addr :: [] ∧ s₂.memHeapLo + 16 = b.addr :=
    ⟨_, rfl, rfl, rfl, rfl⟩
  rw [hba] at hrun₂
  obtain ⟨s₃, hadd, hr₃, hf₃⟩ := add_spec hw₂ ht₂ hl₂ hfree
  have hw₃ : Wf s₃.memHeapLo (initial s₂.memHeapLo) := hf₃.memHeapLo ▸ hw₂
  have hnil : Coalesced [] := List.isChain_nil
  obtain ⟨s₄, hcoal, hr₄, hf₄⟩ := coalesce_spec hw₃ hr₃ hbs hb hnil hnil
  have hw₄ := (hw₃.coalesce_valid hbs hb hnil hnil).toWf
  rw [← hf₄.memHeapLo] at hw₄
  have hstart : ∀ {ops : ListOps}, ops.Follows → ops.mmInit s =
      ops.initList (((initial s₂.memHeapLo).coalesce b.addr).free.headD 0) s₄ := by
    intro ops hops
    have h₁ := (hops.add hw₂ ht₂ hl₂ hfree).trans hadd
    have h₂ := (hops.coalesce hw₃ hr₃ hbs hb hnil hnil).trans hcoal
    rw [hrun₂, run_bind_ok h₁, run_bind_ok h₂]
  rw [hstart hops, OsAndC.mmInit, hstart source_follows]
  exact hops.initList hw₄ hr₄.toTagsOf List.mem_cons_self

end Follows

end ListOps

end OsAndC
