import OsAndC.Coalescing

/-!
# Extending the Heap Moves the Epilogue

`extend_heap` in its own right, on any heap in good order and for any number of words. The
word below the break is the epilogue before the call and the header of the new space after
it, with a new epilogue below the new break. `extendHeap_exact` says what the last block is,
that it heads the list, and that nothing else has changed but links.
-/

namespace OsAndC

open Layout

variable {s s' s₁ : Machine} {h : Layout} {lo g w c : ℕ} {d x : Block} {pre : List Block}

/-- An odd number of words is rounded up. -/
theorem extendHeap_rounded (hg : g = (4 * w + 7) / 8 * 8) (hlt : g < 2 ^ 32) :
    extendHeap w = extendHeap (g / wsize) := by
  have hsize : (if w % 2 ≠ 0 then (w + 1) * wsize % 2 ^ 32 else w * wsize % 2 ^ 32) = g := by
    unfold wsize
    split_ifs <;> omega
  rw [extendHeap]
  simp only [ListOps.extendHeap]
  simp only [hsize, extendHeap_size (show g % 8 = 0 by omega) hlt]

/-- The last block is the one in front of the end. -/
theorem prevOf_concat (hbs : h.blocks = pre ++ [d]) : prevOf lo h.blocks = d := by
  rw [prevOf, hbs, List.getLastD_concat]

/-- In front of the new space there is the last block, or the prologue. -/
theorem prevOf_alloc (hlast : ∀ d ∈ h.blocks.getLast?, d.alloc = true) :
    (prevOf lo h.blocks).alloc = true := by
  rcases h.blocks.eq_nil_or_concat' with hnil | ⟨pre, d, hbs⟩
  · rw [prevOf, hnil]
    rfl
  · rw [prevOf_concat hbs]
    exact hlast d (by simp [hbs])

/-! ### What stays -/

/-- Of the blocks that are not joined to the new space only links are written. -/
theorem mem_of_joinBytes (hv : Valid lo h) (hg : 16 ≤ g ∧ g % 8 = 0)
    (hmem : ∀ c, c + 4 < h.brk → s₁.mem c = s.mem c) (hf : Frame (joinBytes lo h g) s₁ s')
    (hbs : h.blocks ++ [newSpace h g] =
      pre ++ mergedRun (prevOf lo h.blocks) (newSpace h g) (epilogue (h.brk + g)))
    (hx : x ∈ pre) (hxb : x ∈ h.blocks) (hc : c ∈ x.space)
    (hlink : x.alloc = false → c < x.addr ∨ x.addr + 8 ≤ c) : s'.mem c = s.mem c := by
  have hw := hv.appended hg
  have hbs' : h.blocks ++ [newSpace h g] =
      pre ++ mergedRun (prevOf lo h.blocks) (newSpace h g) (epilogue (h.brk + g)) ++ [] := by
    rw [hbs, List.append_nil]
  have hout := notMem_written hw hbs' (List.mem_append_left [] hx) hc hlink
  have hjoin : c ∉ joinBytes lo h g := fun hcj => hout (hcj.imp_right fun hct =>
    merged_space (prevOf_end hw rfl) rfl hct.1)
  have hxw := hv.block hxb
  have hlow : c + 4 < h.brk := hc.2.trans_le hxw.2.2.2.2
  rw [hf.mem hjoin, hmem c hlow]

/-- The header of the new space is still there when the space has been joined to the block in
front of it. -/
theorem header_of_joinBytes (hv : Valid lo h) (hg : 16 ≤ g ∧ g % 8 = 0)
    (hbs : h.blocks = pre ++ [d]) (hd : d.alloc = false) (hf : Frame (joinBytes lo h g) s₁ s') :
    s'.word (h.brk - 4) = s₁.word (h.brk - 4) := by
  have hdw := hv.block (b := d) (by simp [hbs])
  have hend : d.addr + d.size = h.brk := by
    have := prevOf_end (hv.appended hg) (b := newSpace h g) rfl
    rwa [prevOf_concat hbs] at this
  refine hf.word ?_
  rintro c (⟨a, ha, h₁, h₂⟩ | ⟨⟨h₁, h₂⟩, h₃⟩)
  · rcases List.mem_cons.mp ha with rfl | ha
    · omega
    · obtain ⟨b, hb, rfl, -⟩ := hv.mem_free.mp ha
      have := hv.block hb
      omega
  · rw [prevOf_concat hbs, merged, hd] at h₁ h₂ h₃
    simp only [newSpace, epilogue, if_false, if_true, Bool.false_eq_true] at h₁ h₂ h₃
    omega

/-! ### The last block -/

/-- The two cases of an extension: what comes in front of the last block, what the last block
is made of, and the list behind it. -/
theorem extend_split (hv : Valid lo h) (hg : 16 ≤ g ∧ g % 8 = 0) :
    ∃ pre last rest, h.extend g = ⟨pre ++ [last], last.addr :: rest, h.brk + g⟩ ∧
      h.blocks ++ [newSpace h g] =
        pre ++ mergedRun (prevOf lo h.blocks) (newSpace h g) (epilogue (h.brk + g)) ∧
      (∀ x ∈ pre, x ∈ h.blocks) ∧
      (last = newSpace h g ∨ ∃ d, h.blocks = pre ++ [d] ∧ d.alloc = false) := by
  have hgrows := hv.grows hg
  generalize hext : h.extend g = h' at hgrows
  cases hgrows with
  | apart hlast =>
      refine ⟨h.blocks, newSpace h g, h.free, rfl, ?_, fun x hx => hx, Or.inl rfl⟩
      rw [mergedRun, prevOf_alloc hlast]
      rfl
  | merged hbs hd =>
      refine ⟨_, _, _, rfl, ?_, fun x hx => ?_, Or.inr ⟨_, hbs, hd⟩⟩
      · rw [mergedRun, prevOf_concat hbs, hd, hbs, List.append_assoc]
        rfl
      · rw [hbs]
        exact List.mem_append_left _ hx

/-- `extend_heap` moves the epilogue to the new break and leaves a free block at the end of the
heap and at the head of the list. -/
theorem extendHeap_exact (hv : Valid s.memHeapLo h) (hr : Represents s h) (hw : 3 ≤ w)
    (hlt : 4 * w < 2 ^ 31) (hg : g = (4 * w + 7) / 8 * 8) (hgr : ¬s.Refuses (toInt g)) :
    ∃ pre last rest s', extendHeap w s = .ok last.addr s' ∧ s'.memBrk = s.memBrk + g ∧
      s.word (s.memBrk - 4) = 0 ||| 1 ∧ s'.word (s.memBrk - 4) = g ||| 0 ∧
      s'.word (s'.memBrk - 4) = 0 ||| 1 ∧
      Grows h g ⟨pre ++ [last], last.addr :: rest, s'.memBrk⟩ ∧
      Valid s'.memHeapLo ⟨pre ++ [last], last.addr :: rest, s'.memBrk⟩ ∧
      Represents s' ⟨pre ++ [last], last.addr :: rest, s'.memBrk⟩ ∧
      ∀ x ∈ pre, ∀ c ∈ x.space,
        (x.alloc = false → c < x.addr ∨ x.addr + 8 ≤ c) → s'.mem c = s.mem c := by
  have hg' : 16 ≤ g ∧ g % 8 = 0 := by omega
  obtain ⟨s₁, s', hrun, hr', ht₁, harena, -, -, -, hmem, hf⟩ :=
    extendHeap_writes hv hr hg' (by omega) hgr
  obtain ⟨pre, last, rest, hext, hbs, hpre, hlast⟩ := extend_split hv hg'
  have hlo : s'.memHeapLo = s.memHeapLo := hf.memHeapLo.trans (Machine.memHeapLo_congr harena)
  have hgrows := hv.grows hg'
  have hv' := hlo ▸ hv.extend hg'
  rw [← extendHeap_rounded hg (by omega)] at hrun
  rw [hext] at hrun hr' hgrows hv'
  have hbrk : s'.memBrk = h.brk + g := hr'.brk
  have hold : Tag s (h.brk - 4) 0 true := hr.epilogueHeader
  have hnew : Tag s' (h.brk + g - 4) 0 true := hr'.epilogueHeader
  have hheader : s'.word (h.brk - 4) = g ||| 0 := by
    rcases hlast with rfl | ⟨d, hd, hda⟩
    · exact (hr'.blockTags (newSpace h g) (by simp)).1.word_eq
    · rw [header_of_joinBytes hv hg' hd hda hf]
      exact (ht₁.blockTags (newSpace h g) (by simp [newSpace])).1.word_eq
  refine ⟨pre, last, rest, s', hrun, by rw [hbrk, hr.brk], by rw [hr.brk, hold.word_eq]; rfl,
    by rw [hr.brk, hheader], by rw [hbrk, hnew.word_eq]; rfl, hbrk ▸ hgrows, hbrk ▸ hv',
    hbrk ▸ hr', fun x hx c hc hlink => ?_⟩
  exact mem_of_joinBytes hv hg' hmem hf hbs hx (hpre x hx) hc hlink

/-- `extend_heap(3)` after `mm_malloc(100)` enlarges the free block at the end by 16 bytes. -/
theorem extendHeap_exact_oneSession : ∃ s', extendHeap 3 (oneSession 100).machine = .ok 4224 s' ∧
    s'.word 8204 = 16 ||| 0 ∧ s'.word 8220 = 0 ||| 1 ∧
    Represents s' ⟨[⟨4112, 112, true⟩, ⟨4224, 4000, false⟩], [4224], 8224⟩ := by
  obtain ⟨-, hs, harena⟩ := oneSession_spec (n := 100) (by decide)
  have hlayout : ((initial 4096).malloc 100).1 =
      ⟨[⟨4112, 112, true⟩, ⟨4224, 3984, false⟩], [4224], 8208⟩ := by decide
  rw [hlayout] at hs
  have hbrk : (oneSession 100).machine.memBrk = 8208 := hs.represents.brk
  have hgr : ¬(oneSession 100).machine.Refuses (toInt 16) := by
    rw [Machine.Refuses, Machine.memMaxAddr, harena, hbrk]
    decide
  obtain ⟨pre, last, rest, s', hrun, hbrk', -, hheader, hend, hgrows, -, hr', -⟩ :=
    extendHeap_exact (w := 3) hs.valid hs.represents (by omega) (by omega) rfl hgr
  rw [hbrk] at hbrk' hheader
  rw [hbrk'] at hend hr' hgrows
  generalize hl : (⟨pre ++ [last], last.addr :: rest, 8208 + (4 * 3 + 7) / 8 * 8⟩ : Layout) = h'
    at hgrows hr'
  have haddr : last.addr = h'.free.headD 0 := congrArg (fun l => l.free.headD 0) hl
  rw [haddr] at hrun
  cases hgrows with
  | apart hlast =>
      cases hlast ⟨4224, 3984, false⟩ rfl
  | merged hbs hd =>
      have hbs : ([⟨4112, 112, true⟩] ++ [⟨4224, 3984, false⟩] : List Block) = _ := hbs
      obtain ⟨rfl, hd⟩ := List.append_inj' hbs rfl
      cases hd
      exact ⟨s', hrun, hheader, hend, hr'⟩

end OsAndC
