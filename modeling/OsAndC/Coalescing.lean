import OsAndC.Walk

/-!
# Coalescing Merges the Maximal Free Run

`coalesce` in its own right, on any heap in good order in which the only adjacent free
blocks are next to the block it is called with: the tags tile the heap, and the free list
links exactly the free blocks, in whatever order. `coalesce_exact` says that the maximal run
of free blocks around that block becomes one block in front of the list, and that everything
else stays as it was: the other blocks with their bytes, and the order of the other nodes.
-/

namespace OsAndC

open Layout

/-- `run` is the maximal run of adjacent free blocks around `b`, between `pre` and `post`. -/
structure FreeRun (bs pre run post : List Block) (b : Block) : Prop where
  split : bs = pre ++ run ++ post
  mem : b ∈ run
  free : ∀ d ∈ run, d.alloc = false
  left : ∀ x ∈ pre.getLast?, x.alloc = true
  right : ∀ y ∈ post.head?, y.alloc = true

variable {s s' : Machine} {h : Layout} {lo : ℕ} {b p n : Block} {xs ys pre post : List Block}

/-- The merged block covers the run. -/
theorem merged_extent (p b n : Block) : (merged p b n).size = extent (mergedRun p b n) := by
  simp only [merged, mergedRun]
  split_ifs <;> simp [Nat.add_assoc]

/-- The run starts with the block or with its predecessor. -/
theorem mergedRun_head (hpb : p.addr + p.size = b.addr) :
    ∃ r rs, mergedRun p b n = r :: rs ∧ (merged p b n).addr = r.addr ∧ rs.length ≤ 2 ∧
      (r = b ∨ r.addr + r.size = b.addr) := by
  simp only [merged, mergedRun]
  cases p.alloc with
  | true => exact ⟨b, _, rfl, rfl, by split_ifs <;> simp, Or.inl rfl⟩
  | false => exact ⟨p, _, rfl, rfl, by split_ifs <;> simp, Or.inr hpb⟩

/-- A byte of a block outside the run that is no link byte is not written. -/
theorem notMem_written {x : Block} {c : ℕ} (hw : Wf lo h)
    (hbs : h.blocks = pre ++ mergedRun p b n ++ post) (hx : x ∈ pre ++ post) (hc : c ∈ x.space)
    (hlink : x.alloc = false → c < x.addr ∨ x.addr + 8 ≤ c) :
    ¬ (c ∈ linkBytes h.free ∨ ∃ d ∈ mergedRun p b n, c ∈ d.space) := by
  have hxb : x ∈ h.blocks := by
    rw [hbs]
    rcases List.mem_append.mp hx with hx | hx <;> simp [hx]
  obtain ⟨h₁, h₂⟩ := hc
  rintro (hc | ⟨d, hd, h₃, h₄⟩)
  · obtain ⟨d, hd, hfree, h₃, h₄⟩ := mem_linkBytes_block hw (List.Subset.refl _) hc
    have h16 := (hw.block hd).2.2.1
    by_cases hxd : x.addr = d.addr
    · rw [← hw.eq_of_addr hxb hd hxd] at hfree
      have := hlink hfree
      omega
    · have := hw.apart hxb hd hxd
      omega
  · have hdb : d ∈ h.blocks := by rw [hbs]; simp [hd]
    have hne := (hbs ▸ hw.tiles).addr_ne_of_mem hx hd
    have := hw.apart hxb hdb hne
    omega

/-- **`coalesce` merges exactly the maximal free run.** It returns the start of the run, which
is the block itself or its predecessor. The run, of one to three blocks, becomes one free
block, with both tags stating the sum of the sizes, and comes to the front of the list in
place of the nodes of the run. All other blocks stay, and of their bytes only links change. -/
theorem coalesce_exact (hw : Wf s.memHeapLo h) (hr : Represents s h)
    (hbs : h.blocks = xs ++ b :: ys) (hb : b.alloc = false) (hxs : Coalesced xs)
    (hys : Coalesced ys) :
    ∃ s' pre r rs post, FreeRun h.blocks pre (r :: rs) post b ∧ rs.length ≤ 2 ∧
      (r = b ∨ r.addr + r.size = b.addr) ∧ coalesce b.addr s = .ok r.addr s' ∧
      Represents s' ⟨pre ++ ⟨r.addr, extent (r :: rs), false⟩ :: post,
        r.addr :: h.free.filter (fun a => a ∉ (r :: rs).map Block.addr), h.brk⟩ ∧
      s'.word (r.addr - 4) = extent (r :: rs) ||| 0 ∧
      s'.word (r.addr + extent (r :: rs) - 8) = extent (r :: rs) ||| 0 ∧
      ∀ x ∈ pre ++ post, ∀ c ∈ x.space,
        (x.alloc = false → c < x.addr ∨ x.addr + 8 ≤ c) → s'.mem c = s.mem c := by
  obtain ⟨p, hp⟩ : ∃ p, p = prevOf s.memHeapLo xs := ⟨_, rfl⟩
  obtain ⟨n, hn⟩ : ∃ n, n = nextOf h.brk ys := ⟨_, rfl⟩
  have hpb : p.addr + p.size = b.addr := hp ▸ prevOf_end hw hbs
  obtain ⟨hrunfree, pre, post, hrun, hl, hh, heq⟩ := coalesce_layout hw hbs hb hxs hys hp hn
  obtain ⟨s', hrun', hr', hf⟩ := coalesce_merged hw hr hbs hb hxs hys hp hn
  have hbrun : b ∈ mergedRun p b n := by simp [mergedRun]
  have hout : ∀ x ∈ pre ++ post, ∀ c ∈ x.space,
      (x.alloc = false → c < x.addr ∨ x.addr + 8 ≤ c) → s'.mem c = s.mem c :=
    fun x hx c hc hlink => hf.mem (notMem_written hw hrun hx hc hlink)
  obtain ⟨r, rs, hrs, haddr, hlen, hrb⟩ := mergedRun_head (n := n) hpb
  have hm : merged p b n = ⟨r.addr, extent (r :: rs), false⟩ := by
    rw [← haddr, ← hrs, ← merged_extent]
    rfl
  rw [hrs] at hrun hrunfree hbrun heq
  rw [heq, hm, List.append_assoc, List.singleton_append] at hr'
  have htag := hr'.blockTags ⟨r.addr, extent (r :: rs), false⟩ (by simp)
  refine ⟨s', pre, r, rs, post, ⟨hrun, hbrun, fun d hd => (hrunfree d hd).2, hl, hh⟩, hlen, hrb,
    ?_, hr', htag.1.word_eq, htag.2.word_eq, hout⟩
  rw [hrun', haddr]

/-- `mm_free(4112)` after `mm_malloc(100)` calls `coalesce` on a heap of two free blocks. -/
theorem coalesce_exact_oneSession :
    ∃ s s' pre r rs post, FreeRun [⟨4112, 112, false⟩, ⟨4224, 3984, false⟩] pre (r :: rs) post
        ⟨4112, 112, false⟩ ∧ rs.length ≤ 2 ∧
      (r = ⟨4112, 112, false⟩ ∨ r.addr + r.size = 4112) ∧ coalesce 4112 s = .ok r.addr s' ∧
      Represents s' ⟨pre ++ ⟨r.addr, extent (r :: rs), false⟩ :: post,
        r.addr :: [4112, 4224].filter (fun a => a ∉ (r :: rs).map Block.addr), 8208⟩ ∧
      s'.word (r.addr - 4) = extent (r :: rs) ||| 0 ∧
      s'.word (r.addr + extent (r :: rs) - 8) = extent (r :: rs) ||| 0 ∧
      ∀ x ∈ pre ++ post, ∀ c ∈ x.space,
        (x.alloc = false → c < x.addr ∨ x.addr + 8 ≤ c) → s'.mem c = s.mem c := by
  obtain ⟨-, hs, -⟩ := oneSession_spec (n := 100) (by decide)
  have hlayout : ((initial 4096).malloc 100).1 =
      ⟨[⟨4112, 112, true⟩, ⟨4224, 3984, false⟩], [4224], 8208⟩ := by decide
  rw [hlayout] at hs
  have hbs : ([⟨4112, 112, true⟩, ⟨4224, 3984, false⟩] : List Block) =
      [] ++ ⟨4112, 112, true⟩ :: [⟨4224, 3984, false⟩] := rfl
  have hbs' : ([⟨4112, 112, false⟩, ⟨4224, 3984, false⟩] : List Block) =
      [] ++ ⟨4112, 112, false⟩ :: [⟨4224, 3984, false⟩] := rfl
  obtain ⟨s, -, hr, hf⟩ := mmFree_marked hs.valid hs.represents hbs rfl
  have hm := hs.valid.marked hbs rfl
  exact ⟨s, coalesce_exact (hf.memHeapLo ▸ hm) hr hbs' rfl List.isChain_nil
    (List.isChain_singleton _)⟩

end OsAndC
