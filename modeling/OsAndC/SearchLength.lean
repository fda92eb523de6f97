import OsAndC.Service

/-!
# The Search for a Block Is Short

`find_fit` walks the free list, so what a request costs depends on the length of the list.
Since no two free blocks are neighbours, there is an allocated block between any two of them,
and an allocated block is one that the client holds. `search_bounded` says that the list has
at most one entry more than the client holds blocks, in every state of every legal run, and
that the loop of `find_fit` stops within that many turns.
-/

namespace OsAndC

open Layout

variable {σ : Session} {s : Machine} {h : Layout} {gs : List Grant} {bs : List Block}

/-- Between any two free blocks of a coalesced sequence there is an allocated one. -/
theorem Coalesced.count_free_le (hc : Coalesced bs) :
    bs.countP (fun b => !b.alloc) ≤ bs.countP (fun b => b.alloc) + 1 ∧
      ((∀ b ∈ bs.head?, b.alloc = true) →
        bs.countP (fun b => !b.alloc) ≤ bs.countP fun b => b.alloc) := by
  induction bs with
  | nil => exact ⟨Nat.zero_le 1, fun _ => le_rfl⟩
  | cons b bs ih =>
      obtain ⟨hany, halloc⟩ := ih (List.IsChain.tail hc)
      rw [List.countP_cons, List.countP_cons]
      cases hb : b.alloc with
      | true =>
          simp only [Bool.not_true, Bool.false_eq_true, if_false, if_true]
          exact ⟨by omega, fun _ => by omega⟩
      | false =>
          -- the next block is not free
          have hhead : ∀ c ∈ bs.head?, c.alloc = true := by
            intro c hcb
            obtain ⟨-, -, hapart⟩ := List.isChain_append.mp (show Coalesced ([b] ++ bs) from hc)
            exact (hapart b rfl c hcb).resolve_left (by simp [hb])
          have hle := halloc hhead
          simp only [Bool.not_false, if_true, Bool.false_eq_true, if_false]
          exact ⟨by omega, fun h0 => absurd (h0 b rfl) (by simp [hb])⟩

/-- The client holds as many blocks as are allocated. -/
theorem Tended.length_live (ht : Tended s h gs) :
    gs.length = h.blocks.countP fun b => b.alloc := by
  have hnd : ((h.blocks.filter fun b => b.alloc).map Block.addr).Nodup :=
    ht.valid.tiles.nodup.sublist (List.filter_sublist.map Block.addr)
  have hperm : (gs.map Grant.ptr).Perm ((h.blocks.filter fun b => b.alloc).map Block.addr) := by
    refine (List.perm_ext_iff_of_nodup ht.nodup hnd).mpr fun p => ?_
    have hholds := ht.holds p
    simp only [Holds, Allocated, and_assoc] at hholds
    simpa only [List.mem_map, List.mem_filter, and_assoc] using hholds
  rw [List.countP_eq_length_filter, ← List.length_map (f := Grant.ptr), hperm.length_eq,
    List.length_map]

/-- There is one free block more than blocks that are held, at most. -/
theorem Tended.length_free_le (ht : Tended s h gs) : h.free.length ≤ gs.length + 1 := by
  have hfree : h.free.length = h.blocks.countP fun b => !b.alloc := by
    rw [ht.valid.perm.length_eq, freeAddrs, List.length_map, List.countP_eq_length_filter]
  rw [hfree, ht.length_live]
  exact (Coalesced.count_free_le ht.valid.coalesced).1

/-- **The search is short.** In every state of a legal run the free list has at most one block
more than the client holds, and `find_fit` leaves its loop before it has tested more. -/
theorem search_bounded (hσ : Reachable σ) :
    (∃ l, NextChain σ.machine σ.machine.freeList l ∧ l.length ≤ σ.live.length + 1) ∧
      ∀ k, ∃ p, findFit k σ.machine = .ok p σ.machine ∧
        findFitLoop k (σ.live.length + 2) σ.machine.freeList σ.machine = .ok p σ.machine := by
  obtain ⟨h, hs⟩ := hσ.simulates
  have hr := hs.represents
  have hlen := hs.tended.length_free_le
  refine ⟨⟨h.free, hr.nextChain, hlen⟩, fun k => ⟨_, findFit_eq hs.valid.toWf hr, ?_⟩⟩
  rw [hr.chain.head]
  exact findFitLoop_eq hs.valid.toWf hr.toTagsOf (List.Subset.refl _) hr.chain.links
    (Nat.lt_succ_of_le hlen)

/-- One block is held, so two turns are enough. -/
theorem search_bounded_oneSession :
    (∃ l, NextChain (oneSession 100).machine (oneSession 100).machine.freeList l ∧ l.length ≤ 2) ∧
      ∀ k, ∃ p, findFit k (oneSession 100).machine = .ok p (oneSession 100).machine ∧
        findFitLoop k 3 (oneSession 100).machine.freeList (oneSession 100).machine =
          .ok p (oneSession 100).machine :=
  search_bounded ⟨_, _, _, oneSession_run (by decide)⟩

end OsAndC
