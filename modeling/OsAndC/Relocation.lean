import OsAndC.Noninterference
import OsAndC.Service

/-!
# The Place of the Arena Does Not Matter

The allocator compares addresses and subtracts them, and does nothing else with them. So it
behaves on an arena `d` bytes higher as it does on this one: `Layout.shift d` moves a heap,
`Call.shift d` the pointers that a call is given, and every operation of the abstract
allocator commutes with the two.

`runs_relocate` carries this to the code. A sequence of events is a legal run on one arena
exactly when the moved sequence is one on the other, whatever the two arenas contain, and the
heaps at the end are the same heap, moved.
-/

namespace OsAndC

open Layout

/-! ### Moving a heap -/

/-- The block `d` bytes higher. -/
def Block.shift (d : ℕ) (b : Block) : Block := { b with addr := b.addr + d }

/-- The heap `d` bytes higher. -/
def Layout.shift (d : ℕ) (h : Layout) : Layout :=
  ⟨h.blocks.map (Block.shift d), h.free.map (· + d), h.brk + d⟩

/-- A pointer `d` bytes higher; null stays null. -/
def shiftPtr (d p : ℕ) : ℕ := if p = 0 then 0 else p + d

/-- The call with its pointer moved. -/
def Call.shift (d : ℕ) : Call → Call
  | .malloc n => .malloc n
  | .free p => .free (shiftPtr d p)
  | .realloc p n => .realloc (shiftPtr d p) n

variable {h : Layout} {bs : List Block} {b : Block} {d lo a k n p q g : ℕ}

/-- A pointer to a block moves. -/
theorem shiftPtr_of_ne (hp : p ≠ 0) : shiftPtr d p = p + d := if_neg hp

/-- The null pointer is the one that does not. -/
theorem shiftPtr_eq_zero : shiftPtr d p = 0 ↔ p = 0 := by
  simp only [shiftPtr]
  split_ifs <;> omega

/-- Moved pointers differ if the pointers do. -/
theorem shiftPtr_inj : shiftPtr d p = shiftPtr d q ↔ p = q := by
  simp only [shiftPtr]
  split_ifs <;> omega

/-- Moving is injective on addresses. -/
theorem shift_injective : Function.Injective (· + d : ℕ → ℕ) := add_left_injective d

/-- A moved address is that of a moved block if the address is that of a block. -/
theorem mem_map_shift :
    a + d ∈ (bs.map (Block.shift d)).map Block.addr ↔ a ∈ bs.map Block.addr := by
  have haddr : (bs.map (Block.shift d)).map Block.addr = (bs.map Block.addr).map (· + d) := by
    simp only [List.map_map, Function.comp_def, Block.shift]
  rw [haddr]
  exact List.mem_map_of_injective shift_injective

/-- Looking up a block and moving it commute. -/
theorem blockAt?_shift :
    blockAt? (bs.map (Block.shift d)) (a + d) = (blockAt? bs a).map (Block.shift d) := by
  simp only [blockAt?, List.find?_map, Function.comp_def, Block.shift, Nat.add_right_cancel_iff,
    beq_eq_decide]

/-- Replacing a block and moving commute, if the replacement moves along. -/
theorem replaceAt_shift {f f' : Block → List Block}
    (hf : ∀ b, f' (b.shift d) = (f b).map (Block.shift d)) :
    replaceAt (a + d) f' (bs.map (Block.shift d)) = (replaceAt a f bs).map (Block.shift d) := by
  induction bs with
  | nil => rfl
  | cons b bs ih =>
      simp only [replaceAt] at ih ⊢
      rw [List.map_cons, List.flatMap_cons, List.flatMap_cons, List.map_append, ih]
      refine congrArg (· ++ _) ?_
      by_cases hb : b.addr = a
      · have hb' : (b.shift d).addr = a + d := congrArg (· + d) hb
        rw [if_pos hb, if_pos hb', hf]
      · have hb' : (b.shift d).addr ≠ a + d := fun h0 => hb (Nat.add_right_cancel h0)
        rw [if_neg hb, if_neg hb']
        rfl

/-- Gluing free neighbours and moving commute. -/
theorem glue_shift : glue (bs.map (Block.shift d)) = (glue bs).map (Block.shift d) := by
  induction bs with
  | nil => rfl
  | cons b bs ih =>
      rw [List.map_cons, glue, glue, ih]
      cases glue bs with
      | nil => rfl
      | cons c cs =>
          simp only [List.map_cons, Block.shift, apply_ite (List.map (Block.shift d))]
          rfl

/-- Some block of a tiling ends behind an address before its end. -/
theorem Tiles.exists_behind (h : Tiles lo bs) (ha : a < lo + extent bs) (hbs : bs ≠ []) :
    ∃ b ∈ bs, a < b.addr + b.size := by
  induction bs generalizing lo with
  | nil => exact absurd rfl hbs
  | cons b bs ih =>
      obtain ⟨hb, -, hrest⟩ := h
      by_cases hab : a < b.addr + b.size
      · exact ⟨b, List.mem_cons_self, hab⟩
      · rw [extent_cons] at ha
        cases bs with
        | nil =>
            rw [extent_nil] at ha
            omega
        | cons c bs =>
            obtain ⟨e, he, hae⟩ := ih hrest (by omega) (List.cons_ne_nil c bs)
            exact ⟨e, List.mem_cons_of_mem b he, hae⟩

/-- The block that covers a moved byte starts at the moved start. -/
theorem owner_shift (ha : ∃ b ∈ bs, a < b.addr + b.size) :
    owner (bs.map (Block.shift d)) (a + d) = owner bs a + d := by
  have hfind : (bs.map (Block.shift d)).find? (fun b => a + d < b.addr + b.size) =
      (bs.find? fun b => a < b.addr + b.size).map (Block.shift d) := by
    have hlt : ∀ b : Block, a + d < b.addr + d + b.size ↔ a < b.addr + b.size := by
      intro b
      omega
    simp only [List.find?_map, Function.comp_def, Block.shift, hlt]
  obtain ⟨b, hb, hab⟩ := ha
  simp only [owner, hfind]
  cases hc : bs.find? fun b => a < b.addr + b.size with
  | none => exact absurd hab (by simpa using List.find?_eq_none.mp hc b hb)
  | some c => rfl

/-- Cutting a block and moving the parts commute. -/
theorem cut_shift : (b.shift d).cut k = (b.cut k).map (Block.shift d) := by
  simp only [Block.cut, Block.shift, apply_ite (List.map (Block.shift d)), List.map_cons,
    List.map_nil, Nat.add_right_comm]
  rfl

namespace Layout

/-- A moved block has its size. -/
theorem sizeAt_shift : (h.shift d).sizeAt (a + d) = h.sizeAt a := by
  simp only [sizeAt, shift, blockAt?_shift, Option.map_map]
  rfl

/-- The first fit is the moved first fit. -/
theorem fit?_shift : (h.shift d).fit? k = (h.fit? k).map (· + d) := by
  simp only [fit?, shift, List.find?_map, Function.comp_def]
  have hsize : ∀ a, Layout.sizeAt ⟨h.blocks.map (Block.shift d), h.free.map (· + d), h.brk + d⟩
      (a + d) = h.sizeAt a := fun a => sizeAt_shift
  simp only [hsize]

/-- Placing commutes with moving. -/
theorem place_shift : (h.shift d).place (a + d) k = (h.place a k).shift d := by
  have hblocks : replaceAt (a + d) (fun b => b.cut k) (h.blocks.map (Block.shift d)) =
      (replaceAt a (fun b => b.cut k) h.blocks).map (Block.shift d) :=
    replaceAt_shift fun _ => cut_shift
  simp only [place, sizeAt_shift]
  simp only [shift, hblocks, apply_ite (List.map (· + d)), List.map_cons, Nat.add_right_comm]

/-- So does unlinking a node. -/
theorem erase_shift {l : List ℕ} : (l.map (· + d)).erase (a + d) = (l.erase a).map (· + d) :=
  (List.map_erase shift_injective l).symm

/-- So does taking a block from the list. -/
theorem take_shift : (h.shift d).take (a + d) k = (h.take a k).shift d := by
  have hlist : ({ h.shift d with free := (h.shift d).free.erase (a + d) } : Layout) =
      shift d { h with free := h.free.erase a } := by
    simp only [shift, erase_shift]
  rw [take, hlist, place_shift]
  rfl

/-- Joining around an address that some block covers. -/
theorem coalesce_shift (ha : ∃ b ∈ glue h.blocks, a < b.addr + b.size) :
    (h.shift d).coalesce (a + d) = (h.coalesce a).shift d := by
  simp only [coalesce]
  simp only [shift, glue_shift, owner_shift ha, List.map_cons, List.filter_map, Function.comp_def,
    mem_map_shift, ne_eq, Nat.add_right_cancel_iff]

/-- Joining around an address of the heap. -/
theorem Wf.coalesce_shift (hw : Wf lo h) (hne : h.blocks ≠ []) (ha : a < h.brk) :
    (h.shift d).coalesce (a + d) = (h.coalesce a).shift d := by
  obtain ⟨ht, he⟩ := hw.tiles.glue
  refine Layout.coalesce_shift (ht.exists_behind ?_ ?_)
  · rw [he]
    exact hw.brk_eq ▸ ha
  · intro hnil
    cases hbs : h.blocks with
    | nil => exact hne hbs
    | cons b bs =>
        have hb := hw.sizes b (by rw [hbs]; exact List.mem_cons_self)
        rw [hnil, hbs, extent_nil, extent_cons] at he
        omega

/-- So does extending the heap. -/
theorem extend_shift (hv : Valid lo h) (hg : 16 ≤ g ∧ g % 8 = 0) :
    (h.shift d).extend g = (h.extend g).shift d := by
  have hw := hv.appended hg
  have hmove : (⟨(h.shift d).blocks ++ [⟨(h.shift d).brk, g, false⟩],
      (h.shift d).brk :: (h.shift d).free, (h.shift d).brk + g⟩ : Layout) =
      shift d ⟨h.blocks ++ [⟨h.brk, g, false⟩], h.brk :: h.free, h.brk + g⟩ := by
    simp only [shift, List.map_append, List.map_cons, List.map_nil, Block.shift,
      Nat.add_right_comm]
  have hbrk : (h.shift d).brk = h.brk + d := rfl
  rw [extend, hmove, hbrk, hw.coalesce_shift (by simp) (by simp only []; omega)]
  rfl

/-- So does releasing a block. -/
theorem release_shift (hv : Valid lo h) (hb : h.Allocated b) :
    (h.shift d).release (b.addr + d) = (h.release b.addr).shift d := by
  obtain ⟨xs, ys, hbs, -⟩ := hv.split hb.1
  have hw := hv.marked hbs hb.2
  have hbounds := hv.block hb.1
  have hmark : (⟨replaceAt b.addr (fun b => [{ b with alloc := false }]) h.blocks,
      b.addr :: h.free, h.brk⟩ : Layout) =
      ⟨xs ++ { b with alloc := false } :: ys, b.addr :: h.free, h.brk⟩ := by
    have ht := hv.tiles
    rw [hbs] at ht ⊢
    rw [ht.replaceAt, List.append_assoc]
    rfl
  have hmove : (⟨replaceAt (b.addr + d) (fun b => [{ b with alloc := false }]) (h.shift d).blocks,
      (b.addr + d) :: (h.shift d).free, (h.shift d).brk⟩ : Layout) =
      shift d ⟨replaceAt b.addr (fun b => [{ b with alloc := false }]) h.blocks,
        b.addr :: h.free, h.brk⟩ := by
    have hblocks : replaceAt (b.addr + d) (fun b => [{ b with alloc := false }])
        (h.blocks.map (Block.shift d)) =
        (replaceAt b.addr (fun b => [{ b with alloc := false }]) h.blocks).map (Block.shift d) :=
      replaceAt_shift fun _ => rfl
    simp only [shift, hblocks, List.map_cons]
  rw [release, hmove, release, hmark, hw.coalesce_shift (by simp) (by simp only []; omega)]

/-- A moved block can grow in place if the block can. -/
theorem canGrow_shift : (h.shift d).CanGrow (p + d) k ↔ h.CanGrow p k := by
  have hmem : p + h.sizeAt p + d ∈ (h.shift d).free ↔ p + h.sizeAt p ∈ h.free :=
    List.mem_map_of_injective shift_injective
  rw [CanGrow, CanGrow, sizeAt_shift, Nat.add_right_comm, hmem, sizeAt_shift]

/-- And it can stay if the block can. -/
theorem stays_shift : (h.shift d).Stays (p + d) n ↔ h.Stays p n := by
  rw [Stays, Stays, sizeAt_shift, canGrow_shift]

/-- Absorbing the next block commutes with moving. -/
theorem absorb_shift : (h.shift d).absorb (p + d) = (h.absorb p).shift d := by
  have hblocks : replaceAt (p + h.sizeAt p + d) (fun _ => []) (h.blocks.map (Block.shift d)) =
      (replaceAt (p + h.sizeAt p) (fun _ => []) h.blocks).map (Block.shift d) :=
    replaceAt_shift fun _ => rfl
  have hgrown : ∀ bs : List Block, replaceAt (p + d)
      (fun b => [{ b with size := b.size + h.sizeAt (p + h.sizeAt p) }])
        (bs.map (Block.shift d)) =
      (replaceAt p (fun b => [{ b with size := b.size + h.sizeAt (p + h.sizeAt p) }])
        bs).map (Block.shift d) := fun bs => replaceAt_shift fun _ => rfl
  simp only [absorb, sizeAt_shift, Nat.add_right_comm p d]
  simp only [shift, hblocks, hgrown, erase_shift]

/-! ### Moving the calls -/

/-- **Allocation commutes with moving**, and returns the moved pointer. -/
theorem malloc_shift (hv : Valid lo h) :
    (h.shift d).malloc n = ((h.malloc n).1.shift d, shiftPtr d (h.malloc n).2) := by
  by_cases hn : n = 0
  · simp only [malloc, if_pos hn]
    rfl
  · obtain ⟨-, hlo, -⟩ := hv.malloc (Nat.pos_of_ne_zero hn)
    rw [shiftPtr_of_ne (by omega)]
    simp only [malloc, if_neg hn, fit?_shift]
    cases h.fit? (need n) with
    | some a => exact Prod.ext take_shift rfl
    | none =>
        have hneed := need_pos (Nat.pos_of_ne_zero hn)
        have hext := extend_shift (d := d) hv (g := max (need n) 4096) (by omega)
        -- the joined block is at the head of the list
        exact Prod.ext (by simp only [Option.map_none, hext]; exact take_shift)
          (by simp only [Option.map_none, hext]; rfl)

/-- **Resizing commutes with moving**, and returns the moved pointer. -/
theorem realloc_shift (hv : Valid lo h) (hb : h.Allocated b) :
    (h.shift d).realloc (b.addr + d) n =
      ((h.realloc b.addr n).1.shift d, shiftPtr d (h.realloc b.addr n).2) := by
  have hb0 := allocated_addr_ne_zero hv.toWf hb
  have hbd0 : b.addr + d ≠ 0 := by omega
  have hptr : shiftPtr d b.addr = b.addr + d := shiftPtr_of_ne hb0
  rw [realloc, realloc, sizeAt_shift, malloc_shift hv, if_neg hb0, if_neg hbd0]
  simp only [canGrow_shift]
  by_cases hn : n = 0
  · rw [if_pos hn, if_pos hn, release_shift hv hb]
    rfl
  · rw [if_neg hn, if_neg hn]
    split_ifs with hfits hgrow
    · rw [hptr]
    · rw [hptr, absorb_shift, place_shift]
    · obtain ⟨hv', -, -, size, -, -, halloc⟩ := hv.malloc (Nat.pos_of_ne_zero hn)
      rw [release_shift hv' ((halloc b).mpr (Or.inr hb))]

/-- **A legal call on the moved heap** leads to the moved layout and returns the moved
pointer. -/
theorem apply_shift {gs : List Grant} {c : Call} (hv : Valid lo h) (hc : c.Legal gs)
    (hholds : ∀ p, Holds gs p ↔ ∃ b, h.Allocated b ∧ b.addr = p) :
    (c.shift d).apply (h.shift d) = ((c.apply h).1.shift d, shiftPtr d (c.apply h).2) := by
  cases c with
  | malloc n => exact malloc_shift hv
  | free p =>
      obtain ⟨b, hb, rfl⟩ := (hholds p).mp hc
      have hptr : shiftPtr d b.addr = b.addr + d :=
        shiftPtr_of_ne (allocated_addr_ne_zero hv.toWf hb)
      simp only [Call.shift, Call.apply, hptr, release_shift hv hb]
      rfl
  | realloc p n =>
      rcases hc.2 with hp | ⟨rfl, hn⟩
      · obtain ⟨b, hb, rfl⟩ := (hholds p).mp hp
        have hptr : shiftPtr d b.addr = b.addr + d :=
          shiftPtr_of_ne (allocated_addr_ne_zero hv.toWf hb)
        simp only [Call.shift, Call.apply, hptr, realloc_shift hv hb]
      · have hnull : shiftPtr d 0 = 0 := rfl
        simp only [Call.shift, Call.apply, hnull, realloc_null hn, malloc_shift hv]

/-- The first layout of a moved arena is the moved first layout. -/
theorem initial_shift : (initial lo).shift d = initial (lo + d) := by
  simp only [initial, shift, List.map_cons, List.map_nil, Block.shift, Nat.add_right_comm]

end Layout

/-! ### Moving a run -/

/-- The grant with its pointer moved. -/
def Grant.shift (d : ℕ) (g : Grant) : Grant := { g with ptr := shiftPtr d g.ptr }

/-- The event with its addresses moved. -/
def Event.shift (d : ℕ) : Event → Event
  | .call c q => .call (c.shift d) (shiftPtr d q)
  | .write a v => .write (a + d) v

/-- The two machines show the same heap, `d` bytes higher on the second. -/
structure MovedHeap (d : ℕ) (s s' : Machine) : Prop where
  memBrk : s'.memBrk = s.memBrk + d
  freeList : s'.freeList = shiftPtr d s.freeList
  walk : ∃ bs, HeapWalk s (s.memHeapLo + 16) bs ∧
    HeapWalk s' (s'.memHeapLo + 16) (bs.map (Block.shift d))
  chain : ∃ l, NextChain s s.freeList l ∧ NextChain s' s'.freeList (l.map (· + d))

section Runs

variable {σ σ' τ τ' : Session} {c : Call} {e : Event} {es : List Event} {gs : List Grant}
  {ar ar' : Arena} {m m' : Mem} {top : ℕ}

/-- A client holds the moved block if it holds the block. -/
theorem holds_shift : Holds (gs.map (Grant.shift d)) (shiftPtr d p) ↔ Holds gs p := by
  simp only [Holds, List.mem_map, Grant.shift]
  constructor
  · rintro ⟨-, ⟨g, hg, rfl⟩, hgp⟩
    exact ⟨g, hg, shiftPtr_inj.mp hgp⟩
  · rintro ⟨g, hg, rfl⟩
    exact ⟨_, ⟨g, hg, rfl⟩, rfl⟩

/-- The moved call is legal if the call is. -/
theorem legal_shift : (c.shift d).Legal (gs.map (Grant.shift d)) ↔ c.Legal gs := by
  cases c with
  | malloc n => exact Iff.rfl
  | free p => exact holds_shift
  | realloc p n =>
      simp only [Call.shift, Call.Legal, holds_shift, shiftPtr_eq_zero]

/-- Striking out a grant and moving commute. -/
theorem filter_shift : (gs.map (Grant.shift d)).filter (fun g => g.ptr ≠ shiftPtr d p) =
    (gs.filter fun g => g.ptr ≠ p).map (Grant.shift d) := by
  simp only [List.filter_map, Function.comp_def, Grant.shift, ne_eq, shiftPtr_inj]

/-- The book of the moved client is the moved book. -/
theorem update_shift : (c.shift d).update (gs.map (Grant.shift d)) (shiftPtr d q) =
    (c.update gs q).map (Grant.shift d) := by
  cases c with
  | malloc n =>
      simp only [Call.shift, Call.update, shiftPtr_eq_zero, apply_ite (List.map (Grant.shift d))]
      rfl
  | free p => exact filter_shift
  | realloc p n =>
      simp only [Call.shift, Call.update, shiftPtr_eq_zero, filter_shift,
        apply_ite (List.map (Grant.shift d))]
      rfl

/-- A moved call requests the same size. -/
theorem size_shift : (c.shift d).size = c.size := by
  cases c <;> rfl

/-- The moved call needs more heap if the call does. -/
theorem extends_shift : (c.shift d).Extends (h.shift d) ↔ c.Extends h := by
  have hfit : ∀ {k}, (h.shift d).fit? k = none ↔ h.fit? k = none := fun {k} => by
    rw [fit?_shift, Option.map_eq_none_iff]
  cases c with
  | malloc n => simp only [Call.shift, Call.Extends, hfit]
  | free p => exact Iff.rfl
  | realloc p n =>
      by_cases hp : p = 0
      · have hnull : shiftPtr d 0 = 0 := rfl
        simp only [Call.shift, Call.Extends, hp, hnull, hfit, true_or, true_and]
      · have hpd : p + d ≠ 0 := by omega
        simp only [Call.shift, Call.Extends, hp, hpd, shiftPtr_of_ne hp, stays_shift, hfit]

/-- There is room in the moved arena if there is in the arena. -/
theorem hasRoom_shift : (h.shift d).HasRoom (top + d) n ↔ h.HasRoom top n := by
  simp only [HasRoom, Layout.shift]
  omega

/-- The second session is the first one, moved. -/
structure Moved (d : ℕ) (σ σ' : Session) (h : Layout) : Prop where
  here : Simulates σ h
  there : Simulates σ' (h.shift d)
  base : σ'.machine.arena.base = σ.machine.arena.base + d
  live : σ'.live = σ.live.map (Grant.shift d)

/-- The end of the arena is moved too. -/
theorem Moved.memMaxAddr (hm : Moved d σ σ' h) :
    σ'.machine.memMaxAddr = σ.machine.memMaxAddr + d := by
  rw [Machine.memMaxAddr, hm.base, Machine.memMaxAddr, Nat.add_right_comm]

/-- **One event** is possible exactly when the moved event is. -/
theorem Moved.step_iff (hm : Moved d σ σ' h) :
    (∃ τ, Step σ e τ) ↔ ∃ τ', Step σ' (e.shift d) τ' := by
  cases e with
  | call c q =>
      rw [Event.shift, hm.here.step_call_iff, hm.there.step_call_iff, hm.live, legal_shift]
      refine and_congr_right fun hc => and_congr ?_ ?_
      · rw [apply_shift hm.here.valid hc hm.here.holds, shiftPtr_inj]
      · rw [extends_shift, size_shift, hm.memMaxAddr, hasRoom_shift]
  | write a v =>
      have hptr : ∀ g ∈ σ.live, shiftPtr d g.ptr = g.ptr + d := fun g hg =>
        shiftPtr_of_ne (hm.here.ptr_ne_zero hg)
      constructor
      · rintro ⟨τ, hstep⟩
        cases hstep with
        | @write g _ _ hg h₁ h₂ =>
            have hg' : g.shift d ∈ σ'.live := hm.live ▸ List.mem_map_of_mem hg
            have hgd := hptr g hg
            exact ⟨_, .write hg' (by simp only [Grant.shift]; omega)
              (by simp only [Grant.shift]; omega)⟩
      · rintro ⟨τ', hstep⟩
        cases hstep with
        | @write g' _ _ hg' h₁ h₂ =>
            rw [hm.live] at hg'
            obtain ⟨g, hg, rfl⟩ := List.mem_map.mp hg'
            have hgd := hptr g hg
            simp only [Grant.shift] at h₁ h₂
            exact ⟨_, .write hg (by omega) (by omega)⟩

/-- **One event** leaves the second session the first one, moved. -/
theorem Moved.step (hm : Moved d σ σ' h) (hstep : Step σ e τ)
    (hstep' : Step σ' (e.shift d) τ') : Moved d τ τ' (e.apply h) := by
  obtain ⟨hs, harena⟩ := hstep.simulates hm.here
  obtain ⟨hs', harena'⟩ := hstep'.simulates hm.there
  have hbase : τ'.machine.arena.base = τ.machine.arena.base + d := by
    rw [harena, harena', hm.base]
  cases e with
  | call c q =>
      cases hstep with
      | call hc _ _ =>
          have happly : ((Event.call c q).shift d).apply (h.shift d) =
              ((Event.call c q).apply h).shift d :=
            congrArg Prod.fst (apply_shift hm.here.valid hc hm.here.holds)
          rw [happly] at hs'
          cases hstep' with
          | call _ _ _ => exact ⟨hs, hs', hbase, by rw [hm.live, update_shift]⟩
  | write a v =>
      cases hstep
      cases hstep'
      exact ⟨hs, hs', hbase, hm.live⟩

/-- What the machines show of their heaps is the same, moved. -/
theorem Moved.heap (hm : Moved d σ σ' h) : MovedHeap d σ.machine σ'.machine := by
  have hr := hm.here.represents
  have hr' := hm.there.represents
  refine ⟨by rw [hr.brk, hr'.brk, Layout.shift], ?_,
    ⟨h.blocks, hr.walk hm.here.valid.toWf, hr'.walk hm.there.valid.toWf⟩,
    ⟨h.free, hr.nextChain, hr'.nextChain⟩⟩
  rw [hr.chain.head, hr'.chain.head, Layout.shift]
  cases hl : h.free with
  | nil => rfl
  | cons a l =>
      have ha := hr.chain.eight_le (a := a) (by rw [hl]; exact List.mem_cons_self)
      exact (shiftPtr_of_ne (by omega)).symm

/-- A client that has done nothing holds nothing. -/
theorem Run.live_nil (hrun : Run ar m [] σ) : σ.live = [] := by
  generalize hes : ([] : List Event) = es at hrun
  cases hrun with
  | init _ _ => rfl
  | step _ _ => simp at hes

/-- A run with one more event. -/
theorem run_concat : Run ar m (es ++ [e]) τ ↔ ∃ σ, Run ar m es σ ∧ Step σ e τ := by
  constructor
  · intro hrun
    generalize hes : es ++ [e] = es' at hrun
    cases hrun with
    | init _ _ => simp at hes
    | step hrun hstep =>
        obtain ⟨rfl, hlast⟩ := List.append_inj' hes rfl
        obtain rfl := List.head_eq_of_cons_eq hlast
        exact ⟨_, hrun, hstep⟩
  · rintro ⟨σ, hrun, hstep⟩
    exact .step hrun hstep

/-- Two runs with the same events, up to the place of the arena. -/
theorem runs_moved (m m' : Mem) (hbase : ar'.base = ar.base + d) (es : List Event) :
    ((∃ σ, Run ar m es σ) ↔ ∃ σ', Run ar' m' (es.map (Event.shift d)) σ') ∧
      ∀ σ σ', Run ar m es σ → Run ar' m' (es.map (Event.shift d)) σ' →
        Moved d σ σ' (layoutAfter ar.base es) := by
  induction es using List.reverseRecOn with
  | nil =>
      refine ⟨iff_of_true ⟨_, initSession_run ar m⟩ ⟨_, initSession_run ar' m'⟩, ?_⟩
      intro σ σ' hrun hrun'
      obtain ⟨hs, harena⟩ := hrun.simulates
      obtain ⟨hs', harena'⟩ := hrun'.simulates
      have hlayout : layoutAfter ar'.base (List.map (Event.shift d) []) =
          (layoutAfter ar.base []).shift d := by
        simp only [List.map_nil, layoutAfter, List.foldl_nil, hbase, initial_shift]
      rw [hlayout] at hs'
      exact ⟨hs, hs', by rw [harena, harena', hbase], by rw [hrun.live_nil, hrun'.live_nil]; rfl⟩
  | append_singleton es e ih =>
      obtain ⟨hiff, hmoved⟩ := ih
      have hlayout : layoutAfter ar.base (es ++ [e]) = e.apply (layoutAfter ar.base es) := by
        simp only [layoutAfter, List.foldl_append, List.foldl_cons, List.foldl_nil]
      rw [List.map_append, List.map_singleton, hlayout]
      simp only [run_concat]
      refine ⟨⟨?_, ?_⟩, ?_⟩
      · rintro ⟨τ, σ, hrun, hstep⟩
        obtain ⟨σ', hrun'⟩ := hiff.mp ⟨σ, hrun⟩
        obtain ⟨τ', hstep'⟩ := (hmoved σ σ' hrun hrun').step_iff.mp ⟨τ, hstep⟩
        exact ⟨τ', σ', hrun', hstep'⟩
      · rintro ⟨τ', σ', hrun', hstep'⟩
        obtain ⟨σ, hrun⟩ := hiff.mpr ⟨σ', hrun'⟩
        obtain ⟨τ, hstep⟩ := (hmoved σ σ' hrun hrun').step_iff.mpr ⟨τ', hstep'⟩
        exact ⟨τ, σ, hrun, hstep⟩
      · rintro τ τ' ⟨σ, hrun, hstep⟩ ⟨σ', hrun', hstep'⟩
        exact (hmoved σ σ' hrun hrun').step hstep hstep'

/-- **The place of the arena does not matter.** On an arena `d` bytes higher, with any
contents, exactly the moved sequences of events are legal runs, and they end with the moved
heap. -/
theorem runs_relocate (hbase : ar'.base = ar.base + d) :
    ((∃ σ, Run ar m es σ) ↔ ∃ σ', Run ar' m' (es.map (Event.shift d)) σ') ∧
      ∀ σ σ', Run ar m es σ → Run ar' m' (es.map (Event.shift d)) σ' →
        σ'.live = σ.live.map (Grant.shift d) ∧ MovedHeap d σ.machine σ'.machine := by
  obtain ⟨hiff, hmoved⟩ := runs_moved m m' hbase es
  refine ⟨hiff, fun σ σ' hrun hrun' => ?_⟩
  have hm := hmoved σ σ' hrun hrun'
  exact ⟨hm.live, hm.heap⟩

/-- An arena further up. -/
def upperArena : Arena := ⟨1048576, by decide, by decide, by decide⟩

/-- The run on zeroed memory is also one further up, on memory full of ones. -/
theorem runs_relocate_malloc : ∃ σ, Run upperArena (fun _ => 255)
    [.call (.malloc 100) 1048592, .write 1048592 7, .call (.free 1048592) 0] σ := by
  have hrun : ∃ σ, Run sampleArena (fun _ => 0)
      [.call (.malloc 100) 4112, .write 4112 7, .call (.free 4112) 0] σ := by
    have hroom : (layoutAfter 4096 []).brk + max (need 100) 4096 ≤ 4096 + maxHeap := by decide
    have hroom' : (layoutAfter 4096 [.call (.malloc 100) 4112, .write 4112 7]).brk +
        max (need 0) 4096 ≤ 4096 + maxHeap := by decide
    have hlegal : Call.Legal (initSession sampleArena fun _ => 0).live (.malloc 100) :=
      show need 100 < 2 ^ 32 by decide
    have hmalloc := ((initSession_run sampleArena fun _ => 0).call hlegal hroom).step
      (.write (g := ⟨4112, 100⟩) (a := 4112) (v := 7) (List.mem_singleton_self _)
        (by decide) (by decide))
    exact ⟨_, hmalloc.call (c := .free 4112) ⟨⟨4112, 100⟩, by decide, rfl⟩ hroom'⟩
  have hbase : upperArena.base = sampleArena.base + 1044480 := rfl
  exact (runs_relocate hbase).1.mp hrun

end Runs

end OsAndC
