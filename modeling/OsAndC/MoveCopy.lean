import Mathlib.Order.Interval.Set.Basic
import OsAndC.Walk

/-!
# What a Moving Resize Copies

`mm_realloc` copies `min(cur_block_size, size)` bytes when it moves a block, and the block
size counts the two tags. `mmReallocCopying` is `mm_realloc` with the arguments of its
`memcpy` returned in addition (`mmReallocCopying_fst`), so that the bytes it reads can be
compared with the payload. They never are payload only: a block is moved only if `size` is
too large for its payload, so at least one byte of the footer is read, and the client finds
it behind its data (`move_copies_footer`).
-/

namespace OsAndC

open Layout

/-- The arguments of a `memcpy`. -/
structure Copy where
  dst : ℕ
  src : ℕ
  len : ℕ
  deriving DecidableEq, Repr

/-- `mm_realloc`, which also returns the arguments of the `memcpy` it has made, if any. -/
def mmReallocCopying (ptr size : ℕ) : M (ℕ × Option Copy) := do
  if size = 0 then
    mmFree ptr
    return (0, none)
  else if ptr = 0 then
    return (← mmMalloc size, none)
  else
    let curBlockSize ← getSize (getHeaderPtr ptr)
    let requiredBlockSize := calcBlockSize size
    if requiredBlockSize ≤ curBlockSize then
      return (ptr, none)
    else if ← growInPlace ptr curBlockSize requiredBlockSize then
      return (ptr, none)
    else
      let newPtr ← mmMalloc size
      if newPtr = 0 then
        return (0, none)
      else
        memcpy newPtr ptr (min curBlockSize size)
        mmFree ptr
        return (newPtr, some ⟨newPtr, ptr, min curBlockSize size⟩)

/-- Without the arguments of the `memcpy` it is `mm_realloc`. -/
theorem mmReallocCopying_fst (ptr size : ℕ) :
    Prod.fst <$> mmReallocCopying ptr size = mmRealloc ptr size := by
  rw [mmReallocCopying, mmRealloc, ListOps.mmRealloc]
  split_ifs
  · simp only [map_bind, map_pure]
  · simp only [map_bind, map_pure, bind_pure]
  · simp only [map_bind]
    refine bind_congr fun curBlockSize => ?_
    split_ifs
    · simp only [map_pure]
    · simp only [map_bind]
      refine bind_congr fun grown => ?_
      split_ifs
      · simp only [map_pure]
      · simp only [map_bind]
        refine bind_congr fun newPtr => ?_
        split_ifs
        · simp only [map_pure]
        · simp only [map_bind, map_pure]

/-- Whatever `mm_realloc(p, n)` copies, it reads from the payload of the block at `p`. -/
def CopiesPayloadOnly (s : Machine) (p n : ℕ) : Prop :=
  ∀ q c s', mmReallocCopying p n s = .ok (q, some c) s' →
    Set.Ico c.src (c.src + c.len) ⊆ Set.Ico p (p + (tagSize (s.header p) - 8))

variable {σ : Session} {s s' : Machine} {h : Layout} {b : Block} {n p q : ℕ} {c : Copy}

/-! ### When a copy is made -/

/-- A block that stays where it is is not copied. -/
theorem mmReallocCopying_stays (hv : Valid s.memHeapLo h) (hr : Represents s h)
    (hb : h.Allocated b) (hn : 0 < n) (hwrap : need n < 2 ^ 32) (hstay : h.Stays b.addr n) :
    ∃ s', mmReallocCopying b.addr n s = .ok (b.addr, none) s' := by
  obtain ⟨h16, h8, -⟩ := need_pos hn
  have hsize : getSize (getHeaderPtr b.addr) s = .ok b.size s :=
    (hr.blockTags b hb.1).1.getSize_eq
  rw [mmReallocCopying, if_neg (by omega), if_neg (allocated_addr_ne_zero hv.toWf hb),
    run_bind_ok hsize, calcBlockSize_eq hwrap]
  by_cases hfits : need n ≤ b.size
  · rw [if_pos hfits]
    exact ⟨s, rfl⟩
  · have hg : h.CanGrow b.addr (need n) := hstay.resolve_left (by rwa [hv.sizeAt hb.1])
    obtain ⟨s', hrun, -⟩ := growInPlace_yes hv hr hb ⟨h16, h8⟩ (by omega) hg
    rw [if_neg hfits, run_bind_ok hrun]
    exact ⟨s', rfl⟩

/-- A block that is moved is copied, tags included; the copy arrives behind the pointer that
is returned. -/
theorem mmReallocCopying_moves (hv : Valid s.memHeapLo h) (hr : Represents s h)
    (hb : h.Allocated b) (hn : 0 < n) (hwrap : need n < 2 ^ 32) (hstay : ¬ h.Stays b.addr n)
    (hgr : h.fit? (need n) = none → ¬ s.Refuses (toInt (max (need n) 4096))) :
    ∃ s₁ s', mmReallocCopying b.addr n s =
        .ok ((h.malloc n).2, some ⟨(h.malloc n).2, b.addr, min b.size n⟩) s' ∧
      Implements s s₁ h (h.malloc n).1 0 ∧
      ∀ i, i < min b.size n → s'.mem ((h.malloc n).2 + i) = s₁.mem (b.addr + i) := by
  obtain ⟨s₁, s₂, s', hrun₁, hq0, hrun₂, hrun', hi₁, -, hdata, -⟩ :=
    moveBlock_spec hv hr hb hn hwrap hgr
  have hsize : getSize (getHeaderPtr b.addr) s = .ok b.size s :=
    (hr.blockTags b hb.1).1.getSize_eq
  obtain ⟨hfits, hg⟩ := not_or.mp hstay
  rw [hv.sizeAt hb.1] at hfits
  refine ⟨s₁, s', ?_, hi₁, hdata⟩
  rw [mmReallocCopying, if_neg (by omega), if_neg (allocated_addr_ne_zero hv.toWf hb),
    run_bind_ok hsize, calcBlockSize_eq hwrap, if_neg hfits,
    run_bind_ok (growInPlace_no hv hr hb.1 hg)]
  simp only [Bool.false_eq_true, if_false]
  rw [run_bind_ok hrun₁, if_neg hq0, run_bind_ok hrun₂, run_bind_ok hrun']
  rfl

/-! ### What is copied -/

/-- A block that cannot stay has a payload smaller than the request, so the copy is longer. -/
theorem payload_lt_copied (hv : Valid s.memHeapLo h) (hb : h.Allocated b)
    (hstay : ¬ h.Stays b.addr n) : b.size - 8 < min b.size n := by
  have hfits := (not_or.mp hstay).1
  have h8 := (hv.block hb.1).2.2
  rw [hv.sizeAt hb.1] at hfits
  simp only [need] at hfits
  omega

/-- Then the byte behind the payload is read. -/
theorem not_copiesPayloadOnly (hr : Represents s h) (hb : h.Allocated b)
    (hrun : mmReallocCopying b.addr n s = .ok (q, some ⟨q, b.addr, min b.size n⟩) s')
    (hlen : b.size - 8 < min b.size n) : ¬ CopiesPayloadOnly s b.addr n := by
  intro honly
  have hmem := honly _ _ _ hrun (show b.addr + (b.size - 8) ∈ _ from
    ⟨Nat.le_add_right _ _, Nat.add_lt_add_left hlen _⟩)
  rw [hr.tagSize_header hb.1] at hmem
  exact absurd hmem.2 (lt_irrefl _)

/-- The first byte of the footer of an allocated block. -/
theorem Represents.footer_byte (hr : Represents s h) (hb : h.Allocated b) :
    (s.mem (b.addr + b.size - 8)).toNat = (b.size + 1) % 256 := by
  have hword := (hr.blockTags b hb.1).2.word
  rw [hb.2] at hword
  have h₁ := (s.mem (b.addr + b.size - dsize)).toNat_lt
  simp only [Machine.word, Mem.load32, Bool.toNat_true] at hword
  simp only [dsize] at hword h₁
  omega

/-- **A moving resize copies the footer.** In every state of a legal run, whenever
`mm_realloc(p, n)` moves a block, it reads bytes behind the payload, and the client finds the
first byte of the old footer among its data, behind the old payload. -/
theorem move_copies_footer (hσ : Reachable σ) (hp : Holds σ.live p) (hwrap : need n < 2 ^ 32)
    (hrun : mmReallocCopying p n σ.machine = .ok (q, some c) s') (hg : Granted s') :
    c = ⟨q, p, min (tagSize (σ.machine.header p)) n⟩ ∧
      tagSize (σ.machine.header p) - 8 < c.len ∧
      (s'.mem (q + (tagSize (σ.machine.header p) - 8))).toNat =
        (tagSize (σ.machine.header p) ||| 1) % 256 ∧
      ¬ CopiesPayloadOnly σ.machine p n := by
  obtain ⟨h, hs⟩ := hσ.simulates
  have hv := hs.valid
  have hr := hs.represents
  obtain ⟨b, hb, rfl⟩ := (hs.holds p).mp hp
  have hn : 0 < n := by
    by_contra hn
    obtain ⟨s₁, hfree, -⟩ := mmFree_spec hv hr hb
    rw [mmReallocCopying, if_pos (by omega), run_bind_ok hfree] at hrun
    cases hrun
  have hstay : ¬ h.Stays b.addr n := by
    intro hstay
    obtain ⟨s₁, hrun₁⟩ := mmReallocCopying_stays hv hr hb hn hwrap hstay
    rw [hrun₁] at hrun
    cases hrun
  have hg' : Granted (finalState (mmRealloc b.addr n σ.machine)) := by
    rw [← mmReallocCopying_fst, ← bind_pure_comp, run_bind_ok hrun]
    exact hg
  obtain ⟨s₁, s₂, hrun₁, hi₁, hdata⟩ := mmReallocCopying_moves hv hr hb hn hwrap hstay
    (not_refuses_of_granted_realloc hv hr hb hn hwrap hg' hstay)
  have hcopies := payload_lt_copied hv hb hstay
  have hfooter : (s₂.mem ((h.malloc n).2 + (b.size - 8))).toNat = (b.size ||| 1) % 256 := by
    have h8 := (hv.block hb.1).2.2
    obtain ⟨-, -, -, size, -, -, halloc⟩ := hv.malloc hn
    have hbyte := hi₁.represents.footer_byte ((halloc b).mpr (Or.inr hb))
    rw [hdata _ hcopies, ← Nat.add_sub_assoc (by omega), hbyte,
      show b.size ||| 1 = b.size + 1 from makeHeader_eq h8.2.1 (by omega)]
  rw [hrun₁] at hrun
  cases hrun
  rw [hr.tagSize_header hb.1]
  exact ⟨rfl, hcopies, hfooter, not_copiesPayloadOnly hr hb hrun₁ hcopies⟩

/-- `mm_realloc(4112, 5000)` after `mm_malloc(100)`: the block of 112 bytes is moved. -/
theorem oneSession_moves : Reachable (oneSession 100) ∧ Holds (oneSession 100).live 4112 ∧
    ∃ h q s', Represents (oneSession 100).machine h ∧ h.Allocated ⟨4112, 112, true⟩ ∧ Granted s' ∧
      mmReallocCopying 4112 5000 (oneSession 100).machine = .ok (q, some ⟨q, 4112, 112⟩) s' := by
  obtain ⟨hσ, hs, harena⟩ := oneSession_spec (n := 100) (by decide)
  have hwrap : need 5000 < 2 ^ 32 := by decide
  have hb : ((initial 4096).malloc 100).1.Allocated ⟨4112, 112, true⟩ := ⟨by decide, rfl⟩
  have hp : Holds (oneSession 100).live 4112 := (hs.holds 4112).mpr ⟨_, hb, rfl⟩
  have hg := hs.granted_realloc hwrap hp (by rw [Machine.memMaxAddr, harena]; decide)
  obtain ⟨s₁, s', hrun, -⟩ := mmReallocCopying_moves hs.valid hs.represents hb (n := 5000)
    (by decide) hwrap (by decide) (not_refuses_of_granted_realloc hs.valid hs.represents hb
      (by decide) hwrap hg (by decide))
  refine ⟨hσ, hp, _, _, s', hs.represents, hb, ?_, hrun⟩
  rw [← mmReallocCopying_fst, ← bind_pure_comp, run_bind_ok hrun] at hg
  exact hg

/-- A block of 104 bytes is moved, and all 112 bytes from its payload on are copied. -/
theorem move_copies_footer_oneSession :
    ∃ q c s', mmReallocCopying 4112 5000 (oneSession 100).machine = .ok (q, some c) s' ∧
      c = ⟨q, 4112, min (tagSize ((oneSession 100).machine.header 4112)) 5000⟩ ∧
      tagSize ((oneSession 100).machine.header 4112) - 8 < c.len ∧
      (s'.mem (q + (tagSize ((oneSession 100).machine.header 4112) - 8))).toNat =
        (tagSize ((oneSession 100).machine.header 4112) ||| 1) % 256 ∧
      ¬ CopiesPayloadOnly (oneSession 100).machine 4112 5000 := by
  obtain ⟨hσ, hp, h, q, s', -, -, hg, hrun⟩ := oneSession_moves
  exact ⟨q, _, s', hrun, move_copies_footer hσ hp (by decide) hrun hg⟩

/-- A run in which the bytes read do not lie in the payload. -/
theorem not_copiesPayloadOnly_oneSession : Reachable (oneSession 100) ∧
    Holds (oneSession 100).live 4112 ∧ need 5000 < 2 ^ 32 ∧
      ¬ CopiesPayloadOnly (oneSession 100).machine 4112 5000 := by
  obtain ⟨hσ, hp, h, q, s', hr, hb, -, hrun⟩ := oneSession_moves
  exact ⟨hσ, hp, by decide, not_copiesPayloadOnly (b := ⟨4112, 112, true⟩) hr hb hrun (by decide)⟩

end OsAndC
