import OsAndC.Walk

/-!
# Slack of the Blocks Handed Out

How much larger than its request a block can be. `Source h d calls h₀` lists where the
block `d` that serves a request comes from: it is a block of the free list, it is the last
block after an extension of the heap, or it is the block that is resized together with the
free block behind it. `Carves h₀ d size h'` is what `place` makes of it: `d` is given away
whole, or its first `size` bytes are, and the rest becomes one free block in front of the
list. `slack_bounded` puts the two together for every state of a legal run: the block
handed out is at most 8 bytes larger than the size asked for, and no byte of the heap is
lost or made up.
-/

namespace OsAndC

open Layout

/-- The bytes obtained by calls of `mem_sbrk`. -/
def obtained (calls : List SbrkCall) : ℤ := (calls.map fun x => if x.granted then x.incr else 0).sum

/-- Where the block `d` that serves a request comes from; `h₀` is the heap with `d` in it but
not in the list, and `calls` are the calls of `mem_sbrk` made for it. -/
inductive Source (h : Layout) : Block → List SbrkCall → Layout → Prop
  | listed {d : Block} : d ∈ h.blocks → d.alloc = false →
      Source h d [] ⟨h.blocks, h.free.erase d.addr, h.brk⟩
  | extended {g : ℕ} {h₁ : Layout} {d : Block} : Grows h g h₁ → h₁.blocks.getLast? = some d →
      Source h d [⟨g, true⟩] ⟨h₁.blocks, h₁.free.erase d.addr, h₁.brk⟩
  | absorbed {pre post : List Block} {b c : Block} : h.blocks = pre ++ b :: c :: post →
      b.alloc = true → c.alloc = false →
      Source h ⟨b.addr, b.size + c.size, true⟩ []
        ⟨pre ++ ⟨b.addr, b.size + c.size, true⟩ :: post, h.free.erase c.addr, h.brk⟩

/-- `size` bytes of the block `d` are given away: the whole block, or all but a rest of at
least 16 bytes, which becomes one free block in front of the list. -/
inductive Carves (h₀ : Layout) (d : Block) : ℕ → Layout → Prop
  | whole {pre post : List Block} : h₀.blocks = pre ++ d :: post →
      Carves h₀ d d.size ⟨pre ++ ⟨d.addr, d.size, true⟩ :: post, h₀.free, h₀.brk⟩
  | split {pre post : List Block} {size rest : ℕ} : h₀.blocks = pre ++ d :: post →
      16 ≤ rest → d.size = size + rest →
      Carves h₀ d size ⟨pre ++ ⟨d.addr, size, true⟩ :: ⟨d.addr + size, rest, false⟩ :: post,
        (d.addr + size) :: h₀.free, h₀.brk⟩

/-- The header of the block at `q` states `k` or `k + 8` bytes. -/
def Snug (s : Machine) (q k : ℕ) : Prop :=
  tagSize (s.header q) = k ∨ tagSize (s.header q) = k + 8

/-- From `s` to `s'` the sum of all block sizes grows by what `mem_sbrk` gave. -/
def Conserves (s s' : Machine) : Prop :=
  ∃ h h' calls, Shows s h ∧ Shows s' h' ∧ s'.sbrks = calls ++ s.sbrks ∧
    (extent h'.blocks : ℤ) = extent h.blocks + obtained calls

/-- From `s` to `s'` the block at `q` is carved out of one of the sources. -/
def CarvedFrom (s s' : Machine) (q : ℕ) : Prop :=
  ∃ h h₀ h' d calls, Shows s h ∧ Shows s' h' ∧ Source h d calls h₀ ∧ d.addr = q ∧
    Carves h₀ d (tagSize (s'.header q)) h' ∧ s'.sbrks = calls ++ s.sbrks

variable {σ : Session} {s s' : Machine} {h h₀ h' : Layout} {lo k n p : ℕ} {b d : Block}
  {xs ys : List Block} {calls : List SbrkCall}

/-! ### Layouts -/

/-- Splitting a block leaves the sum of the sizes as it is. -/
theorem Carves.extent_eq {size : ℕ} (hc : Carves h₀ d size h') :
    extent h'.blocks = extent h₀.blocks := by
  cases hc with
  | whole hbs => simp [hbs]
  | split hbs _ hsize =>
      simp only [hbs, extent_append, extent_cons]
      omega

/-- Only `mem_sbrk` adds to it. -/
theorem Source.extent_eq (hs : Source h d calls h₀) :
    (extent h₀.blocks : ℤ) = extent h.blocks + obtained calls := by
  cases hs with
  | listed => simp [obtained]
  | extended hgrow _ =>
      cases hgrow with
      | merged hbs _ =>
          simp only [hbs, obtained, extent_append, extent_cons, extent_nil, List.map_cons,
            List.map_nil, List.sum_cons, List.sum_nil, if_true]
          omega
      | apart _ =>
          simp only [obtained, extent_append, extent_cons, extent_nil, List.map_cons,
            List.map_nil, List.sum_cons, List.sum_nil, if_true]
          omega
  | absorbed hbs _ _ =>
      simp only [hbs, obtained, extent_append, extent_cons, List.map_nil, List.sum_nil]
      omega

/-- Placing carves the size that is granted. -/
theorem place_carves (ht : Tiles (lo + 16) h.blocks) (hbs : h.blocks = xs ++ b :: ys)
    (hk : k ≤ b.size) : Carves h b (grant b.size k) (h.place b.addr k) := by
  rw [place_eq ht hbs, grant, Block.cut]
  split_ifs with h16
  · rw [List.append_assoc]
    exact .split hbs h16 (by omega)
  · rw [List.append_assoc]
    exact .whole hbs

/-- Of two multiples of 8, what is granted exceeds what is asked for by 0 or 8. -/
theorem grant_eq {size : ℕ} (h8 : size % 8 = 0) (hk8 : k % 8 = 0) (hk : k ≤ size) :
    grant size k = k ∨ grant size k = k + 8 := by
  simp only [grant]
  split_ifs <;> omega

/-- Taking a listed block. -/
theorem Layout.Valid.take_carves (hv : Valid lo h) (hb : b ∈ h.blocks) (hk : k ≤ b.size) :
    Carves ⟨h.blocks, h.free.erase b.addr, h.brk⟩ b (grant b.size k) (h.take b.addr k) := by
  obtain ⟨xs, ys, hbs⟩ := List.append_of_mem hb
  exact place_carves (h := ⟨h.blocks, h.free.erase b.addr, h.brk⟩) hv.tiles hbs hk

/-- The block an extension leaves in front of the list is the last block. -/
theorem Layout.Grows.last {g : ℕ} (hgrow : Grows h g h') :
    ∃ d, h'.blocks.getLast? = some d ∧ d.addr = h'.free.headD 0 ∧ d ∈ h'.blocks ∧ g ≤ d.size := by
  cases hgrow with
  | @merged pre d hbs hd =>
      exact ⟨⟨d.addr, d.size + g, false⟩, by simp, rfl, by simp, Nat.le_add_left _ _⟩
  | apart _ => exact ⟨⟨h.brk, g, false⟩, by simp, rfl, by simp, le_refl _⟩

/-- The block that is given away is there, and allocated. -/
theorem Carves.mem {size : ℕ} (hc : Carves h₀ d size h') :
    (⟨d.addr, size, true⟩ : Block) ∈ h'.blocks := by
  cases hc with
  | whole => simp
  | split => simp

/-- **Allocation**: where the block comes from, and what is made of it. -/
theorem Layout.Valid.malloc_carves (hv : Valid lo h) (hn : 0 < n)
    (hint : h.fit? (need n) = none → need n < 2 ^ 31) :
    ∃ d h₀, Source h d (h.sbrkCalls n) h₀ ∧ d.addr = (h.malloc n).2 ∧ d.size % 8 = 0 ∧
      need n ≤ d.size ∧ Carves h₀ d (grant d.size (need n)) (h.malloc n).1 := by
  obtain ⟨h16, h8, -⟩ := need_pos hn
  rw [Layout.malloc, if_neg (by omega : ¬ n = 0), Layout.sbrkCalls]
  cases hfit : h.fit? (need n) with
  | some a =>
      obtain ⟨b, hb, rfl, hfree, hk⟩ := hv.fit?_some hfit
      exact ⟨b, _, .listed hb hfree, rfl, (hv.sizes b hb).2, hk, hv.take_carves hb hk⟩
  | none =>
      have hg : 16 ≤ max (need n) 4096 ∧ max (need n) 4096 % 8 = 0 := by omega
      have hgrow := hv.grows hg
      obtain ⟨d, hlast, hhead, hd, hgd⟩ := hgrow.last
      have hk : need n ≤ d.size := by omega
      have hv' := hv.extend hg
      have hlt := hint hfit
      simp only [← hhead, toInt_eq (show max (need n) 4096 < 2 ^ 31 by omega), if_true]
      exact ⟨d, _, .extended hgrow hlast, rfl, (hv'.sizes d hd).2, hk, hv'.take_carves hd hk⟩

/-- **Growing in place.** -/
theorem Layout.Valid.grow_carves (hv : Valid lo h) (hb : h.Allocated b)
    (hg : h.CanGrow b.addr k) : ∃ d h₀, Source h d [] h₀ ∧ d.addr = b.addr ∧ d.size % 8 = 0 ∧
      k ≤ d.size ∧ Carves h₀ d (grant d.size k) ((h.absorb b.addr).place b.addr k) := by
  obtain ⟨xs, d, ys, hbs, hfree, hkd, hda⟩ := hv.canGrow hb.1 hg
  have h8 := (hv.sizes b hb.1).2
  have h8' := (hv.sizes d (by rw [hbs]; simp)).2
  have hc := place_carves (h := ⟨xs ++ { b with size := b.size + d.size } :: ys,
    h.free.erase d.addr, h.brk⟩) (hv.absorbed hbs).1 rfl hkd
  rw [absorb_eq hv.toWf hbs hda]
  rw [hb.2] at hc ⊢
  exact ⟨⟨b.addr, b.size + d.size, true⟩, _, .absorbed hbs hb.2 hfree, rfl,
    by simp only []; omega, hkd, hc⟩

/-! ### The code -/

/-- The block carved for a request of block size `k` is snug. -/
theorem Represents.snug (hr : Represents s h) (h8 : d.size % 8 = 0) (hk8 : k % 8 = 0)
    (hk : k ≤ d.size) (hb : (⟨d.addr, grant d.size k, true⟩ : Block) ∈ h.blocks) :
    Snug s d.addr k := by
  have hhead : tagSize (s.header d.addr) = grant d.size k := hr.tagSize_header hb
  rw [Snug, hhead]
  exact grant_eq h8 hk8 hk

/-- A step between represented heaps that carves a block. -/
theorem CarvedFrom.of_carves (hw : Wf s.memHeapLo h) (hr : Represents s h)
    (hw' : Wf s'.memHeapLo h') (hr' : Represents s' h') (hsource : Source h d calls h₀)
    (hc : Carves h₀ d (grant d.size k) h') (hsb : s'.sbrks = calls ++ s.sbrks) :
    CarvedFrom s s' d.addr := by
  have hhead : tagSize (s'.header d.addr) = grant d.size k := hr'.tagSize_header hc.mem
  refine ⟨h, h₀, h', d, calls, hr.shows hw, hr'.shows hw', hsource, rfl, ?_, hsb⟩
  rw [hhead]
  exact hc

/-- A step that carves a block conserves the sum of the sizes. -/
theorem CarvedFrom.conserves {q : ℕ} (hc : CarvedFrom s s' q) : Conserves s s' := by
  obtain ⟨h, h₀, h', d, calls, hs, hs', hsource, -, hcarves, hsb⟩ := hc
  refine ⟨h, h', calls, hs, hs', hsb, ?_⟩
  rw [hcarves.extent_eq]
  exact hsource.extent_eq

/-- A release conserves it too. -/
theorem Conserves.release {s₁ : Machine} {h₁ : Layout} (hc : Conserves s s₁)
    (hv₁ : Valid s₁.memHeapLo h₁) (hr₁ : Represents s₁ h₁) (hb : h₁.Allocated b)
    (hw' : Wf s'.memHeapLo (h₁.release b.addr)) (hr' : Represents s' (h₁.release b.addr))
    (hsb : s'.sbrks = s₁.sbrks) : Conserves s s' := by
  obtain ⟨h, h₁', calls, hs, hs₁, hsb₁, hsum⟩ := hc
  obtain rfl := hs₁.unique (hr₁.shows hv₁.toWf)
  have hbrk := (hv₁.release hb).brk_eq
  have hbrk₁ := hv₁.brk_eq
  have hsame : (h₁'.release b.addr).brk = h₁'.brk := rfl
  exact ⟨h, _, calls, hs, hr'.shows hw', hsb.trans hsb₁, by omega⟩

/-- `mm_malloc` carves a snug block. -/
theorem mmMalloc_carves (hv : Valid s.memHeapLo h) (hr : Represents s h) (hn : 0 < n)
    (hwrap : need n < 2 ^ 32)
    (hgr : h.fit? (need n) = none → ¬ s.Refuses (toInt (max (need n) 4096)))
    (hi : Implements s s' h (h.malloc n).1 0) (hsb : s'.sbrks = h.sbrkCalls n ++ s.sbrks) :
    CarvedFrom s s' (h.malloc n).2 ∧ ∃ size, (size = need n ∨ size = need n + 8) ∧
      (⟨(h.malloc n).2, size, true⟩ : Block) ∈ (h.malloc n).1.blocks := by
  have hint : h.fit? (need n) = none → need n < 2 ^ 31 := by
    intro hfit
    obtain ⟨-, hroom⟩ := not_refuses (by omega) (hgr hfit)
    have := s.arena.fits
    have := s.base_le_brk
    simp only [Machine.memMaxAddr, maxHeap] at *
    omega
  obtain ⟨d, h₀, hsource, hd, h8, hk, hc⟩ := hv.malloc_carves hn hint
  rw [← hd]
  exact ⟨.of_carves hv.toWf hr hi.valid.toWf hi.represents hsource hc hsb, _,
    grant_eq h8 (need_pos hn).2.1 hk, hc.mem⟩

/-- `mm_realloc` of a block that is too small grows it in place or moves it. -/
theorem mmRealloc_carves (hv : Valid s.memHeapLo h) (hr : Represents s h) (hb : h.Allocated b)
    (hn : 0 < n) (hwrap : need n < 2 ^ 32) (hsmall : b.size < need n)
    (hgr : ¬ h.Stays b.addr n → h.fit? (need n) = none →
      ¬ s.Refuses (toInt (max (need n) 4096))) :
    ∃ q s', mmRealloc b.addr n s = .ok q s' ∧ Snug s' q (need n) ∧ Conserves s s' ∧
      ((q = b.addr ∧ CarvedFrom s s' b.addr) ∨
        ∃ s₁, mmMalloc n s = .ok q s₁ ∧ CarvedFrom s s₁ q) := by
  obtain ⟨h16, h8, -⟩ := need_pos hn
  have hb0 := allocated_addr_ne_zero hv.toWf hb
  have hat := hv.sizeAt hb.1
  by_cases hg : h.CanGrow b.addr (need n)
  · obtain ⟨s', hrun, hi, -, hsb⟩ := mmRealloc_spec hv hr hb hn hwrap hgr
    have hgrow : h.realloc b.addr n = ((h.absorb b.addr).place b.addr (need n), b.addr) := by
      rw [Layout.realloc, if_neg (by omega), if_neg hb0, hat, if_neg (by omega), if_pos hg]
    rw [hgrow] at hi hrun
    rw [if_pos (show h.Stays b.addr n from Or.inr hg)] at hsb
    obtain ⟨d, h₀, hsource, hd, h8', hk, hc⟩ := hv.grow_carves hb hg
    have hcarved : CarvedFrom s s' d.addr :=
      .of_carves hv.toWf hr hi.valid.toWf hi.represents hsource hc hsb
    have hsnug := hi.represents.snug h8' h8 hk hc.mem
    rw [hd] at hcarved hsnug
    exact ⟨_, s', hrun, hsnug, hcarved.conserves, Or.inl ⟨rfl, hcarved⟩⟩
  · have hstay : ¬ h.Stays b.addr n := not_or.mpr ⟨by omega, hg⟩
    obtain ⟨s₁, s₂, s', hrun₁, hq0, hrun₂, hrun', hi₁, hi, -, hsb₁, hsb⟩ :=
      moveBlock_spec hv hr hb hn hwrap (hgr hstay)
    obtain ⟨hc, size, hsize, hmem⟩ := mmMalloc_carves hv hr hn hwrap (hgr hstay) hi₁ hsb₁
    obtain ⟨hv₁, -, hnew, _, -, -, halloc⟩ := hv.malloc hn
    have hb₁ : (h.malloc n).1.Allocated b := (halloc b).mpr (Or.inr hb)
    -- the new block is still there after the old one has been released
    have hkept : (⟨(h.malloc n).2, size, true⟩ : Block) ∈ ((h.malloc n).1.release b.addr).blocks :=
      ((hv₁.release_allocated hb₁).mpr ⟨⟨hmem, rfl⟩, fun h0 => hnew b hb h0.symm⟩).1
    have hsnug : Snug s' (h.malloc n).2 (need n) := by
      rw [Snug, hi.represents.tagSize_header hkept]
      exact hsize
    refine ⟨_, s', ?_, hsnug, hc.conserves.release hi₁.valid hi₁.represents hb₁ hi.valid.toWf
      hi.represents hsb, Or.inr ⟨s₁, hrun₁, hc⟩⟩
    rw [mmRealloc_moves hv hr hb hn hwrap hstay, run_bind_ok hrun₁, if_neg hq0,
      run_bind_ok hrun₂, run_bind_ok hrun']
    rfl

/-- **Bounded slack.** In every state of a legal run, `mm_malloc(n)` returns a block that was
carved out of one of the sources, and its header states `need n` or `need n + 8` bytes. So
does `mm_realloc(p, n)` of a block that is too small, which grows it in place or calls
`mm_malloc(n)`. The sum of all block sizes changes by what `mem_sbrk` gave. -/
theorem slack_bounded (hσ : Reachable σ) (hn : 0 < n) (hwrap : need n < 2 ^ 32) :
    (Granted (finalState (mmMalloc n σ.machine)) →
      ∃ q s', mmMalloc n σ.machine = .ok q s' ∧ Snug s' q (need n) ∧
        Conserves σ.machine s' ∧ CarvedFrom σ.machine s' q) ∧
    ∀ p, Holds σ.live p → tagSize (σ.machine.header p) < need n →
      Granted (finalState (mmRealloc p n σ.machine)) →
      ∃ q s', mmRealloc p n σ.machine = .ok q s' ∧ Snug s' q (need n) ∧
        Conserves σ.machine s' ∧
        ((q = p ∧ CarvedFrom σ.machine s' p) ∨
          ∃ s₁, mmMalloc n σ.machine = .ok q s₁ ∧ CarvedFrom σ.machine s₁ q) := by
  obtain ⟨h, hs⟩ := hσ.simulates
  have hv := hs.valid
  have hr := hs.represents
  refine ⟨fun hg => ?_, fun p hp hsmall hg => ?_⟩
  · have hgr := not_refuses_of_granted hv hr hn hwrap hg
    obtain ⟨s', hrun, hi, hsb⟩ := mmMalloc_spec hv hr hn hwrap hgr
    obtain ⟨hc, size, hsize, hmem⟩ := mmMalloc_carves hv hr hn hwrap hgr hi hsb
    refine ⟨_, s', hrun, ?_, hc.conserves, hc⟩
    rw [Snug, hi.represents.tagSize_header hmem]
    exact hsize
  · obtain ⟨b, hb, rfl⟩ := (hs.holds p).mp hp
    rw [hr.tagSize_header hb.1] at hsmall
    exact mmRealloc_carves hv hr hb hn hwrap hsmall
      (not_refuses_of_granted_realloc hv hr hb hn hwrap hg)

/-- Both requests are too large for the free block that is left. -/
theorem slack_bounded_oneSession :
    (∃ q s', mmMalloc 4000 (oneSession 100).machine = .ok q s' ∧ Snug s' q (need 4000) ∧
      Conserves (oneSession 100).machine s' ∧ CarvedFrom (oneSession 100).machine s' q) ∧
    ∃ q s', mmRealloc 4112 4000 (oneSession 100).machine = .ok q s' ∧ Snug s' q (need 4000) ∧
      Conserves (oneSession 100).machine s' ∧
      ((q = 4112 ∧ CarvedFrom (oneSession 100).machine s' 4112) ∨
        ∃ s₁, mmMalloc 4000 (oneSession 100).machine = .ok q s₁ ∧
          CarvedFrom (oneSession 100).machine s₁ q) := by
  obtain ⟨hσ, hs, harena⟩ := oneSession_spec (n := 100) (by decide)
  have hwrap : need 4000 < 2 ^ 32 := by decide
  have hroom : ((initial 4096).malloc 100).1.brk + max (need 4000) 4096 ≤
      (oneSession 100).machine.memMaxAddr := by
    rw [Machine.memMaxAddr, harena]
    decide
  have hb : ((initial 4096).malloc 100).1.Allocated ⟨4112, 112, true⟩ := ⟨by decide, rfl⟩
  have hp : Holds (oneSession 100).live 4112 := (hs.holds 4112).mpr ⟨_, hb, rfl⟩
  have hsize := hs.represents.tagSize_header hb.1
  simp only [] at hsize
  have hsmall : tagSize ((oneSession 100).machine.header 4112) < need 4000 := by
    rw [hsize]
    decide
  obtain ⟨hmalloc, hrealloc⟩ := slack_bounded (n := 4000) hσ (by decide) hwrap
  exact ⟨hmalloc (hs.granted_malloc hwrap hroom),
    hrealloc 4112 hp hsmall (hs.granted_realloc hwrap hp hroom)⟩

end OsAndC
