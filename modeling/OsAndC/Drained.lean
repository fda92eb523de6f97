import OsAndC.HeapInvariants

/-!
# A Heap with Nothing Held

When a client has released everything, the heap is back to one free block from the prologue
to the epilogue, however it came to its size (`Layout.Valid.drained`). So nothing of it is
lost: `drained_serves` says that any batch of requests whose block sizes add up to the size of
that block is served from it, one directly behind the other, and the heap does not grow.
-/

namespace OsAndC

open Layout

/-- The pointers of a batch of requests that is served from `a` on without gaps. -/
def consecutive : ℕ → List ℕ → List ℕ
  | _, [] => []
  | a, n :: ns => a :: consecutive (a + need n) ns

/-- A batch of requests. -/
def mallocs (ns : List ℕ) : M (List ℕ) := ns.mapM mmMalloc

/-- The blocks `pre`, and behind them the only free block. -/
def Layout.ending (pre : List Block) (a size brk : ℕ) : Layout :=
  ⟨pre ++ [⟨a, size, false⟩], [a], brk⟩

variable {σ : Session} {s : Machine} {h : Layout} {pre : List Block} {a brk lo n size : ℕ}
  {ns : List ℕ}

/-! ### Layouts -/

/-- Of two neighbouring blocks one is allocated, so a list of free blocks is short. -/
theorem Coalesced.eq_singleton {bs : List Block} (hc : Coalesced bs)
    (hfree : ∀ b ∈ bs, b.alloc = false) (hne : bs ≠ []) : ∃ b, bs = [b] := by
  cases bs with
  | nil => exact absurd rfl hne
  | cons b bs =>
      cases bs with
      | nil => exact ⟨b, rfl⟩
      | cons c bs =>
          have hb : b.alloc = false := hfree b (by simp)
          have hc' : c.alloc = false := hfree c (by simp)
          rcases (List.isChain_cons_cons.mp hc).1 with h | h
          · exact absurd h (by simp [hb])
          · exact absurd h (by simp [hc'])

/-- **A valid heap without allocated blocks** is one free block. -/
theorem Layout.Valid.drained (hv : Valid lo h) (hfree : ∀ b, ¬ h.Allocated b)
    (hbrk : lo + 16 < h.brk) : h = ending [] (lo + 16) (h.brk - (lo + 16)) h.brk := by
  have hall : ∀ b ∈ h.blocks, b.alloc = false := by
    intro b hb
    by_contra hne
    exact hfree b ⟨hb, by simpa using hne⟩
  have hne : h.blocks ≠ [] := by
    intro hnil
    have hbrk' := hv.brk_eq
    rw [hnil, extent_nil] at hbrk'
    omega
  obtain ⟨⟨addr, size, alloc⟩, hb⟩ := Coalesced.eq_singleton hv.coalesced hall hne
  obtain rfl : alloc = false := hall ⟨addr, size, alloc⟩ (by simp [hb])
  have htiles := hv.tiles
  have hext := hv.brk_eq
  have hperm := hv.perm
  rw [hb] at htiles hext hperm
  obtain rfl : addr = lo + 16 := (tiles_cons.mp htiles).1
  rw [freeAddrs_cons_free rfl, freeAddrs_nil] at hperm
  rw [extent_cons, extent_nil] at hext
  obtain ⟨blocks, free, brk⟩ := h
  simp only at hb hext hperm ⊢
  rw [ending, hb, List.perm_singleton.mp hperm, hext]
  simp

/-- A request is served from the front of the only free block. -/
theorem Layout.Valid.malloc_ending (hv : Valid lo (ending pre a size brk)) (hn : 0 < n)
    (hk : need n ≤ size) :
    (ending pre a size brk).fit? (need n) ≠ none ∧ ((ending pre a size brk).malloc n).2 = a ∧
      ((ending pre a size brk).malloc n).1.brk = brk ∧
      (16 ≤ size - need n → ((ending pre a size brk).malloc n).1 =
        ending (pre ++ [⟨a, need n, true⟩]) (a + need n) (size - need n) brk) := by
  have hb : (⟨a, size, false⟩ : Block) ∈ (ending pre a size brk).blocks := by simp [ending]
  have hsize : (ending pre a size brk).sizeAt a = size := hv.sizeAt hb
  have hfit : (ending pre a size brk).fit? (need n) = some a := by
    rw [fit?, show (ending pre a size brk).free = [a] from rfl,
      List.find?_cons_of_pos (by simpa [hsize] using hk)]
  have hmalloc : (ending pre a size brk).malloc n =
      ((ending pre a size brk).take a (need n), a) := by
    rw [Layout.malloc, if_neg (by omega), hfit]
  rw [hmalloc]
  refine ⟨by simp [hfit], rfl, rfl, fun h16 => ?_⟩
  have hplace := place_eq (h := { ending pre a size brk with free := [] }) (k := need n) hv.tiles
    (show (ending pre a size brk).blocks = pre ++ ⟨a, size, false⟩ :: [] from rfl)
  have htake : (ending pre a size brk).take a (need n) =
      ({ ending pre a size brk with free := [] } : Layout).place a (need n) := by
    rw [Layout.take, show (ending pre a size brk).free = [a] from rfl, List.erase_cons_head]
  rw [htake]
  refine hplace.trans ?_
  simp [Block.cut, h16, ending]

/-! ### The code -/

/-- A batch that fits into the only free block is served from it. -/
theorem mallocs_ending (hv : Valid s.memHeapLo (ending pre a size brk))
    (hr : Represents s (ending pre a size brk)) (hpos : ∀ n ∈ ns, 0 < n)
    (hsum : (ns.map need).sum ≤ size) :
    ∃ s', mallocs ns s = .ok (consecutive a ns) s' ∧ s'.memBrk = s.memBrk := by
  induction ns generalizing pre a size s with
  | nil => exact ⟨s, rfl, rfl⟩
  | cons n ns ih =>
      have hn : 0 < n := hpos n List.mem_cons_self
      have hpos' : ∀ n ∈ ns, 0 < n := fun n hn => hpos n (List.mem_cons_of_mem _ hn)
      rw [List.map_cons, List.sum_cons] at hsum
      have hb := hv.toWf.block (b := ⟨a, size, false⟩) (by simp [ending])
      have hroom : (ending pre a size brk).brk = s.memBrk := hr.brk.symm
      have hmax := s.brk_le_max
      simp only [Machine.memHeapLo, maxHeap] at hb hmax
      obtain ⟨hfit, hq, hbrk, hrest⟩ := hv.malloc_ending hn (show need n ≤ size by omega)
      obtain ⟨s₁, hrun, hi, -⟩ := mmMalloc_spec hv hr hn (by omega) fun hnone => absurd hnone hfit
      have hbrk₁ : s₁.memBrk = s.memBrk := by
        rw [hi.represents.brk, hbrk, hr.brk]
        rfl
      suffices hlast : ∃ s', mallocs ns s₁ = .ok (consecutive (a + need n) ns) s' ∧
          s'.memBrk = s₁.memBrk by
        obtain ⟨s', hrun', hbrk'⟩ := hlast
        rw [hq] at hrun
        refine ⟨s', ?_, hbrk'.trans hbrk₁⟩
        rw [mallocs, List.mapM_cons, run_bind_ok hrun]
        exact run_bind_ok hrun'
      by_cases h16 : 16 ≤ size - need n
      · rw [hrest h16] at hi
        exact ih hi.valid hi.represents hpos' (by omega)
      · -- what is left is too small for any request
        cases ns with
        | nil => exact ⟨s₁, rfl, rfl⟩
        | cons m ns =>
            have hm := (need_pos (hpos' m List.mem_cons_self)).1
            rw [List.map_cons, List.sum_cons] at hsum
            omega

/-- **Nothing is lost.** In every state of a legal run in which the client holds nothing, the
heap is one free block, alone in the list, and every batch of requests whose block sizes do
not exceed it in sum is served from it without gaps. The heap does not grow. -/
theorem drained_serves (hσ : Reachable σ) (hlive : σ.live = []) :
    ∃ size, HeapWalk σ.machine (σ.machine.memHeapLo + 16)
        [⟨σ.machine.memHeapLo + 16, size, false⟩] ∧
      NextChain σ.machine σ.machine.freeList [σ.machine.memHeapLo + 16] ∧
      σ.machine.memHeapLo + 16 + size = σ.machine.memBrk ∧
      ∀ ns, (∀ n ∈ ns, 0 < n) → (ns.map need).sum ≤ size → ∃ s',
        mallocs ns σ.machine = .ok (consecutive (σ.machine.memHeapLo + 16) ns) s' ∧
        s'.memBrk = σ.machine.memBrk := by
  obtain ⟨h, hs, hgrown⟩ := hσ.simulates_grown
  have hfree : ∀ b, ¬ h.Allocated b := by
    intro b hb
    obtain ⟨g, hg, -⟩ := (hs.holds b.addr).mpr ⟨b, hb, rfl⟩
    rw [hlive] at hg
    cases hg
  have hbrk := hs.represents.brk
  have hv := hs.valid
  have hr := hs.represents
  have heq := hv.drained hfree (by omega)
  rw [heq] at hv hr
  refine ⟨h.brk - (σ.machine.memHeapLo + 16), hr.walk hv.toWf, hr.nextChain, by omega, ?_⟩
  intro ns hpos hsum
  exact mallocs_ending hv hr hpos hsum

/-- Everything has been released, and there is one free block. -/
theorem drained_serves_drainedSession :
    ∃ size, HeapWalk drainedSession.machine (drainedSession.machine.memHeapLo + 16)
        [⟨drainedSession.machine.memHeapLo + 16, size, false⟩] ∧
      NextChain drainedSession.machine drainedSession.machine.freeList
        [drainedSession.machine.memHeapLo + 16] ∧
      drainedSession.machine.memHeapLo + 16 + size = drainedSession.machine.memBrk ∧
      ∀ ns, (∀ n ∈ ns, 0 < n) → (ns.map need).sum ≤ size → ∃ s', mallocs ns
          drainedSession.machine = .ok (consecutive (drainedSession.machine.memHeapLo + 16) ns) s' ∧
        s'.memBrk = drainedSession.machine.memBrk :=
  drained_serves drainedSession_reachable (by decide)

end OsAndC
