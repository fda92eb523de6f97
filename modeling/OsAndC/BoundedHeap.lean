import OsAndC.Noninterference
import OsAndC.SearchLength
import Mathlib.Tactic.Ring

/-!
# A Bound for the Heap

The heap grows only when no free block fits the request. Since there is at most one free
block more than the client holds blocks, little is free at that moment: for a client that
asks for at most `n` bytes at a time and holds at most `N` blocks, all blocks together are
smaller than `2 * N + 1` blocks of the largest size. `bounded_client` says that the heap of
such a client never exceeds `heapBound N n`, however long it runs and in whatever order it
allocates, resizes and releases, and that the client never runs out of memory when the arena
is that large.
-/

namespace OsAndC

open Layout

/-- The most a heap can grow to for `N` blocks of at most `n` bytes. -/
def heapBound (N n : ℕ) : ℕ := 8 + (2 * N + 1) * need n + max (need n) 4096

/-- The allocated blocks are not larger than a request for `n` bytes makes them, and the heap
is not larger than the bound. -/
structure Layout.Modest (N n lo : ℕ) (h : Layout) : Prop where
  sizes : ∀ b, h.Allocated b → b.size < need n + 16
  brk : h.brk ≤ lo + heapBound N n

variable {σ : Session} {s : Machine} {h : Layout} {c : Call} {gs : List Grant} {bs : List Block}
  {b : Block} {ar : Arena} {m : Mem} {es : List Event} {e : Event} {N n k lo q size : ℕ}

/-- More bytes need no smaller a block. -/
theorem need_mono {n' : ℕ} (hn : n ≤ n') : need n ≤ need n' := by
  simp only [need]
  omega

/-! ### How much there is when nothing fits -/

/-- The extent of a sequence of blocks by their numbers. -/
theorem extent_le {A F : ℕ} (halloc : ∀ b ∈ bs, b.alloc = true → b.size ≤ A)
    (hfree : ∀ b ∈ bs, b.alloc = false → b.size ≤ F) :
    extent bs ≤ bs.countP (fun b => b.alloc) * A + bs.countP (fun b => !b.alloc) * F := by
  induction bs with
  | nil => exact Nat.zero_le _
  | cons b bs ih =>
      have hrest := ih (fun c hc => halloc c (List.mem_cons_of_mem b hc))
        (fun c hc => hfree c (List.mem_cons_of_mem b hc))
      rw [extent_cons, List.countP_cons, List.countP_cons]
      cases hb : b.alloc with
      | true =>
          have hsize := halloc b List.mem_cons_self hb
          simp only [Bool.not_true, Bool.false_eq_true, if_false, if_true, Nat.add_zero,
            Nat.add_mul, Nat.one_mul]
          omega
      | false =>
          have hsize := hfree b List.mem_cons_self hb
          simp only [Bool.not_false, Bool.false_eq_true, if_false, if_true, Nat.add_zero,
            Nat.add_mul, Nat.one_mul]
          omega

/-- Where no free block fits, there is little free, and the heap is not large. -/
theorem Tended.brk_le_of_full (ht : Tended s h gs)
    (hsizes : ∀ b, h.Allocated b → b.size < need n + 16) (hn : 0 < n) (hlen : gs.length ≤ N)
    (hk : k ≤ need n) (hfit : h.fit? k = none) :
    h.brk ≤ s.memHeapLo + 8 + (2 * N + 1) * need n := by
  obtain ⟨h16, h8, -⟩ := need_pos hn
  obtain ⟨F, hF⟩ : ∃ F, need n = F + 8 := ⟨need n - 8, by omega⟩
  have hfree : ∀ b ∈ h.blocks, b.alloc = false → b.size ≤ F := by
    intro b hb hba
    have hlt := ht.valid.fit?_eq_none.mp hfit b hb hba
    have hsize := ht.valid.sizes b hb
    omega
  have halloc : ∀ b ∈ h.blocks, b.alloc = true → b.size ≤ F + 16 := by
    intro b hb hba
    have hlt := hsizes b ⟨hb, hba⟩
    have hsize := ht.valid.sizes b hb
    omega
  have hext := extent_le halloc hfree
  have hcount := (Coalesced.count_free_le ht.valid.coalesced).1
  rw [← ht.length_live] at hext hcount
  have hbrk := ht.valid.brk_eq
  have hmul : h.blocks.countP (fun b => !b.alloc) * F ≤ (N + 1) * F :=
    Nat.mul_le_mul_right F (by omega)
  have hmul' : gs.length * (F + 16) ≤ N * (F + 16) := Nat.mul_le_mul_right _ hlen
  have hsum : N * (F + 16) + (N + 1) * F + 8 = (2 * N + 1) * (F + 8) := by ring
  rw [hF]
  omega

/-! ### What a call does to the sizes -/

/-- The blocks stay small when the request is small. -/
theorem apply_sizes (hv : Valid lo h) (hc : c.Legal gs)
    (hholds : ∀ p, Holds gs p ↔ ∃ b, h.Allocated b ∧ b.addr = p)
    (hsizes : ∀ b, h.Allocated b → b.size < size) (hneed : need c.size + 16 ≤ size) :
    ∀ b, (c.apply h).1.Allocated b → b.size < size := by
  have hmalloc : ∀ n, n ≤ c.size → Valid lo (h.malloc n).1 ∧
      (∀ b, (h.malloc n).1.Allocated b → b.size < size) ∧
      ∀ b, h.Allocated b → (h.malloc n).1.Allocated b := by
    intro n hnc
    by_cases hn : n = 0
    · simp only [Layout.malloc, if_pos hn]
      exact ⟨hv, hsizes, fun b hb => hb⟩
    · obtain ⟨hv', -, -, k, -, hlt, halloc⟩ := hv.malloc (Nat.pos_of_ne_zero hn)
      have hle := need_mono hnc
      refine ⟨hv', fun b hb => ?_, fun b hb => (halloc b).mpr (Or.inr hb)⟩
      rcases (halloc b).mp hb with rfl | hb
      · simp only []
        omega
      · exact hsizes b hb
  cases c with
  | malloc n => exact (hmalloc n le_rfl).2.1
  | free p =>
      obtain ⟨d, hd, rfl⟩ := (hholds p).mp hc
      intro b hb
      exact hsizes b ((hv.release_allocated hd).mp hb).1
  | realloc p n =>
      rcases hc.2 with hp | ⟨rfl, hn⟩
      · obtain ⟨d, hd, rfl⟩ := (hholds p).mp hp
        have hd0 := allocated_addr_ne_zero hv.toWf hd
        simp only [Call.apply, Layout.realloc, if_neg hd0]
        split_ifs with hn hfits hgrow
        · intro b hb
          exact hsizes b ((hv.release_allocated hd).mp hb).1
        · exact hsizes
        · obtain ⟨k, -, hlt, halloc⟩ := hv.grow_allocated hd.1 hgrow
          simp only [Call.size] at hneed
          intro b hb
          rcases (halloc b).mp hb with rfl | ⟨hb, -⟩
          · simp only []
            omega
          · exact hsizes b hb
        · obtain ⟨hv', hsmall, hkeep⟩ := hmalloc n le_rfl
          intro b hb
          exact hsmall b ((hv'.release_allocated (hkeep d hd)).mp hb).1
      · simp only [Call.apply, realloc_null hn]
        exact (hmalloc n le_rfl).2.1

/-- The break moves exactly when the heap has no block for the call. -/
theorem apply_brk_eq : (c.Extends h → (c.apply h).1.brk = h.brk + max (need c.size) 4096) ∧
    (¬ c.Extends h → (c.apply h).1.brk = h.brk) := by
  have hmalloc : ∀ n, (0 < n ∧ h.fit? (need n) = none →
      (h.malloc n).1.brk = h.brk + max (need n) 4096) ∧
      (¬ (0 < n ∧ h.fit? (need n) = none) → (h.malloc n).1.brk = h.brk) := by
    intro n
    by_cases hn : n = 0
    · simp only [Layout.malloc, if_pos hn]
      exact ⟨fun h0 => absurd h0.1 (by omega), fun _ => trivial⟩
    · simp only [Layout.malloc, if_neg hn]
      cases hf : h.fit? (need n) with
      | some a => exact ⟨fun h0 => absurd h0.2 (Option.some_ne_none a), fun _ => rfl⟩
      | none => exact ⟨fun _ => rfl, fun h0 => absurd ⟨Nat.pos_of_ne_zero hn, rfl⟩ h0⟩
  cases c with
  | malloc n => exact hmalloc n
  | free p => exact ⟨fun h0 => h0.elim, fun _ => rfl⟩
  | realloc p n =>
      simp only [Call.Extends, Call.apply, Call.size, Layout.realloc, Stays]
      split_ifs with hn hp hfits hgrow
      · exact ⟨fun h0 => absurd h0.1 (by omega), fun _ => rfl⟩
      · simpa only [hp, true_or, true_and] using hmalloc n
      · simp only [hp, hfits, true_or, not_true_eq_false, or_self, false_and, and_false]
        exact ⟨fun h0 => h0.elim, fun _ => trivial⟩
      · simp only [hp, hgrow, or_true, not_true_eq_false, or_self, false_and, and_false]
        exact ⟨fun h0 => h0.elim, fun _ => rfl⟩
      · simp only [hfits, hgrow, or_self, not_false_eq_true, or_true, true_and]
        exact hmalloc n

/-- **One call** of a modest client keeps the heap within the bound. -/
theorem Layout.Modest.call (hm : h.Modest N n s.memHeapLo) (ht : Tended s h gs) (hn : 0 < n)
    (hlen : gs.length ≤ N) (hc : c.Legal gs) (hsize : c.size ≤ n) :
    (c.apply h).1.Modest N n s.memHeapLo := by
  have hneed := need_mono hsize
  refine ⟨apply_sizes ht.valid hc ht.holds hm.sizes (by omega), ?_⟩
  by_cases hext : c.Extends h
  · have hfit : h.fit? (need c.size) = none := by
      cases c with
      | malloc n => exact hext.2
      | free p => exact hext.elim
      | realloc p n => exact hext.2.2
    have hfull := ht.brk_le_of_full hm.sizes hn hlen hneed hfit
    have hmax : max (need c.size) 4096 ≤ max (need n) 4096 := max_le_max_right 4096 hneed
    rw [apply_brk_eq.1 hext, heapBound, ← Nat.add_assoc, ← Nat.add_assoc]
    exact Nat.add_le_add hfull hmax
  · rw [apply_brk_eq.2 hext]
    exact hm.brk

/-- A modest client finds room in an arena that is not smaller than the bound. -/
theorem Layout.Modest.hasRoom (hm : h.Modest N n s.memHeapLo) (ht : Tended s h gs) (hn : 0 < n)
    (hlen : gs.length ≤ N) (hc : c.Legal gs) (hsize : c.size ≤ n)
    (hfits : heapBound N n ≤ maxHeap) (hext : c.Extends h) : h.HasRoom s.memMaxAddr c.size := by
  have hbrk := (hm.call ht hn hlen hc hsize).brk
  rw [apply_brk_eq.1 hext] at hbrk
  have htop : s.memMaxAddr = s.memHeapLo + maxHeap := rfl
  have hmax : maxHeap < 2 ^ 31 := by decide
  have hpos := ht.valid.brk_eq
  rw [HasRoom, toInt_eq (by omega), htop]
  omega

/-! ### Runs -/

/-- A call adds at most one block to what the client holds. -/
theorem length_update_le : (c.update gs q).length ≤ gs.length + 1 := by
  have hfilter : ∀ p, (gs.filter fun g => g.ptr ≠ p).length ≤ gs.length := fun p =>
    List.length_filter_le _ gs
  cases c with
  | malloc n =>
      simp only [Call.update]
      split_ifs
      · exact Nat.le_succ _
      · exact le_rfl
  | free p => exact (hfilter p).trans (Nat.le_succ _)
  | realloc p n =>
      simp only [Call.update]
      split_ifs
      · exact (hfilter p).trans (Nat.le_succ _)
      · exact Nat.le_succ _
      · exact Nat.succ_le_succ (hfilter p)

/-- At most one block is held for every call. -/
theorem Run.length_live_le (hrun : Run ar m es σ) : σ.live.length ≤ (calls es).length := by
  induction hrun with
  | init _ _ => exact le_rfl
  | @step es e σ σ' _ hstep ih =>
      rw [calls_append, List.length_append]
      cases hstep with
      | call _ _ _ => exact length_update_le.trans (Nat.succ_le_succ ih)
      | write _ _ _ => exact ih

/-- At first nothing is held, and the heap has its first chunk. -/
theorem initial_modest (hn : 0 < n) : (initial lo).Modest N n lo := by
  refine ⟨fun b hb => ?_, ?_⟩
  · have hfree : b = ⟨lo + 16, 4096, false⟩ := List.mem_singleton.mp hb.1
    exact absurd hb.2 (by rw [hfree]; exact Bool.false_ne_true)
  · have hneed := (need_pos hn).1
    have hmul : need n ≤ (2 * N + 1) * need n := Nat.le_mul_of_pos_left _ (Nat.succ_pos _)
    simp only [initial, heapBound]
    omega

/-- A run of a modest client, by induction over its events. -/
theorem Run.modest (hrun : Run ar m es σ) (hn : 0 < n) (hcalls : ∀ c ∈ calls es, c.size ≤ n)
    (hlive : ∀ pre post τ, es = pre ++ post → Run ar m pre τ → τ.live.length ≤ N) :
    (layoutAfter ar.base es).Modest N n ar.base := by
  induction hrun with
  | init _ _ => exact initial_modest hn
  | @step es e σ σ' hrun hstep ih =>
      have hm := ih (fun c hc => hcalls c (by rw [calls_append]; exact List.mem_append_left _ hc))
        fun pre post τ heq hτ => hlive pre (post ++ [e]) τ (by rw [heq, List.append_assoc]) hτ
      have hlen := hlive es [e] σ rfl hrun
      obtain ⟨hs, harena⟩ := hrun.simulates
      have hlo : σ.machine.memHeapLo = ar.base := congrArg Arena.base harena
      have hlast : layoutAfter ar.base (es ++ [e]) = e.apply (layoutAfter ar.base es) := by
        simp only [layoutAfter, List.foldl_append, List.foldl_cons, List.foldl_nil]
      rw [hlast]
      cases hstep with
      | write _ _ _ => exact hm
      | @call c q s' hc _ _ =>
          have hmem : c ∈ calls (es ++ [.call c q]) := by
            rw [calls_append]
            exact List.mem_append_right _ (by simp [calls])
          have hsize := hcalls c hmem
          have hstep := Layout.Modest.call (hlo ▸ hm) hs.tended hn hlen hc hsize
          exact hlo ▸ hstep

/-- **A bound for the heap.** A client that asks for at most `n` bytes at a time and never
holds more than `N` blocks makes the heap at most as large as the bound, in every legal run;
and in an arena that is not smaller, every legal call of such a client returns. -/
theorem bounded_client (hrun : Run ar m es σ) (hn : 0 < n) (hcalls : ∀ c ∈ calls es, c.size ≤ n)
    (hlive : ∀ pre post τ, es = pre ++ post → Run ar m pre τ → τ.live.length ≤ N) :
    σ.machine.memBrk ≤ ar.base + heapBound N n ∧
      (heapBound N n ≤ maxHeap → ∀ c : Call, c.Legal σ.live → c.size ≤ n →
        ∃ q τ, Step σ (.call c q) τ) := by
  have hm := hrun.modest hn hcalls hlive
  obtain ⟨hs, harena⟩ := hrun.simulates
  have hlo : σ.machine.memHeapLo = ar.base := congrArg Arena.base harena
  have hlen : σ.live.length ≤ N := hlive es [] σ (List.append_nil es).symm hrun
  refine ⟨hs.represents.brk ▸ hm.brk, fun hfits c hc hsize =>
    ⟨_, hs.step_call_iff.mpr ⟨hc, rfl, ?_⟩⟩⟩
  exact Layout.Modest.hasRoom (hlo ▸ hm) hs.tended hn hlen hc hsize hfits

/-- A client that holds one block of 100 bytes. -/
theorem bounded_client_oneSession :
    (oneSession 100).machine.memBrk ≤ 4096 + heapBound 1 100 ∧
      (heapBound 1 100 ≤ maxHeap → ∀ c : Call, c.Legal (oneSession 100).live → c.size ≤ 100 →
        ∃ q τ, Step (oneSession 100) (.call c q) τ) := by
  refine bounded_client (oneSession_run (by decide)) (by decide) ?_ ?_
  · intro c hc
    rw [List.mem_singleton.mp (show c ∈ [Call.malloc 100] from hc)]
    exact le_rfl
  · intro pre post τ heq hτ
    have hlen := hτ.length_live_le
    have hcalls := congrArg (fun es => (calls es).length) heq
    simp only [calls_append, List.length_append] at hcalls
    exact hlen.trans (Nat.le_of_add_right_le hcalls.ge)

end OsAndC
