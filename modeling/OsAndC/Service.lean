import OsAndC.DataPreservation

/-!
# Serving a Client on any Heap

`Simulates` follows a session from `mm_init` on a fresh arena. The driver starts the
allocator again and again on the same arena, where accesses have strayed before, so here is
the same step without a word about what happened earlier: `Tended s h gs` says that the
machine `s` holds the layout `h`, and that the grants `gs` are its allocated blocks, each
with room for the size requested.

`Call.Served` is the abstract condition under which the arena is large enough for a call.
A call by the book is carried out if it is served (`Tended.call`), and faults at address 4 if
it is not (`Tended.refused`); there is no third outcome. `Simulates.step_call_iff` is the
same of a session and its legal calls.
-/

namespace OsAndC

open Layout

/-! ### What is asked for, and when it is served -/

/-- A call by the book: it asks for at least one byte, its size does not wrap, and the block
it names is held. -/
def Call.ByTheBook (gs : List Grant) : Call → Prop
  | .malloc n => 0 < n ∧ need n < 2 ^ 32
  | .free p => Holds gs p
  | .realloc p n => (0 < n ∧ need n < 2 ^ 32) ∧ Holds gs p

/-- An extension of the heap for `n` bytes stays below `top` and is positive as an `int`. -/
def Layout.HasRoom (h : Layout) (top n : ℕ) : Prop :=
  0 ≤ toInt (max (need n) 4096) ∧ (h.brk : ℤ) + toInt (max (need n) 4096) ≤ top

/-- The arena below `top` is large enough for the call. -/
def Call.Served (h : Layout) (top : ℕ) : Call → Prop
  | .malloc n => h.fit? (need n) = none → h.HasRoom top n
  | .free _ => True
  | .realloc p n => ¬ h.Stays p n → h.fit? (need n) = none → h.HasRoom top n

instance (h : Layout) (top n : ℕ) : Decidable (h.HasRoom top n) :=
  inferInstanceAs (Decidable (_ ∧ _))

instance (h : Layout) (top : ℕ) : (c : Call) → Decidable (c.Served h top)
  | .malloc _ => inferInstanceAs (Decidable (_ → _))
  | .free _ => inferInstanceAs (Decidable True)
  | .realloc _ _ => inferInstanceAs (Decidable (_ → _ → _))

/-- The machine holds the layout, and the grants are its allocated blocks. -/
structure Tended (s : Machine) (h : Layout) (gs : List Grant) : Prop where
  valid : Valid s.memHeapLo h
  represents : Represents s h
  holds : ∀ p, Holds gs p ↔ ∃ b, h.Allocated b ∧ b.addr = p
  roomy : ∀ g ∈ gs, 0 < g.size ∧ ∀ b, h.Allocated b → b.addr = g.ptr → g.size + 8 ≤ b.size
  nodup : (gs.map Grant.ptr).Nodup

variable {s s' : Machine} {h : Layout} {gs : List Grant} {g g' : Grant} {c : Call} {n p q : ℕ}

/-- What is asked by the book is legal. -/
theorem Call.ByTheBook.legal (hc : c.ByTheBook gs) : c.Legal gs := by
  cases c with
  | malloc n => exact hc.2
  | free p => exact hc
  | realloc p n => exact ⟨hc.1.2, Or.inl hc.2⟩

/-- The machine refuses exactly what the layout has no room for. -/
theorem Represents.refuses_iff (hr : Represents s h) :
    s.Refuses (toInt (max (need n) 4096)) ↔ ¬ h.HasRoom s.memMaxAddr n := by
  rw [Machine.Refuses, HasRoom, hr.brk]
  omega

namespace Tended

/-- What a grant stands for: an allocated block with room for it. -/
theorem block (ht : Tended s h gs) (hg : g ∈ gs) :
    ∃ b, h.Allocated b ∧ b.addr = g.ptr ∧ 0 < g.size ∧ g.size + 8 ≤ b.size := by
  obtain ⟨b, hb, hbg⟩ := (ht.holds g.ptr).mp ⟨g, hg, rfl⟩
  obtain ⟨hpos, hroom⟩ := ht.roomy g hg
  exact ⟨b, hb, hbg, hpos, hroom b hb hbg⟩

/-- No block that is held lies at address 0. -/
theorem ptr_ne_zero (ht : Tended s h gs) (hg : g ∈ gs) : g.ptr ≠ 0 := by
  obtain ⟨b, hb, hbg, -⟩ := ht.block hg
  rw [← hbg]
  exact allocated_addr_ne_zero ht.valid.toWf hb

/-- A grant is aligned and lies in the heap, its block with it. -/
theorem bounds (ht : Tended s h gs) (hg : g ∈ gs) :
    g.ptr % 8 = 0 ∧ s.memHeapLo + 16 ≤ g.ptr ∧ 0 < g.size ∧ g.ptr + g.size + 8 ≤ s.memBrk := by
  obtain ⟨b, hb, hbg, hpos, hroom⟩ := ht.block hg
  have hbw := ht.valid.toWf.block hb.1
  have hbrk := ht.represents.brk
  omega

/-- Every one of them lies in the heap. -/
theorem inHeap (ht : Tended s h gs) (hg : g ∈ gs) : s.InHeap g.ptr g.size := by
  obtain ⟨-, h₁, -, h₂⟩ := ht.bounds hg
  exact ⟨by omega, by omega⟩

/-- Different grants do not meet. -/
theorem apart (ht : Tended s h gs) (hg : g ∈ gs) (hg' : g' ∈ gs) (hne : g.ptr ≠ g'.ptr) :
    g.ptr + g.size ≤ g'.ptr ∨ g'.ptr + g'.size ≤ g.ptr := by
  obtain ⟨b, hb, hbg, -, hroom⟩ := ht.block hg
  obtain ⟨b', hb', hbg', -, hroom'⟩ := ht.block hg'
  have hapart := ht.valid.toWf.apart hb.1 hb'.1 (by rw [hbg, hbg']; exact hne)
  omega

/-- A pointer names one grant. -/
theorem eq_of_ptr (ht : Tended s h gs) (hg : g ∈ gs) (hg' : g' ∈ gs) (hptr : g.ptr = g'.ptr) :
    g = g' :=
  List.inj_on_of_nodup_map ht.nodup hg hg' hptr

/-- The book after a call is right about the layout after it. -/
theorem update {h' : Layout} (ht : Tended s h gs)
    (hr : Replaces s.memHeapLo h h' c.ptr q c.size) :
    (∀ p, Holds (c.update gs q) p ↔ ∃ b, h'.Allocated b ∧ b.addr = p) ∧
      (∀ g ∈ c.update gs q, 0 < g.size ∧
        ∀ b, h'.Allocated b → b.addr = g.ptr → g.size + 8 ≤ b.size) ∧
      ((c.update gs q).map Grant.ptr).Nodup := by
  obtain ⟨-, hnull, hfresh, size, hsize, halloc⟩ := hr
  have hpos : ∀ g ∈ gs, g.ptr ≠ 0 := fun g => ht.ptr_ne_zero
  have hmem : ∀ {g}, g ∈ c.update gs q ↔ _ := fun {g} =>
    OsAndC.mem_update (σ := ⟨s, gs⟩) hnull hpos
  have hnew : ∀ g ∈ gs, g.ptr ≠ c.ptr → g.ptr ≠ q := fun g hg hgp => by
    obtain ⟨b, hb, hbg, -⟩ := ht.block hg
    rw [← hbg] at hgp ⊢
    exact hfresh b hb hgp
  refine ⟨fun p => ?_, fun g hg => ?_, nodup_update (σ := ⟨s, gs⟩) hnull ht.nodup hnew hpos⟩
  · constructor
    · rintro ⟨g, hg, rfl⟩
      rcases hmem.mp hg with ⟨hc0, rfl⟩ | ⟨hgl, hgp⟩
      · exact ⟨_, (halloc _).mpr (Or.inl ⟨hc0, rfl⟩), rfl⟩
      · obtain ⟨b, hb, hbg, -⟩ := ht.block hgl
        exact ⟨b, (halloc b).mpr (Or.inr ⟨hb, hbg ▸ hgp⟩), hbg⟩
    · rintro ⟨b, hb, rfl⟩
      rcases (halloc b).mp hb with ⟨hc0, rfl⟩ | ⟨hbh, hbp⟩
      · exact ⟨_, hmem.mpr (Or.inl ⟨hc0, rfl⟩), rfl⟩
      · obtain ⟨g, hgl, hgb⟩ := (ht.holds b.addr).mpr ⟨b, hbh, rfl⟩
        exact ⟨g, hmem.mpr (Or.inr ⟨hgl, hgb ▸ hbp⟩), hgb⟩
  · rcases hmem.mp hg with ⟨hc0, rfl⟩ | ⟨hgl, hgp⟩
    · refine ⟨hc0, fun b hb hbq => ?_⟩
      have hneed := (need_pos hc0).2.2
      have hroom := hsize hc0
      rcases (halloc b).mp hb with ⟨-, rfl⟩ | ⟨hbh, hbp⟩
      · simp only []
        omega
      · exact absurd hbq (hfresh b hbh hbp)
    · obtain ⟨hpos', hroom⟩ := ht.roomy g hgl
      refine ⟨hpos', fun b hb hbg => ?_⟩
      rcases (halloc b).mp hb with ⟨-, rfl⟩ | ⟨hbh, -⟩
      · exact absurd hbg.symm (hnew g hgl hgp)
      · exact hroom b hbh hbg

/-- The book after a call by the book: the new grant, and what the call did not concern. -/
theorem mem_update (ht : Tended s h gs) (hc : c.ByTheBook gs) :
    g ∈ c.update gs (c.apply h).2 ↔
      (0 < c.size ∧ g = ⟨(c.apply h).2, c.size⟩) ∨ g ∈ gs ∧ g.ptr ≠ c.ptr := by
  have hrepl := apply_replaces (σ := ⟨s, gs⟩) ht.valid hc.legal ht.holds
  exact OsAndC.mem_update (σ := ⟨s, gs⟩) hrepl.null fun g => ht.ptr_ne_zero

/-- The pointer returned is new to the book. -/
theorem fresh (ht : Tended s h gs) (hc : c.ByTheBook gs) (hg : g ∈ gs) (hgc : g.ptr ≠ c.ptr) :
    g.ptr ≠ (c.apply h).2 := by
  have hrepl := apply_replaces (σ := ⟨s, gs⟩) ht.valid hc.legal ht.holds
  obtain ⟨b, hb, hbg, -⟩ := ht.block hg
  rw [← hbg] at hgc ⊢
  exact hrepl.fresh b hb hgc

/-- A call by the book that asks for memory does not return null. -/
theorem apply_ne_zero (ht : Tended s h gs) (hc : c.ByTheBook gs) (hpos : 0 < c.size) :
    (c.apply h).2 ≠ 0 := by
  have hrepl := apply_replaces (σ := ⟨s, gs⟩) ht.valid hc.legal ht.holds
  intro h0
  have hnull := hrepl.null.mp h0
  omega

/-- A call that is carried out keeps the grants it does not concern: they stay in the book,
with their bytes. -/
theorem keeps {h' : Layout} (ht : Tended s h gs) (hi : Implements s s' h h' c.ptr)
    (hg : g ∈ gs) (hgc : g.ptr ≠ c.ptr) : ∀ a ∈ g.range, s'.mem a = s.mem a := by
  intro a ha
  obtain ⟨h₁, h₂⟩ := ha
  obtain ⟨b, hb, hbg, -, hroom⟩ := ht.block hg
  exact hi.keeps b hb (hbg ▸ hgc) a (by omega) (by omega)

/-- **A call by the book** returns what the abstract call returns, if the arena is large
enough. Afterwards the book is right again; what the call does not concern keeps its bytes,
and a resized block brings its data along. -/
theorem call (ht : Tended s h gs) (hc : c.ByTheBook gs) (hserved : c.Served h s.memMaxAddr) :
    ∃ s', c.run s = .ok (c.apply h).2 s' ∧
      Tended s' (c.apply h).1 (c.update gs (c.apply h).2) ∧ s'.arena = s.arena ∧
      (∀ g ∈ gs, g.ptr ≠ c.ptr → ∀ a ∈ g.range, s'.mem a = s.mem a) ∧
      ∀ g ∈ gs, g.ptr = c.ptr → ∀ i, i < min g.size c.size →
        s'.mem ((c.apply h).2 + i) = s.mem (g.ptr + i) := by
  have hv := ht.valid
  have hr := ht.represents
  have hrepl := apply_replaces (σ := ⟨s, gs⟩) hv hc.legal ht.holds
  obtain ⟨hholds, hroomy, hnodup⟩ := ht.update hrepl
  suffices hrun : ∃ s', c.run s = .ok (c.apply h).2 s' ∧
      Implements s s' h (c.apply h).1 c.ptr ∧
      ∀ b, h.Allocated b → b.addr = c.ptr → ∀ i, i < c.size → i + 8 < b.size →
        s'.mem ((c.apply h).2 + i) = s.mem (b.addr + i) by
    obtain ⟨s', hrun, hi, hdata⟩ := hrun
    refine ⟨s', hrun, ⟨hi.valid, hi.represents, hholds, hroomy, hnodup⟩, hi.arena,
      fun g hg hgc => ht.keeps hi hg hgc, fun g hg hgc i hin => ?_⟩
    obtain ⟨b, hb, hbg, -, hroom⟩ := ht.block hg
    rw [← hbg]
    exact hdata b hb (hbg.trans hgc) i (by omega) (by omega)
  cases c with
  | malloc n =>
      obtain ⟨s', hrun, hi, -⟩ := mmMalloc_spec hv hr hc.1 hc.2 fun hfit =>
        not_imp_not.mpr hr.refuses_iff.mp (not_not.mpr (hserved hfit))
      exact ⟨s', hrun, hi, fun b hb hb0 => absurd hb0 (allocated_addr_ne_zero hv.toWf hb)⟩
  | free p =>
      obtain ⟨b, hb, rfl⟩ := (ht.holds p).mp hc
      obtain ⟨s', hrun, hi, -⟩ := mmFree_spec hv hr hb
      exact ⟨s', run_bind_ok hrun, hi, fun b _ _ i hi0 => absurd hi0 (Nat.not_lt_zero i)⟩
  | realloc p n =>
      obtain ⟨⟨hn, hwrap⟩, hp⟩ := hc
      obtain ⟨b, hb, rfl⟩ := (ht.holds p).mp hp
      obtain ⟨s', hrun, hi, hdata, -⟩ := mmRealloc_spec hv hr hb hn hwrap fun hstay hfit =>
        not_imp_not.mpr hr.refuses_iff.mp (not_not.mpr (hserved hstay hfit))
      refine ⟨s', hrun, hi, fun d hd hdb i hin hid => ?_⟩
      obtain rfl := hv.eq_of_addr hd.1 hb.1 hdb
      exact hdata i hin hid

/-- **A call the arena is too small for** reads through the null pointer. -/
theorem refused (ht : Tended s h gs) (hc : c.ByTheBook gs)
    (hserved : ¬ c.Served h s.memMaxAddr) :
    ∃ s', c.run s = .error (.outside (.load 4 4)) s' := by
  have hv := ht.valid
  have hr := ht.represents
  cases c with
  | malloc n =>
      obtain ⟨hfit, hroom⟩ := Classical.not_imp.mp hserved
      exact ⟨_, mmMalloc_refused hv hr hc.1 hc.2 hfit (hr.refuses_iff.mpr hroom)⟩
  | free p => exact absurd trivial hserved
  | realloc p n =>
      obtain ⟨⟨hn, hwrap⟩, hp⟩ := hc
      obtain ⟨b, hb, rfl⟩ := (ht.holds p).mp hp
      obtain ⟨hstay, hrest⟩ := Classical.not_imp.mp hserved
      obtain ⟨hfit, hroom⟩ := Classical.not_imp.mp hrest
      exact ⟨_, mmRealloc_refused hv hr hb hn hwrap hstay hfit (hr.refuses_iff.mpr hroom)⟩

/-- The client may write into what it holds. -/
theorem write {S : Set ℕ} (ht : Tended s h gs) (hg : g ∈ gs) (hf : Frame S s s')
    (hS : S ⊆ g.range) (hfl : s'.freeList = s.freeList) : Tended s' h gs := by
  obtain ⟨b, hb, hbg, -, hroom⟩ := ht.block hg
  refine ⟨hf.memHeapLo ▸ ht.valid, ?_, ht.holds, ht.roomy, ht.nodup⟩
  refine ht.represents.write ht.valid.toWf hb hf (fun a ha => ?_) hfl
  obtain ⟨h₁, h₂⟩ := hS ha
  omega

/-- `mm_init` on the arena of an earlier run, whose free list does not start on the new
epilogue. -/
theorem init (hbrk : s.memBrk = s.arena.base) (hf : Stale s s.freeList) :
    ∃ s', mmInit s = .ok 0 s' ∧ Tended s' (initial s.memHeapLo) [] ∧ s'.arena = s.arena := by
  obtain ⟨s', hrun, hr, harena, -⟩ := mmInit_spec hbrk hf
  have hlo : s'.memHeapLo = s.memHeapLo := Machine.memHeapLo_congr harena
  refine ⟨s', hrun, ⟨hlo.symm ▸ initial_valid s.arena.aligned, hr, fun p => ?_, by simp, by simp⟩,
    harena⟩
  constructor
  · rintro ⟨g, hg, -⟩
    cases hg
  · rintro ⟨b, ⟨hb, ha⟩, -⟩
    rw [List.mem_singleton.mp hb] at ha
    cases ha

/-- The heap that `mm_init` starts on a fresh arena. -/
theorem exists_initial (ar : Arena) :
    ∃ s, Tended s (initial ar.base) [] ∧ s.memHeapLo = ar.base ∧
      s.memMaxAddr = ar.base + maxHeap := by
  obtain ⟨s, -, ht, harena⟩ := Tended.init (s := memInit ar fun _ => 0) rfl (Or.inl rfl)
  have hbase : s.arena.base = ar.base := congrArg Arena.base harena
  exact ⟨s, ht, hbase, congrArg (· + maxHeap) hbase⟩

/-- A heap can be started again when its free list does not start where the new epilogue
will be. -/
theorem stale (ht : Tended s h gs) (hne : h.free.headD 0 ≠ s.memHeapLo + 4104) :
    Stale s s.freeList := by
  have hhead := ht.represents.chain.head
  rw [Stale, hhead]
  cases hl : h.free with
  | nil => exact Or.inl rfl
  | cons a l =>
      rw [hl] at hne
      obtain ⟨b, hb, hba, -⟩ := ht.valid.toWf.mem_free.mp (show a ∈ h.free by rw [hl]; simp)
      have hbw := ht.valid.toWf.block hb
      have hbrk := ht.represents.brk
      have hmax := s.brk_le_max
      simp only [List.headD_cons, Machine.memMaxAddr] at hne ⊢
      omega

end Tended

/-! ### When `mem_sbrk` refuses nothing -/

/-- The heap has no block for the call. -/
def Call.Extends (h : Layout) : Call → Prop
  | .malloc n => 0 < n ∧ h.fit? (need n) = none
  | .free _ => False
  | .realloc p n => 0 < n ∧ (p = 0 ∨ ¬ h.Stays p n) ∧ h.fit? (need n) = none

section Granting

variable {σ : Session} {b : Block}

/-- A simulated run is tended by the layout. -/
theorem Simulates.tended (hs : Simulates σ h) : Tended σ.machine h σ.live :=
  ⟨hs.valid, hs.represents, hs.holds, hs.roomy, hs.nodup⟩

/-- `mm_malloc` is granted unless it needs room that is not there. -/
theorem Represents.granted_malloc (hv : Valid s.memHeapLo h) (hr : Represents s h)
    (hg : Granted s) (hn : 0 < n) (hwrap : need n < 2 ^ 32) :
    Granted (finalState (mmMalloc n s)) ↔
      (h.fit? (need n) = none → h.HasRoom s.memMaxAddr n) := by
  constructor
  · intro hgr hfit
    by_contra hroom
    exact not_refuses_of_granted hv hr hn hwrap hgr hfit (hr.refuses_iff.mpr hroom)
  · intro hroom
    obtain ⟨s', hrun, -, hsb⟩ := mmMalloc_spec hv hr hn hwrap fun hfit =>
      not_imp_not.mpr hr.refuses_iff.mp (not_not.mpr (hroom hfit))
    rw [hrun, finalState_ok]
    intro x hx
    rw [hsb, sbrkCalls] at hx
    rcases List.mem_append.mp hx with hx | hx
    · split_ifs at hx
      · rw [List.mem_singleton.mp hx]
      · cases hx
    · exact hg x hx

/-- And so is `mm_realloc`, which needs room only where the block has to move. -/
theorem Represents.granted_realloc (hv : Valid s.memHeapLo h) (hr : Represents s h)
    (hg : Granted s) (hb : h.Allocated b) (hn : 0 < n) (hwrap : need n < 2 ^ 32) :
    Granted (finalState (mmRealloc b.addr n s)) ↔
      (¬ h.Stays b.addr n → h.fit? (need n) = none → h.HasRoom s.memMaxAddr n) := by
  constructor
  · intro hgr hstay hfit
    by_contra hroom
    exact not_refuses_of_granted_realloc hv hr hb hn hwrap hgr hstay hfit
      (hr.refuses_iff.mpr hroom)
  · intro hroom
    obtain ⟨s', hrun, -, -, hsb⟩ := mmRealloc_spec hv hr hb hn hwrap fun hstay hfit =>
      not_imp_not.mpr hr.refuses_iff.mp (not_not.mpr (hroom hstay hfit))
    rw [hrun, finalState_ok]
    intro x hx
    rw [hsb, sbrkCalls] at hx
    rcases List.mem_append.mp hx with hx | hx
    · split_ifs at hx
      · cases hx
      · rw [List.mem_singleton.mp hx]
      · cases hx
    · exact hg x hx

/-- `mm_free` asks for nothing. -/
theorem Represents.granted_free (hv : Valid s.memHeapLo h) (hr : Represents s h)
    (hg : Granted s) (hb : h.Allocated b) :
    Granted (finalState ((do mmFree b.addr; return 0 : M ℕ) s)) := by
  obtain ⟨s', hrun, -, hsb⟩ := mmFree_spec hv hr hb
  rw [run_bind_ok hrun]
  exact fun x hx => hg x (hsb ▸ hx)

/-- **A legal call is granted** what it asks for exactly when it asks for nothing or there is
room for it. -/
theorem Simulates.granted_iff (hs : Simulates σ h) (hc : c.Legal σ.live) :
    Granted (finalState (c.run σ.machine)) ↔
      (c.Extends h → h.HasRoom σ.machine.memMaxAddr c.size) := by
  obtain ⟨hv, hr, -, hg, hholds, -, -⟩ := hs
  cases c with
  | malloc n =>
      by_cases hn : n = 0
      · rw [hn]
        exact iff_of_true hg fun h0 => absurd h0.1 (lt_irrefl 0)
      · have hpos := Nat.pos_of_ne_zero hn
        refine (hr.granted_malloc hv hg hpos hc).trans ?_
        simp only [Call.Extends, hpos, true_and]
        rfl
  | free p =>
      obtain ⟨b, hb, rfl⟩ := (hholds p).mp hc
      exact iff_of_true (hr.granted_free hv hg hb) fun h0 => h0.elim
  | realloc p n =>
      change Granted (finalState (mmRealloc p n σ.machine)) ↔ _
      rcases hc.2 with hp | ⟨rfl, hn⟩
      · obtain ⟨b, hb, rfl⟩ := (hholds p).mp hp
        by_cases hn : n = 0
        · have hrun : mmRealloc b.addr n = (do mmFree b.addr; return 0) :=
            ListOps.source.mmRealloc_zero hn
          rw [hrun]
          exact iff_of_true (hr.granted_free hv hg hb) fun h0 => absurd h0.1 (by omega)
        · have hpos := Nat.pos_of_ne_zero hn
          have hb0 := allocated_addr_ne_zero hv.toWf hb
          rw [hr.granted_realloc hv hg hb hpos hc.1]
          simp only [Call.Extends, hpos, hb0, true_and, false_or, and_imp]
          rfl
      · have hrun : mmRealloc 0 n = mmMalloc n := ListOps.source.mmRealloc_null hn
        rw [hrun, hr.granted_malloc hv hg hn hc.1]
        simp only [Call.Extends, hn, true_or, true_and]
        rfl

/-- **The calls a session can make**, and what they return. -/
theorem Simulates.step_call_iff (hs : Simulates σ h) : (∃ τ, Step σ (.call c q) τ) ↔
    c.Legal σ.live ∧ q = (c.apply h).2 ∧
      (c.Extends h → h.HasRoom σ.machine.memMaxAddr c.size) := by
  constructor
  · rintro ⟨τ, hstep⟩
    cases hstep with
    | call hc hrun hg =>
        refine ⟨hc, (hs.after_call hc hrun hg).1, (hs.granted_iff hc).mp ?_⟩
        rw [hrun]
        exact hg
  · rintro ⟨hc, rfl, hroom⟩
    have hg := (hs.granted_iff hc).mpr hroom
    obtain ⟨s', hrun, -⟩ := hs.call hc hg
    rw [hrun] at hg
    exact ⟨_, .call hc hrun hg⟩

end Granting

end OsAndC
