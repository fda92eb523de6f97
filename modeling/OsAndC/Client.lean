import OsAndC.EntryPoints
import OsAndC.Init
import Mathlib.Logic.Function.Basic

/-!
# Runs of the Allocator under a Client

A client calls `mm_malloc`, `mm_free` and `mm_realloc` and writes into the memory it holds.
`Session` is the state between two such events: the machine, and what the client holds, one
`Grant` for each pointer returned and not released, with the size last requested for it.
`Step` is one event of a legal run, in which `mem_sbrk` refuses nothing, and `Run` is a
legal run from `mem_init` and `mm_init` on.

`Simulates σ h` relates a session to the abstract allocator. `Step.simulates` and
`Run.simulates` carry it through every legal run: after a call the session simulates the
layout the abstract call produces, and the pointer returned is the abstract one, so both
depend on the calls alone. `Simulates.call` is the progress half: a legal call does return,
unless `mem_sbrk` refuses.
-/

namespace OsAndC

open Layout

/-! ### Calls and runs -/

/-- A call of the allocator. -/
inductive Call
  | malloc (n : ℕ)
  | free (p : ℕ)
  | realloc (p n : ℕ)
  deriving DecidableEq, Repr

/-- A block the client holds: its pointer and the size last requested for it. -/
structure Grant where
  ptr : ℕ
  size : ℕ
  deriving DecidableEq, Repr

/-- The state between two events. -/
structure Session where
  machine : Machine
  live : List Grant

/-- The client holds the pointer `p`. -/
def Holds (live : List Grant) (p : ℕ) : Prop := ∃ g ∈ live, g.ptr = p

namespace Call

/-- The code a call runs. `mm_free` returns nothing, here `0`. -/
def run : Call → M ℕ
  | malloc n => mmMalloc n
  | free p => do mmFree p; return 0
  | realloc p n => mmRealloc p n

/-- The calls a client may make: it releases and resizes what it holds, and no requested
size wraps when it is rounded up and increased by the overhead. -/
def Legal (live : List Grant) : Call → Prop
  | malloc n => need n < 2 ^ 32
  | free p => Holds live p
  | realloc p n => need n < 2 ^ 32 ∧ (Holds live p ∨ p = 0 ∧ 0 < n)

/-- What the client holds after the call has returned `q`. -/
def update (live : List Grant) (q : ℕ) : Call → List Grant
  | malloc n => if q = 0 then live else ⟨q, n⟩ :: live
  | free p => live.filter fun g => g.ptr ≠ p
  | realloc p n =>
      if n = 0 then live.filter fun g => g.ptr ≠ p
      else if q = 0 then live
      else ⟨q, n⟩ :: live.filter fun g => g.ptr ≠ p

/-- The same call of the abstract allocator. -/
def apply (h : Layout) : Call → Layout × ℕ
  | malloc n => h.malloc n
  | free p => (h.release p, 0)
  | realloc p n => h.realloc p n

/-- The block a call is given, or null. -/
def ptr : Call → ℕ
  | malloc _ => 0
  | free p => p
  | realloc p _ => p

/-- The size a call requests. -/
def size : Call → ℕ
  | malloc n => n
  | free _ => 0
  | realloc _ n => n

end Call

/-- `mem_sbrk` has refused nothing. -/
def Granted (s : Machine) : Prop := ∀ x ∈ s.sbrks, x.granted = true

/-- The machine after the client has stored the byte `v` at `a`. -/
def Machine.setByte (s : Machine) (a : ℕ) (v : UInt8) : Machine :=
  { s with mem := Function.update s.mem a v }

/-- What happens between the client and the allocator: a call with the pointer it returns,
or a byte stored by the client. -/
inductive Event
  | call (c : Call) (q : ℕ)
  | write (a : ℕ) (v : UInt8)

/-- One event of a legal run. -/
inductive Step : Session → Event → Session → Prop
  | call {σ : Session} {c : Call} {q : ℕ} {s' : Machine} :
      c.Legal σ.live → c.run σ.machine = .ok q s' → Granted s' →
      Step σ (.call c q) ⟨s', c.update σ.live q⟩
  | write {σ : Session} {g : Grant} {a : ℕ} {v : UInt8} :
      g ∈ σ.live → g.ptr ≤ a → a < g.ptr + g.size →
      Step σ (.write a v) ⟨σ.machine.setByte a v, σ.live⟩

/-- A legal run on the arena `ar` with initial contents `m`. -/
inductive Run (ar : Arena) (m : Mem) : List Event → Session → Prop
  | init {s : Machine} : mmInit (memInit ar m) = .ok 0 s → Granted s → Run ar m [] ⟨s, []⟩
  | step {es : List Event} {e : Event} {σ σ' : Session} :
      Run ar m es σ → Step σ e σ' → Run ar m (es ++ [e]) σ'

/-- The states between the events of legal runs. -/
def Reachable (σ : Session) : Prop := ∃ ar m es, Run ar m es σ

/-! ### The simulation -/

/-- The session is a concrete form of the layout: the machine holds the layout, no access
has strayed, and what the client holds are the allocated blocks, each large enough. -/
structure Simulates (σ : Session) (h : Layout) : Prop where
  valid : Valid σ.machine.memHeapLo h
  represents : Represents σ.machine h
  stray : σ.machine.stray = []
  granted : Granted σ.machine
  holds : ∀ p, Holds σ.live p ↔ ∃ b, h.Allocated b ∧ b.addr = p
  roomy : ∀ g ∈ σ.live, 0 < g.size ∧ ∀ b, h.Allocated b → b.addr = g.ptr → g.size + 8 ≤ b.size
  nodup : (σ.live.map Grant.ptr).Nodup

variable {σ σ' : Session} {h : Layout} {c : Call} {e : Event} {es : List Event} {s s' : Machine}
  {b d : Block} {g : Grant} {lo n p q : ℕ}

/-- The step from `h` to `h'` gives up the block at `p` and has a new block at `q` for `n`
bytes; when `n` is 0 there is no new block, and `q` is null. -/
structure Replaces (lo : ℕ) (h h' : Layout) (p q n : ℕ) : Prop where
  valid : Valid lo h'
  null : q = 0 ↔ n = 0
  fresh : ∀ d, h.Allocated d → d.addr ≠ p → d.addr ≠ q
  allocated : ∃ size, (0 < n → need n ≤ size) ∧ ∀ d, h'.Allocated d ↔
    (0 < n ∧ d = ⟨q, size, true⟩) ∨ h.Allocated d ∧ d.addr ≠ p

/-- Allocation adds a block and gives up none. -/
theorem malloc_replaces (hv : Valid lo h) (n : ℕ) :
    Replaces lo h (h.malloc n).1 0 (h.malloc n).2 n := by
  have hpos : ∀ d, h.Allocated d → d.addr ≠ 0 := fun d => allocated_addr_ne_zero hv.toWf
  by_cases hn : n = 0
  · rw [hn]
    refine ⟨hv, ⟨fun _ => rfl, fun _ => rfl⟩, fun d hd _ => hpos d hd, 0,
      fun h0 => absurd h0 (lt_irrefl 0), fun d => ?_⟩
    exact ⟨fun hd => Or.inr ⟨hd, hpos d hd⟩, fun hd => (hd.resolve_left fun h0 => by cases h0.1).1⟩
  · obtain ⟨hv', hlo, hnew, size, hsize, -, halloc⟩ := hv.malloc (by omega : 0 < n)
    refine ⟨hv', by omega, fun d hd _ => hnew d hd, size, fun _ => hsize, fun d => ?_⟩
    rw [halloc]
    constructor
    · rintro (rfl | hd)
      · exact Or.inl ⟨by omega, rfl⟩
      · exact Or.inr ⟨hd, hpos d hd⟩
    · rintro (⟨-, rfl⟩ | ⟨hd, -⟩)
      · exact Or.inl rfl
      · exact Or.inr hd

/-- Releasing gives up a block and adds none. -/
theorem release_replaces (hv : Valid lo h) (hb : h.Allocated b) :
    Replaces lo h (h.release b.addr) b.addr 0 0 := by
  refine ⟨hv.release hb, ⟨fun _ => rfl, fun _ => rfl⟩,
    fun d hd _ => allocated_addr_ne_zero hv.toWf hd, 0, fun h0 => absurd h0 (lt_irrefl 0),
    fun d => ?_⟩
  rw [hv.release_allocated hb]
  exact ⟨Or.inr, fun hd => hd.resolve_left fun h0 => by cases h0.1⟩

/-- Resizing gives up a block and adds one, perhaps at the same place. -/
theorem realloc_replaces (hv : Valid lo h) (hb : h.Allocated b) (n : ℕ) :
    Replaces lo h (h.realloc b.addr n).1 b.addr (h.realloc b.addr n).2 n := by
  by_cases hn : n = 0
  · rw [realloc, hn, if_pos rfl]
    exact release_replaces hv hb
  · obtain ⟨hv', hq, hnew, size, hsize, halloc⟩ := hv.realloc hb (by omega : 0 < n)
    refine ⟨hv', by omega, hnew, size, fun _ => hsize, fun d => ?_⟩
    rw [halloc]
    exact or_congr_left ⟨fun h0 => ⟨by omega, h0⟩, And.right⟩

/-- Resizing the null pointer is allocation. -/
theorem realloc_null (hn : 0 < n) : h.realloc 0 n = h.malloc n := by
  rw [realloc, if_neg (by omega), if_pos rfl]

/-- Every legal call is such a step. -/
theorem apply_replaces (hv : Valid lo h) (hlegal : c.Legal σ.live)
    (hholds : ∀ p, Holds σ.live p ↔ ∃ b, h.Allocated b ∧ b.addr = p) :
    Replaces lo h (c.apply h).1 c.ptr (c.apply h).2 c.size := by
  cases c with
  | malloc n => exact malloc_replaces hv n
  | free p =>
      obtain ⟨b, hb, rfl⟩ := (hholds p).mp hlegal
      exact release_replaces hv hb
  | realloc p n =>
      rcases hlegal.2 with hp | ⟨rfl, hn⟩
      · obtain ⟨b, hb, rfl⟩ := (hholds p).mp hp
        exact realloc_replaces hv hb n
      · have hm := malloc_replaces hv n
        rw [← realloc_null hn] at hm
        exact hm

/-- The client's book after a call. -/
theorem mem_update (hnull : q = 0 ↔ c.size = 0) (hpos : ∀ g ∈ σ.live, g.ptr ≠ 0) :
    g ∈ c.update σ.live q ↔ (0 < c.size ∧ g = ⟨q, c.size⟩) ∨ g ∈ σ.live ∧ g.ptr ≠ c.ptr := by
  have hkeep : g ∈ σ.live ↔ g ∈ σ.live ∧ g.ptr ≠ 0 := ⟨fun hg => ⟨hg, hpos g hg⟩, And.left⟩
  cases c with
  | malloc n =>
      simp only [Call.update, Call.size, Call.ptr] at hnull ⊢
      split_ifs with hq
      · rw [← hkeep]
        exact ⟨Or.inr, fun hg => hg.resolve_left fun h0 => by omega⟩
      · rw [← hkeep, List.mem_cons]
        exact or_congr_left ⟨fun h0 => ⟨by omega, h0⟩, And.right⟩
  | free p =>
      simp only [Call.update, Call.size, Call.ptr, List.mem_filter, decide_eq_true_eq]
      exact ⟨Or.inr, fun hg => hg.resolve_left fun h0 => absurd h0.1 (lt_irrefl 0)⟩
  | realloc p n =>
      simp only [Call.update, Call.size, Call.ptr] at hnull ⊢
      split_ifs with hn hq
      · rw [List.mem_filter, decide_eq_true_eq]
        exact ⟨Or.inr, fun hg => hg.resolve_left fun h0 => by omega⟩
      · exact absurd (hnull.mp hq) hn
      · rw [List.mem_cons, List.mem_filter, decide_eq_true_eq]
        exact or_congr_left ⟨fun h0 => ⟨by omega, h0⟩, And.right⟩

/-- No pointer is held twice after a call. -/
theorem nodup_update (hnull : q = 0 ↔ c.size = 0) (hnd : (σ.live.map Grant.ptr).Nodup)
    (hfresh : ∀ g ∈ σ.live, g.ptr ≠ c.ptr → g.ptr ≠ q) (hpos : ∀ g ∈ σ.live, g.ptr ≠ 0) :
    ((c.update σ.live q).map Grant.ptr).Nodup := by
  have hfilter : ∀ p, ((σ.live.filter fun g => g.ptr ≠ p).map Grant.ptr).Nodup := fun p =>
    hnd.sublist (List.filter_sublist.map Grant.ptr)
  cases c with
  | malloc n =>
      simp only [Call.update]
      split_ifs with hq
      · exact hnd
      · refine List.nodup_cons.mpr ⟨fun hmem => ?_, hnd⟩
        obtain ⟨g, hg, hgq⟩ := List.mem_map.mp hmem
        exact hfresh g hg (hpos g hg) hgq
  | free p => exact hfilter p
  | realloc p n =>
      simp only [Call.update]
      split_ifs with hn hq
      · exact hfilter p
      · exact hnd
      · refine List.nodup_cons.mpr ⟨fun hmem => ?_, hfilter p⟩
        obtain ⟨g, hg, hgq⟩ := List.mem_map.mp hmem
        rw [List.mem_filter, decide_eq_true_eq] at hg
        exact hfresh g hg.1 hg.2 hgq

/-! ### Progress -/

/-- Where nothing is refused, an allocation extends the heap only with room for it. -/
theorem not_refuses_of_granted (hv : Valid s.memHeapLo h) (hr : Represents s h) (hn : 0 < n)
    (hwrap : need n < 2 ^ 32) (hg : Granted (finalState (mmMalloc n s))) :
    h.fit? (need n) = none → ¬ s.Refuses (toInt (max (need n) 4096)) := by
  intro hfit href
  rw [mmMalloc_refused hv hr hn hwrap hfit href] at hg
  exact absurd (hg _ List.mem_cons_self) Bool.false_ne_true

/-- The same of a block that is moved. -/
theorem not_refuses_of_granted_realloc (hv : Valid s.memHeapLo h) (hr : Represents s h)
    (hb : h.Allocated b) (hn : 0 < n) (hwrap : need n < 2 ^ 32)
    (hg : Granted (finalState (mmRealloc b.addr n s))) :
    ¬ h.Stays b.addr n → h.fit? (need n) = none →
      ¬ s.Refuses (toInt (max (need n) 4096)) := by
  intro hstay hfit href
  rw [mmRealloc_refused hv hr hb hn hwrap hstay hfit href] at hg
  exact absurd (hg _ List.mem_cons_self) Bool.false_ne_true

/-- **A legal call returns**, unless `mem_sbrk` refuses, and carries out the abstract call. -/
theorem Simulates.call (hs : Simulates σ h) (hlegal : c.Legal σ.live)
    (hg : Granted (finalState (c.run σ.machine))) :
    ∃ s', c.run σ.machine = .ok (c.apply h).2 s' ∧
      Implements σ.machine s' h (c.apply h).1 c.ptr ∧
      ∀ b, h.Allocated b → b.addr = c.ptr → ∀ i, i < c.size → i + 8 < b.size →
        s'.mem ((c.apply h).2 + i) = σ.machine.mem (b.addr + i) := by
  obtain ⟨hv, hr, -, -, hholds, -, -⟩ := hs
  have hpos : ∀ b, h.Allocated b → b.addr ≠ 0 := fun b => allocated_addr_ne_zero hv.toWf
  have hmalloc : ∀ n, need n < 2 ^ 32 → Granted (finalState (mmMalloc n σ.machine)) →
      ∃ s', mmMalloc n σ.machine = .ok (h.malloc n).2 s' ∧
        Implements σ.machine s' h (h.malloc n).1 0 := by
    intro n hwrap hg
    by_cases hn : n = 0
    · rw [hn]
      exact ⟨σ.machine, rfl, hv, hr, rfl, rfl, fun _ _ _ _ _ _ => rfl⟩
    · obtain ⟨s', hrun, hi, -⟩ := mmMalloc_spec hv hr (by omega) hwrap
        (not_refuses_of_granted hv hr (by omega) hwrap hg)
      exact ⟨s', hrun, hi⟩
  have hfree : ∀ b, h.Allocated b → ∃ s', mmFree b.addr σ.machine = .ok () s' ∧
      Implements σ.machine s' h (h.release b.addr) b.addr := fun b hb => by
    obtain ⟨s', hrun, hi, -⟩ := mmFree_spec hv hr hb
    exact ⟨s', hrun, hi⟩
  cases c with
  | malloc n =>
      obtain ⟨s', hrun, hi⟩ := hmalloc n hlegal hg
      exact ⟨s', hrun, hi, fun b hb hb0 => absurd hb0 (hpos b hb)⟩
  | free p =>
      obtain ⟨b, hb, rfl⟩ := (hholds p).mp hlegal
      obtain ⟨s', hrun, hi⟩ := hfree b hb
      exact ⟨s', run_bind_ok hrun, hi, fun b _ _ i hi0 => absurd hi0 (Nat.not_lt_zero i)⟩
  | realloc p n =>
      rcases hlegal.2 with hp | ⟨rfl, hn⟩
      · obtain ⟨b, hb, rfl⟩ := (hholds p).mp hp
        by_cases hn : n = 0
        · obtain ⟨s', hrun, hi⟩ := hfree b hb
          have hrun' : mmRealloc b.addr n σ.machine = .ok 0 s' := by
            rw [mmRealloc, ListOps.mmRealloc_zero _ hn, run_bind_ok hrun]
            rfl
          have happly : Call.apply h (.realloc b.addr n) = (h.release b.addr, 0) := if_pos hn
          rw [happly]
          exact ⟨s', hrun', hi, fun b _ _ i hi0 => by simp [Call.size, hn] at hi0⟩
        · change Granted (finalState (mmRealloc b.addr n σ.machine)) at hg
          obtain ⟨s', hrun, hi, hdata, -⟩ := mmRealloc_spec hv hr hb (by omega) hlegal.1
            (not_refuses_of_granted_realloc hv hr hb (by omega) hlegal.1 hg)
          refine ⟨s', hrun, hi, ?_⟩
          intro d hd hdb i hin hid
          have hdb' := hv.eq_of_addr hd.1 hb.1 hdb
          rw [hdb'] at hid ⊢
          exact hdata i hin hid
      · have hrun : Call.run (.realloc 0 n) = mmMalloc n := ListOps.source.mmRealloc_null hn
        rw [hrun] at hg ⊢
        obtain ⟨s', hrun', hi⟩ := hmalloc n hlegal.1 hg
        have happly : Call.apply h (.realloc 0 n) = h.malloc n := realloc_null hn
        rw [happly]
        exact ⟨s', hrun', hi, fun b hb hb0 => absurd hb0 (hpos b hb)⟩

/-! ### Every run simulates -/

/-- The client does not hold the null pointer. -/
theorem Simulates.ptr_ne_zero (hs : Simulates σ h) (hg : g ∈ σ.live) : g.ptr ≠ 0 := by
  obtain ⟨b, hb, hbg⟩ := (hs.holds g.ptr).mp ⟨g, hg, rfl⟩
  rw [← hbg]
  exact allocated_addr_ne_zero hs.valid.toWf hb

/-- What a grant stands for: an allocated block with room for it. -/
theorem Simulates.block (hs : Simulates σ h) (hg : g ∈ σ.live) :
    ∃ b, h.Allocated b ∧ b.addr = g.ptr ∧ 0 < g.size ∧ g.size + 8 ≤ b.size := by
  obtain ⟨b, hb, hbg⟩ := (hs.holds g.ptr).mp ⟨g, hg, rfl⟩
  obtain ⟨hpos, hroom⟩ := hs.roomy g hg
  exact ⟨b, hb, hbg, hpos, hroom b hb hbg⟩

/-- **The call step.** A legal call that has returned has returned the abstract pointer, and
the session after it simulates the abstract layout. -/
theorem Simulates.after_call (hs : Simulates σ h) (hlegal : c.Legal σ.live)
    (hrun : c.run σ.machine = .ok q s') (hg : Granted s') :
    q = (c.apply h).2 ∧ Simulates ⟨s', c.update σ.live q⟩ (c.apply h).1 ∧
      s'.arena = σ.machine.arena := by
  obtain ⟨s'', hrun', hi, -⟩ := hs.call hlegal (by rw [hrun]; exact hg)
  obtain ⟨rfl, rfl⟩ : q = (c.apply h).2 ∧ s' = s'' := by
    rw [hrun] at hrun'
    cases hrun'
    exact ⟨rfl, rfl⟩
  obtain ⟨hv', hnull, hfresh, size, hsize, halloc⟩ :=
    apply_replaces hs.valid hlegal hs.holds
  have hpos : ∀ g ∈ σ.live, g.ptr ≠ 0 := fun g => hs.ptr_ne_zero
  have hmem : ∀ {g}, g ∈ c.update σ.live (c.apply h).2 ↔ _ := fun {g} => mem_update hnull hpos
  refine ⟨rfl, ⟨hi.valid, hi.represents, hi.stray.trans hs.stray, hg, fun p => ?_,
    fun g hg' => ?_, nodup_update hnull hs.nodup (fun g hg' hgp => ?_) hpos⟩, hi.arena⟩
  · constructor
    · rintro ⟨g, hg', rfl⟩
      rcases hmem.mp hg' with ⟨hc0, rfl⟩ | ⟨hgl, hgp⟩
      · exact ⟨_, (halloc _).mpr (Or.inl ⟨hc0, rfl⟩), rfl⟩
      · obtain ⟨b, hb, hbg, -⟩ := hs.block hgl
        exact ⟨b, (halloc b).mpr (Or.inr ⟨hb, hbg ▸ hgp⟩), hbg⟩
    · rintro ⟨b, hb, rfl⟩
      rcases (halloc b).mp hb with ⟨hc0, rfl⟩ | ⟨hbh, hbp⟩
      · exact ⟨_, hmem.mpr (Or.inl ⟨hc0, rfl⟩), rfl⟩
      · obtain ⟨g, hgl, hgb⟩ := (hs.holds b.addr).mpr ⟨b, hbh, rfl⟩
        exact ⟨g, hmem.mpr (Or.inr ⟨hgl, hgb ▸ hbp⟩), hgb⟩
  · rcases hmem.mp hg' with ⟨hc0, rfl⟩ | ⟨hgl, hgp⟩
    · refine ⟨hc0, ?_⟩
      intro b hb hbg
      have hneed := (need_pos hc0).2.2
      have := hsize hc0
      rcases (halloc b).mp hb with ⟨-, rfl⟩ | ⟨hbh, hbp⟩
      · simp only []
        omega
      · exact absurd hbg (hfresh b hbh hbp)
    · obtain ⟨hpos', hroom⟩ := hs.roomy g hgl
      refine ⟨hpos', ?_⟩
      intro b hb hbg
      rcases (halloc b).mp hb with ⟨-, rfl⟩ | ⟨hbh, -⟩
      · obtain ⟨d, hd, hdg, -⟩ := hs.block hgl
        exact absurd (hdg.trans hbg.symm) (hfresh d hd (hdg ▸ hgp))
      · exact hroom b hbh hbg
  · obtain ⟨d, hd, hdg, -⟩ := hs.block hg'
    exact hdg ▸ hfresh d hd (hdg ▸ hgp)

/-- **The write step.** The client may store what it likes in what it holds. -/
theorem Simulates.after_write (hs : Simulates σ h) (hg : g ∈ σ.live) {a : ℕ} {v : UInt8}
    (h₁ : g.ptr ≤ a) (h₂ : a < g.ptr + g.size) :
    Simulates ⟨σ.machine.setByte a v, σ.live⟩ h := by
  obtain ⟨b, hb, hbg, hpos, hroom⟩ := hs.block hg
  have hf : Frame {a} σ.machine (σ.machine.setByte a v) :=
    ⟨rfl, rfl, rfl, rfl, rfl, fun c hc => by
      simp only [Machine.setByte]
      exact Function.update_of_ne (fun h0 => hc h0) v σ.machine.mem⟩
  exact ⟨hs.valid, hs.represents.write hs.valid.toWf hb hf (fun c hc => by
    obtain rfl := Set.mem_singleton_iff.mp hc
    omega) rfl, hs.stray, hs.granted, hs.holds, hs.roomy, hs.nodup⟩

/-- The abstract effect of an event. -/
def Event.apply (h : Layout) : Event → Layout
  | .call c _ => (c.apply h).1
  | .write _ _ => h

/-- **One event** of a legal run carries the simulation along. -/
theorem Step.simulates (hs : Simulates σ h) (hstep : Step σ e σ') :
    Simulates σ' (e.apply h) ∧ σ'.machine.arena = σ.machine.arena := by
  cases hstep with
  | call hlegal hrun hg => exact (hs.after_call hlegal hrun hg).2
  | write hg h₁ h₂ => exact ⟨hs.after_write hg h₁ h₂, rfl⟩

/-- The layout after the events `es` on an arena that starts at `lo`. -/
def layoutAfter (lo : ℕ) (es : List Event) : Layout := es.foldl Event.apply (initial lo)

/-- The first session of a run. -/
theorem init_simulates (ar : Arena) (m : Mem) :
    ∃ s, mmInit (memInit ar m) = .ok 0 s ∧ Granted s ∧ s.arena = ar ∧
      Simulates ⟨s, []⟩ (initial ar.base) := by
  obtain ⟨s, hrun, hr, harena, hsb, hstray⟩ :=
    mmInit_spec (s := memInit ar m) rfl (Or.inl rfl)
  have hg : Granted s := by
    intro x hx
    rw [hsb] at hx
    simp only [memInit, List.mem_cons, List.not_mem_nil, or_false] at hx
    rcases hx with rfl | rfl <;> rfl
  have hlo : s.memHeapLo = ar.base := congrArg Arena.base harena
  have hv := initial_valid ar.aligned
  refine ⟨s, hrun, hg, harena, ⟨hlo ▸ hv, hr, hstray.trans ?_, hg, fun p => ?_, by simp, by simp⟩⟩
  · simp [strayPrev, memInit]
  · constructor
    · rintro ⟨g, hg', -⟩
      cases hg'
    · rintro ⟨b, ⟨hb, ha⟩, -⟩
      rw [List.mem_singleton.mp hb] at ha
      cases ha

/-- **The simulation theorem.** Every legal run simulates the abstract allocator, in the
layout that its events lead to. -/
theorem Run.simulates {ar : Arena} {m : Mem} (hrun : Run ar m es σ) :
    Simulates σ (layoutAfter ar.base es) ∧ σ.machine.arena = ar := by
  induction hrun with
  | init hrun hg =>
      obtain ⟨s, hrun', -, harena, hs⟩ := init_simulates ar m
      rw [hrun] at hrun'
      cases hrun'
      exact ⟨hs, harena⟩
  | step _ hstep ih =>
      obtain ⟨hs, harena⟩ := hstep.simulates ih.1
      rw [layoutAfter, List.foldl_append]
      exact ⟨hs, harena.trans ih.2⟩

/-- **Every reachable session** is a concrete form of some layout. -/
theorem Reachable.simulates (hσ : Reachable σ) : ∃ h, Simulates σ h := by
  obtain ⟨ar, m, es, hrun⟩ := hσ
  exact ⟨_, hrun.simulates.1⟩

/-! ### The heap never shrinks -/

/-- Allocation does not shrink the heap. -/
theorem malloc_brk : h.brk ≤ (h.malloc n).1.brk := by
  simp only [Layout.malloc]
  split_ifs
  · exact le_refl _
  · cases h.fit? (need n) with
    | some a => exact le_refl _
    | none => exact Nat.le_add_right _ _

/-- No call does. -/
theorem apply_brk : h.brk ≤ (c.apply h).1.brk := by
  cases c with
  | malloc n => exact malloc_brk
  | free p => exact le_refl _
  | realloc p n =>
      change h.brk ≤ (h.realloc p n).1.brk
      simp only [Layout.realloc]
      split_ifs
      · exact le_refl _
      · exact malloc_brk
      · exact le_refl _
      · exact le_refl _
      · exact malloc_brk (n := n)

/-- After any events the heap is at least that of `mm_init`. -/
theorem layoutAfter_brk (lo : ℕ) (es : List Event) : lo + 4112 ≤ (layoutAfter lo es).brk := by
  simp only [layoutAfter]
  induction es using List.reverseRecOn with
  | nil => exact le_refl _
  | append_singleton es e ih =>
      rw [List.foldl_append]
      cases e with
      | call c q => exact ih.trans apply_brk
      | write a v => exact ih

/-- The heap a reachable session simulates has at least the block `mm_init` made. -/
theorem Reachable.simulates_grown (hσ : Reachable σ) :
    ∃ h, Simulates σ h ∧ σ.machine.memHeapLo + 4112 ≤ h.brk := by
  obtain ⟨ar, m, es, hrun⟩ := hσ
  obtain ⟨hs, harena⟩ := hrun.simulates
  have hlo : σ.machine.memHeapLo = ar.base := congrArg Arena.base harena
  exact ⟨_, hs, hlo ▸ layoutAfter_brk ar.base es⟩

/-! ### Building runs -/

/-- As long as the arena has room for the request, nothing is refused. -/
theorem Simulates.granted_of_room (hs : Simulates σ h) (hlegal : c.Legal σ.live)
    (hroom : h.brk + max (need c.size) 4096 ≤ σ.machine.memMaxAddr) :
    Granted (finalState (c.run σ.machine)) := by
  obtain ⟨hv, hr, -, hg, hholds, -, -⟩ := hs
  have hgr : ¬ σ.machine.Refuses (toInt (max (need c.size) 4096)) := by
    have hbrk := hr.brk
    have h₁ := σ.machine.base_le_brk
    simp only [Machine.memMaxAddr, maxHeap] at hroom
    rw [Machine.Refuses, Machine.memMaxAddr, maxHeap, toInt_eq (by omega), hbrk]
    omega
  have hcalls : ∀ x ∈ h.sbrkCalls c.size, x.granted = true := by
    simp only [Layout.sbrkCalls]
    split_ifs
    · simp
    · simp
  have hmalloc : ∀ n, n = c.size → need n < 2 ^ 32 →
      Granted (finalState (mmMalloc n σ.machine)) := by
    rintro n rfl hwrap
    by_cases hn : c.size = 0
    · rw [hn]
      exact hg
    · obtain ⟨s', hrun, -, hsb⟩ := mmMalloc_spec hv hr (by omega) hwrap fun _ => hgr
      rw [hrun]
      intro x hx
      rw [finalState_ok, hsb] at hx
      exact (List.mem_append.mp hx).elim (hcalls x) (hg x)
  have hfree : ∀ b, h.Allocated b →
      Granted (finalState ((do mmFree b.addr; return 0 : M ℕ) σ.machine)) := by
    intro b hb
    obtain ⟨s', hrun, -, hsb⟩ := mmFree_spec hv hr hb
    rw [run_bind_ok hrun]
    exact fun x hx => hg x (hsb ▸ hx)
  cases c with
  | malloc n => exact hmalloc n rfl hlegal
  | free p =>
      obtain ⟨b, hb, rfl⟩ := (hholds p).mp hlegal
      exact hfree b hb
  | realloc p n =>
      change Granted (finalState (mmRealloc p n σ.machine))
      rcases hlegal.2 with hp | ⟨rfl, hn⟩
      · obtain ⟨b, hb, rfl⟩ := (hholds p).mp hp
        by_cases hn : n = 0
        · have hrun : mmRealloc b.addr n = (do mmFree b.addr; return 0) :=
            ListOps.source.mmRealloc_zero hn
          rw [hrun]
          exact hfree b hb
        · obtain ⟨s', hrun, -, -, hsb⟩ := mmRealloc_spec hv hr hb (by omega) hlegal.1
            fun _ _ => hgr
          rw [hrun]
          intro x hx
          rw [finalState_ok, hsb] at hx
          rcases List.mem_append.mp hx with hx | hx
          · split_ifs at hx
            · cases hx
            · exact hcalls x hx
          · exact hg x hx
      · have hrun : mmRealloc 0 n = mmMalloc n := ListOps.source.mmRealloc_null hn
        rw [hrun]
        exact hmalloc n rfl hlegal.1

/-- An allocation there is room for is refused nothing. -/
theorem Simulates.granted_malloc (hs : Simulates σ h) (hwrap : need n < 2 ^ 32)
    (hroom : h.brk + max (need n) 4096 ≤ σ.machine.memMaxAddr) :
    Granted (finalState (mmMalloc n σ.machine)) :=
  hs.granted_of_room (c := .malloc n) hwrap hroom

/-- Nor is a resize. -/
theorem Simulates.granted_realloc (hs : Simulates σ h) (hwrap : need n < 2 ^ 32)
    (hp : Holds σ.live p) (hroom : h.brk + max (need n) 4096 ≤ σ.machine.memMaxAddr) :
    Granted (finalState (mmRealloc p n σ.machine)) :=
  hs.granted_of_room (c := .realloc p n) ⟨hwrap, Or.inl hp⟩ hroom

/-- The session `mm_init` starts on the arena `ar` with contents `m`. -/
def initSession (ar : Arena) (m : Mem) : Session := ⟨finalState (mmInit (memInit ar m)), []⟩

/-- It is the end of the run without events. -/
theorem initSession_run (ar : Arena) (m : Mem) : Run ar m [] (initSession ar m) := by
  obtain ⟨s, hrun, hg, -⟩ := init_simulates ar m
  rw [initSession, hrun]
  exact .init hrun hg

/-- The session after a call: what it leaves, and the client's book. -/
def Session.after (σ : Session) (h : Layout) (c : Call) : Session :=
  ⟨finalState (c.run σ.machine), c.update σ.live (c.apply h).2⟩

/-- A run goes on with any legal call there is room for. -/
theorem Run.call {ar : Arena} {m : Mem} (hrun : Run ar m es σ) (hlegal : c.Legal σ.live)
    (hroom : (layoutAfter ar.base es).brk + max (need c.size) 4096 ≤ ar.base + maxHeap) :
    Run ar m (es ++ [.call c (c.apply (layoutAfter ar.base es)).2])
      (σ.after (layoutAfter ar.base es) c) := by
  obtain ⟨hs, harena⟩ := hrun.simulates
  have hg := hs.granted_of_room hlegal (by
    rw [Machine.memMaxAddr, harena]
    exact hroom)
  obtain ⟨s', hcall, -⟩ := hs.call hlegal hg
  simp only [Session.after]
  rw [hcall] at hg ⊢
  exact hrun.step (.call hlegal hcall hg)

/-! ### Four sessions -/

/-- An arena at address 4096. -/
def sampleArena : Arena := ⟨4096, by decide, by decide, by decide⟩

/-- The session after `mm_init` on zeroed memory. -/
def startSession : Session := initSession sampleArena fun _ => 0

/-- It is reachable, and its layout is the first one. -/
theorem startSession_spec : Reachable startSession ∧ Simulates startSession (initial 4096) ∧
    startSession.machine.arena = sampleArena := by
  have hrun := initSession_run sampleArena fun _ => 0
  exact ⟨⟨_, _, _, hrun⟩, hrun.simulates⟩

/-- The session after `mm_malloc(n)` in addition. -/
def oneSession (n : ℕ) : Session := startSession.after (initial 4096) (.malloc n)

/-- It is the end of a legal run. -/
theorem oneSession_run (hn : need n ≤ 16 * 2 ^ 20) : Run sampleArena (fun _ => 0)
    [.call (.malloc n) ((initial 4096).malloc n).2] (oneSession n) := by
  have hlegal : Call.Legal startSession.live (.malloc n) := by
    change need n < 2 ^ 32
    omega
  exact (initSession_run sampleArena fun _ => 0).call hlegal (by
    change 8208 + max (need n) 4096 ≤ 4096 + 20 * 2 ^ 20
    omega)

/-- So it is reachable, and its layout is known. -/
theorem oneSession_spec (hn : need n ≤ 16 * 2 ^ 20) : Reachable (oneSession n) ∧
    Simulates (oneSession n) ((initial 4096).malloc n).1 ∧
    (oneSession n).machine.arena = sampleArena := by
  have hrun := oneSession_run hn
  exact ⟨⟨_, _, _, hrun⟩, hrun.simulates⟩

/-- The session after `mm_malloc(100)` and `mm_malloc(200)`. -/
def twoSession : Session := (oneSession 100).after ((initial 4096).malloc 100).1 (.malloc 200)

/-- The client holds two blocks. -/
theorem twoSession_live : twoSession.live = [⟨4224, 200⟩, ⟨4112, 100⟩] := by decide

/-- It is reachable, and its layout is known. -/
theorem twoSession_spec : Reachable twoSession ∧
    Simulates twoSession (((initial 4096).malloc 100).1.malloc 200).1 ∧
    twoSession.machine.arena = sampleArena := by
  have hlegal : Call.Legal (oneSession 100).live (.malloc 200) := by
    change need 200 < 2 ^ 32
    decide
  have hrun := (oneSession_run (n := 100) (by decide)).call hlegal (by decide)
  exact ⟨⟨_, _, _, hrun⟩, hrun.simulates⟩

/-- The session after `mm_malloc(5000)`, for which the heap grows, and `mm_free`. -/
def drainedSession : Session :=
  (oneSession 5000).after ((initial 4096).malloc 5000).1 (.free 4112)

/-- It is the end of a legal run. -/
theorem drainedSession_reachable : Reachable drainedSession := by
  have hlegal : Call.Legal (oneSession 5000).live (.free 4112) :=
    ⟨⟨4112, 5000⟩, by decide, rfl⟩
  exact ⟨_, _, _, (oneSession_run (n := 5000) (by decide)).call hlegal (by decide)⟩

end OsAndC
