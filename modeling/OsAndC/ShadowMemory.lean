import OsAndC.HeapInvariants

/-!
# The Client's Account

What a client knows about a run without looking into memory. It can keep a book of its blocks
in which every byte is either unknown or the one last stored there: a new block is unknown, a
released one is struck out, and a resized one takes its bytes along as far as both sizes reach,
wherever it goes. `shadows` is this book, computed from the events alone.

`shadows_agree` says that it is right about the machine in every legal run: its blocks are
those the client holds, no two of them meet, and every byte it knows is in memory at the place
where the block is now. So the allocator is, for its client, a store: what is read is what was
last written.
-/

namespace OsAndC

open Layout

/-- A block of the client, and of each of its bytes what has last been stored in it. -/
structure Shadow where
  ptr : ℕ
  data : List (Option UInt8)
  deriving DecidableEq, Repr

namespace Shadow

/-- The grant that the block is. -/
def grant (b : Shadow) : Grant := ⟨b.ptr, b.data.length⟩

/-- The block after the byte `v` has been stored at `a`. -/
def store (a : ℕ) (v : UInt8) (b : Shadow) : Shadow :=
  if b.ptr ≤ a then { b with data := b.data.set (a - b.ptr) (some v) } else b

/-- The block gets `n` bytes and moves to `q`. -/
def resize (q n : ℕ) (b : Shadow) : Shadow :=
  ⟨q, b.data.take n ++ List.replicate (n - b.data.length) none⟩

/-- A new block. -/
def fresh (q n : ℕ) : Shadow := ⟨q, List.replicate n none⟩

/-- The block at `p` in the book, resized; when there is none, a new one. -/
def moved (bs : List Shadow) (p q n : ℕ) : Shadow :=
  (bs.find? fun b => b.ptr = p).elim (fresh q n) (resize q n)

end Shadow

/-- What an event does to the book. -/
def Event.shadow (bs : List Shadow) : Event → List Shadow
  | .call (.malloc n) q => if q = 0 then bs else .fresh q n :: bs
  | .call (.free p) _ => bs.filter fun b => b.ptr ≠ p
  | .call (.realloc p n) q =>
      if n = 0 then bs.filter fun b => b.ptr ≠ p
      else if q = 0 then bs
      else .moved bs p q n :: bs.filter fun b => b.ptr ≠ p
  | .write a v => bs.map (.store a v)

/-- The book after the events `es`. -/
def shadows (es : List Event) : List Shadow := es.foldl Event.shadow []

/-- The block is right about the memory `m`. -/
def Shadow.Known (b : Shadow) (m : Mem) : Prop :=
  ∀ i v, b.data[i]? = some (some v) → m (b.ptr + i) = v

/-- The book has the blocks that the client holds, and is right about their bytes. -/
structure Agrees (σ : Session) (bs : List Shadow) : Prop where
  live : bs.map Shadow.grant = σ.live
  known : ∀ b ∈ bs, b.Known σ.machine.mem

variable {σ τ : Session} {h : Layout} {c : Call} {e : Event} {es : List Event} {b : Shadow}
  {bs : List Shadow} {ar : Arena} {m m' : Mem} {a n p q : ℕ} {v : UInt8}

/-! ### Blocks of the book -/

namespace Shadow

/-- A store changes no grant. -/
@[simp] theorem grant_store : (b.store a v).grant = b.grant := by
  rw [store]
  split_ifs
  · rw [grant, grant, List.length_set]
  · rfl

/-- A new block is what has been granted. -/
@[simp] theorem grant_fresh : (fresh q n).grant = ⟨q, n⟩ := by
  rw [grant, fresh, List.length_replicate]

/-- A block that is resized in place keeps its address. -/
@[simp] theorem grant_resize : (b.resize q n).grant = ⟨q, n⟩ := by
  have hlen : (b.data.take n ++ List.replicate (n - b.data.length) none).length = n := by
    rw [List.length_append, List.length_take, List.length_replicate]
    omega
  rw [grant, resize, hlen]

/-- A block that is moved has a new one. -/
@[simp] theorem grant_moved : (moved bs p q n).grant = ⟨q, n⟩ := by
  rw [moved]
  cases bs.find? fun b => b.ptr = p with
  | none => exact grant_fresh
  | some b => exact grant_resize

/-- Nothing is known about a new block. -/
theorem known_fresh : (fresh q n).Known m := by
  intro i v hv
  have hmem := List.mem_of_getElem? hv
  exact absurd (List.eq_of_mem_replicate hmem) (Option.some_ne_none v)

/-- A resized block knows what it knew, if its bytes have been brought along. -/
theorem Known.resize (hb : b.Known m)
    (hdata : ∀ i, i < min b.data.length n → m' (q + i) = m (b.ptr + i)) :
    (b.resize q n).Known m' := by
  intro i v hv
  simp only [Shadow.resize] at hv
  have hold : i < n ∧ b.data[i]? = some (some v) := by
    rw [List.getElem?_append] at hv
    split_ifs at hv with hi
    · rw [List.length_take] at hi
      rw [List.getElem?_take_of_lt (by omega)] at hv
      exact ⟨by omega, hv⟩
    · have hmem := List.mem_of_getElem? hv
      exact absurd (List.eq_of_mem_replicate hmem) (Option.some_ne_none v)
  obtain ⟨hlt, -⟩ := List.getElem?_eq_some_iff.mp hold.2
  exact (hdata i (by omega)).trans (hb i v hold.2)

/-- A block that is not touched knows what it knew. -/
theorem Known.keep (hb : b.Known m) (hkeeps : ∀ a ∈ b.grant.range, m' a = m a) : b.Known m' := by
  intro i v hv
  obtain ⟨hlt, -⟩ := List.getElem?_eq_some_iff.mp hv
  have hin : b.ptr + i ∈ b.grant.range := by
    refine ⟨Nat.le_add_right _ _, ?_⟩
    simp only [grant]
    omega
  exact (hkeeps _ hin).trans (hb i v hv)

/-- A byte stored is known. -/
theorem Known.store (hb : b.Known m) : (b.store a v).Known (Function.update m a v) := by
  intro i w hw
  rw [Shadow.store] at hw ⊢
  split_ifs at hw ⊢ with hle
  · simp only [] at hw ⊢
    rw [List.getElem?_set] at hw
    split_ifs at hw with hi hlt
    · rw [← hi, Nat.add_sub_cancel' hle, Function.update_self]
      exact Option.some.inj (Option.some.inj hw)
    · rw [Function.update_of_ne (by omega)]
      exact hb i w hw
  · rw [Function.update_of_ne (by omega)]
    exact hb i w hw

end Shadow

/-! ### Events -/

/-- What a call leaves of the bytes the client holds: all of them outside the block it is given,
and of that one those that both sizes reach, at the pointer returned. -/
theorem Simulates.carries {s' : Machine} (hs : Simulates σ h) (hlegal : c.Legal σ.live)
    (hrun : c.run σ.machine = .ok q s') (hg : Granted s') :
    (∀ g ∈ σ.live, g.ptr ≠ c.ptr → ∀ a ∈ g.range, s'.mem a = σ.machine.mem a) ∧
      ∀ g ∈ σ.live, g.ptr = c.ptr →
        ∀ i, i < min g.size c.size → s'.mem (q + i) = σ.machine.mem (g.ptr + i) := by
  obtain ⟨s'', hrun', hi, hdata⟩ := hs.call hlegal (by rw [hrun]; exact hg)
  obtain ⟨rfl, rfl⟩ : q = (c.apply h).2 ∧ s' = s'' := by
    rw [hrun] at hrun'
    cases hrun'
    exact ⟨rfl, rfl⟩
  refine ⟨fun g hgl hgc a hain => ?_, fun g hgl hgc i hin => ?_⟩
  · obtain ⟨b, hb, hbg, hroom⟩ := hs.range_bounds hgl
    obtain ⟨h₁, h₂⟩ := hain
    exact hi.keeps b hb (hbg ▸ hgc) a (by omega) (by omega)
  · obtain ⟨b, hb, hbg, hroom⟩ := hs.range_bounds hgl
    rw [← hbg]
    exact hdata b hb (hbg.trans hgc) i (by omega) (by omega)

namespace Agrees

/-- The blocks of the book are those that are held. -/
theorem mem_live (ha : Agrees σ bs) (hb : b ∈ bs) : b.grant ∈ σ.live :=
  ha.live ▸ List.mem_map_of_mem hb

/-- Striking out a block strikes out its grant. -/
theorem live_filter (ha : Agrees σ bs) (p : ℕ) :
    (bs.filter fun b => b.ptr ≠ p).map Shadow.grant = σ.live.filter fun g => g.ptr ≠ p := by
  rw [← ha.live, List.filter_map]
  rfl

/-- A call that leaves what is outside the block at `p` leaves what is known there. -/
theorem known_filter (ha : Agrees σ bs)
    (hkeeps : ∀ g ∈ σ.live, g.ptr ≠ p → ∀ a ∈ g.range, m' a = σ.machine.mem a) :
    ∀ b ∈ bs.filter (fun b => b.ptr ≠ p), b.Known m' := by
  intro b hb
  obtain ⟨hbs, hbp⟩ := List.mem_filter.mp hb
  exact (ha.known b hbs).keep (hkeeps b.grant (ha.mem_live hbs) (of_decide_eq_true hbp))

/-- What the book has of a resized block is right, also when there was none. -/
theorem known_moved (ha : Agrees σ bs) (hdata : ∀ g ∈ σ.live, g.ptr = p →
      ∀ i, i < min g.size n → m' (q + i) = σ.machine.mem (g.ptr + i)) :
    (Shadow.moved bs p q n).Known m' := by
  rw [Shadow.moved]
  cases hfind : bs.find? fun b => b.ptr = p with
  | none => exact Shadow.known_fresh
  | some b =>
      have hb := List.mem_of_find?_eq_some hfind
      have hbp : b.ptr = p := by simpa using List.find?_some hfind
      exact (ha.known b hb).resize (hdata b.grant (ha.mem_live hb) hbp)

end Agrees

/-- **One event** of a legal run keeps the book right. -/
theorem Step.agrees (hs : Simulates σ h) (ha : Agrees σ bs) (hstep : Step σ e τ) :
    Agrees τ (e.shadow bs) := by
  cases hstep with
  | write hg h₁ h₂ =>
      refine ⟨?_, fun b hb => ?_⟩
      · rw [Event.shadow, List.map_map, ← ha.live]
        exact List.map_congr_left fun b _ => Shadow.grant_store
      · obtain ⟨d, hd, rfl⟩ := List.mem_map.mp hb
        exact (ha.known d hd).store
  | @call c q s' hlegal hrun hg =>
      obtain ⟨hkeeps, hdata⟩ := hs.carries hlegal hrun hg
      cases c with
      | malloc n =>
          have hknown : ∀ b ∈ bs, b.Known s'.mem := fun b hb =>
            (ha.known b hb).keep (hkeeps _ (ha.mem_live hb) (hs.ptr_ne_zero (ha.mem_live hb)))
          simp only [Event.shadow, Call.update]
          split_ifs with hq
          · exact ⟨ha.live, hknown⟩
          · refine ⟨?_, List.forall_mem_cons.mpr ⟨Shadow.known_fresh, hknown⟩⟩
            rw [List.map_cons, Shadow.grant_fresh, ha.live]
      | free p => exact ⟨ha.live_filter p, ha.known_filter hkeeps⟩
      | realloc p n =>
          simp only [Event.shadow, Call.update]
          split_ifs with hn hq
          · exact ⟨ha.live_filter p, ha.known_filter hkeeps⟩
          · -- Where nothing is refused, only a request for 0 bytes returns null.
            obtain ⟨-, hnull, -⟩ := apply_replaces hs.valid hlegal hs.holds
            rw [← (hs.after_call hlegal hrun hg).1] at hnull
            exact absurd (hnull.mp hq) hn
          · refine ⟨?_, List.forall_mem_cons.mpr ⟨ha.known_moved hdata, ha.known_filter hkeeps⟩⟩
            rw [List.map_cons, Shadow.grant_moved, ha.live_filter]

/-- The book is right after every legal run. -/
theorem Run.agrees (hrun : Run ar m es σ) : Agrees σ (shadows es) := by
  induction hrun with
  | init hinit hg => exact ⟨rfl, fun b hb => absurd hb List.not_mem_nil⟩
  | @step es e σ σ' hrun hstep ih =>
      obtain ⟨h, hs⟩ := Reachable.simulates ⟨ar, m, es, hrun⟩
      rw [shadows, List.foldl_concat]
      exact hstep.agrees hs ih

/-- **The client's book is right.** After every legal run its blocks are those the client holds,
no two of them meet, and a byte it knows is in memory where the block is now. -/
theorem shadows_agree (hrun : Run ar m es σ) :
    (shadows es).map Shadow.grant = σ.live ∧
      (shadows es).Pairwise (fun b d => b.grant.range ∩ d.grant.range = ∅) ∧
      ∀ b ∈ shadows es, ∀ i v, b.data[i]? = some (some v) →
        σ.machine.mem (b.ptr + i) = v := by
  obtain ⟨h, hs⟩ := Reachable.simulates ⟨ar, m, es, hrun⟩
  have ha := hrun.agrees
  refine ⟨ha.live, ?_, ha.known⟩
  have hdisj := hs.pairwise_disjoint
  rw [← ha.live] at hdisj
  exact List.pairwise_map.mp hdisj

/-- A byte stored in a block that `mm_realloc` then has to move. -/
theorem shadows_agree_moved :
    ∃ σ, Run sampleArena (fun _ => 0) [.call (.malloc 4) 4112, .call (.malloc 4) 4128,
        .write 4113 7, .call (.realloc 4112 20) 4144] σ ∧
      σ.live = [⟨4144, 20⟩, ⟨4128, 4⟩] ∧ σ.machine.mem 4145 = 7 := by
  have hfour : Call.Legal (oneSession 4).live (.malloc 4) := show need 4 < 2 ^ 32 by decide
  have hwrite := ((oneSession_run (n := 4) (by decide)).call hfour (by decide)).step
    (.write (g := ⟨4112, 4⟩) (a := 4113) (v := 7) (by decide) (by decide) (by decide))
  have hmove := hwrite.call (c := .realloc 4112 20)
    ⟨by decide, Or.inl ⟨⟨4112, 4⟩, by decide, rfl⟩⟩ (by decide)
  obtain ⟨hlive, -, hbytes⟩ := shadows_agree hmove
  refine ⟨_, hmove, hlive.symm, ?_⟩
  exact hbytes _ List.mem_cons_self 1 7 rfl

end OsAndC
