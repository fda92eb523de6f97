import OsAndC.BoundedHeap
import OsAndC.DriverVerdict

/-!
# Traces with a Budget

When a trace asks for at most `n` bytes at a time and has at most `N` blocks at a time, its
replay keeps within the bound of `bounded_client`. So an arena of that size is large enough for
it, whatever the order of its requests, and `evalMmValid_budget` says what is left of the
verdict: from any heap that can be started again, the driver accepts such a trace exactly when
no `realloc` is misread.
-/

namespace OsAndC

open Layout

/-- The requests of a list that are of a type. -/
def countType (type : Request) (ops : List Traceop) : ℕ := ops.countP fun op => op.type = type

/-- The trace never asks for more than `n` bytes and never has more than `N` blocks. -/
structure Trace.Within (N n : ℕ) (trace : Trace) : Prop where
  sizes : ∀ op ∈ trace.ops, op.type ≠ .free → op.size ≤ n
  blocks : ∀ pre post, trace.ops = pre ++ post →
    countType .alloc pre ≤ countType .free pre + N

variable {s : Machine} {h : Layout} {c : Call} {gs : List Grant} {r : Replay} {op : Traceop}
  {ops : List Traceop} {owned : Finset ℤ} {d : Driver} {z : ℤ} {sc : Bool} {N n k p : ℕ}

/-- A call by the book of a modest client is served. -/
theorem Layout.Modest.served (hm : h.Modest N n s.memHeapLo) (ht : Tended s h gs) (hn : 0 < n)
    (hlen : gs.length ≤ N) (hc : c.ByTheBook gs) (hsize : c.size ≤ n)
    (hfits : heapBound N n ≤ maxHeap) : c.Served h s.memMaxAddr := by
  have hroom := hm.hasRoom ht hn hlen hc.legal hsize hfits
  cases c with
  | malloc n => exact fun hfit => hroom ⟨hc.1, hfit⟩
  | free p => trivial
  | realloc p n => exact fun hstay hfit => hroom ⟨hc.1.1, Or.inr hstay, hfit⟩

/-- Giving up one grant. -/
theorem Tended.length_filter (ht : Tended s h gs) (hp : Holds gs p) :
    (gs.filter fun g => g.ptr ≠ p).length + 1 = gs.length := by
  obtain ⟨g, hg, rfl⟩ := hp
  have hfilter : (gs.filter fun g' => g'.ptr ≠ g.ptr) = gs.filter fun g' => g' != g := by
    refine List.filter_congr fun g' hg' => ?_
    rw [Bool.eq_iff_iff, decide_eq_true_eq, bne_iff_ne]
    exact not_congr ⟨fun heq => ht.eq_of_ptr hg' hg heq, congrArg Grant.ptr⟩
  have hnd : gs.Nodup := List.Nodup.of_map Grant.ptr ht.nodup
  rw [hfilter, ← hnd.erase_eq_filter, List.length_erase_of_mem hg]
  exact Nat.sub_add_cancel (List.length_pos_of_mem hg)

/-- **One request** and the number of blocks held. -/
theorem Replay.length_step (ht : Tended s r.layout r.live) (ho : r.Owns z owned)
    (hop : op.Fits z owned) : (r.step op).live.length + countType .free [op] =
      r.live.length + countType .alloc [op] := by
  have hbook := ho.byTheBook hop
  have hheld : op.type ≠ .alloc →
      (r.live.filter fun g => g.ptr ≠ r.blocks.getD op.index.toNat 0).length + 1 =
        r.live.length := fun htype =>
    ht.length_filter ⟨r.grantOf op.index, (ho.grant op.index (hop.owned htype)).2, rfl⟩
  have hupdate : (r.step op).live =
      (op.call r.blocks).update r.live ((op.call r.blocks).apply r.layout).2 := rfl
  rw [hupdate, Traceop.call_update fun htype => ?_]
  · cases htype : op.type with
    | alloc => simp [countType, htype]
    | free => simpa [countType, htype] using hheld (by simp [htype])
    | realloc => simpa [countType, htype] using hheld (by simp [htype])
  · have hpos := (sizeT_eq (hop.size htype)).2.1
    exact ⟨hpos, ht.apply_ne_zero hbook (by rw [Traceop.call_size htype]; exact hpos)⟩

/-- **A trace with a budget** gets to its end, unless a request is misread. -/
theorem Replay.verdict_budget (ht : Tended s r.layout r.live) (ho : r.Owns z owned)
    (hbal : Balanced z owned ops) (hm : r.layout.Modest N n s.memHeapLo) (hn : 0 < n)
    (hsizes : ∀ op ∈ ops, op.type ≠ .free → op.size ≤ n)
    (hblocks : ∀ pre post, ops = pre ++ post →
      r.live.length + countType .alloc pre ≤ countType .free pre + N)
    (hfits : heapBound N n ≤ maxHeap) :
    r.verdict sc s.memMaxAddr k ops = .accepted ↔ ∀ op ∈ ops, ¬ op.Misread sc := by
  induction ops generalizing r s owned k with
  | nil => simp [Replay.verdict]
  | cons op ops ih =>
      obtain ⟨hop, hbal⟩ := hbal
      have hbook := ho.byTheBook hop
      have hlen : r.live.length ≤ N := by
        have h0 := hblocks [] (op :: ops) rfl
        simpa [countType] using h0
      have hsize : (op.call r.blocks).size ≤ n := by
        by_cases htype : op.type = .free
        · have hzero : (op.call r.blocks).size = 0 := by
            rw [Traceop.call, htype]
            rfl
          omega
        · have hle := hsizes op List.mem_cons_self htype
          have heq := (sizeT_eq (hop.size htype)).1
          rw [Traceop.call_size htype]
          omega
      have hserved := hm.served ht hn hlen hbook hsize hfits
      obtain ⟨s', -, ht', harena, -⟩ := ht.call hbook hserved
      have hlo : s'.memHeapLo = s.memHeapLo := Machine.memHeapLo_congr harena
      have htop : s'.memMaxAddr = s.memMaxAddr := by
        rw [Machine.memMaxAddr, harena, Machine.memMaxAddr]
      have hstep := Replay.length_step ht ho hop
      have hrest := ih (k := k + 1) ht' (ho.step ht hop) hbal
        (hlo.symm ▸ hm.call ht hn hlen hbook.legal hsize)
        (fun op' hop' => hsizes op' (List.mem_cons_of_mem op hop'))
        (fun pre post heq => by
          have hcount := hblocks (op :: pre) post (by rw [heq, List.cons_append])
          have hcons : ∀ type, countType type (op :: pre) =
              countType type [op] + countType type pre := fun type => by
            simp only [countType, List.countP_cons, List.countP_nil]
            omega
          rw [hcons, hcons] at hcount
          omega)
      rw [htop] at hrest
      rw [Replay.verdict_cons, hrest, List.forall_mem_cons]
      exact ⟨fun h0 => h0.2, fun h0 => ⟨hserved, h0⟩⟩

/-- **A trace with a budget is accepted**, from any heap whose free list does not start on the
new epilogue and in every order of its requests, if the arena is as large as the bound and no
`realloc` is misread. -/
theorem evalMmValid_budget (hwf : d.trace.WellFormed) (hf : Stale d.machine d.machine.freeList)
    (hn : 0 < n) (hw : d.trace.Within N n) (hfits : heapBound N n ≤ maxHeap) :
    (∃ d', evalMmValid mmPackage sc k d = .ok true d') ↔
      ∀ op ∈ d.trace.ops, ¬ op.Misread sc := by
  rw [evalMmValid_true_iff hwf hf]
  obtain ⟨s, ht, hlo, htop⟩ := Tended.exists_initial d.machine.arena
  have ho : d.replay.Owns d.trace.numIds ∅ :=
    ⟨⟨hwf.blocks, hwf.blockSizes⟩, by simp, by simp⟩
  have hm : (initial d.machine.arena.base).Modest N n s.memHeapLo := hlo ▸ initial_modest hn
  have hmax : d.machine.memMaxAddr = s.memMaxAddr := htop.symm
  rw [hmax]
  refine Replay.verdict_budget (r := d.replay) ht ho hwf.balanced hm hn hw.sizes ?_ hfits
  intro pre post heq
  have hblocks := hw.blocks pre post heq
  have hlive : d.replay.live.length = 0 := rfl
  omega

/-- The sample trace holds one block at a time, of 24 bytes at most. -/
theorem plainTrace_within : plainTrace.Within 1 24 := by
  refine ⟨by decide, fun pre post heq => ?_⟩
  have htake : pre = plainTrace.ops.take pre.length := by
    rw [heq, List.take_left']
    rfl
  have hlen : pre.length < 4 := by
    have hlen := congrArg List.length heq
    rw [List.length_append] at hlen
    exact Nat.lt_succ_of_le (Nat.le_of_add_right_le hlen.ge)
  have hcount : ∀ k < 4, countType .alloc (plainTrace.ops.take k) ≤
      countType .free (plainTrace.ops.take k) + 1 := by decide
  rw [htake]
  exact hcount _ hlen

/-- And is accepted. -/
theorem evalMmValid_budget_plain :
    ∃ d', evalMmValid mmPackage true 0 (sampleDriver plainTrace) = .ok true d' :=
  (evalMmValid_budget ⟨rfl, rfl, rfl, by decide⟩ (Or.inl rfl) (by decide) plainTrace_within
    (by decide)).mpr (by decide)

end OsAndC
