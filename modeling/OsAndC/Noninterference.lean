import OsAndC.Walk

/-!
# Allocator Decisions Do Not Depend on Bytes

Two runs on arenas at the same address that issue the same calls may start from different
memory, and the clients may store different bytes at different times. `runs_agree` says that
no call can tell: every pointer returned is the same, and after every call the break, the
blocks and the free list are the same.

Both runs simulate the abstract allocator, which sees the calls alone: the layout of a run
is `layoutOf` its calls, the pointers returned are the `answers` to them.
-/

namespace OsAndC

open Layout

/-- The calls among the events of a run. -/
def calls (es : List Event) : List Call :=
  es.filterMap fun
    | .call c _ => some c
    | .write _ _ => none

/-- The pointers the calls have returned. -/
def returns (es : List Event) : List ℕ :=
  es.filterMap fun
    | .call _ q => some q
    | .write _ _ => none

/-- The two machines show the same heap: the same break, the same walk from the first block
and the same free list in the same order. -/
structure SameHeap (s s' : Machine) : Prop where
  memBrk : s.memBrk = s'.memBrk
  walk : ∃ bs, HeapWalk s (s.memHeapLo + 16) bs ∧ HeapWalk s' (s'.memHeapLo + 16) bs
  freeList : s.freeList = s'.freeList
  chain : ∃ l, NextChain s s.freeList l ∧ NextChain s' s'.freeList l

variable {σ σ' : Session} {ar ar' : Arena} {m m' : Mem} {es es' rest : List Event} {h : Layout}
  {cs : List Call} {c : Call} {q : ℕ}

/-- The calls of both parts. -/
@[simp] theorem calls_append : calls (es ++ rest) = calls es ++ calls rest :=
  List.filterMap_append

/-- The answers of both parts. -/
@[simp] theorem returns_append : returns (es ++ rest) = returns es ++ returns rest :=
  List.filterMap_append

/-! ### Decisions are functions of the calls -/

/-- The layout the calls `cs` lead to from `h`. -/
def layoutOf (h : Layout) (cs : List Call) : Layout := cs.foldl (fun h c => (c.apply h).1) h

/-- The pointers the abstract allocator answers the calls `cs` with. -/
def answers : Layout → List Call → List ℕ
  | _, [] => []
  | h, c :: cs => (c.apply h).2 :: answers (c.apply h).1 cs

/-- One more call, answered on the heap the others have left. -/
theorem answers_concat : answers h (cs ++ [c]) = answers h cs ++ [(c.apply (layoutOf h cs)).2] := by
  induction cs generalizing h with
  | nil => rfl
  | cons d cs ih => exact congrArg _ ih

/-- Writes of the client leave the layout alone. -/
theorem layoutAfter_eq (lo : ℕ) (es : List Event) :
    layoutAfter lo es = layoutOf (initial lo) (calls es) := by
  simp only [layoutAfter]
  induction es using List.reverseRecOn with
  | nil => rfl
  | append_singleton es e ih =>
      rw [List.foldl_append, ih, calls_append]
      simp only [layoutOf]
      rw [List.foldl_append]
      cases e <;> rfl

/-- The calls of a run return the answers of the abstract allocator. -/
theorem Run.returns_eq (hrun : Run ar m es σ) :
    returns es = answers (initial ar.base) (calls es) := by
  induction hrun with
  | init _ _ => rfl
  | @step es e σ σ' hrun hstep ih =>
      obtain ⟨hs, -⟩ := hrun.simulates
      rw [returns_append, calls_append, ih]
      cases hstep with
      | write _ _ _ => simp [returns, calls]
      | @call c q s' hlegal hcall hg =>
          obtain ⟨hq, -⟩ := hs.after_call hlegal hcall hg
          rw [layoutAfter_eq] at hq
          rw [hq]
          exact answers_concat.symm

/-! ### Two runs -/

/-- Two machines that represent one layout show the same heap. -/
theorem SameHeap.of_represents {s s' : Machine} (hr : Represents s h) (hr' : Represents s' h)
    (hw : Wf s.memHeapLo h) (hw' : Wf s'.memHeapLo h) : SameHeap s s' where
  memBrk := hr.brk.trans hr'.brk.symm
  walk := ⟨h.blocks, hr.walk hw, hr'.walk hw'⟩
  freeList := hr.chain.head.trans hr'.chain.head.symm
  chain := ⟨h.free, hr.nextChain, hr'.nextChain⟩

/-- Two runs with the same calls end with the same heap. -/
theorem Run.sameHeap (hrun : Run ar m es σ) (hrun' : Run ar' m' es' σ')
    (hbase : ar.base = ar'.base) (hcalls : calls es = calls es') :
    SameHeap σ.machine σ'.machine := by
  obtain ⟨hs, -⟩ := hrun.simulates
  obtain ⟨hs', -⟩ := hrun'.simulates
  have hlayout : layoutAfter ar.base es = layoutAfter ar'.base es' := by
    rw [layoutAfter_eq, layoutAfter_eq, hbase, hcalls]
  rw [← hlayout] at hs'
  exact .of_represents hs.represents hs'.represents hs.valid.toWf hs'.valid.toWf

/-- What a run has done up to some event is a run. -/
theorem Run.of_append (hrun : Run ar m (es ++ rest) σ) : ∃ τ, Run ar m es τ := by
  induction rest using List.reverseRecOn generalizing σ with
  | nil =>
      rw [List.append_nil] at hrun
      exact ⟨σ, hrun⟩
  | append_singleton rest e ih =>
      rw [← List.append_assoc] at hrun
      generalize hes : es ++ rest ++ [e] = es' at hrun
      cases hrun with
      | init _ _ => simp at hes
      | step hrun _ =>
          obtain ⟨heq, -⟩ := List.append_inj' hes rfl
          rw [← heq] at hrun
          exact ih hrun

/-- **Decisions do not depend on bytes.** Two runs on arenas at the same address that issue
the same calls get the same pointers, and wherever both have issued the same number of calls
their heaps are the same. -/
theorem runs_agree (hrun : Run ar m es σ) (hrun' : Run ar' m' es' σ')
    (hbase : ar.base = ar'.base) (hcalls : calls es = calls es') :
    returns es = returns es' ∧ SameHeap σ.machine σ'.machine ∧
      ∀ pre post pre' post', es = pre ++ post → es' = pre' ++ post' →
        (calls pre).length = (calls pre').length →
        (∃ τ τ', Run ar m pre τ ∧ Run ar' m' pre' τ') ∧
        ∀ τ τ', Run ar m pre τ → Run ar' m' pre' τ' → SameHeap τ.machine τ'.machine := by
  refine ⟨?_, hrun.sameHeap hrun' hbase hcalls, ?_⟩
  · rw [hrun.returns_eq, hrun'.returns_eq, hbase, hcalls]
  · rintro pre post pre' post' rfl rfl hlen
    obtain ⟨τ, hτ⟩ := hrun.of_append
    obtain ⟨τ', hτ'⟩ := hrun'.of_append
    rw [calls_append, calls_append] at hcalls
    obtain ⟨hpre, -⟩ := List.append_inj hcalls hlen
    exact ⟨⟨τ, τ', hτ, hτ'⟩, fun τ τ' hτ hτ' => hτ.sameHeap hτ' hbase hpre⟩

/-- A run on zeroed memory in which the client stores a byte, and one on memory full of ones
in which it does not. -/
theorem runs_agree_malloc :
    ∃ σ σ', SameHeap σ.machine σ'.machine ∧
      Run sampleArena (fun _ => 0) [.call (.malloc 100) 4112, .write 4112 7] σ ∧
      Run sampleArena (fun _ => 255) [.call (.malloc 100) 4112] σ' := by
  have hroom : (layoutAfter 4096 []).brk + max (need 100) 4096 ≤ 4096 + maxHeap := by decide
  have hlegal : ∀ m, Call.Legal (initSession sampleArena m).live (.malloc 100) := fun _ =>
    show need 100 < 2 ^ 32 by decide
  have hrun := ((initSession_run sampleArena fun _ => 0).call (hlegal _) hroom).step
    (.write (g := ⟨4112, 100⟩) (a := 4112) (v := 7) (List.mem_singleton_self _)
      (by decide) (by decide))
  have hrun' := (initSession_run sampleArena fun _ => 255).call (hlegal _) hroom
  exact ⟨_, _, (runs_agree hrun hrun' rfl rfl).2.1, hrun, hrun'⟩

end OsAndC
