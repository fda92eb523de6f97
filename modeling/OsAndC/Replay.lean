import OsAndC.Driver
import OsAndC.Service

/-!
# Traces on the Abstract Allocator

What a trace asks for, without memory. A `Replay` is the state of a pass over a trace on
the abstract allocator: the layout, the two arrays of the trace and the grants.
`Replay.step` is one request, and `Replay.run` a trace.

`Trace.WellFormed` is what the driver needs to rely on: every index names an entry of the
arrays, every size is a positive `int`, and only blocks that are held are resized or
released. The program that reads traces checks a part of this only.

`Replay.verdict` says what becomes of a pass by looking at the replay alone: the arena gets
too small at some request, or the comparison of `char` values after a `realloc` fails, or
the pass goes through.
-/

namespace OsAndC

open Layout

/-! ### Replays -/

/-- The call that a request makes, when the pointers of the trace are `blocks`. -/
def Traceop.call (op : Traceop) (blocks : List ℕ) : Call :=
  match op.type with
  | .alloc => .malloc (sizeT op.size)
  | .free => .free (blocks.getD op.index.toNat 0)
  | .realloc => .realloc (blocks.getD op.index.toNat 0) (sizeT op.size)

/-- The state of a pass on the abstract allocator. -/
structure Replay where
  layout : Layout
  blocks : List ℕ
  blockSizes : List ℕ
  live : List Grant
  deriving DecidableEq, Repr

namespace Replay

/-- The state after `mm_init` in an arena that starts at `lo`. -/
def start (lo : ℕ) (trace : Trace) : Replay :=
  ⟨initial lo, trace.blocks, trace.blockSizes, []⟩

/-- One request. -/
def step (r : Replay) (op : Traceop) : Replay :=
  let c := op.call r.blocks
  let q := (c.apply r.layout).2
  { layout := (c.apply r.layout).1
    blocks := if op.type = .free then r.blocks else r.blocks.set op.index.toNat q
    blockSizes :=
      if op.type = .free then r.blockSizes else r.blockSizes.set op.index.toNat (sizeT op.size)
    live := c.update r.live q }

/-- All requests of a list. -/
def run (r : Replay) (ops : List Traceop) : Replay := ops.foldl step r

/-- What the trace holds under the index `i`. -/
def grantOf (r : Replay) (i : ℤ) : Grant :=
  ⟨r.blocks.getD i.toNat 0, r.blockSizes.getD i.toNat 0⟩

end Replay

/-! ### Well-formed traces -/

/-- The request makes sense when the trace has `n` indices and holds blocks under those in
`owned`. -/
structure Traceop.Fits (op : Traceop) (n : ℤ) (owned : Finset ℤ) : Prop where
  index : 0 ≤ op.index ∧ op.index < n
  size : op.type ≠ .free → 0 < op.size ∧ op.size < 2 ^ 31
  owned : op.type ≠ .alloc → op.index ∈ owned

/-- The indices under which a block is held after the request. -/
def Traceop.ownedAfter (op : Traceop) (owned : Finset ℤ) : Finset ℤ :=
  match op.type with
  | .alloc => insert op.index owned
  | .free => owned.erase op.index
  | .realloc => owned

/-- What is held after a request was held before it, or is what the request is about. -/
theorem Traceop.mem_ownedAfter {op : Traceop} {owned : Finset ℤ} {j : ℤ}
    (hj : j ∈ op.ownedAfter owned) : j = op.index ∨ j ∈ owned := by
  obtain ⟨type, index, size⟩ := op
  cases type with
  | alloc => exact Finset.mem_insert.mp hj
  | free => exact Or.inr (Finset.mem_of_mem_erase hj)
  | realloc => exact Or.inr hj

/-- An index that is held after a request and not assigned by it was held before. -/
theorem Traceop.held_before {op : Traceop} {owned : Finset ℤ} {j : ℤ}
    (hj : j ∈ op.ownedAfter owned) (hnew : ¬ (op.type ≠ .free ∧ j = op.index)) : j ∈ owned := by
  rcases Traceop.mem_ownedAfter hj with rfl | hj'
  · by_cases htype : op.type = .free
    · rw [Traceop.ownedAfter, htype] at hj
      exact absurd rfl (Finset.ne_of_mem_erase hj)
    · exact absurd ⟨htype, rfl⟩ hnew
  · exact hj'

/-- Every request of the list makes sense when its turn comes. -/
def Balanced (n : ℤ) : Finset ℤ → List Traceop → Prop
  | _, [] => True
  | owned, op :: ops => op.Fits n owned ∧ Balanced n (op.ownedAfter owned) ops

/-- A trace whose numbers are right and whose requests make sense. -/
structure Trace.WellFormed (trace : Trace) : Prop where
  numOps : trace.numOps = trace.ops.length
  blocks : (trace.blocks.length : ℤ) = trace.numIds
  blockSizes : (trace.blockSizes.length : ℤ) = trace.numIds
  balanced : Balanced trace.numIds ∅ trace.ops

instance (op : Traceop) (n : ℤ) (owned : Finset ℤ) : Decidable (op.Fits n owned) :=
  decidable_of_iff ((0 ≤ op.index ∧ op.index < n) ∧
      (op.type ≠ .free → 0 < op.size ∧ op.size < 2 ^ 31) ∧ (op.type ≠ .alloc → op.index ∈ owned))
    ⟨fun h => ⟨h.1, h.2.1, h.2.2⟩, fun h => ⟨h.index, h.size, h.owned⟩⟩

instance decidableBalanced (n : ℤ) :
    (owned : Finset ℤ) → (ops : List Traceop) → Decidable (Balanced n owned ops)
  | _, [] => inferInstanceAs (Decidable True)
  | owned, op :: ops =>
      have := decidableBalanced n (op.ownedAfter owned) ops
      inferInstanceAs (Decidable (op.Fits n owned ∧ Balanced n (op.ownedAfter owned) ops))

/-! ### Verdicts -/

/-- What can become of a pass. -/
inductive Verdict
  | accepted
  /-- The request with this number gets a correct answer that is taken for a wrong one. -/
  | lostData (opnum : ℕ)
  /-- The arena gets too small. -/
  | outOfMemory
  deriving DecidableEq, Repr

/-- A `realloc` whose comparison fails although no data is lost: the byte written has the
sign bit, and the `char` read has a sign. -/
def Traceop.Misread (signedChar : Bool) (op : Traceop) : Prop :=
  signedChar = true ∧ op.type = .realloc ∧ 128 ≤ lowByte op.index

instance (signedChar : Bool) (op : Traceop) : Decidable (op.Misread signedChar) :=
  inferInstanceAs (Decidable (_ ∧ _))

/-- The verdict on the requests `ops`, of which the first has number `i`, in an arena that
ends at `top`. -/
def Replay.verdict (signedChar : Bool) (top : ℕ) : ℕ → Replay → List Traceop → Verdict
  | _, _, [] => .accepted
  | i, r, op :: ops =>
      if ¬ (op.call r.blocks).Served r.layout top then .outOfMemory
      else if op.Misread signedChar then .lostData i
      else verdict signedChar top (i + 1) (r.step op) ops

/-- The replay at the end of the validity pass, which stops at a misread request. -/
def Replay.judged (signedChar : Bool) : Replay → List Traceop → Replay
  | r, [] => r
  | r, op :: ops =>
      if op.Misread signedChar then r.step op else judged signedChar (r.step op) ops

/-! ### What is held -/

/-- The arrays have `n` entries. -/
structure Replay.Fills (r : Replay) (n : ℤ) : Prop where
  blocks : (r.blocks.length : ℤ) = n
  blockSizes : (r.blockSizes.length : ℤ) = n

/-- What is held under the indices in `owned` are distinct grants. -/
structure Replay.Owns (r : Replay) (n : ℤ) (owned : Finset ℤ) : Prop extends r.Fills n where
  grant : ∀ i ∈ owned, (0 ≤ i ∧ i < n) ∧ r.grantOf i ∈ r.live
  inj : ∀ i ∈ owned, ∀ j ∈ owned, (r.grantOf i).ptr = (r.grantOf j).ptr → i = j

variable {s : Machine} {r r' : Replay} {n z : ℤ} {owned : Finset ℤ} {op : Traceop} {i j : ℤ}
  {ops : List Traceop} {sc : Bool} {top m : ℕ}

/-- A run is accepted when its first request is served and not misread, and the rest is
accepted. -/
theorem Replay.verdict_cons : r.verdict sc top m (op :: ops) = .accepted ↔
    (op.call r.blocks).Served r.layout top ∧ ¬ op.Misread sc ∧
      (r.step op).verdict sc top (m + 1) ops = .accepted := by
  rw [Replay.verdict]
  split_ifs with hserved hread <;> simp_all

/-- A run is accepted when each request is served and none is misread. -/
theorem Replay.verdict_accepted : r.verdict sc top m ops = .accepted ↔
    (∀ pre op post, ops = pre ++ op :: post →
      (op.call (r.run pre).blocks).Served (r.run pre).layout top) ∧
      ∀ op ∈ ops, ¬ op.Misread sc := by
  induction ops generalizing r m with
  | nil => simp [Replay.verdict]
  | cons op ops ih =>
      rw [verdict_cons, ih]
      constructor
      · rintro ⟨hserved, hread, hall, hreads⟩
        refine ⟨fun pre op' post heq => ?_, List.forall_mem_cons.mpr ⟨hread, hreads⟩⟩
        cases pre with
        | nil =>
            obtain ⟨rfl, -⟩ := List.cons.inj heq
            exact hserved
        | cons op₀ pre =>
            obtain ⟨rfl, hrest⟩ := List.cons.inj heq
            exact hall pre op' post hrest
      · rintro ⟨hall, hreads⟩
        obtain ⟨hread, hreads⟩ := List.forall_mem_cons.mp hreads
        exact ⟨hall [] op ops rfl, hread,
          fun pre op' post heq => hall (op :: pre) op' post (by rw [heq]; rfl), hreads⟩

/-- Every request of a balanced list fits. -/
theorem Balanced.fits (hbal : Balanced n owned ops) (hop : op ∈ ops) :
    ∃ owned', op.Fits n owned' := by
  induction ops generalizing owned with
  | nil => cases hop
  | cons op' ops ih =>
      rcases List.mem_cons.mp hop with rfl | hop
      · exact ⟨owned, hbal.1⟩
      · exact ih hbal.2 hop

/-- The size that is asked for. -/
theorem Traceop.call_size {blocks : List ℕ} (htype : op.type ≠ .free) :
    (op.call blocks).size = sizeT op.size := by
  obtain ⟨type, index, size⟩ := op
  cases type with
  | alloc => rfl
  | free => exact absurd rfl htype
  | realloc => rfl

/-- The block that the call is about. -/
theorem Traceop.call_ptr {blocks : List ℕ} (htype : op.type ≠ .alloc) :
    (op.call blocks).ptr = blocks.getD op.index.toNat 0 := by
  obtain ⟨type, index, size⟩ := op
  cases type with
  | alloc => exact absurd rfl htype
  | free => rfl
  | realloc => rfl

/-- The code a request runs. -/
theorem Traceop.call_run {blocks : List ℕ} : (op.call blocks).run =
    match op.type with
    | .alloc => mmMalloc (sizeT op.size)
    | .free => do mmFree (blocks.getD op.index.toNat 0); return 0
    | .realloc => mmRealloc (blocks.getD op.index.toNat 0) (sizeT op.size) := by
  obtain ⟨type, index, size⟩ := op
  cases type <;> rfl

/-- The book after a request that has returned `q`. -/
theorem Traceop.call_update {blocks : List ℕ} {gs : List Grant} {q : ℕ}
    (hsize : op.type ≠ .free → 0 < sizeT op.size ∧ q ≠ 0) : (op.call blocks).update gs q =
    match op.type with
    | .alloc => ⟨q, sizeT op.size⟩ :: gs
    | .free => gs.filter fun g => g.ptr ≠ blocks.getD op.index.toNat 0
    | .realloc =>
        ⟨q, sizeT op.size⟩ :: gs.filter fun g => g.ptr ≠ blocks.getD op.index.toNat 0 := by
  obtain ⟨type, index, size⟩ := op
  cases type with
  | alloc => exact if_neg (hsize (by simp)).2
  | free => rfl
  | realloc =>
      obtain ⟨hpos, hq⟩ := hsize (by simp)
      exact (if_neg hpos.ne').trans (if_neg hq)

/-- The size of a request as a `size_t`. -/
theorem sizeT_eq (h : 0 < z ∧ z < 2 ^ 31) : (sizeT z : ℤ) = z ∧ 0 < sizeT z ∧ sizeT z < 2 ^ 31 := by
  simp only [sizeT]
  omega

namespace Replay.Fills

/-- What the arrays hold under `j` after an assignment to the entry `i`. -/
theorem grantOf_set {q k : ℕ} (hf : r.Fills n) (hi : 0 ≤ i ∧ i < n)
    (hj : 0 ≤ j) (hblocks : r'.blocks = r.blocks.set i.toNat q)
    (hsizes : r'.blockSizes = r.blockSizes.set i.toNat k) :
    r'.grantOf j = if j = i then ⟨q, k⟩ else r.grantOf j := by
  have hb := hf.blocks
  have hs := hf.blockSizes
  simp only [Replay.grantOf, hblocks, hsizes, List.getD_eq_getElem?_getD, List.getElem?_set]
  by_cases hji : j = i
  · subst hji
    rw [if_pos rfl, if_pos rfl, if_pos rfl, if_pos (by omega), if_pos (by omega)]
    rfl
  · rw [if_neg hji, if_neg (by omega), if_neg (by omega)]

/-- The arrays keep their lengths. -/
theorem step (hf : r.Fills n) : (r.step op).Fills n := by
  simp only [Replay.step]
  split_ifs
  · exact ⟨hf.blocks, hf.blockSizes⟩
  · exact ⟨by rw [List.length_set]; exact hf.blocks, by rw [List.length_set]; exact hf.blockSizes⟩

end Replay.Fills

namespace Replay.Owns

/-- A request that makes sense is a call by the book. -/
theorem byTheBook (ho : r.Owns n owned) (hop : op.Fits n owned) :
    (op.call r.blocks).ByTheBook r.live := by
  obtain ⟨type, index, size⟩ := op
  obtain ⟨-, hsize, howned⟩ := hop
  have hneed : ∀ z : ℤ, 0 < z ∧ z < 2 ^ 31 → 0 < sizeT z ∧ need (sizeT z) < 2 ^ 32 := by
    intro z hz
    obtain ⟨-, hpos, hlt⟩ := sizeT_eq hz
    simp only [need]
    omega
  have hholds : type ≠ .alloc → Holds r.live (r.blocks.getD index.toNat 0) := fun htype =>
    ⟨r.grantOf index, (ho.grant index (howned htype)).2, rfl⟩
  cases type with
  | alloc => exact hneed size (hsize (by simp))
  | free => exact hholds (by simp)
  | realloc => exact ⟨hneed size (hsize (by simp)), hholds (by simp)⟩

/-- A grant is put under the index `i`, and the others keep theirs. -/
theorem assign {q k : ℕ} (ho : r.Owns n owned) (hi : 0 ≤ i ∧ i < n)
    (hblocks : r'.blocks = r.blocks.set i.toNat q)
    (hsizes : r'.blockSizes = r.blockSizes.set i.toNat k) (hnew : ⟨q, k⟩ ∈ r'.live)
    (hold : ∀ j ∈ owned, j ≠ i → r.grantOf j ∈ r'.live ∧ (r.grantOf j).ptr ≠ q) :
    r'.Owns n (insert i owned) := by
  have hset : ∀ j, 0 ≤ j → r'.grantOf j = if j = i then ⟨q, k⟩ else r.grantOf j := fun j hj =>
    ho.grantOf_set hi hj hblocks hsizes
  have hrange : ∀ j ∈ insert i owned, 0 ≤ j ∧ j < n := fun j hj => by
    rcases Finset.mem_insert.mp hj with rfl | hj
    · exact hi
    · exact (ho.grant j hj).1
  refine ⟨⟨?_, ?_⟩, fun j hj => ⟨hrange j hj, ?_⟩, fun j hj j' hj' hptr => ?_⟩
  · rw [hblocks, List.length_set]
    exact ho.blocks
  · rw [hsizes, List.length_set]
    exact ho.blockSizes
  · rw [hset j (hrange j hj).1]
    split_ifs with hji
    · exact hnew
    · exact (hold j (Finset.mem_of_mem_insert_of_ne hj hji) hji).1
  · rw [hset j (hrange j hj).1, hset j' (hrange j' hj').1] at hptr
    split_ifs at hptr with hji hji' hji'
    · rw [hji, hji']
    · exact absurd hptr.symm (hold j' (Finset.mem_of_mem_insert_of_ne hj' hji') hji').2
    · exact absurd hptr (hold j (Finset.mem_of_mem_insert_of_ne hj hji) hji).2
    · exact ho.inj j (Finset.mem_of_mem_insert_of_ne hj hji) j'
        (Finset.mem_of_mem_insert_of_ne hj' hji') hptr

/-- The grant under an index that a request does not concern survives it. -/
theorem survives (ho : r.Owns n owned) (ht : Tended s r.layout r.live) (hop : op.Fits n owned)
    (hj : j ∈ owned) (hne : j ≠ op.index) :
    (r.grantOf j).ptr ≠ (op.call r.blocks).ptr ∧ r.grantOf j ∈ (r.step op).live ∧
      (r.grantOf j).ptr ≠ ((op.call r.blocks).apply r.layout).2 := by
  have hbook := ho.byTheBook hop
  have hgrant := (ho.grant j hj).2
  have hptr : (r.grantOf j).ptr ≠ (op.call r.blocks).ptr := by
    by_cases htype : op.type = .alloc
    · rw [Traceop.call, htype]
      exact ht.ptr_ne_zero hgrant
    · rw [Traceop.call_ptr htype]
      exact fun heq => hne (ho.inj j hj op.index (hop.owned htype) heq)
  exact ⟨hptr, (ht.mem_update hbook).mpr (Or.inr ⟨hgrant, hptr⟩), ht.fresh hbook hgrant hptr⟩

/-- The answer to a request for memory is written into the book. -/
theorem mem_live (ho : r.Owns n owned) (ht : Tended s r.layout r.live) (hop : op.Fits n owned)
    (htype : op.type ≠ .free) :
    ⟨((op.call r.blocks).apply r.layout).2, sizeT op.size⟩ ∈ (r.step op).live := by
  have hpos := (sizeT_eq (hop.size htype)).2.1
  refine (ht.mem_update (ho.byTheBook hop)).mpr (Or.inl ?_)
  rw [Traceop.call_size htype]
  exact ⟨hpos, rfl⟩

/-- The payload that a request gets does not meet one that it does not concern. -/
theorem apart_answer (ho : r.Owns n owned) (ht : Tended s r.layout r.live) {s' : Machine}
    (ht' : Tended s' (r.step op).layout (r.step op).live) (hop : op.Fits n owned)
    (htype : op.type ≠ .free) (hj : j ∈ owned) (hne : j ≠ op.index) {a : ℕ}
    (ha : a ∈ (r.grantOf j).range) : a ∉ Set.Ico ((op.call r.blocks).apply r.layout).2
      (((op.call r.blocks).apply r.layout).2 + sizeT op.size) := by
  obtain ⟨-, hlive, hptr⟩ := ho.survives ht hop hj hne
  have hapart : (r.grantOf j).ptr + (r.grantOf j).size ≤ _ ∨ _ ≤ (r.grantOf j).ptr :=
    ht'.apart hlive (ho.mem_live ht hop htype) hptr
  rintro ⟨h₁, h₂⟩
  obtain ⟨h₃, h₄⟩ := ha
  simp only [] at hapart
  omega

/-- **One request** leaves distinct grants under the indices held. -/
theorem step (ho : r.Owns n owned) (ht : Tended s r.layout r.live) (hop : op.Fits n owned) :
    (r.step op).Owns n (op.ownedAfter owned) := by
  have hold := fun j hj hne => (ho.survives ht hop (j := j) hj hne).2
  have hnew := ho.mem_live ht hop
  obtain ⟨type, index, size⟩ := op
  cases type with
  | alloc => exact ho.assign hop.index rfl rfl (hnew (by simp)) hold
  | free =>
      refine ⟨⟨ho.blocks, ho.blockSizes⟩, fun j hj => ?_, fun j hj j' hj' hptr => ?_⟩
      · obtain ⟨hne, hj⟩ := Finset.mem_erase.mp hj
        exact ⟨(ho.grant j hj).1, (hold j hj hne).1⟩
      · exact ho.inj j (Finset.mem_of_mem_erase hj) j' (Finset.mem_of_mem_erase hj') hptr
  | realloc =>
      have hassign := ho.assign hop.index rfl rfl (hnew (by simp)) hold
      rwa [Finset.insert_eq_of_mem (hop.owned (by simp))] at hassign

end Replay.Owns

end OsAndC
