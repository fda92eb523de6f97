import Mathlib.Data.List.Perm.Basic
import Mathlib.Data.List.Perm.Lattice
import OsAndC.Tiling

/-!
# The Abstract Allocator

What the allocator is for, without memory: a `Layout` is the sequence of blocks of the
heap, the free list in order, and the break. The operations are stated on these alone.
A request takes the first listed block that fits, splitting off what is left over; a
released block and an extension of the heap are joined with their free neighbours, and the
joined block is put at the head of the list; a block grows in place over a free neighbour
that is large enough.

`Layout.Valid` is the invariant: the blocks tile the heap from its first block to the
break, all sizes are multiples of 8 and at least 16, the list names exactly the free
blocks, and no two free blocks are adjacent. Every operation preserves it, and says what
it does to the allocated blocks (`Layout.Allocated`).
-/

namespace OsAndC

/-- A heap without its memory: the blocks in address order, the free list, the break. -/
structure Layout where
  blocks : List Block
  free : List ℕ
  brk : ℕ
  deriving DecidableEq, Repr

/-- The block size that serves a request for `n` bytes: `n` rounded up to a multiple of 8,
and two words of overhead. -/
def need (n : ℕ) : ℕ := (n + 7) / 8 * 8 + 8

/-- A block has at least 16 bytes, and 8 more than are asked for. -/
theorem need_pos {n : ℕ} (h : 0 < n) : 16 ≤ need n ∧ need n % 8 = 0 ∧ n + 8 ≤ need n := by
  simp only [need]
  omega

/-- Cut a block for a request of block size `k`, splitting off the rest when it can be a
block of its own. -/
def Block.cut (b : Block) (k : ℕ) : List Block :=
  if 16 ≤ b.size - k then [⟨b.addr, k, true⟩, ⟨b.addr + k, b.size - k, false⟩]
  else [⟨b.addr, b.size, true⟩]

namespace Layout

variable (h : Layout)

/-- The size of the block at `a`. -/
def sizeAt (a : ℕ) : ℕ := ((blockAt? h.blocks a).map Block.size).getD 0

/-- The first listed block that fits a request of block size `k`. -/
def fit? (k : ℕ) : Option ℕ := h.free.find? fun a => k ≤ h.sizeAt a

/-- Join the free blocks around `a`, and put the joined block in front of the list in
place of all that went into it. -/
def coalesce (a : ℕ) : Layout :=
  let bs := glue h.blocks
  { h with
    blocks := bs
    free := owner bs a :: h.free.filter fun x => x ≠ owner bs a ∧ x ∈ bs.map Block.addr }

/-- Serve a request of block size `k` from the block at `a`, which is not listed. -/
def place (a k : ℕ) : Layout :=
  { h with
    blocks := replaceAt a (fun b => b.cut k) h.blocks
    free := if 16 ≤ h.sizeAt a - k then (a + k) :: h.free else h.free }

/-- Serve a request of block size `k` from the listed block at `a`. -/
def take (a k : ℕ) : Layout := { h with free := h.free.erase a }.place a k

/-- Extend the heap by `g` bytes. -/
def extend (g : ℕ) : Layout :=
  { blocks := h.blocks ++ [⟨h.brk, g, false⟩], free := h.brk :: h.free,
    brk := h.brk + g : Layout }.coalesce h.brk

/-- Release the block at `p`. -/
def release (p : ℕ) : Layout :=
  { h with
    blocks := replaceAt p (fun b => [{ b with alloc := false }]) h.blocks
    free := p :: h.free : Layout }.coalesce p

/-- Let the block at `p` take over the listed block behind it. -/
def absorb (p : ℕ) : Layout :=
  let q := p + h.sizeAt p
  { h with
    blocks := replaceAt p (fun b => [{ b with size := b.size + h.sizeAt q }])
      (replaceAt q (fun _ => []) h.blocks)
    free := h.free.erase q }

/-- Allocate `n` bytes; the second component is the pointer returned. -/
def malloc (n : ℕ) : Layout × ℕ :=
  if n = 0 then (h, 0)
  else match h.fit? (need n) with
    | some a => (h.take a (need n), a)
    | none =>
        let h' := h.extend (max (need n) 4096)
        (h'.take (h'.free.headD 0) (need n), h'.free.headD 0)

/-- Whether the block at `p` can grow in place to block size `k`. -/
def CanGrow (p k : ℕ) : Prop :=
  p + h.sizeAt p ∈ h.free ∧ k ≤ h.sizeAt p + h.sizeAt (p + h.sizeAt p)

instance (p k : ℕ) : Decidable (h.CanGrow p k) := inferInstanceAs (Decidable (_ ∧ _))

/-- Resize the block at `p` to `n` bytes. -/
def realloc (p n : ℕ) : Layout × ℕ :=
  if n = 0 then (h.release p, 0)
  else if p = 0 then h.malloc n
  else if need n ≤ h.sizeAt p then (h, p)
  else if h.CanGrow p (need n) then ((h.absorb p).place p (need n), p)
  else ((h.malloc n).1.release p, (h.malloc n).2)

/-- The layout `mm_init` leaves in an arena that starts at `lo`. -/
def initial (lo : ℕ) : Layout :=
  ⟨[⟨lo + 16, 4096, false⟩], [lo + 16], lo + 4112⟩

/-! ### The invariant -/

/-- The blocks tile the heap and the list names the free ones. Adjacent free blocks are
allowed. -/
structure Wf (lo : ℕ) (h : Layout) : Prop where
  base : lo % 8 = 0
  tiles : Tiles (lo + 16) h.blocks
  sizes : ∀ b ∈ h.blocks, 16 ≤ b.size ∧ b.size % 8 = 0
  brk_eq : h.brk = lo + 16 + extent h.blocks
  perm : h.free.Perm (freeAddrs h.blocks)

/-- The invariant of the heap. -/
structure Valid (lo : ℕ) (h : Layout) : Prop extends Wf lo h where
  coalesced : Coalesced h.blocks

/-- `b` is an allocated block of the heap. -/
def Allocated (b : Block) : Prop := b ∈ h.blocks ∧ b.alloc = true

variable {h} {lo a p k n g : ℕ} {b : Block} {xs ys : List Block}

/-- No block is listed twice. -/
theorem Wf.nodup (hw : Wf lo h) : h.free.Nodup :=
  hw.perm.nodup_iff.mpr hw.tiles.nodup_freeAddrs

/-- The list has the free blocks. -/
theorem Wf.mem_free (hw : Wf lo h) : a ∈ h.free ↔ ∃ b ∈ h.blocks, b.addr = a ∧ b.alloc = false :=
  hw.perm.mem_iff.trans mem_freeAddrs

/-- The local facts of one block of the heap. -/
theorem Wf.block (hw : Wf lo h) (hb : b ∈ h.blocks) :
    lo + 16 ≤ b.addr ∧ b.addr % 8 = 0 ∧ 16 ≤ b.size ∧ b.size % 8 = 0 ∧
      b.addr + b.size ≤ h.brk := by
  obtain ⟨hlo, -, hhi⟩ := hw.tiles.bounds hb
  obtain ⟨h16, h8⟩ := hw.sizes b hb
  have hbrk := hw.brk_eq
  refine ⟨hlo, ?_, h16, h8, by omega⟩
  obtain ⟨xs, ys, hxy⟩ := List.append_of_mem hb
  have ht := hw.tiles
  have hsz := hw.sizes
  rw [hxy] at ht hsz
  have hext : extent xs % 8 = 0 :=
    extent_mod_eq_zero fun x hx => (hsz x (List.mem_append_left _ hx)).2
  have hbase := hw.base
  have hmid := ht.middle.1
  omega

/-- The size found at the address of a block is its size. -/
theorem Wf.sizeAt (hw : Wf lo h) (hb : b ∈ h.blocks) : h.sizeAt b.addr = b.size := by
  rw [Layout.sizeAt, hw.tiles.blockAt? hb]
  rfl

/-- Blocks with one address are one block. -/
theorem Wf.eq_of_addr (hw : Wf lo h) {b c : Block} (hb : b ∈ h.blocks) (hc : c ∈ h.blocks)
    (hbc : b.addr = c.addr) : b = c :=
  hw.tiles.eq_of_addr hb hc hbc

/-- The block that starts where another one ends comes right after it. -/
theorem Wf.next_of_addr (hw : Wf lo h) (hbs : h.blocks = xs ++ b :: ys) {c : Block}
    (hc : c ∈ h.blocks) (hbc : c.addr = b.addr + b.size) : ∃ zs, ys = c :: zs := by
  have ht := hw.tiles
  rw [hbs] at ht
  obtain ⟨hb, hpos, hxs, -⟩ := ht.middle
  cases ys with
  | nil =>
      rw [hbs] at hc
      rcases List.mem_append.mp hc with hc | hc
      · have := hxs c hc
        omega
      · obtain rfl := List.mem_singleton.mp hc
        omega
  | cons z zs =>
      obtain ⟨-, -, -, hz, -⟩ := tiles_append.mp ht
      have hzc : z = c := hw.eq_of_addr (by rw [hbs]; simp) hc (by omega)
      exact ⟨zs, by rw [hzc]⟩

/-! ### Serving a request -/

/-- The parts of a block cover what it covered. -/
theorem cut_tiles (hb : b.addr = a) (hk : 0 < k) (hkb : k ≤ b.size) (hb0 : 0 < b.size) :
    Tiles a (b.cut k) ∧ extent (b.cut k) = extent [b] := by
  simp only [Block.cut]
  split_ifs with hc
  · refine ⟨⟨hb, hk, by simp only []; omega, by simp only []; omega, trivial⟩, ?_⟩
    simp only [extent_cons, extent_nil]
    omega
  · exact ⟨⟨hb, hb0, trivial⟩, by simp⟩

/-- The parts of a block have sizes that blocks may have. -/
theorem cut_sizes (hk : 16 ≤ k ∧ k % 8 = 0) (hb : 16 ≤ b.size ∧ b.size % 8 = 0) {c : Block}
    (hc : c ∈ b.cut k) : 16 ≤ c.size ∧ c.size % 8 = 0 := by
  simp only [Block.cut] at hc
  split_ifs at hc with h16
  · simp only [List.mem_cons, List.not_mem_nil, or_false] at hc
    rcases hc with rfl | rfl
    · exact hk
    · exact ⟨h16, by simp only []; omega⟩
  · obtain rfl := List.mem_singleton.mp hc
    exact hb

/-- Placing cuts one block and lists the rest, if there is one. -/
theorem place_eq (hw : Tiles (lo + 16) h.blocks) (hbs : h.blocks = xs ++ b :: ys) :
    h.place b.addr k =
      ⟨xs ++ b.cut k ++ ys,
        if 16 ≤ b.size - k then (b.addr + k) :: h.free else h.free, h.brk⟩ := by
  have hsize : h.sizeAt b.addr = b.size := by
    rw [sizeAt, hw.blockAt? (by rw [hbs]; simp)]
    rfl
  rw [place, hsize]
  rw [hbs] at hw ⊢
  rw [hw.replaceAt]

/-- Placing keeps the invariant: the block is allocated, and what is split off is a listed
free block. The block behind must not be free, for what is split off is not joined. -/
theorem place_valid (hbase : lo % 8 = 0) (ht : Tiles (lo + 16) h.blocks)
    (hsz : ∀ c ∈ h.blocks, 16 ≤ c.size ∧ c.size % 8 = 0)
    (hbrk : h.brk = lo + 16 + extent h.blocks) (hbs : h.blocks = xs ++ b :: ys)
    (hperm : h.free.Perm (freeAddrs (xs ++ ys))) (hxs : Coalesced xs) (hys : Coalesced ys)
    (hhead : ∀ y ∈ ys.head?, y.alloc = true) (hk : 16 ≤ k ∧ k % 8 = 0) (hkb : k ≤ b.size) :
    Valid lo (h.place b.addr k) := by
  rw [place_eq ht hbs]
  rw [hbs] at ht hsz hbrk
  have hb : b ∈ xs ++ b :: ys := by simp
  obtain ⟨htc, hec⟩ := cut_tiles (a := lo + 16 + extent xs) ht.middle.1 (by omega) hkb
    (ht.bounds hb).2.1
  have hbs' : xs ++ b :: ys = xs ++ [b] ++ ys := by simp
  rw [hbs'] at ht hbrk
  obtain ⟨ht', he'⟩ := ht.replace htc hec
  refine ⟨⟨hbase, ht', fun c hc => ?_, by rw [hbrk, he'], ?_⟩, ?_⟩
  · rcases List.mem_append.mp hc with hc | hc
    · rcases List.mem_append.mp hc with hc | hc
      · exact hsz c (List.mem_append_left _ hc)
      · exact cut_sizes hk (hsz b hb) hc
    · exact hsz c (List.mem_append_right _ (List.mem_cons_of_mem b hc))
  · simp only [Block.cut]
    rw [freeAddrs_append] at hperm
    split_ifs with h16
    · simp only [freeAddrs_append, freeAddrs_cons_alloc, freeAddrs_cons_free, freeAddrs_nil,
        List.append_assoc, List.singleton_append]
      exact (hperm.cons _).trans List.perm_middle.symm
    · simpa only [freeAddrs_append, freeAddrs_cons_alloc, freeAddrs_nil, List.append_nil]
        using hperm
  · simp only [Block.cut]
    split_ifs with h16
    · refine List.isChain_append.mpr ⟨List.isChain_append.mpr ⟨hxs, ?_, ?_⟩, hys, ?_⟩
      · exact List.isChain_cons_cons.mpr ⟨Or.inl rfl, List.isChain_singleton _⟩
      · exact fun x hx y hy => Or.inr (by obtain rfl := Option.some.inj hy; rfl)
      · exact fun x hx y hy => Or.inr (hhead y hy)
    · refine List.isChain_append.mpr ⟨List.isChain_append.mpr ⟨hxs, ?_, ?_⟩, hys, ?_⟩
      · exact List.isChain_singleton _
      · exact fun x hx y hy => Or.inr (by obtain rfl := Option.some.inj hy; rfl)
      · exact fun x hx y hy => Or.inr (hhead y hy)

/-- The size a block of size `size` serves a request of block size `k` with. -/
def grant (size k : ℕ) : ℕ := if 16 ≤ size - k then k else size

/-- The block handed out is large enough, and less than 16 bytes larger than need be. -/
theorem grant_bounds {size : ℕ} (hk : k ≤ size) :
    k ≤ grant size k ∧ grant size k < k + 16 ∧ grant size k ≤ size := by
  simp only [grant]
  split_ifs <;> omega

/-- Placing allocates the one block, and touches no other allocated block. -/
theorem place_allocated (ht : Tiles (lo + 16) h.blocks) (hbs : h.blocks = xs ++ b :: ys)
    {c : Block} : (h.place b.addr k).Allocated c ↔
      c = ⟨b.addr, grant b.size k, true⟩ ∨ c ∈ xs ++ ys ∧ c.alloc = true := by
  rw [place_eq ht hbs]
  simp only [Allocated, Block.cut, grant]
  simp only [List.mem_append]
  split_ifs with h16
  · simp only [List.mem_cons, List.not_mem_nil, or_false]
    constructor
    · rintro ⟨(hc | rfl | rfl) | hc, ha⟩
      · exact Or.inr ⟨Or.inl hc, ha⟩
      · exact Or.inl rfl
      · cases ha
      · exact Or.inr ⟨Or.inr hc, ha⟩
    · rintro (rfl | ⟨hc | hc, ha⟩)
      · exact ⟨Or.inl (Or.inr (Or.inl rfl)), rfl⟩
      · exact ⟨Or.inl (Or.inl hc), ha⟩
      · exact ⟨Or.inr hc, ha⟩
  · simp only [List.mem_singleton]
    constructor
    · rintro ⟨(hc | rfl) | hc, ha⟩
      · exact Or.inr ⟨Or.inl hc, ha⟩
      · exact Or.inl rfl
      · exact Or.inr ⟨Or.inr hc, ha⟩
    · rintro (rfl | ⟨hc | hc, ha⟩)
      · exact ⟨Or.inl (Or.inr rfl), rfl⟩
      · exact ⟨Or.inl (Or.inl hc), ha⟩
      · exact ⟨Or.inr hc, ha⟩

/-! ### Joining -/

/-- What `coalesce` does where the free blocks to join form one run. -/
theorem coalesce_eq {r : Block} {rs pre post : List Block} (hw : Wf lo h)
    (hbs : h.blocks = pre ++ r :: rs ++ post) (hr : ∀ x ∈ r :: rs, x.alloc = false)
    (hpre : Coalesced pre) (hpost : Coalesced post)
    (hl : ∀ x ∈ pre.getLast?, x.alloc = true) (hh : ∀ y ∈ post.head?, y.alloc = true)
    (hb : b ∈ r :: rs) :
    h.coalesce b.addr = ⟨pre ++ ⟨r.addr, extent (r :: rs), false⟩ :: post,
      r.addr :: h.free.filter (fun x => x ∉ (r :: rs).map Block.addr), h.brk⟩ := by
  have hg : glue h.blocks = pre ++ ⟨r.addr, extent (r :: rs), false⟩ :: post := by
    rw [hbs, glue_around hr hpre hpost hl hh]
  have htg := hw.tiles.glue.1
  rw [hg] at htg
  have ht := hw.tiles
  rw [hbs] at ht
  have hnd := ht.nodup
  simp only [List.map_append] at hnd
  obtain ⟨hndpr, -, hdpost⟩ := List.nodup_append.mp hnd
  obtain ⟨-, hndrun, hdpre⟩ := List.nodup_append.mp hndpr
  -- the joined block covers the address of every block of the run
  have hcover : r.addr ≤ b.addr ∧ b.addr < r.addr + extent (r :: rs) := by
    obtain ⟨-, hrun⟩ := tiles_append.mp (tiles_append.mp ht).1
    have hra := hrun.1
    have := hrun.bounds hb
    omega
  have howner := htg.owner hcover.1 hcover.2
  simp only [coalesce]
  simp only [hg, howner]
  refine congrArg (fun l => (⟨_, l, h.brk⟩ : Layout)) ?_
  refine congrArg _ (List.filter_congr fun x hx => ?_)
  -- a listed address is that of a free block before, in or after the run
  obtain ⟨c, hc, rfl, -⟩ := hw.mem_free.mp hx
  rw [hbs] at hc
  simp only [List.map_append, List.map_cons, List.mem_append, List.mem_cons, not_or]
  rw [decide_eq_decide]
  rcases List.mem_append.mp hc with hc | hc
  · rcases List.mem_append.mp hc with hc | hc
    · have hmem := List.mem_map_of_mem (f := Block.addr) hc
      have hne : ∀ z ∈ r :: rs, c.addr ≠ z.addr := fun z hz =>
        hdpre _ hmem _ (List.mem_map_of_mem hz)
      constructor
      · rintro ⟨h0, -⟩
        refine ⟨h0, ?_⟩
        intro hin
        obtain ⟨z, hz, hza⟩ := List.mem_map.mp hin
        exact hne z (List.mem_cons_of_mem r hz) hza.symm
      · exact fun h0 => ⟨h0.1, Or.inl hmem⟩
    · rcases List.mem_cons.mp hc with rfl | hc
      · simp
      · have hmem := List.mem_map_of_mem (f := Block.addr) hc
        have hrun := List.mem_map_of_mem (f := Block.addr) (List.mem_cons_of_mem r hc)
        constructor
        · rintro ⟨h0, hin | hin | hin⟩
          · exact absurd rfl (hdpre _ hin _ hrun)
          · exact absurd hin h0
          · exact absurd rfl (hdpost _ (List.mem_append_right _ hrun) _ hin)
        · exact fun h0 => absurd hmem h0.2
  · have hmem := List.mem_map_of_mem (f := Block.addr) hc
    have hne : ∀ z ∈ r :: rs, z.addr ≠ c.addr := fun z hz =>
      hdpost _ (List.mem_append_right _ (List.mem_map_of_mem hz)) _ hmem
    constructor
    · rintro ⟨h0, -⟩
      refine ⟨h0, ?_⟩
      intro hin
      obtain ⟨z, hz, hza⟩ := List.mem_map.mp hin
      exact hne z (List.mem_cons_of_mem r hz) hza
    · exact fun h0 => ⟨h0.1, Or.inr (Or.inr hmem)⟩

/-- Joining around a free block restores the invariant where every two adjacent free blocks
involve that block. -/
theorem Wf.coalesce_valid (hw : Wf lo h) (hbs : h.blocks = xs ++ b :: ys)
    (hb : b.alloc = false) (hxs : Coalesced xs) (hys : Coalesced ys) :
    Valid lo (h.coalesce b.addr) := by
  obtain ⟨pre, r, rs, post, hrun, hr, hbr, hpre, hpost, hl, hh⟩ := exists_run hb hxs hys
  rw [hrun] at hbs
  obtain ⟨htg, heg⟩ := hw.tiles.glue
  have hcg := coalesced_glue h.blocks
  rw [hbs, glue_around hr hpre hpost hl hh] at htg heg hcg
  rw [coalesce_eq hw hbs hr hpre hpost hl hh hbr]
  have hsz : ∀ x ∈ pre ++ r :: rs ++ post, 16 ≤ x.size ∧ x.size % 8 = 0 := hbs ▸ hw.sizes
  refine ⟨⟨hw.base, htg, fun c hc => ?_, ?_, ?_⟩, hcg⟩
  · rcases List.mem_append.mp hc with hc | hc
    · exact hsz c (by simp [hc])
    · rcases List.mem_cons.mp hc with rfl | hc
      · have hr16 := (hsz r (by simp)).1
        have h8 : extent (r :: rs) % 8 = 0 := extent_mod_eq_zero fun x hx =>
          (hsz x (List.mem_append_left _ (List.mem_append_right _ hx))).2
        simp only [extent_cons] at h8 ⊢
        omega
      · exact hsz c (by simp [hc])
  · rw [hw.brk_eq, hbs, heg]
  · have hnd := hw.tiles.nodup
    rw [hbs] at hnd
    simp only [List.map_append] at hnd
    obtain ⟨hndpr, -, hdpost⟩ := List.nodup_append.mp hnd
    obtain ⟨-, -, hdpre⟩ := List.nodup_append.mp hndpr
    have hsub : ∀ l : List Block, ∀ x ∈ freeAddrs l, x ∈ l.map Block.addr := by
      intro l x hx
      obtain ⟨c, hc, rfl, -⟩ := mem_freeAddrs.mp hx
      exact List.mem_map_of_mem hc
    have hfpre : (freeAddrs pre).filter (fun x => x ∉ (r :: rs).map Block.addr) =
        freeAddrs pre :=
      List.filter_eq_self.mpr fun x hx => decide_eq_true fun hin =>
        hdpre x (hsub pre x hx) x hin rfl
    have hfpost : (freeAddrs post).filter (fun x => x ∉ (r :: rs).map Block.addr) =
        freeAddrs post :=
      List.filter_eq_self.mpr fun x hx => decide_eq_true fun hin =>
        hdpost x (List.mem_append_right _ hin) x (hsub post x hx) rfl
    have hfrun : (freeAddrs (r :: rs)).filter (fun x => x ∉ (r :: rs).map Block.addr) = [] :=
      List.filter_eq_nil_iff.mpr fun x hx h0 => of_decide_eq_true h0 (hsub _ x hx)
    have hperm := hw.perm.filter fun x => x ∉ (r :: rs).map Block.addr
    rw [hbs, freeAddrs_append, freeAddrs_append, List.filter_append, List.filter_append, hfpre,
      hfrun, hfpost, List.append_nil] at hperm
    rw [freeAddrs_append, freeAddrs_cons_free rfl]
    exact (hperm.cons _).trans List.perm_middle.symm

/-- Joining touches no allocated block. -/
theorem coalesce_allocated {c : Block} : (h.coalesce a).Allocated c ↔ h.Allocated c :=
  and_congr_left fun hc => mem_glue_of_alloc hc

/-- A valid heap is determined by its range and its allocated blocks. -/
theorem Valid.blocks_eq {h' : Layout} (hv : Valid lo h) (hv' : Valid lo h')
    (hbrk : h.brk = h'.brk) (hall : ∀ c, h.Allocated c ↔ h'.Allocated c) :
    h.blocks = h'.blocks := by
  have he := hv.brk_eq
  have he' := hv'.brk_eq
  refine hv.tiles.eq_of_alloc hv'.tiles hv.coalesced hv'.coalesced (by omega) fun d hd => ?_
  have hd' := hall d
  simpa [Allocated, hd] using hd'

/-! ### The operations -/

/-- A block of a valid heap, with what stands on either side of it. -/
theorem Valid.split (hv : Valid lo h) (hb : b ∈ h.blocks) :
    ∃ xs ys, h.blocks = xs ++ b :: ys ∧ Coalesced xs ∧ Coalesced ys ∧
      ∀ y ∈ ys.head?, Apart b y := by
  obtain ⟨xs, ys, hbs⟩ := List.append_of_mem hb
  have hc := hv.coalesced
  rw [hbs] at hc
  obtain ⟨hxs, hbys, -⟩ := List.isChain_append.mp hc
  obtain ⟨-, hys, hhead⟩ := List.isChain_append.mp (show Coalesced ([b] ++ ys) from hbys)
  exact ⟨xs, ys, hbs, hxs, hys, fun y hy => hhead b rfl y hy⟩

/-- The blocks behind a block are coalesced among themselves. -/
theorem Valid.split_right (hv : Valid lo h) (hbs : h.blocks = xs ++ b :: ys) : Coalesced ys := by
  have hc := hv.coalesced
  rw [hbs] at hc
  exact List.IsChain.tail (List.isChain_append.mp hc).2.1

/-- The layout between marking a block free and joining it. -/
theorem Valid.marked (hv : Valid lo h) (hbs : h.blocks = xs ++ b :: ys) (hb : b.alloc = true) :
    Wf lo ⟨xs ++ { b with alloc := false } :: ys, b.addr :: h.free, h.brk⟩ := by
  have ht := hv.tiles
  have hsz := hv.sizes
  have hbrk := hv.brk_eq
  have hperm := hv.perm
  rw [hbs] at ht hsz hbrk hperm
  have hbs' : xs ++ b :: ys = xs ++ [b] ++ ys := by simp
  rw [hbs'] at ht hbrk
  obtain ⟨hxb, -⟩ := tiles_append.mp ht
  have htm : Tiles (lo + 16 + extent xs) [{ b with alloc := false }] := (tiles_append.mp hxb).2
  obtain ⟨ht', he'⟩ := ht.replace htm rfl
  rw [List.append_assoc, List.singleton_append] at ht' he'
  refine ⟨hv.base, ht', fun c hc => ?_, by rw [he', hbrk], ?_⟩
  · rcases List.mem_append.mp hc with hc | hc
    · exact hsz c (List.mem_append_left _ hc)
    · rcases List.mem_cons.mp hc with rfl | hc
      · exact hsz b (by simp)
      · exact hsz c (by simp [hc])
  · rw [freeAddrs_append, freeAddrs_cons_alloc hb] at hperm
    rw [freeAddrs_append, freeAddrs_cons_free rfl]
    exact (hperm.cons _).trans List.perm_middle.symm

/-- Releasing marks one block free, lists it and coalesces around it. -/
theorem release_eq (hw : Wf lo h) (hbs : h.blocks = xs ++ b :: ys) :
    h.release b.addr = (⟨xs ++ { b with alloc := false } :: ys, b.addr :: h.free, h.brk⟩ :
      Layout).coalesce b.addr := by
  have ht := hw.tiles
  rw [hbs] at ht
  rw [release, hbs, ht.replaceAt, List.append_assoc]
  rfl

/-- Releasing a block keeps the layout valid. -/
theorem Valid.release (hv : Valid lo h) (hb : h.Allocated b) : Valid lo (h.release b.addr) := by
  obtain ⟨xs, ys, hbs, hxs, hys, -⟩ := hv.split hb.1
  rw [release_eq hv.toWf hbs]
  exact (hv.marked hbs hb.2).coalesce_valid (b := { b with alloc := false }) rfl rfl hxs hys

/-- Releasing gives up the one block, and touches no other allocated block. -/
theorem Valid.release_allocated (hv : Valid lo h) (hb : h.Allocated b) {c : Block} :
    (h.release b.addr).Allocated c ↔ h.Allocated c ∧ c.addr ≠ b.addr := by
  obtain ⟨xs, ys, hbs, -⟩ := hv.split hb.1
  have ht := hv.tiles
  rw [hbs] at ht
  have hne : ∀ c ∈ xs ++ ys, c.addr ≠ b.addr := fun c hc => ht.addr_ne hc
  rw [release_eq hv.toWf hbs, coalesce_allocated]
  simp only [Allocated]
  rw [hbs]
  constructor
  · rintro ⟨hc, ha⟩
    rcases List.mem_append.mp hc with hc | hc
    · exact ⟨⟨by simp [hc], ha⟩, hne c (by simp [hc])⟩
    · rcases List.mem_cons.mp hc with rfl | hc
      · cases ha
      · exact ⟨⟨by simp [hc], ha⟩, hne c (by simp [hc])⟩
  · rintro ⟨⟨hc, ha⟩, hcb⟩
    refine ⟨?_, ha⟩
    rcases List.mem_append.mp hc with hc | hc
    · simp [hc]
    · rcases List.mem_cons.mp hc with rfl | hc
      · exact absurd rfl hcb
      · simp [hc]

/-- The layout between appending the new block and joining it. -/
theorem Valid.appended (hv : Valid lo h) (hg : 16 ≤ g ∧ g % 8 = 0) :
    Wf lo ⟨h.blocks ++ [⟨h.brk, g, false⟩], h.brk :: h.free, h.brk + g⟩ := by
  refine ⟨hv.base, tiles_append.mpr ⟨hv.tiles, hv.brk_eq, by simp only []; omega, trivial⟩,
    fun c hc => ?_, ?_, ?_⟩
  · rcases List.mem_append.mp hc with hc | hc
    · exact hv.sizes c hc
    · obtain rfl := List.mem_singleton.mp hc
      exact hg
  · have := hv.brk_eq
    simp only [extent_append, extent_cons, extent_nil]
    omega
  · rw [freeAddrs_append, freeAddrs_cons_free rfl, freeAddrs_nil]
    exact (hv.perm.cons _).trans (List.perm_append_singleton _ _).symm

/-- Extending the heap keeps the layout valid. -/
theorem Valid.extend (hv : Valid lo h) (hg : 16 ≤ g ∧ g % 8 = 0) : Valid lo (h.extend g) :=
  (hv.appended hg).coalesce_valid (b := ⟨h.brk, g, false⟩) rfl rfl hv.coalesced List.isChain_nil

/-- Extending the heap allocates nothing and releases nothing. -/
theorem extend_allocated {c : Block} : (h.extend g).Allocated c ↔ h.Allocated c := by
  rw [extend, coalesce_allocated]
  simp only [Allocated]
  simp only [List.mem_append, List.mem_singleton]
  constructor
  · rintro ⟨hc | rfl, ha⟩
    · exact ⟨hc, ha⟩
    · cases ha
  · exact fun hc => ⟨Or.inl hc.1, hc.2⟩

/-- The block an extension leaves at the head of the list is free and at least as large as
the extension. -/
theorem Valid.extend_head (hv : Valid lo h) (hg : 16 ≤ g ∧ g % 8 = 0) :
    ∃ b ∈ (h.extend g).blocks, b.addr = (h.extend g).free.headD 0 ∧ b.alloc = false ∧
      g ≤ b.size := by
  have hw := hv.appended hg
  obtain ⟨pre, r, rs, post, hrun, hr, hbr, hpre, hpost, hl, hh⟩ :=
    exists_run (b := ⟨h.brk, g, false⟩) rfl hv.coalesced List.isChain_nil
  have heq : h.extend g = _ := coalesce_eq hw hrun hr hpre hpost hl hh hbr
  rw [heq]
  refine ⟨⟨r.addr, extent (r :: rs), false⟩, by simp, rfl, rfl, ?_⟩
  have ht := hw.tiles
  simp only [hrun] at ht
  have hrun' := (tiles_append.mp (tiles_append.mp ht).1).2
  have hge : ∀ {l : List Block} {a : ℕ} {c : Block}, Tiles a l → c ∈ l → c.size ≤ extent l := by
    intro l a c hl hc
    have := hl.bounds hc
    omega
  exact hge hrun' hbr

/-- What an extension by `g` bytes makes of a heap: the last block is `g` bytes larger if it
was free, otherwise there is a new block of `g` bytes behind it, and the block comes to the
front of the list. -/
inductive Grows (h : Layout) (g : ℕ) : Layout → Prop
  | merged {pre : List Block} {d : Block} : h.blocks = pre ++ [d] → d.alloc = false →
      Grows h g ⟨pre ++ [⟨d.addr, d.size + g, false⟩], d.addr :: h.free.erase d.addr, h.brk + g⟩
  | apart : (∀ d ∈ h.blocks.getLast?, d.alloc = true) →
      Grows h g ⟨h.blocks ++ [⟨h.brk, g, false⟩], h.brk :: h.free, h.brk + g⟩

/-- No listed block starts at the break. -/
theorem Wf.brk_notMem (hw : Wf lo h) : h.brk ∉ h.free := by
  intro hmem
  obtain ⟨b, hb, hbrk, -⟩ := hw.mem_free.mp hmem
  have := hw.block hb
  omega

/-- Extending the heap grows it. -/
theorem Valid.grows (hv : Valid lo h) (hg : 16 ≤ g ∧ g % 8 = 0) : Grows h g (h.extend g) := by
  have hw := hv.appended hg
  by_cases hlast : ∀ d ∈ h.blocks.getLast?, d.alloc = true
  · have hrun : h.blocks ++ [⟨h.brk, g, false⟩] = h.blocks ++ [⟨h.brk, g, false⟩] ++ [] := by simp
    have heq := coalesce_eq (b := ⟨h.brk, g, false⟩) hw hrun (by simp) hv.coalesced
      List.isChain_nil hlast (by simp) (by simp)
    have hfilter : (h.brk :: h.free).filter (fun x => x ∉ [h.brk]) = h.free := by
      rw [List.filter_cons_of_neg (by simp)]
      exact List.filter_eq_self.mpr fun a ha => decide_eq_true fun h0 =>
        hv.brk_notMem (List.mem_singleton.mp h0 ▸ ha)
    have hext : h.extend g = ⟨h.blocks ++ [⟨h.brk, g, false⟩], h.brk :: h.free, h.brk + g⟩ := by
      refine heq.trans ?_
      simp only [List.map_cons, List.map_nil, hfilter, extent_cons, extent_nil, Nat.add_zero]
    rw [hext]
    exact .apart hlast
  · obtain ⟨pre, d, hbs, hd⟩ : ∃ pre d, h.blocks = pre ++ [d] ∧ d.alloc = false := by
      rcases h.blocks.eq_nil_or_concat' with hnil | ⟨pre, d, hbs⟩
      · exact absurd (by simp [hnil]) hlast
      · refine ⟨pre, d, hbs, ?_⟩
        simpa [hbs] using hlast
    have hc := hv.coalesced
    rw [hbs] at hc
    obtain ⟨hpre, -, hpd⟩ := List.isChain_append.mp hc
    have hl : ∀ x ∈ pre.getLast?, x.alloc = true := fun x hx =>
      (hpd x hx d rfl).resolve_right (by simp [hd])
    have hrun : h.blocks ++ [⟨h.brk, g, false⟩] = pre ++ [d, ⟨h.brk, g, false⟩] ++ [] := by
      simp [hbs]
    have heq := coalesce_eq (b := ⟨h.brk, g, false⟩) hw hrun (by simp [hd]) hpre List.isChain_nil
      hl (by simp) (by simp)
    have hfilter : (h.brk :: h.free).filter (fun x => x ∉ [d.addr, h.brk]) =
        h.free.erase d.addr := by
      rw [List.filter_cons_of_neg (by simp), hv.nodup.erase_eq_filter]
      refine List.filter_congr fun x hx => ?_
      have hne : x ≠ h.brk := fun h0 => hv.brk_notMem (h0 ▸ hx)
      rw [Bool.eq_iff_iff, decide_eq_true_eq, bne_iff_ne]
      simp [hne]
    have hext : h.extend g = ⟨pre ++ [⟨d.addr, d.size + g, false⟩],
        d.addr :: h.free.erase d.addr, h.brk + g⟩ := by
      refine heq.trans ?_
      simp only [List.map_cons, List.map_nil, hfilter, extent_cons, extent_nil, Nat.add_zero]
    rw [hext]
    exact .merged hbs hd

/-- The first fit is the first listed block that is large enough. -/
theorem Valid.fit?_some (hv : Valid lo h) (hf : h.fit? k = some a) :
    ∃ b ∈ h.blocks, b.addr = a ∧ b.alloc = false ∧ k ≤ b.size := by
  obtain ⟨b, hb, rfl, hfree⟩ := hv.mem_free.mp (List.mem_of_find?_eq_some hf)
  unfold fit? at hf
  have hk := List.find?_some hf
  rw [hv.sizeAt hb, decide_eq_true_eq] at hk
  exact ⟨b, hb, rfl, hfree, hk⟩

/-- There is no fit exactly when no free block of the heap is large enough. -/
theorem Valid.fit?_eq_none (hv : Valid lo h) :
    h.fit? k = none ↔ ∀ b ∈ h.blocks, b.alloc = false → b.size < k := by
  rw [fit?, List.find?_eq_none]
  constructor
  · intro hn b hb hfree
    have hk := hn b.addr (hv.mem_free.mpr ⟨b, hb, rfl, hfree⟩)
    rw [hv.sizeAt hb, decide_eq_true_eq, not_le] at hk
    exact hk
  · intro hn x hx
    obtain ⟨b, hb, rfl, hfree⟩ := hv.mem_free.mp hx
    rw [hv.sizeAt hb, decide_eq_true_eq, not_le]
    exact hn b hb hfree

/-- Removing a free block from the list, as a permutation of the others. -/
theorem Wf.erase_perm (hw : Wf lo h) (hbs : h.blocks = xs ++ b :: ys) (hb : b.alloc = false) :
    (h.free.erase b.addr).Perm (freeAddrs (xs ++ ys)) := by
  have hperm := hw.perm
  rw [hbs, freeAddrs_append, freeAddrs_cons_free hb] at hperm
  have := (hperm.trans List.perm_middle).erase b.addr
  rwa [List.erase_cons_head, ← freeAddrs_append] at this

/-- Taking a free block that is large enough keeps the layout valid. -/
theorem Valid.take (hv : Valid lo h) (hb : b ∈ h.blocks) (hfree : b.alloc = false)
    (hk : 16 ≤ k ∧ k % 8 = 0) (hkb : k ≤ b.size) : Valid lo (h.take b.addr k) := by
  obtain ⟨xs, ys, hbs, hxs, hys, hhead⟩ := hv.split hb
  refine place_valid (h := { h with free := h.free.erase b.addr }) hv.base hv.tiles hv.sizes
    hv.brk_eq hbs (hv.erase_perm hbs hfree) hxs hys (fun y hy => ?_) hk hkb
  exact (hhead y hy).resolve_left (by simp [hfree])

/-- Taking a block adds it to the allocated ones, cut to its size. -/
theorem Valid.take_allocated (hv : Valid lo h) (hb : b ∈ h.blocks) (hfree : b.alloc = false)
    {c : Block} : (h.take b.addr k).Allocated c ↔
      c = ⟨b.addr, grant b.size k, true⟩ ∨ h.Allocated c := by
  obtain ⟨xs, ys, hbs, -⟩ := hv.split hb
  refine (place_allocated (h := { h with free := h.free.erase b.addr }) hv.tiles hbs).trans ?_
  refine or_congr_right ?_
  rw [Allocated, hbs]
  constructor
  · rintro ⟨hc, ha⟩
    exact ⟨by rcases List.mem_append.mp hc with hc | hc <;> simp [hc], ha⟩
  · rintro ⟨hc, ha⟩
    have hcb : c ≠ b := by
      rintro rfl
      simp [hfree] at ha
    simp only [List.mem_append, List.mem_cons, hcb, false_or] at hc
    exact ⟨List.mem_append.mpr hc, ha⟩

/-- What allocation does: it keeps the invariant, allocates one block that was not allocated
before, of a size that fits the request with less than 16 bytes to spare, and touches no
other allocated block. -/
theorem Valid.malloc (hv : Valid lo h) (hn : 0 < n) :
    Valid lo (h.malloc n).1 ∧ lo < (h.malloc n).2 ∧
      (∀ c, h.Allocated c → c.addr ≠ (h.malloc n).2) ∧
      ∃ size, need n ≤ size ∧ size < need n + 16 ∧
        ∀ c, (h.malloc n).1.Allocated c ↔
          c = ⟨(h.malloc n).2, size, true⟩ ∨ h.Allocated c := by
  obtain ⟨h16, h8, -⟩ := need_pos hn
  rw [Layout.malloc, if_neg (by omega)]
  cases hf : h.fit? (need n) with
  | some a =>
      obtain ⟨b, hb, rfl, hfree, hk⟩ := hv.fit?_some hf
      have hlo := (hv.block hb).1
      obtain ⟨hg₁, hg₂, -⟩ := grant_bounds hk
      refine ⟨hv.take hb hfree ⟨h16, h8⟩ hk, by simp only []; omega, ?_, grant b.size (need n),
        hg₁, hg₂, fun c => hv.take_allocated hb hfree⟩
      intro c hc hcb
      have := hv.eq_of_addr hc.1 hb hcb
      simp [Allocated, this, hfree] at hc
  | none =>
      have hg : 16 ≤ max (need n) 4096 ∧ max (need n) 4096 % 8 = 0 := by omega
      have hv' := hv.extend hg
      obtain ⟨b, hb, hba, hfree, hgb⟩ := hv.extend_head hg
      have hlo := (hv'.block hb).1
      have hk : need n ≤ b.size := by omega
      obtain ⟨hg₁, hg₂, -⟩ := grant_bounds hk
      simp only [← hba]
      refine ⟨hv'.take hb hfree ⟨h16, h8⟩ hk, by omega, ?_, grant b.size (need n), hg₁, hg₂,
        fun c => (hv'.take_allocated hb hfree).trans (or_congr_right extend_allocated)⟩
      intro c hc hcb
      have := hv'.eq_of_addr (extend_allocated.mpr hc).1 hb hcb
      simp [Allocated, this, hfree] at hc

/-! ### Growing in place -/

/-- A block that can grow is followed by a free block. -/
theorem Valid.canGrow (hv : Valid lo h) (hb : b ∈ h.blocks) (hg : h.CanGrow b.addr k) :
    ∃ xs d ys, h.blocks = xs ++ b :: d :: ys ∧ d.alloc = false ∧ k ≤ b.size + d.size ∧
      d.addr = b.addr + b.size := by
  obtain ⟨hmem, hk⟩ := hg
  rw [hv.sizeAt hb] at hmem hk
  obtain ⟨d, hd, hda, hfree⟩ := hv.mem_free.mp hmem
  rw [← hda, hv.sizeAt hd] at hk
  obtain ⟨xs, ys, hbs, -⟩ := hv.split hb
  obtain ⟨zs, rfl⟩ := hv.next_of_addr hbs hd hda
  exact ⟨xs, d, zs, hbs, hfree, hk, hda⟩

/-- Absorbing the next block leaves one block in place of the two, and unlinks a node. -/
theorem absorb_eq {d : Block} (hw : Wf lo h) (hbs : h.blocks = xs ++ b :: d :: ys)
    (hda : d.addr = b.addr + b.size) :
    h.absorb b.addr = ⟨xs ++ { b with size := b.size + d.size } :: ys, h.free.erase d.addr,
      h.brk⟩ := by
  have hb : b ∈ h.blocks := by rw [hbs]; simp
  have hd : d ∈ h.blocks := by rw [hbs]; simp
  have ht := hw.tiles
  have hbs' : h.blocks = xs ++ [b] ++ d :: ys := by rw [hbs]; simp
  simp only [absorb]
  simp only [hw.sizeAt hb, ← hda, hw.sizeAt hd]
  rw [hbs'] at ht ⊢
  rw [ht.replaceAt, List.append_nil]
  -- without `d` the sequence has a gap, so the second replacement is made by hand
  have hne : ∀ c ∈ xs ++ ys, c.addr ≠ b.addr := by
    intro c hc
    have ht' := hw.tiles
    rw [hbs] at ht'
    refine ht'.addr_ne ?_
    rcases List.mem_append.mp hc with hc | hc <;> simp [hc]
  have hx := replaceAt_of_notMem (f := fun b => [{ b with size := b.size + d.size }])
    fun c hc => hne c (List.mem_append_left _ hc)
  have hy := replaceAt_of_notMem (f := fun b => [{ b with size := b.size + d.size }])
    fun c hc => hne c (List.mem_append_right _ hc)
  simp only [replaceAt] at hx hy ⊢
  simp only [List.flatMap_append, hx, hy, List.flatMap_cons, if_true, List.append_assoc,
    List.singleton_append]

/-- The heap with the two blocks made one is still a tiling. -/
theorem Valid.absorbed (hv : Valid lo h) {d : Block} (hbs : h.blocks = xs ++ b :: d :: ys) :
    Tiles (lo + 16) (xs ++ { b with size := b.size + d.size } :: ys) ∧
      extent (xs ++ { b with size := b.size + d.size } :: ys) = extent h.blocks := by
  have hbs' : h.blocks = xs ++ [b, d] ++ ys := by rw [hbs]; simp
  have ht := hv.tiles
  rw [hbs'] at ht
  obtain ⟨hxb, -⟩ := tiles_append.mp ht
  obtain ⟨hba, hb0, -⟩ := (tiles_append.mp hxb).2
  have htm : Tiles (lo + 16 + extent xs) [{ b with size := b.size + d.size }] :=
    ⟨hba, Nat.add_pos_left hb0 _, trivial⟩
  have hr := ht.replace htm (by simp)
  rwa [List.append_assoc, List.singleton_append, ← hbs'] at hr

/-- Growing in place absorbs the next block and cuts off what is too much. -/
theorem Valid.grow_eq (hv : Valid lo h) {d : Block} (hbs : h.blocks = xs ++ b :: d :: ys)
    (hda : d.addr = b.addr + b.size) : (h.absorb b.addr).place b.addr k =
      ⟨xs ++ Block.cut ⟨b.addr, b.size + d.size, b.alloc⟩ k ++ ys,
        if 16 ≤ b.size + d.size - k then (b.addr + k) :: h.free.erase d.addr
        else h.free.erase d.addr, h.brk⟩ := by
  rw [absorb_eq hv.toWf hbs hda]
  exact place_eq (b := { b with size := b.size + d.size }) (hv.absorbed hbs).1 rfl

/-- Growing in place keeps the layout valid. -/
theorem Valid.grow (hv : Valid lo h) (hb : b ∈ h.blocks) (hk : 16 ≤ k ∧ k % 8 = 0)
    (hg : h.CanGrow b.addr k) : Valid lo ((h.absorb b.addr).place b.addr k) := by
  obtain ⟨xs, d, ys, hbs, hfree, hkd, hda⟩ := hv.canGrow hb hg
  have hd : d ∈ h.blocks := by rw [hbs]; simp
  have hbs' : h.blocks = xs ++ [b] ++ d :: ys := by rw [hbs]; simp
  obtain ⟨ht, he⟩ := hv.absorbed hbs
  rw [absorb_eq hv.toWf hbs hda]
  have hc := hv.coalesced
  rw [hbs] at hc
  obtain ⟨hxs, hbys, -⟩ := List.isChain_append.mp hc
  have hdys : Coalesced (d :: ys) := List.IsChain.tail hbys
  obtain ⟨-, hys, hhead⟩ := List.isChain_append.mp (show Coalesced ([d] ++ ys) from hdys)
  have hperm := hv.erase_perm hbs' hfree
  have hsb := hv.sizes b hb
  have hsd := hv.sizes d hd
  refine place_valid (b := { b with size := b.size + d.size }) hv.base ht (fun c hc => ?_)
    (by simp only []; rw [hv.brk_eq, he]) rfl ?_ hxs hys (fun y hy => ?_) hk hkd
  · rcases List.mem_append.mp hc with hc | hc
    · exact hv.sizes c (by rw [hbs]; simp [hc])
    · rcases List.mem_cons.mp hc with rfl | hc
      · exact ⟨by simp only []; omega, by simp only []; omega⟩
      · exact hv.sizes c (by rw [hbs]; simp [hc])
  · cases hba : b.alloc with
    | true => simpa [freeAddrs_append, freeAddrs_cons_alloc hba] using hperm
    | false =>
        -- two adjacent free blocks are excluded
        have := (List.isChain_append.mp (show Coalesced ([b] ++ d :: ys) from hbys)).2.2 b rfl d rfl
        simp [Apart, hba, hfree] at this
  · exact (hhead d rfl y hy).resolve_left (by simp [hfree])

/-- Growing in place replaces one allocated block by a larger one at its address. -/
theorem Valid.grow_allocated (hv : Valid lo h) (hb : b ∈ h.blocks)
    (hg : h.CanGrow b.addr k) :
    ∃ size, k ≤ size ∧ size < k + 16 ∧ ∀ c,
      ((h.absorb b.addr).place b.addr k).Allocated c ↔
        c = ⟨b.addr, size, true⟩ ∨ h.Allocated c ∧ c.addr ≠ b.addr := by
  obtain ⟨xs, d, ys, hbs, hfree, hkd, hda⟩ := hv.canGrow hb hg
  have ht := (hv.absorbed hbs).1
  rw [absorb_eq hv.toWf hbs hda]
  obtain ⟨hg₁, hg₂, -⟩ := grant_bounds hkd
  refine ⟨grant (b.size + d.size) k, hg₁, hg₂, ?_⟩
  intro c
  refine (place_allocated (b := { b with size := b.size + d.size }) ht rfl).trans ?_
  refine or_congr_right ?_
  have hne : ∀ c ∈ xs ++ ys, c.addr ≠ b.addr := fun c hc => ht.addr_ne hc
  rw [Allocated, hbs]
  constructor
  · rintro ⟨hc, ha⟩
    exact ⟨⟨by rcases List.mem_append.mp hc with hc | hc <;> simp [hc], ha⟩, hne c hc⟩
  · rintro ⟨⟨hc, ha⟩, hcb⟩
    have h₁ : c ≠ b := by rintro rfl; exact hcb rfl
    have h₂ : c ≠ d := by rintro rfl; simp [hfree] at ha
    simp only [List.mem_append, List.mem_cons, h₁, h₂, false_or] at hc
    exact ⟨List.mem_append.mpr hc, ha⟩

/-- What resizing a live block does: it keeps the invariant, replaces the block by one of a
size that fits the request, and touches no other allocated block. -/
theorem Valid.realloc (hv : Valid lo h) (hb : h.Allocated b) (hn : 0 < n) :
    Valid lo (h.realloc b.addr n).1 ∧ (h.realloc b.addr n).2 ≠ 0 ∧
      (∀ c, h.Allocated c → c.addr ≠ b.addr → c.addr ≠ (h.realloc b.addr n).2) ∧
      ∃ size, need n ≤ size ∧ ∀ c, (h.realloc b.addr n).1.Allocated c ↔
        c = ⟨(h.realloc b.addr n).2, size, true⟩ ∨ h.Allocated c ∧ c.addr ≠ b.addr := by
  obtain ⟨h16, h8, -⟩ := need_pos hn
  have hb0 : b.addr ≠ 0 := by
    have := (hv.block hb.1).1
    omega
  rw [Layout.realloc, if_neg (by omega), if_neg hb0, hv.sizeAt hb.1]
  by_cases hfits : need n ≤ b.size
  · rw [if_pos hfits]
    refine ⟨hv, hb0, fun _ _ hcb => hcb, b.size, hfits, fun c => ?_⟩
    constructor
    · intro hc
      by_cases hcb : c.addr = b.addr
      · have hbb : b = ⟨b.addr, b.size, true⟩ := by
          rw [← hb.2]
        exact Or.inl ((hv.eq_of_addr hc.1 hb.1 hcb).trans hbb)
      · exact Or.inr ⟨hc, hcb⟩
    · rintro (rfl | ⟨hc, -⟩)
      · rw [← hb.2]
        exact hb
      · exact hc
  · rw [if_neg hfits]
    by_cases hg : h.CanGrow b.addr (need n)
    · rw [if_pos hg]
      obtain ⟨size, hsize, -, halloc⟩ := hv.grow_allocated hb.1 hg
      exact ⟨hv.grow hb.1 ⟨h16, h8⟩ hg, hb0, fun _ _ hcb => hcb, size, hsize, halloc⟩
    · rw [if_neg hg]
      obtain ⟨hv', hlo, hnew, size, hsize, -, halloc⟩ := hv.malloc hn
      have hb' : (h.malloc n).1.Allocated b := (halloc b).mpr (Or.inr hb)
      refine ⟨hv'.release hb', by omega, fun c hc _ => hnew c hc, size, hsize, fun c => ?_⟩
      rw [hv'.release_allocated hb', halloc]
      constructor
      · rintro ⟨rfl | hc, hcb⟩
        · exact Or.inl rfl
        · exact Or.inr ⟨hc, hcb⟩
      · rintro (rfl | ⟨hc, hcb⟩)
        · exact ⟨Or.inl rfl, fun h0 => hnew b hb h0.symm⟩
        · exact ⟨Or.inr hc, hcb⟩

/-- The first layout is valid. -/
theorem initial_valid (hlo : lo % 8 = 0) : Valid lo (initial lo) :=
  ⟨⟨hlo, ⟨rfl, Nat.zero_lt_succ _, trivial⟩, by simp [initial], by simp [initial],
    List.Perm.refl _⟩, List.isChain_singleton _⟩

end Layout

end OsAndC
