import Mathlib.Data.List.Chain
import Mathlib.Data.List.Nodup
import Mathlib.Algebra.Group.Nat.Defs

/-!
# Tilings of an Address Range by Blocks

A heap is a range of addresses cut into consecutive blocks, each allocated or free. This
module is about such block sequences in their own right. `Tiles a bs` says that the blocks
of `bs` follow each other without gap or overlap from address `a` on; `extent bs` is the
number of addresses they cover, so the range ends at `a + extent bs`.

Two free blocks side by side can be joined. `glue` joins every run of adjacent free blocks
into one, which puts a sequence in its normal form: the result is `Coalesced`, covers the
same range, has the same allocated blocks (`mem_glue_of_alloc`), and a coalesced sequence
is left as it is (`glue_eq_self`). `glue_append` cuts the computation at any seam with an
allocated block on one side, and `glue_run` evaluates it on a run of free blocks; together
they evaluate `glue` on any sequence that has one run to join.
-/

namespace OsAndC

/-- A block: the address it is known by, its size, and whether it is allocated. -/
structure Block where
  addr : ℕ
  size : ℕ
  alloc : Bool
  deriving DecidableEq, Repr

/-- The number of addresses a sequence of blocks covers. -/
def extent : List Block → ℕ
  | [] => 0
  | b :: bs => b.size + extent bs

/-- No blocks cover nothing. -/
@[simp] theorem extent_nil : extent [] = 0 := rfl

/-- The first block and the others. -/
@[simp] theorem extent_cons (b : Block) (bs : List Block) :
    extent (b :: bs) = b.size + extent bs := rfl

/-- Sequences cover what their parts cover. -/
@[simp] theorem extent_append (xs ys : List Block) :
    extent (xs ++ ys) = extent xs + extent ys := by
  induction xs with
  | nil => simp
  | cons b xs ih => rw [List.cons_append, extent_cons, extent_cons, ih, Nat.add_assoc]

/-- A common divisor of all sizes divides the extent. -/
theorem extent_mod_eq_zero {m : ℕ} {bs : List Block} (h : ∀ b ∈ bs, b.size % m = 0) :
    extent bs % m = 0 := by
  induction bs with
  | nil => exact Nat.zero_mod m
  | cons b bs ih =>
      rw [extent_cons, Nat.add_mod, h b List.mem_cons_self,
        ih fun c hc => h c (List.mem_cons_of_mem b hc)]
      exact Nat.zero_mod m

/-- The blocks follow each other from address `a` on, and none is empty. -/
def Tiles : ℕ → List Block → Prop
  | _, [] => True
  | a, b :: bs => b.addr = a ∧ 0 < b.size ∧ Tiles (a + b.size) bs

variable {a c : ℕ} {b : Block} {bs xs ys : List Block}

/-- No blocks follow each other from anywhere on. -/
@[simp] theorem tiles_nil : Tiles a [] := trivial

/-- The first block lies at the address, and the others follow it. -/
theorem tiles_cons : Tiles a (b :: bs) ↔ b.addr = a ∧ 0 < b.size ∧ Tiles (a + b.size) bs :=
  Iff.rfl

/-- The second part follows from where the first part ends. -/
theorem tiles_append : Tiles a (xs ++ ys) ↔ Tiles a xs ∧ Tiles (a + extent xs) ys := by
  induction xs generalizing a with
  | nil => simp
  | cons b xs ih =>
      rw [List.cons_append, tiles_cons, tiles_cons, ih, extent_cons, Nat.add_assoc]
      tauto

/-! ### Geometry of a tiling -/

/-- Every block lies in the range covered. -/
theorem Tiles.bounds (h : Tiles a bs) (hb : b ∈ bs) :
    a ≤ b.addr ∧ 0 < b.size ∧ b.addr + b.size ≤ a + extent bs := by
  induction bs generalizing a with
  | nil => cases hb
  | cons d bs ih =>
      obtain ⟨hd, hpos, hrest⟩ := h
      rw [extent_cons]
      rcases List.mem_cons.mp hb with rfl | hb
      · omega
      · have := ih hrest hb
        omega

/-- A block in the middle of a tiling: where it starts, what lies before and what after. -/
theorem Tiles.middle (h : Tiles a (xs ++ b :: ys)) :
    b.addr = a + extent xs ∧ 0 < b.size ∧
      (∀ x ∈ xs, a ≤ x.addr ∧ x.addr + x.size ≤ b.addr) ∧
      (∀ y ∈ ys, b.addr + b.size ≤ y.addr) := by
  obtain ⟨hxs, hb, hpos, hys⟩ := tiles_append.mp h
  refine ⟨hb, hpos, fun x hx => ?_, fun y hy => ?_⟩
  · have := hxs.bounds hx
    omega
  · have := hys.bounds hy
    omega

/-- No two blocks start at the same address. -/
theorem Tiles.nodup (h : Tiles a bs) : (bs.map Block.addr).Nodup := by
  induction bs generalizing a with
  | nil => exact List.nodup_nil
  | cons d bs ih =>
      obtain ⟨hd, hpos, hrest⟩ := h
      refine List.nodup_cons.mpr ⟨fun hmem => ?_, ih hrest⟩
      obtain ⟨c, hc, hca⟩ := List.mem_map.mp hmem
      have := hrest.bounds hc
      omega

/-- The other blocks of a tiling have other addresses. -/
theorem Tiles.addr_ne (h : Tiles a (xs ++ b :: ys)) {d : Block} (hd : d ∈ xs ++ ys) :
    d.addr ≠ b.addr := by
  have hnd := h.nodup
  simp only [List.map_append, List.map_cons] at hnd
  obtain ⟨-, hndb, hdis⟩ := List.nodup_append.mp hnd
  rcases List.mem_append.mp hd with hd | hd
  · exact hdis _ (List.mem_map_of_mem hd) _ List.mem_cons_self
  · exact fun h0 => (List.nodup_cons.mp hndb).1 (h0 ▸ List.mem_map_of_mem hd)

/-- The blocks of a stretch have other addresses than those before and behind it. -/
theorem Tiles.addr_ne_of_mem {zs : List Block} (h : Tiles a (xs ++ zs ++ ys)) {d x : Block}
    (hx : x ∈ xs ++ ys) (hd : d ∈ zs) : x.addr ≠ d.addr := by
  have hnd := h.nodup
  simp only [List.map_append] at hnd
  obtain ⟨hnd', -, hys⟩ := List.nodup_append.mp hnd
  obtain ⟨-, -, hxs⟩ := List.nodup_append.mp hnd'
  have hda := List.mem_map_of_mem (f := Block.addr) hd
  rcases List.mem_append.mp hx with hx | hx
  · exact hxs _ (List.mem_map_of_mem hx) _ hda
  · exact (hys _ (List.mem_append_right _ hda) _ (List.mem_map_of_mem hx)).symm

/-- A block is determined by its address. -/
theorem Tiles.eq_of_addr (h : Tiles a bs) {b c : Block} (hb : b ∈ bs) (hc : c ∈ bs)
    (hbc : b.addr = c.addr) : b = c :=
  List.inj_on_of_nodup_map h.nodup hb hc hbc

/-- Distinct blocks do not overlap. -/
theorem Tiles.disjoint (h : Tiles a bs) {b c : Block} (hb : b ∈ bs) (hc : c ∈ bs)
    (hbc : b.addr ≠ c.addr) : b.addr + b.size ≤ c.addr ∨ c.addr + c.size ≤ b.addr := by
  obtain ⟨xs, ys, rfl⟩ := List.append_of_mem hb
  obtain ⟨-, -, hxs, hys⟩ := h.middle
  rcases List.mem_append.mp hc with hc | hc
  · exact Or.inr (hxs c hc).2
  · rcases List.mem_cons.mp hc with rfl | hc
    · exact absurd rfl hbc
    · exact Or.inl (hys c hc)

/-- A stretch of a tiling may be cut differently. -/
theorem Tiles.replace {zs zs' : List Block} (h : Tiles a (xs ++ zs ++ ys))
    (hzs : Tiles (a + extent xs) zs') (he : extent zs' = extent zs) :
    Tiles a (xs ++ zs' ++ ys) ∧ extent (xs ++ zs' ++ ys) = extent (xs ++ zs ++ ys) := by
  obtain ⟨hxz, hys⟩ := tiles_append.mp h
  obtain ⟨hxs, -⟩ := tiles_append.mp hxz
  rw [extent_append] at hys
  refine ⟨tiles_append.mpr ⟨tiles_append.mpr ⟨hxs, hzs⟩, ?_⟩, ?_⟩
  · rwa [extent_append, he]
  · simp only [extent_append, he]

/-! ### Looking up and replacing a block -/

/-- The block known by address `a`. -/
def blockAt? (bs : List Block) (a : ℕ) : Option Block := bs.find? fun b => b.addr == a

/-- Replace the block known by address `a` by the blocks `f` makes of it. -/
def replaceAt (a : ℕ) (f : Block → List Block) (bs : List Block) : List Block :=
  bs.flatMap fun b => if b.addr = a then f b else [b]

/-- The address of the block that covers address `a`, the first one to end behind it. -/
def owner (bs : List Block) (a : ℕ) : ℕ :=
  ((bs.find? fun b => a < b.addr + b.size).map Block.addr).getD 0

/-- The addresses of the free blocks. -/
def freeAddrs (bs : List Block) : List ℕ := (bs.filter fun b => !b.alloc).map Block.addr

/-- A block is found under its address. -/
theorem Tiles.blockAt? (h : Tiles a bs) (hb : b ∈ bs) : blockAt? bs b.addr = some b := by
  simp only [OsAndC.blockAt?]
  cases hc : bs.find? fun c => c.addr == b.addr with
  | none => exact absurd (List.find?_eq_none.mp hc b hb) (by simp)
  | some c =>
      have haddr : c.addr = b.addr := by simpa using List.find?_some hc
      rw [h.eq_of_addr (List.mem_of_find?_eq_some hc) hb haddr]

/-- Without a block at the address, nothing is replaced. -/
theorem replaceAt_of_notMem {f : Block → List Block} (h : ∀ b ∈ bs, b.addr ≠ a) :
    replaceAt a f bs = bs := by
  induction bs with
  | nil => rfl
  | cons b bs ih =>
      have ih := ih fun c hc => h c (List.mem_cons_of_mem b hc)
      simp only [replaceAt] at ih ⊢
      rw [List.flatMap_cons, if_neg (h b List.mem_cons_self), ih]
      rfl

/-- The block at the address is replaced, and only it. -/
theorem Tiles.replaceAt {f : Block → List Block} (h : Tiles a (xs ++ b :: ys)) :
    replaceAt b.addr f (xs ++ b :: ys) = xs ++ f b ++ ys := by
  have hx : OsAndC.replaceAt b.addr f xs = xs :=
    replaceAt_of_notMem fun x hx => h.addr_ne (List.mem_append_left _ hx)
  have hy : OsAndC.replaceAt b.addr f ys = ys :=
    replaceAt_of_notMem fun y hy => h.addr_ne (List.mem_append_right _ hy)
  simp only [OsAndC.replaceAt] at hx hy ⊢
  rw [List.flatMap_append, List.flatMap_cons, hx, hy, if_pos rfl, List.append_assoc]

/-- An address inside a block belongs to it. -/
theorem Tiles.owner (h : Tiles a (xs ++ b :: ys)) (h₁ : b.addr ≤ c)
    (h₂ : c < b.addr + b.size) : owner (xs ++ b :: ys) c = b.addr := by
  have hxs : xs.find? (fun x => c < x.addr + x.size) = none := by
    refine List.find?_eq_none.mpr fun x hx => ?_
    have := (h.middle.2.2.1 x hx).2
    simp only [decide_eq_true_eq]
    omega
  rw [OsAndC.owner, List.find?_append, hxs, List.find?_cons_of_pos (by simpa using h₂)]
  rfl

/-- No blocks, no free ones. -/
@[simp] theorem freeAddrs_nil : freeAddrs [] = [] := rfl

/-- The free blocks of both parts. -/
@[simp] theorem freeAddrs_append : freeAddrs (xs ++ ys) = freeAddrs xs ++ freeAddrs ys := by
  simp [freeAddrs]

/-- A free block is among the free ones. -/
theorem freeAddrs_cons_free (hb : b.alloc = false) :
    freeAddrs (b :: bs) = b.addr :: freeAddrs bs := by
  simp [freeAddrs, hb]

/-- An allocated block is not. -/
theorem freeAddrs_cons_alloc (hb : b.alloc = true) : freeAddrs (b :: bs) = freeAddrs bs := by
  simp [freeAddrs, hb]

/-- The free addresses are those of the free blocks. -/
theorem mem_freeAddrs : c ∈ freeAddrs bs ↔ ∃ b ∈ bs, b.addr = c ∧ b.alloc = false := by
  simp only [freeAddrs, List.mem_map, List.mem_filter, Bool.not_eq_eq_eq_not, Bool.not_true]
  constructor
  · rintro ⟨b, ⟨hb, hf⟩, hc⟩
    exact ⟨b, hb, hc, hf⟩
  · rintro ⟨b, hb, hc, hf⟩
    exact ⟨b, ⟨hb, hf⟩, hc⟩

/-- No free address is listed twice. -/
theorem Tiles.nodup_freeAddrs (h : Tiles a bs) : (freeAddrs bs).Nodup :=
  h.nodup.sublist (List.filter_sublist.map Block.addr)

/-! ### Joining adjacent free blocks -/

/-- One of two neighbours is allocated. -/
def Apart (b c : Block) : Prop := b.alloc = true ∨ c.alloc = true

/-- No two adjacent blocks are both free. -/
def Coalesced (bs : List Block) : Prop := bs.IsChain Apart

/-- Join every run of adjacent free blocks into one free block. -/
def glue : List Block → List Block
  | [] => []
  | b :: bs =>
      match glue bs with
      | [] => [b]
      | n :: rest =>
          if b.alloc || n.alloc then b :: n :: rest
          else ⟨b.addr, b.size + n.size, false⟩ :: rest

/-- A single block is left as it is. -/
theorem glue_cons_of_nil (h : glue bs = []) : glue (b :: bs) = [b] := by
  rw [glue, h]

/-- A block is left as it is in front of one it cannot be joined with. -/
theorem glue_cons_of_apart {n : Block} {rest : List Block} (h : glue bs = n :: rest)
    (hbn : Apart b n) : glue (b :: bs) = b :: n :: rest := by
  rw [glue, h]
  rcases hbn with hb | hn
  · simp [hb]
  · simp [hn]

/-- A free block is joined with a free one behind it. -/
theorem glue_cons_of_free {n : Block} {rest : List Block} (h : glue bs = n :: rest)
    (hb : b.alloc = false) (hn : n.alloc = false) :
    glue (b :: bs) = ⟨b.addr, b.size + n.size, false⟩ :: rest := by
  rw [glue, h]
  simp [hb, hn]

/-- The first block keeps its address and its allocated bit. -/
theorem exists_glue_cons (b : Block) (bs : List Block) :
    ∃ n rest, glue (b :: bs) = n :: rest ∧ n.addr = b.addr ∧ n.alloc = b.alloc := by
  cases h : glue bs with
  | nil => exact ⟨b, [], glue_cons_of_nil h, rfl, rfl⟩
  | cons n rest =>
      by_cases hbn : Apart b n
      · exact ⟨b, n :: rest, glue_cons_of_apart h hbn, rfl, rfl⟩
      · rw [Apart, not_or, Bool.not_eq_true, Bool.not_eq_true] at hbn
        exact ⟨_, rest, glue_cons_of_free h hbn.1 hbn.2, rfl, hbn.1.symm⟩

/-- The result has no two adjacent free blocks. -/
theorem coalesced_glue (bs : List Block) : Coalesced (glue bs) := by
  induction bs with
  | nil => exact List.isChain_nil
  | cons b bs ih =>
      cases h : glue bs with
      | nil =>
          rw [glue_cons_of_nil h]
          exact List.isChain_singleton b
      | cons n rest =>
          rw [h] at ih
          by_cases hbn : Apart b n
          · rw [glue_cons_of_apart h hbn]
            exact List.isChain_cons_cons.mpr ⟨hbn, ih⟩
          · rw [Apart, not_or, Bool.not_eq_true, Bool.not_eq_true] at hbn
            rw [glue_cons_of_free h hbn.1 hbn.2]
            -- the joined block is free like `n`, so what follows `n` is apart from it too
            cases rest with
            | nil => exact List.isChain_singleton _
            | cons m rest =>
                obtain ⟨hnm, hrest⟩ := List.isChain_cons_cons.mp ih
                refine List.isChain_cons_cons.mpr ⟨Or.inr ?_, hrest⟩
                exact hnm.resolve_left (by simp [hbn.2])

/-- A sequence without adjacent free blocks is left as it is. -/
theorem glue_eq_self (h : Coalesced bs) : glue bs = bs := by
  induction bs with
  | nil => rfl
  | cons b bs ih =>
      cases bs with
      | nil => rfl
      | cons n rest =>
          obtain ⟨hbn, hrest⟩ := List.isChain_cons_cons.mp h
          exact glue_cons_of_apart (ih hrest) hbn

/-- Joining covers the same range. -/
theorem Tiles.glue (h : Tiles a bs) : Tiles a (glue bs) ∧ extent (glue bs) = extent bs := by
  induction bs generalizing a with
  | nil => exact ⟨trivial, rfl⟩
  | cons b bs ih =>
      obtain ⟨hb, hpos, hrest⟩ := h
      obtain ⟨ht, he⟩ := ih hrest
      cases hg : OsAndC.glue bs with
      | nil =>
          rw [hg] at he
          rw [glue_cons_of_nil hg, extent_cons, extent_cons, ← he]
          exact ⟨⟨hb, hpos, trivial⟩, rfl⟩
      | cons n rest =>
          rw [hg] at ht he
          rw [extent_cons] at he
          by_cases hbn : Apart b n
          · rw [glue_cons_of_apart hg hbn, extent_cons, extent_cons, extent_cons, ← he]
            exact ⟨⟨hb, hpos, ht⟩, rfl⟩
          · rw [Apart, not_or, Bool.not_eq_true, Bool.not_eq_true] at hbn
            rw [glue_cons_of_free hg hbn.1 hbn.2, extent_cons, extent_cons, ← he]
            obtain ⟨-, -, ht⟩ := ht
            refine ⟨⟨hb, Nat.add_pos_left hpos _, ?_⟩, by simp only []; omega⟩
            rwa [Nat.add_assoc] at ht

/-- Joining neither loses nor makes an allocated block. -/
theorem mem_glue_of_alloc (hb : b.alloc = true) : b ∈ glue bs ↔ b ∈ bs := by
  induction bs with
  | nil => rfl
  | cons d bs ih =>
      rw [List.mem_cons, ← ih]
      cases h : glue bs with
      | nil =>
          rw [glue_cons_of_nil h]
          simp
      | cons n rest =>
          by_cases hdn : Apart d n
          · rw [glue_cons_of_apart h hdn, List.mem_cons]
          · rw [Apart, not_or, Bool.not_eq_true, Bool.not_eq_true] at hdn
            rw [glue_cons_of_free h hdn.1 hdn.2, List.mem_cons, List.mem_cons]
            have hd : b ≠ d := by
              rintro rfl
              simp [hdn.1] at hb
            have hn : b ≠ n := by
              rintro rfl
              simp [hdn.2] at hb
            have hdn' : b ≠ ⟨d.addr, d.size + n.size, false⟩ := by
              rintro rfl
              cases hb
            simp only [hd, hn, hdn', false_or]

/-- Joining can be cut at a seam that has an allocated block on one side. -/
theorem glue_append (h : ∀ x ∈ xs.getLast?, ∀ y ∈ ys.head?, Apart x y) :
    glue (xs ++ ys) = glue xs ++ glue ys := by
  induction xs with
  | nil => rfl
  | cons b xs ih =>
      cases xs with
      | nil =>
          cases ys with
          | nil => rfl
          | cons y ys =>
              obtain ⟨n, rest, hn, -, hna⟩ := exists_glue_cons y ys
              have hbn : Apart b n := by
                rw [Apart, hna]
                exact h b rfl y rfl
              rw [List.singleton_append, glue_cons_of_apart hn hbn, hn]
              rfl
      | cons x xs =>
          have ih := ih fun z hz => h z (by rwa [List.getLast?_cons_cons])
          obtain ⟨n, rest, hn, -, -⟩ := exists_glue_cons x xs
          rw [hn] at ih
          have ih' : glue (x :: xs ++ ys) = n :: (rest ++ glue ys) := ih
          rw [List.cons_append]
          by_cases hbn : Apart b n
          · rw [glue_cons_of_apart ih' hbn, glue_cons_of_apart hn hbn]
            rfl
          · rw [Apart, not_or, Bool.not_eq_true, Bool.not_eq_true] at hbn
            rw [glue_cons_of_free ih' hbn.1 hbn.2, glue_cons_of_free hn hbn.1 hbn.2]
            rfl

/-- A run of free blocks becomes one block. -/
theorem glue_run (hb : b.alloc = false) (hbs : ∀ x ∈ bs, x.alloc = false) :
    glue (b :: bs) = [⟨b.addr, extent (b :: bs), false⟩] := by
  induction bs generalizing b with
  | nil =>
      rw [glue_cons_of_nil rfl, extent_cons, extent_nil, Nat.add_zero, ← hb]
  | cons x bs ih =>
      have hx := ih (hbs x List.mem_cons_self) fun z hz => hbs z (List.mem_cons_of_mem x hz)
      rw [glue_cons_of_free hx hb rfl, extent_cons b]

/-- **The normal form around one run.** Where all adjacent free blocks belong to one run of
free blocks, `glue` joins that run and leaves the rest. -/
theorem glue_around {r : Block} {rs pre post : List Block} (hr : ∀ x ∈ r :: rs, x.alloc = false)
    (hpre : Coalesced pre) (hpost : Coalesced post)
    (hl : ∀ x ∈ pre.getLast?, x.alloc = true) (hh : ∀ y ∈ post.head?, y.alloc = true) :
    glue (pre ++ r :: rs ++ post) = pre ++ ⟨r.addr, extent (r :: rs), false⟩ :: post := by
  rw [List.append_assoc, glue_append fun x hx _ _ => Or.inl (hl x hx),
    glue_append fun _ _ y hy => Or.inr (hh y hy), glue_eq_self hpre, glue_eq_self hpost,
    glue_run (hr r List.mem_cons_self) fun x hx => hr x (List.mem_cons_of_mem r hx)]
  rfl

/-- In a coalesced sequence, at most the last block belongs to a free run that follows. -/
theorem exists_left_run (h : Coalesced xs) :
    ∃ pre ps, xs = pre ++ ps ∧ (ps = [] ∨ ∃ p, ps = [p] ∧ p.alloc = false) ∧ Coalesced pre ∧
      ∀ x ∈ pre.getLast?, x.alloc = true := by
  rcases xs.eq_nil_or_concat' with rfl | ⟨l, x, rfl⟩
  · exact ⟨[], [], rfl, Or.inl rfl, List.isChain_nil, by simp⟩
  · cases hx : x.alloc with
    | true => exact ⟨l ++ [x], [], by simp, Or.inl rfl, h, by simpa using hx⟩
    | false =>
        obtain ⟨hl, -, hlx⟩ := List.isChain_append.mp h
        refine ⟨l, [x], rfl, Or.inr ⟨x, rfl, hx⟩, hl, ?_⟩
        intro y hy
        exact (hlx y hy x rfl).resolve_right (by simp [hx])

/-- In a coalesced sequence, at most the first block belongs to a free run before it. -/
theorem exists_right_run (h : Coalesced ys) :
    ∃ ns post, ys = ns ++ post ∧ (ns = [] ∨ ∃ n, ns = [n] ∧ n.alloc = false) ∧ Coalesced post ∧
      ∀ y ∈ post.head?, y.alloc = true := by
  cases ys with
  | nil => exact ⟨[], [], rfl, Or.inl rfl, List.isChain_nil, by simp⟩
  | cons y l =>
      cases hy : y.alloc with
      | true => exact ⟨[], y :: l, rfl, Or.inl rfl, h, by simpa using hy⟩
      | false =>
          refine ⟨[y], l, rfl, Or.inr ⟨y, rfl, hy⟩, List.IsChain.tail h, ?_⟩
          intro z hz
          obtain ⟨-, -, hyz⟩ := List.isChain_append.mp (show Coalesced ([y] ++ l) from h)
          exact (hyz y rfl z hz).resolve_left (by simp [hy])

/-- The run that a free block between two coalesced sequences belongs to. -/
theorem exists_run (hb : b.alloc = false) (hxs : Coalesced xs) (hys : Coalesced ys) :
    ∃ pre r rs post, xs ++ b :: ys = pre ++ r :: rs ++ post ∧
      (∀ x ∈ r :: rs, x.alloc = false) ∧ b ∈ r :: rs ∧ Coalesced pre ∧ Coalesced post ∧
      (∀ x ∈ pre.getLast?, x.alloc = true) ∧ (∀ y ∈ post.head?, y.alloc = true) := by
  obtain ⟨pre, ps, rfl, hps, hpre, hl⟩ := exists_left_run hxs
  obtain ⟨ns, post, rfl, hns, hpost, hh⟩ := exists_right_run hys
  have hns' : ∀ x ∈ b :: ns, x.alloc = false := by
    rcases hns with rfl | ⟨n, rfl, hn⟩
    · simpa using hb
    · simpa using ⟨hb, hn⟩
  rcases hps with rfl | ⟨p, rfl, hp⟩
  · exact ⟨pre, b, ns, post, by simp, hns', List.mem_cons_self, hpre, hpost, hl, hh⟩
  · refine ⟨pre, p, b :: ns, post, by simp, ?_, by simp, hpre, hpost, hl, hh⟩
    exact fun x hx => (List.mem_cons.mp hx).elim (fun h => h ▸ hp) (hns' x)

/-! ### Coalesced tilings are determined by their allocated blocks -/

/-- The first block of a coalesced tiling, if it is free, reaches as far as the first block of
any other tiling of the range that has the allocated blocks of this one. -/
theorem Tiles.first_size_le {b c : Block} {bs cs : List Block} (h : Tiles a (b :: bs))
    (h' : Tiles a (c :: cs)) (hcb : Coalesced (b :: bs)) (hb : b.alloc = false)
    (hc : c.alloc = false) (he : extent (b :: bs) = extent (c :: cs))
    (hall : ∀ d, d.alloc = true → d ∈ bs → d ∈ c :: cs) : c.size ≤ b.size := by
  rw [extent_cons, extent_cons] at he
  cases bs with
  | nil =>
      rw [extent_nil] at he
      omega
  | cons n bs =>
      by_contra hlt
      -- the block behind `b` is allocated and would start inside `c`
      have hn : n.alloc = true :=
        (List.isChain_cons_cons.mp hcb).1.resolve_left (by simp [hb])
      obtain ⟨hba, -, hna, hn0, -⟩ := h
      obtain ⟨hca, -, hcs⟩ := h'
      rcases List.mem_cons.mp (hall n hn List.mem_cons_self) with hnc | hmem
      · rw [hnc, hc] at hn
        cases hn
      · have := hcs.bounds hmem
        omega

/-- Two coalesced tilings of a range with the same allocated blocks start with the same
block. -/
theorem Tiles.first_eq {b c : Block} {bs cs : List Block} (h : Tiles a (b :: bs))
    (h' : Tiles a (c :: cs)) (hcb : Coalesced (b :: bs)) (hcc : Coalesced (c :: cs))
    (he : extent (b :: bs) = extent (c :: cs))
    (hall : ∀ d, d.alloc = true → (d ∈ b :: bs ↔ d ∈ c :: cs)) : b = c := by
  have haddr : b.addr = c.addr := h.1.trans h'.1.symm
  cases hb : b.alloc with
  | true =>
      have hmem := (hall b hb).mp List.mem_cons_self
      exact h'.eq_of_addr hmem List.mem_cons_self haddr
  | false =>
      cases hc : c.alloc with
      | true =>
          have hmem := (hall c hc).mpr List.mem_cons_self
          exact h.eq_of_addr List.mem_cons_self hmem haddr
      | false =>
          have h₁ := h.first_size_le h' hcb hb hc he fun d hd hmem =>
            (hall d hd).mp (List.mem_cons_of_mem b hmem)
          have h₂ := h'.first_size_le h hcc hc hb he.symm fun d hd hmem =>
            (hall d hd).mpr (List.mem_cons_of_mem c hmem)
          have hsize := le_antisymm h₂ h₁
          cases b
          cases c
          simp only [Block.mk.injEq]
          exact ⟨haddr, hsize, hb.trans hc.symm⟩

/-- **A coalesced tiling is determined by its range and its allocated blocks.** -/
theorem Tiles.eq_of_alloc {bs' : List Block} (h : Tiles a bs) (h' : Tiles a bs')
    (hc : Coalesced bs) (hc' : Coalesced bs') (he : extent bs = extent bs')
    (hall : ∀ d, d.alloc = true → (d ∈ bs ↔ d ∈ bs')) : bs = bs' := by
  induction bs generalizing a bs' with
  | nil =>
      cases bs' with
      | nil => rfl
      | cons c cs =>
          have hpos := h'.2.1
          rw [extent_nil, extent_cons] at he
          omega
  | cons b bs ih =>
      cases bs' with
      | nil =>
          have hpos := h.2.1
          rw [extent_nil, extent_cons] at he
          omega
      | cons c cs =>
          obtain rfl := h.first_eq h' hc hc' he hall
          obtain ⟨-, hpos, hbs⟩ := h
          obtain ⟨hba, -, hcs⟩ := h'
          have hne : ∀ {l : List Block}, Tiles (a + b.size) l → b ∉ l := by
            intro l hl hmem
            have := hl.bounds hmem
            omega
          rw [extent_cons, extent_cons] at he
          refine congrArg _ (ih hbs hcs hc.tail hc'.tail (by omega) fun d hd => ?_)
          have hd' := hall d hd
          rw [List.mem_cons, List.mem_cons] at hd'
          constructor
          · intro hmem
            refine (hd'.mp (Or.inr hmem)).resolve_left ?_
            rintro rfl
            exact hne hbs hmem
          · intro hmem
            refine (hd'.mpr (Or.inr hmem)).resolve_left ?_
            rintro rfl
            exact hne hcs hmem

end OsAndC
