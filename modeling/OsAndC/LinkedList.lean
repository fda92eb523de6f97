import Mathlib.Data.List.Basic
import Mathlib.Data.List.Nodup
import Mathlib.Data.List.GetD

/-!
# Doubly Linked Lists Given by Two Link Functions

A doubly linked list is stored as two functions on nodes, `next` and `prev`, with a null
node marking both ends. `Seg next prev p l e` says that the nodes of `l` are linked both
ways in this order, that the first has `p` as its predecessor and the last has `e` as its
successor; a whole list is a segment between two null ends.

Segments compose (`seg_append`), depend on the links of their own nodes only
(`Seg.congr`), and are changed in the two ways a program changes them: `Seg.push` puts a
node in front, `Seg.unlink` takes one out wherever it stands. A memory in which the links
are stored enters only through the hypotheses on the new link functions.
-/

namespace OsAndC

variable {ν : Type*}

/-- The nodes of the list are linked both ways, between the ends `p` and `e`. -/
def Seg (next prev : ν → ν) : ν → List ν → ν → Prop
  | _, [], _ => True
  | p, a :: l, e => next a = l.headD e ∧ prev a = p ∧ Seg next prev a l e

variable {next prev next' prev' : ν → ν} {p e e' p' null b : ν} {l l₁ l₂ pre post : List ν}

/-- Nothing to be linked. -/
@[simp] theorem seg_nil : Seg next prev p [] e := trivial

/-- The first member is linked to both sides, and the others follow it. -/
theorem seg_cons {a : ν} :
    Seg next prev p (a :: l) e ↔ next a = l.headD e ∧ prev a = p ∧ Seg next prev a l e :=
  Iff.rfl

/-- A concatenation of segments: the seam is the head of the second and the last node of
the first. -/
theorem seg_append : Seg next prev p (l₁ ++ l₂) e ↔
    Seg next prev p l₁ (l₂.headD e) ∧ Seg next prev (l₁.getLastD p) l₂ e := by
  induction l₁ generalizing p with
  | nil => simp
  | cons a l ih =>
      have hhead : (l ++ l₂).headD e = l.headD (l₂.headD e) := by cases l <;> rfl
      have hlast : (a :: l).getLastD p = l.getLastD a := by cases l <;> rfl
      rw [List.cons_append, seg_cons, seg_cons, ih, hhead, hlast]
      tauto

/-- A segment depends on the links of its own nodes only. -/
theorem Seg.congr (h : Seg next prev p l e)
    (hl : ∀ a ∈ l, next' a = next a ∧ prev' a = prev a) : Seg next' prev' p l e := by
  induction l generalizing p with
  | nil => trivial
  | cons a l ih =>
      obtain ⟨hn, hp, hrest⟩ := h
      obtain ⟨hn', hp'⟩ := hl a List.mem_cons_self
      exact ⟨hn'.trans hn, hp'.trans hp,
        ih hrest fun c hc => hl c (List.mem_cons_of_mem a hc)⟩

/-- Redirecting the last node of a segment to another successor. -/
theorem Seg.setEnd (null : ν) (h : Seg next prev p l e) (hnd : l.Nodup)
    (hlast : ∀ a ∈ l, a = l.getLastD null → next' a = e')
    (hn : ∀ a ∈ l, a ≠ l.getLastD null → next' a = next a)
    (hp : ∀ a ∈ l, prev' a = prev a) : Seg next' prev' p l e' := by
  rcases l.eq_nil_or_concat' with rfl | ⟨l₀, x, rfl⟩
  · trivial
  · rw [List.getLastD_concat] at hlast hn
    obtain ⟨h₀, -, hx, -⟩ := seg_append.mp h
    have hne : ∀ a ∈ l₀, a ≠ x := by
      rintro a ha rfl
      exact (List.nodup_append.mp hnd).2.2 a ha a (List.mem_singleton_self a) rfl
    have hmem : x ∈ l₀ ++ [x] := List.mem_append_right _ (List.mem_singleton_self x)
    refine seg_append.mpr ⟨h₀.congr fun a ha => ?_, hlast x hmem rfl, ?_, trivial⟩
    · exact ⟨hn a (List.mem_append_left _ ha) (hne a ha), hp a (List.mem_append_left _ ha)⟩
    · rw [hp x hmem, hx]

/-- Redirecting the first node of a segment to another predecessor. -/
theorem Seg.setStart (null : ν) (h : Seg next prev p l e) (hnd : l.Nodup)
    (hn : ∀ a ∈ l, next' a = next a)
    (hhead : ∀ a ∈ l, a = l.headD null → prev' a = p')
    (hp : ∀ a ∈ l, a ≠ l.headD null → prev' a = prev a) : Seg next' prev' p' l e := by
  cases l with
  | nil => trivial
  | cons c l =>
      rw [List.headD_cons] at hhead hp
      obtain ⟨hc, -, hrest⟩ := h
      refine ⟨(hn c List.mem_cons_self).trans hc, hhead c List.mem_cons_self rfl,
        hrest.congr fun a ha => ?_⟩
      have hne : a ≠ c := by
        rintro rfl
        exact (List.nodup_cons.mp hnd).1 ha
      exact ⟨hn a (List.mem_cons_of_mem c ha), hp a (List.mem_cons_of_mem c ha) hne⟩

/-- **Push**: a new node in front of a list. -/
theorem Seg.push (h : Seg next prev null l null) (hnd : l.Nodup)
    (hb : next' b = l.headD null) (hb' : prev' b = null)
    (hn : ∀ a ∈ l, next' a = next a)
    (hhead : ∀ a ∈ l, a = l.headD null → prev' a = b)
    (hp : ∀ a ∈ l, a ≠ l.headD null → prev' a = prev a) :
    Seg next' prev' null (b :: l) null :=
  ⟨hb, hb', h.setStart null hnd hn hhead hp⟩

/-- **Unlink**: the neighbours of a node are linked to each other, and the node is gone from
the list. The end cases are those of a null neighbour. -/
theorem Seg.unlink (h : Seg next prev null (pre ++ b :: post) null)
    (hnd : (pre ++ b :: post).Nodup) (hnull : null ∉ pre ++ b :: post)
    (hlast : ∀ a ∈ pre ++ post, a = prev b → next' a = next b)
    (hn : ∀ a ∈ pre ++ post, a ≠ prev b → next' a = next a)
    (hhead : ∀ a ∈ pre ++ post, a = next b → prev' a = prev b)
    (hp : ∀ a ∈ pre ++ post, a ≠ next b → prev' a = prev a) :
    Seg next' prev' null (pre ++ post) null := by
  obtain ⟨hpre, hnb, hpb, hpost⟩ := seg_append.mp h
  obtain ⟨hndpre, hndbp, hdisj⟩ := List.nodup_append.mp hnd
  have hndpost := (List.nodup_cons.mp hndbp).2
  rw [hpb, hnb] at hlast hhead
  rw [hpb] at hn
  rw [hnb] at hp
  rw [List.headD_cons] at hpre
  -- the predecessor of `b` is not behind it, and its successor not before it
  have hne_last : ∀ a ∈ post, a ≠ pre.getLastD null := by
    rintro a ha rfl
    rcases pre.eq_nil_or_concat' with rfl | ⟨l₀, x, rfl⟩
    · exact hnull (List.mem_cons_of_mem b ha)
    · rw [List.getLastD_concat] at ha
      exact hdisj x (by simp) x (List.mem_cons_of_mem b ha) rfl
  have hne_head : ∀ a ∈ pre, a ≠ post.headD null := by
    rintro a ha rfl
    cases post with
    | nil => exact hnull (List.mem_append_left _ ha)
    | cons c l => exact hdisj c ha c (by simp) rfl
  refine seg_append.mpr ⟨?_, ?_⟩
  · exact hpre.setEnd null hndpre (fun a ha => hlast a (List.mem_append_left _ ha))
      (fun a ha => hn a (List.mem_append_left _ ha))
      (fun a ha => hp a (List.mem_append_left _ ha) (hne_head a ha))
  · exact hpost.setStart null hndpost
      (fun a ha => hn a (List.mem_append_right _ ha) (hne_last a ha))
      (fun a ha => hhead a (List.mem_append_right _ ha))
      (fun a ha => hp a (List.mem_append_right _ ha))

/-- The neighbours a node of a list is linked to are members of the list or null. -/
theorem Seg.next_mem (h : Seg next prev p l e) (hb : b ∈ l) : next b = e ∨ next b ∈ l := by
  induction l generalizing p with
  | nil => cases hb
  | cons a l ih =>
      obtain ⟨hn, -, hrest⟩ := h
      rcases List.mem_cons.mp hb with rfl | hb
      · cases l with
        | nil => exact Or.inl hn
        | cons c l => exact Or.inr (by rw [hn]; simp)
      · exact (ih hrest hb).imp_right (List.mem_cons_of_mem a)

/-- Every `prev` link leads to the start or to a member. -/
theorem Seg.prev_mem (h : Seg next prev p l e) (hb : b ∈ l) : prev b = p ∨ prev b ∈ l := by
  induction l generalizing p with
  | nil => cases hb
  | cons a l ih =>
      obtain ⟨-, hp, hrest⟩ := h
      rcases List.mem_cons.mp hb with rfl | hb
      · exact Or.inl hp
      · rcases ih hrest hb with h' | h'
        · exact Or.inr (by rw [h']; exact List.mem_cons_self)
        · exact Or.inr (List.mem_cons_of_mem a h')

/-- A node has a null predecessor exactly at the head of its list. -/
theorem Seg.prev_eq_null_iff (h : Seg next prev null l e) (hnull : null ∉ l) (hnd : l.Nodup)
    (hb : b ∈ l) : prev b = null ↔ l.headD null = b := by
  cases l with
  | nil => cases hb
  | cons a l =>
      obtain ⟨-, hp, hrest⟩ := h
      rw [List.headD_cons]
      rcases List.mem_cons.mp hb with rfl | hb
      · exact ⟨fun _ => rfl, fun _ => hp⟩
      · have hne : a ≠ b := by
          rintro rfl
          exact (List.nodup_cons.mp hnd).1 hb
        refine ⟨fun h0 => ?_, fun h0 => absurd h0 hne⟩
        rcases hrest.prev_mem hb with h' | h'
        · exact absurd (by rw [← h0, h']; exact List.mem_cons_self) hnull
        · exact absurd (by rw [← h0]; exact List.mem_cons_of_mem a h') hnull

/-- What the links of a node lead to, if they are not null. -/
theorem Seg.prev_eq_getLast? (h : Seg next prev null (pre ++ b :: post) null)
    (h0 : prev b ≠ null) : pre.getLast? = some (prev b) := by
  obtain ⟨-, -, hp, -⟩ := seg_append.mp h
  rcases pre.eq_nil_or_concat' with rfl | ⟨l₀, x, rfl⟩
  · exact absurd hp h0
  · rw [hp, List.getLastD_concat, List.getLast?_concat]

/-- The `next` link of a member that is not the last leads to the one behind it. -/
theorem Seg.next_eq_head? (h : Seg next prev null (pre ++ b :: post) null)
    (h0 : next b ≠ null) : post.head? = some (next b) := by
  obtain ⟨-, hn, -, -⟩ := seg_append.mp h
  cases post with
  | nil => exact absurd hn h0
  | cons c post => exact congrArg some hn.symm

end OsAndC
