/-
# `RaftLib.Logic.Linked` -- singly linked lists through a `next` function

`Seg next s l t`: following `next` from `s` one passes the nodes `l`, in order, and arrives at `t`.
A list that ends is a segment to `none`. Segments are cut and glued along appends, survive every
change of `next` away from their nodes, and are determined by where they start.
-/
import Mathlib.Data.List.Nodup

namespace RaftLib.Logic.Linked

universe u

variable {α : Type u} {next next' : α → Option α} {s t m : Option α} {l l' : List α}

/-- The nodes passed on the way from `s` to `t`. -/
def Seg (next : α → Option α) : Option α → List α → Option α → Prop
  | s, [], t => s = t
  | s, q :: l, t => s = some q ∧ Seg next (next q) l t

@[simp] theorem seg_nil : Seg next s [] t ↔ s = t := Iff.rfl

@[simp] theorem seg_cons {q : α} : Seg next s (q :: l) t ↔ s = some q ∧ Seg next (next q) l t :=
  Iff.rfl

/-- Cutting and gluing. -/
theorem seg_append : Seg next s (l ++ l') t ↔ ∃ m, Seg next s l m ∧ Seg next m l' t := by
  induction l generalizing s with
  | nil => simp
  | cons q l ih =>
      simp only [List.cons_append, seg_cons, ih]
      constructor
      · rintro ⟨hs, m, h, h'⟩
        exact ⟨m, ⟨hs, h⟩, h'⟩
      · rintro ⟨m, ⟨hs, h⟩, h'⟩
        exact ⟨hs, m, h, h'⟩

/-- The frame rule: only the nodes passed matter. -/
theorem Seg.congr (h : Seg next s l t) (hn : ∀ q ∈ l, next' q = next q) : Seg next' s l t := by
  induction l generalizing s with
  | nil => exact h
  | cons q l ih =>
      obtain ⟨hs, hrest⟩ := h
      refine ⟨hs, ?_⟩
      rw [hn q List.mem_cons_self]
      exact ih hrest fun r hr => hn r (List.mem_cons_of_mem q hr)

/-- A node has one list from it to the end. -/
theorem Seg.unique (h : Seg next s l none) (h' : Seg next s l' none) : l = l' := by
  induction l generalizing s l' with
  | nil =>
      obtain rfl : s = none := h
      cases l' with
      | nil => rfl
      | cons q l' => exact nomatch h'.1
  | cons q l ih =>
      obtain ⟨rfl, hrest⟩ := h
      cases l' with
      | nil => exact nomatch h'
      | cons r l' =>
          obtain ⟨hq, hrest'⟩ := h'
          obtain rfl := Option.some_inj.mp hq
          rw [ih hrest hrest']

end RaftLib.Logic.Linked
