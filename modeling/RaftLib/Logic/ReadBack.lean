/-
# `RaftLib.Logic.ReadBack` -- reading a text from its front

A reader takes something off the front of a text and leaves the rest, or fails. Each of the small
readers comes with two facts: it reads back what is written the way it expects, whatever comes behind
(`_append`), and what it has read is of the right kind (`_some`). A sequence of readers reads a text
part by part (`read_bind`); `readAll` reads one thing after another up to a closing word.
-/
import Mathlib.Data.List.Basic

namespace RaftLib.Logic.ReadBack

/-- What is taken off the front of a text of `β`, and the rest. -/
abbrev Reader (β α : Type) := StateT (List β) Option α

variable {α β γ : Type}

/-! ## Sequences -/

theorem read_pure (a : α) (text : List β) : (pure a : Reader β α).run text = some (a, text) := rfl

/-- One reader behind the other. -/
theorem read_bind {x : Reader β α} {f : α → Reader β γ} {text rest : List β} {a : α}
    (hx : x.run text = some (a, rest)) : (x >>= f).run text = (f a).run rest := by
  rw [StateT.run_bind, hx]
  rfl

theorem read_bind_some {x : Reader β α} {f : α → Reader β γ} {text rest : List β} {c : γ}
    (h : (x >>= f).run text = some (c, rest)) :
    ∃ a mid, x.run text = some (a, mid) ∧ (f a).run mid = some (c, rest) := by
  rw [StateT.run_bind] at h
  obtain ⟨⟨a, mid⟩, hx, hf⟩ := Option.bind_eq_some_iff.mp h
  exact ⟨a, mid, hx, hf⟩

theorem read_pure_some {a b : α} {text rest : List β}
    (h : (pure a : Reader β α).run text = some (b, rest)) : a = b :=
  congrArg Prod.fst (Option.some_inj.mp h)

/-! ## Small readers -/

/-- A word that has to be there. -/
def word [DecidableEq β] (w : List β) : Reader β PUnit := fun text =>
  if w <+: text then some (⟨⟩, text.drop w.length) else none

theorem word_append [DecidableEq β] (w rest : List β) :
    (word w).run (w ++ rest) = some (⟨⟩, rest) := by
  show (if w <+: w ++ rest then _ else none) = _
  rw [if_pos (List.prefix_append w rest), List.drop_left]

theorem letter_cons [DecidableEq β] (a : β) (rest : List β) :
    (word [a]).run (a :: rest) = some (⟨⟩, rest) := word_append [a] rest

/-- The letters of one kind, as many as there are. -/
def stretch (p : β → Bool) : Reader β (List β) := fun text =>
  some (text.takeWhile p, text.dropWhile p)

/-- A stretch ends at the first letter of another kind. -/
theorem stretch_append {p : β → Bool} {xs : List β} (hxs : ∀ a ∈ xs, p a = true) {y : β}
    (hy : p y = false) (rest : List β) :
    (stretch p).run (xs ++ y :: rest) = some (xs, y :: rest) := by
  have htake : (xs ++ y :: rest).takeWhile p = xs := by
    rw [List.takeWhile_append_of_pos hxs, List.takeWhile_cons_of_neg (by simp [hy]), List.append_nil]
  have hdrop : (xs ++ y :: rest).dropWhile p = y :: rest := by
    rw [List.dropWhile_append_of_pos hxs, List.dropWhile_cons_of_neg (by simp [hy])]
  show some ((xs ++ y :: rest).takeWhile p, (xs ++ y :: rest).dropWhile p) = _
  rw [htake, hdrop]

theorem stretch_some {p : β → Bool} {text xs rest : List β}
    (h : (stretch p).run text = some (xs, rest)) : ∀ a ∈ xs, p a = true := by
  intro a ha
  have hxs : text.takeWhile p = xs := congrArg Prod.fst (Option.some_inj.mp h)
  rw [← hxs] at ha
  exact List.all_eq_true.mp List.all_takeWhile a ha

/-- A decimal number. -/
def number : Reader Char Nat := do
  let digits ← stretch Char.isDigit
  return Nat.ofDigitChars 10 digits 0

theorem number_append (n : Nat) {y : Char} (hy : y.isDigit = false) (rest : List Char) :
    number.run (Nat.toDigits 10 n ++ y :: rest) = some (n, y :: rest) := by
  have hdigits : ∀ a ∈ Nat.toDigits 10 n, a.isDigit = true := fun a ha =>
    Nat.isDigit_of_mem_toDigits (by decide) (by decide) ha
  rw [number, read_bind (stretch_append hdigits hy rest),
    Nat.ofDigitChars_toDigits (by decide) (by decide), read_pure]

/-! ## One thing after another -/

/-- What `read` reads, again and again, until the text is `close`. -/
def readAll [DecidableEq β] (read : Reader β α) (close : List β) : Nat → List β → Option (List α)
  | 0, _ => none
  | fuel + 1, text =>
      if text = close then some []
      else do
        let (a, rest) ← read.run text
        let l ← readAll read close fuel rest
        return a :: l

section All

variable [DecidableEq β] {read : Reader β α} {close : List β} {f : α → List β} {l : List α} {fuel : Nat}

/-- Things that can each be read, whatever comes behind, are read back. -/
theorem readAll_flatMap (hread : ∀ a ∈ l, ∀ rest, read.run (f a ++ rest) = some (a, rest))
    (hclose : ∀ a rest, f a ++ rest ≠ close) (hfuel : l.length < fuel) :
    readAll read close fuel (l.flatMap f ++ close) = some l := by
  induction l generalizing fuel with
  | nil =>
    cases fuel with
    | zero => cases hfuel
    | succ fuel => exact if_pos rfl
  | cons a l ih =>
    cases fuel with
    | zero => cases hfuel
    | succ fuel =>
      have hrest := ih (fun b hb => hread b (List.mem_cons_of_mem a hb)) (Nat.lt_of_succ_lt_succ hfuel)
      have hfirst := hread a List.mem_cons_self (l.flatMap f ++ close)
      rw [List.flatMap_cons, List.append_assoc, readAll, if_neg (hclose a _), hfirst]
      show (readAll read close fuel (l.flatMap f ++ close) >>= fun l => some (a :: l)) = _
      rw [hrest]
      rfl

/-- All that is read is of the kind that `read` gives. -/
theorem readAll_some {P : α → Prop} {text : List β}
    (hread : ∀ text a rest, read.run text = some (a, rest) → P a)
    (h : readAll read close fuel text = some l) : ∀ a ∈ l, P a := by
  induction fuel generalizing text l with
  | zero => cases h
  | succ fuel ih =>
    rw [readAll] at h
    split at h
    · cases h
      intro a ha
      cases ha
    · obtain ⟨⟨a, rest⟩, ha, h⟩ := Option.bind_eq_some_iff.mp h
      obtain ⟨l', hl', h⟩ := Option.bind_eq_some_iff.mp h
      cases h
      intro b hb
      rcases List.mem_cons.mp hb with rfl | hb
      · exact hread _ _ _ ha
      · exact ih hl' b hb

omit [DecidableEq β] in
/-- There are no more of them than letters. -/
theorem length_le_flatMap (hne : ∀ a ∈ l, f a ≠ []) : l.length ≤ (l.flatMap f).length := by
  induction l with
  | nil => exact Nat.zero_le _
  | cons a l ih =>
    have hfirst := List.length_pos_of_ne_nil (hne a List.mem_cons_self)
    have hrest := ih fun b hb => hne b (List.mem_cons_of_mem a hb)
    rw [List.flatMap_cons, List.length_append, List.length_cons]
    omega

end All

end RaftLib.Logic.ReadBack
