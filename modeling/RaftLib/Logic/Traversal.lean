/-
# `RaftLib.Logic.Traversal` -- breadth-first traversal of a graph

A graph is given by the successors of each node. A traversal keeps a queue and the set of the nodes it
has met; it takes the first node of the queue and puts those of its successors at the end that it meets
for the first time. `order` is the list of the nodes in the order they are taken. What one node adds is
said once (`meetAll`), the invariant of the loop follows from it, and with it what the list is: the
nodes that can be reached from the start, each once.
-/
import Mathlib.Data.Finset.Card
import Mathlib.Logic.Relation

namespace RaftLib.Logic.Traversal

universe u

variable {α : Type u}

/-- The queue and the nodes met so far. -/
structure Front (α : Type u) where
  queue : List α
  visited : Finset α

section Definitions

variable [DecidableEq α]

namespace Front

/-- A node is met; it is queued the first time. -/
def meet (s : Front α) (b : α) : Front α :=
  if b ∈ s.visited then s else { queue := s.queue ++ [b], visited := insert b s.visited }

def meetAll (s : Front α) (bs : List α) : Front α := bs.foldl meet s

/-- The nodes that a traversal starts from are queued, and met. -/
def start (sources : List α) : Front α := { queue := sources, visited := sources.toFinset }

end Front

/-- The nodes in the order in which they are taken, if the queue is empty after fewer than `fuel`. -/
def order (succ : α → List α) : Nat → Front α → Option (List α)
  | 0, _ => none
  | fuel + 1, s =>
      match s.queue with
      | [] => some []
      | a :: queue => (order succ fuel ({ s with queue := queue }.meetAll (succ a))).map (a :: ·)

end Definitions

/-! ## The invariant -/

/-- The node can be reached from one of the `sources`. -/
def Reaches (succ : α → List α) (sources : List α) (a : α) : Prop :=
  ∃ s ∈ sources, Relation.ReflTransGen (fun a b => b ∈ succ a) s a

/-- Each node met is queued or done, and is so once. -/
structure Front.Ordered (s : Front α) (done : List α) : Prop where
  nodup : (done ++ s.queue).Nodup
  mem : ∀ a, a ∈ s.visited ↔ a ∈ done ++ s.queue

/-- The invariant of a traversal that has taken the nodes `done`. -/
structure Searching (succ : α → List α) (sources done : List α) (s : Front α) : Prop where
  ordered : s.Ordered done
  begun : ∀ a ∈ sources, a ∈ s.visited
  closed : ∀ a ∈ done, ∀ b ∈ succ a, b ∈ s.visited
  sound : ∀ a ∈ s.visited, Reaches succ sources a

section Invariant

variable {succ : α → List α} {sources done : List α} {s : Front α} {a : α}

/-- When the queue is empty, the nodes that were taken are those that can be reached. -/
theorem Searching.mem_iff (h : Searching succ sources done s) (hq : s.queue = []) :
    a ∈ done ↔ Reaches succ sources a := by
  have hmem : ∀ b, b ∈ s.visited ↔ b ∈ done := fun b => by rw [h.ordered.mem b, hq, List.append_nil]
  constructor
  · intro ha
    exact h.sound a ((hmem a).mpr ha)
  · rintro ⟨r, hr, hpath⟩
    induction hpath with
    | refl => exact (hmem r).mp (h.begun r hr)
    | tail _ hstep ih => exact (hmem _).mp (h.closed _ ih _ hstep)

end Invariant

/-! ## Meeting the successors of a node -/

section Meet

variable [DecidableEq α] {s : Front α} {done : List α} {b : α}

theorem Front.Ordered.meet (h : s.Ordered done) : (s.meet b).Ordered done := by
  unfold Front.meet
  split
  · exact h
  · next hb =>
      have hnew : b ∉ done ++ s.queue := fun hmem => hb ((h.mem b).mpr hmem)
      refine ⟨?_, fun a => ?_⟩
      · show (done ++ (s.queue ++ [b])).Nodup
        rw [← List.append_assoc]
        exact h.nodup.append (List.nodup_singleton b) (List.disjoint_singleton.mpr hnew)
      · show a ∈ insert b s.visited ↔ a ∈ done ++ (s.queue ++ [b])
        rw [← List.append_assoc, Finset.mem_insert, h.mem, or_comm,
          List.mem_append (s := done ++ s.queue), List.mem_singleton]

theorem Front.Ordered.meetAll (h : s.Ordered done) (bs : List α) : (s.meetAll bs).Ordered done := by
  induction bs generalizing s with
  | nil => exact h
  | cons b bs ih => exact ih h.meet

theorem Front.mem_meet (a : α) : a ∈ (s.meet b).visited ↔ a ∈ s.visited ∨ a = b := by
  unfold Front.meet
  split
  · next hb => exact ⟨.inl, fun ha => ha.elim id fun e => e ▸ hb⟩
  · show a ∈ insert b s.visited ↔ _
    rw [Finset.mem_insert, or_comm]

/-- A node that is queued was so before, or has just been met. -/
theorem Front.mem_queue_meetAll {a : α} {bs : List α} (h : a ∈ (s.meetAll bs).queue) :
    a ∈ s.queue ∨ a ∈ bs := by
  induction bs generalizing s with
  | nil => exact .inl h
  | cons b bs ih =>
      rcases ih (s := s.meet b) h with h | h
      · unfold Front.meet at h
        split at h
        · exact .inl h
        · rcases List.mem_append.mp h with h | h
          · exact .inl h
          · exact .inr (List.mem_cons.mpr (.inl (List.mem_singleton.mp h)))
      · exact .inr (List.mem_cons_of_mem b h)

theorem Front.mem_meetAll (a : α) (bs : List α) :
    a ∈ (s.meetAll bs).visited ↔ a ∈ s.visited ∨ a ∈ bs := by
  induction bs generalizing s with
  | nil => simp [Front.meetAll]
  | cons b bs ih =>
      show a ∈ ((s.meet b).meetAll bs).visited ↔ _
      rw [ih, Front.mem_meet, List.mem_cons, or_assoc]

end Meet

/-! ## The traversal -/

section Order

variable [DecidableEq α] {succ : α → List α} {sources done l : List α} {s : Front α} {a : α}
variable {queue : List α}

theorem Searching.start (hnodup : sources.Nodup) : Searching succ sources [] (.start sources) where
  ordered := ⟨hnodup, fun _ => List.mem_toFinset⟩
  begun _ ha := List.mem_toFinset.mpr ha
  closed _ ha := absurd ha List.not_mem_nil
  sound a ha := ⟨a, List.mem_toFinset.mp ha, .refl⟩

/-- **One node is taken.** -/
theorem Searching.take (h : Searching succ sources done s) (hq : s.queue = a :: queue) :
    Searching succ sources (done ++ [a]) ({ s with queue := queue }.meetAll (succ a)) := by
  have ha : a ∈ s.visited := (h.ordered.mem a).mpr (by rw [hq]; simp)
  have hordered : Front.Ordered { s with queue := queue } (done ++ [a]) := by
    refine ⟨?_, fun b => ?_⟩
    · have hnodup := h.ordered.nodup
      rwa [hq, List.append_cons] at hnodup
    · have hmem := h.ordered.mem b
      rwa [hq, List.append_cons] at hmem
  refine ⟨hordered.meetAll _, fun b hb => ?_, fun b hb c hc => ?_, fun b hb => ?_⟩
  · exact (Front.mem_meetAll b _).mpr (.inl (h.begun b hb))
  · refine (Front.mem_meetAll c _).mpr ?_
    rcases List.mem_append.mp hb with hb | hb
    · exact .inl (h.closed b hb c hc)
    · rw [List.mem_singleton.mp hb] at hc
      exact .inr hc
  · rcases (Front.mem_meetAll b _).mp hb with hb | hb
    · exact h.sound b hb
    · obtain ⟨r, hr, hpath⟩ := h.sound a ha
      exact ⟨r, hr, hpath.tail hb⟩

theorem Searching.taken (h : Searching succ sources done s) {fuel : Nat}
    (hl : order succ fuel s = some l) :
    (done ++ l).Nodup ∧ ∀ a, a ∈ done ++ l ↔ Reaches succ sources a := by
  induction fuel generalizing done s l with
  | zero => cases hl
  | succ fuel ih =>
      unfold order at hl
      split at hl
      · next hq =>
          obtain rfl := Option.some_inj.mp hl
          have hnodup := h.ordered.nodup
          rw [hq] at hnodup
          exact ⟨hnodup, fun a => by rw [List.append_nil]; exact h.mem_iff hq⟩
      · next a queue hq =>
          obtain ⟨l', hl', rfl⟩ := Option.map_eq_some_iff.mp hl
          rw [List.append_cons]
          exact ih (h.take hq) hl'

/-- **What a traversal takes**: the nodes that can be reached, each once. -/
theorem order_spec (hnodup : sources.Nodup) {fuel : Nat}
    (hl : order succ fuel (.start sources) = some l) :
    l.Nodup ∧ ∀ a, a ∈ l ↔ Reaches succ sources a :=
  (Searching.start hnodup).taken hl

variable {nodes : Finset α} (hnodes : ∀ a, Reaches succ sources a → a ∈ nodes)
include hnodes

theorem Searching.length_le (h : Searching succ sources done s) : done.length ≤ nodes.card := by
  have hnodup : done.Nodup := (List.nodup_append.mp h.ordered.nodup).1
  rw [← List.toFinset_card_of_nodup hnodup]
  refine Finset.card_le_card fun a ha => hnodes a (h.sound a ((h.ordered.mem a).mpr ?_))
  exact List.mem_append_left _ (List.mem_toFinset.mp ha)

theorem Searching.ends (h : Searching succ sources done s) {fuel : Nat}
    (hfuel : nodes.card < fuel + done.length) : ∃ l, order succ fuel s = some l := by
  induction fuel generalizing done s with
  | zero =>
      have hle := h.length_le hnodes
      omega
  | succ fuel ih =>
      unfold order
      split
      · exact ⟨[], rfl⟩
      · next a queue hq =>
          have hlength : (done ++ [a]).length = done.length + 1 := List.length_append
          obtain ⟨l, hl⟩ := ih (h.take hq) (by omega)
          exact ⟨a :: l, by rw [hl]; rfl⟩

/-- **A traversal ends**, after as many nodes as can be reached at most. -/
theorem exists_order (hnodup : sources.Nodup) {fuel : Nat} (hfuel : nodes.card < fuel) :
    ∃ l, order succ fuel (.start sources) = some l :=
  (Searching.start hnodup).ends hnodes hfuel

end Order

/-! ## One node behind another -/

section Behind

variable [DecidableEq α] {succ : α → List α} {sources l l' : List α} {s : Front α} {a b : α}

/-- However long a traversal may be, it takes the same nodes. -/
theorem order_unique {fuel fuel' : Nat} (h : order succ fuel s = some l)
    (h' : order succ fuel' s = some l') : l = l' := by
  induction fuel generalizing fuel' s l l' with
  | zero => cases h
  | succ fuel ih =>
      cases fuel' with
      | zero => cases h'
      | succ fuel' =>
          unfold order at h h'
          split at h
          · next hq =>
              rw [hq] at h'
              exact (Option.some_inj.mp h).symm.trans (Option.some_inj.mp h')
          · next a queue hq =>
              rw [hq] at h'
              obtain ⟨m, hm, rfl⟩ := Option.map_eq_some_iff.mp h
              obtain ⟨m', hm', rfl⟩ := Option.map_eq_some_iff.mp h'
              rw [ih hm hm']

/-- A node that is taken is a source, or a successor of one taken before. -/
theorem order_parent {done : List α} {fuel : Nat} (h : order succ fuel s = some l)
    (hqueue : ∀ q ∈ s.queue, q ∈ sources ∨ ∃ a ∈ done, q ∈ succ a) {l₁ l₂ : List α}
    (hl : l = l₁ ++ b :: l₂) : b ∈ sources ∨ ∃ a ∈ done ++ l₁, b ∈ succ a := by
  induction fuel generalizing s l done l₁ with
  | zero => cases h
  | succ fuel ih =>
      unfold order at h
      split at h
      · obtain rfl := Option.some_inj.mp h
        simp at hl
      · next a queue hq =>
          obtain ⟨m, hm, rfl⟩ := Option.map_eq_some_iff.mp h
          cases l₁ with
          | nil =>
              obtain ⟨rfl, -⟩ := List.cons.inj hl
              rw [List.append_nil]
              exact hqueue a (by rw [hq]; exact List.mem_cons_self)
          | cons a' l₁ =>
              obtain ⟨rfl, hrest⟩ := List.cons.inj hl
              rw [List.append_cons]
              refine ih hm (fun q hmem => ?_) hrest
              rcases Front.mem_queue_meetAll hmem with hmem | hmem
              · rcases hqueue q (by rw [hq]; exact List.mem_cons_of_mem a hmem) with hs | ⟨p, hp, hqp⟩
                · exact .inl hs
                · exact .inr ⟨p, List.mem_append_left _ hp, hqp⟩
              · exact .inr ⟨a, List.mem_append_right _ List.mem_cons_self, hmem⟩

/-- In breadth-first order from the sources, `b` comes behind `a`. -/
def Behind (succ : α → List α) (sources : List α) (a b : α) : Prop :=
  ∃ fuel l₁ l₂, order succ fuel (.start sources) = some (l₁ ++ a :: l₂) ∧ b ∈ l₂

theorem behind_iff {fuel : Nat} (h : order succ fuel (.start sources) = some l) :
    Behind succ sources a b ↔ ∃ l₁ l₂, l = l₁ ++ a :: l₂ ∧ b ∈ l₂ := by
  constructor
  · rintro ⟨_, l₁, l₂, h', hb⟩
    exact ⟨l₁, l₂, order_unique h h', hb⟩
  · rintro ⟨l₁, l₂, rfl, hb⟩
    exact ⟨fuel, l₁, l₂, h, hb⟩

end Behind

end RaftLib.Logic.Traversal
