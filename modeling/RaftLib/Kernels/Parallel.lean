/-
# `RaftLib.Kernels.Parallel` -- a split, its workers and a join

What run-time duplication makes of one kernel: a split spreads the stream, each of the workers takes an
item at a time and gives one, and a join collects what they give. Every kernel runs whenever it likes.
The queue between the split and worker `k` is the split's output `k`, and the queue behind worker `k` is
the join's input `k`.

Which worker gets which item depends on the order of the runs, and so does the order of the results. But
no item is lost on the way and none is worked on twice (`parallel_conserves`), if the split runs only
where its contents fit (`Split.Fits`).
-/
import Mathlib.Algebra.BigOperators.Fin
import Mathlib.Algebra.Order.Group.Multiset
import Mathlib.Tactic.Abel
import RaftLib.Kernels.Join

namespace RaftLib.Kernels

open RaftLib.Logic.Steps (Run restrict)
open RaftLib.Queue

/-- The two ends of a section of workers. -/
structure Parallel (T U : Type) (cap : Nat) {n : Nat} (caps caps' : Fin n → Nat) (cap' : Nat) where
  split : Split T cap caps
  join : Join U caps' cap'

namespace Parallel

variable {T U : Type} {cap cap' n : Nat} {caps caps' : Fin n → Nat}

/-- An item arrives at the split, the split runs, worker `k` does, the join does, an item leaves it. -/
inductive Event (T U : Type) (n : Nat) where
  | arrived (e : T × RaftSignal)
  | split
  | worked (k : Fin n)
  | joined
  | left (e : U × RaftSignal)

/-- What arrived, in order. -/
def arrivals : List (Event T U n) → List (T × RaftSignal)
  | [] => []
  | .arrived e :: ls => e :: arrivals ls
  | _ :: ls => arrivals ls

/-- What left, in order. -/
def departures : List (Event T U n) → List (U × RaftSignal)
  | [] => []
  | .left e :: ls => e :: departures ls
  | _ :: ls => departures ls

section

variable [NeZero cap] [NeZero cap'] [∀ k, NeZero (caps k)] [∀ k, NeZero (caps' k)]

/-- An event that goes through. A worker makes `f e` of an item `e`. -/
def Step (f : T × RaftSignal → U × RaftSignal) (s : Parallel T U cap caps caps' cap') :
    Event T U n → Parallel T U cap caps caps' cap' → Prop
  | .arrived e, t => Split.Step s.split (.arrived e) t.split ∧ t.join = s.join
  | .split, t => Split.Step s.split .ran t.split ∧ t.join = s.join
  | .worked k, t => ∃ e, Split.Step s.split (.left k e) t.split ∧
      Join.Step s.join (.arrived k (f e)) t.join
  | .joined, t => Join.Step s.join .ran t.join ∧ t.split = s.split
  | .left e, t => Join.Step s.join (.left e) t.join ∧ t.split = s.split

/-- The split runs only where its contents fit. -/
def Meets (s : Parallel T U cap caps caps' cap') : Event T U n → Prop
  | .split => Split.Meets s.split .ran
  | _ => True

/-- What the queues hold: before the split, before and behind the workers, and behind the join. -/
structure Held (T U : Type) (n : Nat) where
  ins : List (T × RaftSignal)
  given : Fin n → List (T × RaftSignal)
  done : Fin n → List (U × RaftSignal)
  out : List (U × RaftSignal)

structure HoldsAll (s : Parallel T U cap caps caps' cap') (h : Held T U n) : Prop where
  split : Split.HoldsAll s.split h.ins h.given
  join : Join.HoldsAll s.join h.done h.out

/-- What the workers make of some items, in whatever order. -/
def results (f : T × RaftSignal → U × RaftSignal) (es : List (T × RaftSignal)) :
    Multiset (U × RaftSignal) :=
  Multiset.ofList (es.map f)

/-- The results that are still to leave: of the items that have not been worked on, and of those that
have. -/
def Held.pending (f : T × RaftSignal → U × RaftSignal) (h : Held T U n) : Multiset (U × RaftSignal) :=
  results f h.ins + ∑ k, results f (h.given k) + ∑ k, Multiset.ofList (h.done k) +
    Multiset.ofList h.out

variable {f : T × RaftSignal → U × RaftSignal} {s t : Parallel T U cap caps caps' cap'} {h : Held T U n}
  {l : Event T U n}

omit [NeZero cap] [NeZero cap'] [∀ k, NeZero (caps k)] [∀ k, NeZero (caps' k)] in
/-- A sum over the queues after one of them has changed. -/
theorem sum_update {α β : Type} (g : List α → Multiset β) (l : Fin n → List α) (k : Fin n)
    (x : List α) : (∑ j, g (Function.update l k x j)) + g (l k) = g x + ∑ j, g (l j) := by
  have hg : (fun j => g (Function.update l k x j)) = Function.update (fun j => g (l j)) k (g x) :=
    funext fun j => Function.apply_update (fun _ => g) l k x j
  rw [hg, Finset.sum_update_of_mem (Finset.mem_univ k), add_assoc,
    ← Finset.sum_sdiff (Finset.subset_univ {k}) (f := fun j => g (l j)), Finset.sum_singleton]

omit [NeZero cap] [NeZero cap'] [∀ k, NeZero (caps k)] [∀ k, NeZero (caps' k)] in
/-- Where items are added to a queue, they are added to the sum. -/
theorem sum_append {α β : Type} {g : List α → Multiset β} (hg : ∀ x y, g (x ++ y) = g x + g y)
    (l : Fin n → List α) (k : Fin n) (x : List α) :
    ∑ j, g (Function.update l k (l k ++ x) j) = g x + ∑ j, g (l j) := by
  have hsum := sum_update g l k (l k ++ x)
  apply add_right_cancel (b := g (l k))
  rw [hsum, hg]
  abel

omit [NeZero cap] [NeZero cap'] [∀ k, NeZero (caps k)] [∀ k, NeZero (caps' k)] in
/-- Where the first item is taken off a queue, it is taken off the sum. -/
theorem sum_tail {α β : Type} {g : List α → Multiset β} (hg : ∀ x y, g (x ++ y) = g x + g y)
    {l : Fin n → List α} {k : Fin n} {e : α} {es : List α} (hes : l k = e :: es) :
    (∑ j, g (Function.update l k es j)) + g [e] = ∑ j, g (l j) := by
  have hsum := sum_update g l k es
  have hcons : g (e :: es) = g [e] + g es := hg [e] es
  rw [hes, hcons] at hsum
  apply add_right_cancel (b := g es)
  rw [add_assoc, hsum]
  abel

omit [NeZero cap] [NeZero cap'] [∀ k, NeZero (caps k)] [∀ k, NeZero (caps' k)] in
theorem ofList_append {α : Type} (x y : List α) :
    Multiset.ofList (x ++ y) = Multiset.ofList x + Multiset.ofList y := (Multiset.coe_add x y).symm

theorem results_append (f : T × RaftSignal → U × RaftSignal) (x y : List (T × RaftSignal)) :
    results f (x ++ y) = results f x + results f y := by
  rw [results, List.map_append, ofList_append]
  rfl

/-- **Each event keeps account.** What is pending and what arrives is what leaves and what is pending
then. -/
theorem step_held (hholds : HoldsAll s h) (hstep : restrict (Step f) Meets s l t) :
    ∃ h' : Held T U n, HoldsAll t h' ∧
      h.pending f + results f (arrivals [l]) = Multiset.ofList (departures [l]) + h'.pending f := by
  obtain ⟨hmeets, hstep⟩ := hstep
  have hno : results f [] = 0 := rfl
  have hnone : Multiset.ofList ([] : List (U × RaftSignal)) = 0 := rfl
  cases l with
  | arrived e =>
      obtain ⟨hsplit, hjoin⟩ := hstep
      refine ⟨{ h with ins := h.ins ++ [e] }, ⟨Split.step_arrived hholds.split hsplit, ?_⟩, ?_⟩
      · rw [hjoin]
        exact hholds.join
      · simp only [Held.pending, results_append, arrivals, departures, hnone]
        abel
  | split =>
      obtain ⟨hsplit, hjoin⟩ := hstep
      obtain ⟨k, hk⟩ := Split.step_ran hholds.split (hmeets _ _ hholds.split) hsplit
      refine ⟨{ h with ins := [], given := Function.update h.given k (h.given k ++ h.ins) }, ⟨hk, ?_⟩, ?_⟩
      · rw [hjoin]
        exact hholds.join
      · have hgiven := sum_append (results_append f) h.given k h.ins
        simp only [Held.pending, arrivals, departures, hno, hnone, hgiven]
        abel
  | worked k =>
      obtain ⟨e, hsplit, hjoin⟩ := hstep
      obtain ⟨es, hes, hk⟩ := Split.step_left hholds.split hsplit
      refine ⟨{ h with
        given := Function.update h.given k es
        done := Function.update h.done k (h.done k ++ [f e]) },
        ⟨hk, Join.step_arrived hholds.join hjoin⟩, ?_⟩
      have hgiven := sum_tail (results_append f) hes
      have hdone := sum_append ofList_append h.done k [f e]
      have hone : results f [e] = Multiset.ofList [f e] := rfl
      simp only [Held.pending, arrivals, departures, hno, hnone, hdone, ← hgiven, hone]
      abel
  | joined =>
      obtain ⟨hjoin, hsplit⟩ := hstep
      obtain ⟨k, e, es, hes, hk⟩ := Join.step_ran hholds.join hjoin
      refine ⟨{ h with done := Function.update h.done k es, out := h.out ++ [e] }, ⟨?_, hk⟩, ?_⟩
      · rw [hsplit]
        exact hholds.split
      · have hdone := sum_tail ofList_append hes
        simp only [Held.pending, arrivals, departures, hno, hnone, ofList_append, ← hdone]
        abel
  | left e =>
      obtain ⟨hjoin, hsplit⟩ := hstep
      obtain ⟨es, hes, hk⟩ := Join.step_left hholds.join hjoin
      refine ⟨{ h with out := es }, ⟨?_, hk⟩, ?_⟩
      · rw [hsplit]
        exact hholds.split
      · have hout : Multiset.ofList (e :: es) = Multiset.ofList [e] + Multiset.ofList es :=
          ofList_append [e] es
        simp only [Held.pending, arrivals, departures, hno, hes, hout]
        abel

omit [NeZero cap] [NeZero cap'] [∀ k, NeZero (caps k)] [∀ k, NeZero (caps' k)] in
theorem arrivals_cons (l : Event T U n) (ls : List (Event T U n)) :
    arrivals (l :: ls) = arrivals [l] ++ arrivals ls := by
  cases l <;> rfl

omit [NeZero cap] [NeZero cap'] [∀ k, NeZero (caps k)] [∀ k, NeZero (caps' k)] in
theorem departures_cons (l : Event T U n) (ls : List (Event T U n)) :
    departures (l :: ls) = departures [l] ++ departures ls := by
  cases l <;> rfl

/-- Nothing is under way. -/
structure Held.Empty (h : Held T U n) : Prop where
  ins : h.ins = []
  given : ∀ k, h.given k = []
  done : ∀ k, h.done k = []
  out : h.out = []

omit [NeZero cap] [NeZero cap'] [∀ k, NeZero (caps k)] [∀ k, NeZero (caps' k)] in
theorem Held.Empty.pending (hempty : h.Empty) : h.pending f = 0 := by
  have hgiven (k : Fin n) : results f (h.given k) = 0 := by
    rw [hempty.given k]
    rfl
  have hdone (k : Fin n) : Multiset.ofList (h.done k) = 0 := by
    rw [hempty.done k]
    rfl
  rw [Held.pending, hempty.ins, hempty.out, Finset.sum_congr rfl fun k _ => hgiven k,
    Finset.sum_congr rfl fun k _ => hdone k, Finset.sum_const_zero]
  rfl

/-- Any sequence of events keeps account. -/
theorem run_held {ls : List (Event T U n)} (hrun : Run (restrict (Step f) Meets) s ls t) :
    ∀ {h : Held T U n}, HoldsAll s h → ∃ h' : Held T U n, HoldsAll t h' ∧
      h.pending f + results f (arrivals ls) = Multiset.ofList (departures ls) + h'.pending f := by
  induction hrun with
  | nil s =>
      intro h hholds
      exact ⟨h, hholds, add_comm _ _⟩
  | @cons s m t l ls hstep _ ih =>
      intro h hholds
      obtain ⟨hm, hholdsm, hfirst⟩ := step_held hholds hstep
      obtain ⟨h', hholds', hrest⟩ := ih hholdsm
      refine ⟨h', hholds', ?_⟩
      rw [arrivals_cons, departures_cons, results_append, ofList_append, ← add_assoc, hfirst, add_assoc,
        hrest, add_assoc]

/-- **Workers in parallel.** Whenever the split, the workers and the join run, and whoever gets what:
the results of what has arrived are what has left and what is pending. From nothing under way to nothing
under way, what has left is the results of what has arrived, in some order. -/
theorem parallel_conserves (hholds : HoldsAll s h) {ls : List (Event T U n)}
    (hrun : Run (restrict (Step f) Meets) s ls t) : ∃ h' : Held T U n, HoldsAll t h' ∧
      h.pending f + results f (arrivals ls) = Multiset.ofList (departures ls) + h'.pending f ∧
      (h.Empty → h'.Empty → (departures ls).Perm ((arrivals ls).map f)) := by
  obtain ⟨h', hholds', hsum⟩ := run_held hrun hholds
  refine ⟨h', hholds', hsum, fun hempty hempty' => ?_⟩
  rw [hempty.pending, hempty'.pending, zero_add, add_zero] at hsum
  exact Multiset.coe_eq_coe.mp hsum.symm

end

/-- A queue before a split with one output, a worker and a join. -/
def single (size : Nat) [NeZero size] (items : RingBuffer Nat 4) :
    Parallel Nat Nat 4 (fun _ : Fin 1 => size) (fun _ : Fin 1 => size) size where
  split := Split.feeding size items
  join := { input := fun _ => RingBuffer.init fun _ => 0, output := RingBuffer.init fun _ => 0 }

def singleHeld : Held Nat Nat 1 where
  ins := [(7, RaftSignal.none)]
  given _ := []
  done _ := []
  out := []

theorem holdsAll_single (size : Nat) [NeZero size] :
    HoldsAll (single size (RingBuffer.pushed 7 RaftSignal.none (RingBuffer.init fun _ => 0))) singleHeld where
  split := Split.holdsAll_feeding size (RingBuffer.holds_pushed (Holds.init _) (by decide) 7 _)
  join := ⟨fun _ => Holds.init _, Holds.init _⟩

/-- The item fits. -/
theorem meets_single : Meets (single 2 (RingBuffer.pushed 7 RaftSignal.none (RingBuffer.init fun _ => 0)))
    (.split : Event Nat Nat 1) := by
  intro ins outs hholds
  obtain rfl : ins = [(7, RaftSignal.none)] := hholds.input.unique (holdsAll_single 2).split.input
  intro k _
  have houts : outs k = [] := (hholds.output k).unique (Holds.init _)
  refine ⟨by rw [houts]; exact Nat.succ_le_succ (Nat.zero_le 1), ?_⟩
  rintro (_ | i) e hi
  · obtain rfl := Option.some_inj.mp hi
    decide
  · cases hi

/-- The split runs, the worker doubles the item, and the join runs. -/
theorem parallel_conserves_single :
    ∃ s t : Parallel Nat Nat 4 (fun _ : Fin 1 => 2) (fun _ : Fin 1 => 2) 2,
      Run (restrict (Step fun e => (2 * e.1, e.2)) Meets) s [.split, .worked 0, .joined] t ∧
      HoldsAll s singleHeld ∧ ∃ h' : Held Nat Nat 1, HoldsAll t h' ∧
      h'.pending (fun e => (2 * e.1, e.2)) = {(14, RaftSignal.none)} := by
  have hfirst := holdsAll_single 2
  obtain ⟨s₁, s₂, j₁, j₂, hsplit, hpop, hpush, hjoin⟩ : ∃ s₁ s₂ j₁ j₂,
      Split.Step (single 2 (RingBuffer.pushed 7 RaftSignal.none (RingBuffer.init fun _ => 0))).split .ran s₁ ∧
        Split.Step s₁ (.left 0 (7, RaftSignal.none)) s₂ ∧
        Join.Step (single 2 (RingBuffer.pushed 7 RaftSignal.none (RingBuffer.init fun _ => 0))).join
          (.arrived 0 (14, RaftSignal.none)) j₁ ∧ Join.Step j₁ .ran j₂ := by
    unfold Split.Step Join.Step
    exact ⟨_, _, _, _, rfl, rfl, rfl, rfl⟩
  have hrun : Run (restrict (Step fun e => (2 * e.1, e.2)) Meets)
      (single 2 (RingBuffer.pushed 7 RaftSignal.none (RingBuffer.init fun _ => 0)))
      [.split, .worked 0, .joined] ⟨s₂, j₂⟩ := by
    apply Run.cons (t := ⟨s₁,
        (single 2 (RingBuffer.pushed 7 RaftSignal.none (RingBuffer.init fun _ => 0))).join⟩)
    · exact ⟨meets_single, hsplit, rfl⟩
    · apply Run.cons (t := ⟨s₂, j₁⟩)
      · exact ⟨trivial, _, hpop, hpush⟩
      · exact .single ⟨trivial, hjoin, rfl⟩
  obtain ⟨h', hholds', hsum, -⟩ := parallel_conserves hfirst hrun
  refine ⟨_, _, hrun, hfirst, h', hholds', ?_⟩
  exact ((zero_add _).symm.trans (hsum.symm.trans rfl))

end Parallel

end RaftLib.Kernels
