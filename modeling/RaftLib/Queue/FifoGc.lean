/-
# `RaftLib.Queue.FifoGc` -- the walk of the garbage collection, with its deleters

`Schedule::fifo_gc` (`schedule.cpp`) by itself: two iterators, over the map `in` of addresses with
their deleters and over the set `out`. An iterator is the list of what it has not passed yet, and to
read one at its end is an exception, after which the program means nothing.

The walk compares with `!=` and not with `<`, so an address of `out` that is not in `in` takes
everything behind it out of the comparison, and then the iterator of `in` past its end. `collects_iff`
says that this is all that is needed. The deletions are those of `ExtWorld.fifoGc`
(`fifoGc_refines`).
-/
import RaftLib.Queue.ExtAlloc

namespace RaftLib.Queue

open RaftLib.Logic.KeySet
open RaftLib.Logic.Program

variable {δ : Type}

/-- `ptr_map_t`: the addresses, and the deleter that is stored with each. -/
structure PtrMap (δ : Type) where
  keys : Keys Addr
  deleter : Addr → δ

/-- The three sets that `setPtrSets` gives to the ports of a kernel, and the deleters called so far with
what they were called on. -/
structure PtrSets (δ : Type) where
  inMap : PtrMap δ
  outSet : Keys Addr
  peekSet : Keys Addr
  called : List (δ × Addr) := []

/-- An iterator was read at its end. -/
inductive GcStop where
  | pastEnd
  deriving DecidableEq, Repr

namespace PtrSets

abbrev Prog (δ α : Type) := EStateM GcStop (PtrSets δ) α

/-- `(*in_begin).second( ptr )`. -/
def callDeleter (p : Addr) : Prog δ PUnit :=
  modify fun s => { s with called := s.called ++ [(s.inMap.deleter p, p)] }

/-- The first loop; it returns where the iterator of `in` has come to. -/
def walk : List Addr → List Addr → Prog δ (List Addr)
  | inBegin, [] => return inBegin
  | [], _ :: _ => throw .pastEnd
  | i :: inBegin, o :: outBeg =>
      if o ≠ i then do
        callDeleter i
        walk inBegin (o :: outBeg)
      else walk inBegin outBeg

/-- The second loop. -/
def sweep : List Addr → Prog δ PUnit
  | [] => return ⟨⟩
  | i :: inBegin => do
      callDeleter i
      sweep inBegin

/-- `fifo_gc`. -/
def fifoGc : Prog δ PUnit := do
  let s ← get
  let inBegin ← walk s.inMap.keys.list s.outSet.list
  sweep inBegin
  modify fun s => { s with inMap := { s.inMap with keys := .empty }, outSet := .empty, peekSet := .empty }

/-- **What a collection is for.** It ends without reading an iterator at its end; it calls the deleters
of the addresses that are in `in` and not in `out`, each once, and no other; and the sets are empty. -/
def Collects (s : PtrSets δ) : Prop :=
  ∃ s', fifoGc.run s = .ok ⟨⟩ s' ∧
    s'.called.Nodup ∧
    (∀ d p, (d, p) ∈ s'.called ↔ d = s.inMap.deleter p ∧ p ∈ s.inMap.keys ∧ p ∉ s.outSet) ∧
    s'.inMap.keys = .empty ∧ s'.outSet = .empty ∧ s'.peekSet = .empty

/-! ## The loops, evaluated -/

variable {s : PtrSets δ} {is os : List Addr}

/-- The state after the deleters of the addresses have been called. -/
def calling (s : PtrSets δ) (ps : List Addr) : PtrSets δ :=
  { s with called := s.called ++ ps.map fun p => (s.inMap.deleter p, p) }

theorem calling_nil (s : PtrSets δ) : s.calling [] = s := by simp [calling]

theorem calling_cons (s : PtrSets δ) (p : Addr) (ps : List Addr) :
    (s.calling [p]).calling ps = s.calling (p :: ps) := by
  simp [calling]

theorem callDeleter_run (s : PtrSets δ) (p : Addr) :
    (callDeleter p).run s = .ok ⟨⟩ (s.calling [p]) := rfl

theorem sweep_run (is : List Addr) (s : PtrSets δ) : (sweep is).run s = .ok ⟨⟩ (s.calling is) := by
  induction is generalizing s with
  | nil => rw [calling_nil]; rfl
  | cons i is ih => rw [sweep, run_bind_of_ok (callDeleter_run s i), ih, calling_cons]

/-- The walk and the sweep together delete what the first list has unmatched, if the walk stays inside;
otherwise the walk stops there. -/
theorem walk_sweep_run (is os : List Addr) (s : PtrSets δ) :
    (walk is os >>= sweep).run s =
      if (unmatched is os).2 then .error .pastEnd (s.calling (unmatched is os).1)
      else .ok ⟨⟩ (s.calling (unmatched is os).1) := by
  induction is, os using unmatched.induct generalizing s with
  | case1 is =>
      unfold unmatched walk
      exact sweep_run is s
  | case2 o os =>
      unfold unmatched walk
      rw [calling_nil]
      rfl
  | case3 i is o os hne ih =>
      rw [walk, unmatched, if_pos hne, if_pos hne, bind_assoc,
        run_bind_of_ok (callDeleter_run s i), ih, calling_cons]
  | case4 i is o os heq ih => rw [walk, unmatched, if_neg heq, if_neg heq, ih]

/-- The whole collection. -/
theorem fifoGc_run (s : PtrSets δ) :
    let found := unmatched s.inMap.keys.list s.outSet.list
    fifoGc.run s = if found.2 then .error .pastEnd (s.calling found.1) else
      .ok ⟨⟩ { s.calling found.1 with
        inMap := { s.inMap with keys := .empty }, outSet := .empty, peekSet := .empty } := by
  intro found
  have hloops := walk_sweep_run s.inMap.keys.list s.outSet.list s
  show ((walk s.inMap.keys.list s.outSet.list) >>= fun inBegin => sweep inBegin >>= fun _ =>
    modify fun s : PtrSets δ => { s with
      inMap := { s.inMap with keys := .empty }, outSet := .empty, peekSet := .empty }).run s = _
  rw [← bind_assoc]
  cases hfound : found.2 with
  | true =>
      rw [hfound, if_pos rfl] at hloops
      exact run_bind_of_error hloops
  | false =>
      rw [hfound, if_neg Bool.false_ne_true] at hloops
      exact run_bind_of_ok hloops

/-- **When a collection does what it is for**: everything in `out` is in `in`. -/
theorem collects_iff (inMap : PtrMap δ) (outSet peekSet : Keys Addr) :
    Collects { inMap := inMap, outSet := outSet, peekSet := peekSet } ↔
      ∀ p ∈ outSet, p ∈ inMap.keys := by
  have hrun := fifoGc_run ({ inMap := inMap, outSet := outSet, peekSet := peekSet } : PtrSets δ)
  have hdefined := unmatched_defined_iff inMap.keys.list outSet.list inMap.keys.sorted outSet.sorted
  constructor
  · rintro ⟨s', hok, -⟩
    rw [hrun] at hok
    refine hdefined.mp ?_
    cases hfound : (unmatched inMap.keys.list outSet.list).2 with
    | false => rfl
    | true =>
        dsimp only at hok
        rw [hfound, if_pos rfl] at hok
        cases hok
  · intro hsub
    dsimp only at hrun
    rw [hdefined.mpr hsub, if_neg Bool.false_ne_true,
      unmatched_of_subset _ _ inMap.keys.sorted outSet.sorted hsub] at hrun
    refine ⟨_, hrun, ?_, fun d p => ?_, rfl, rfl, rfl⟩
    · have hnodup : (inMap.keys.list.filter (· ∉ outSet.list)).Nodup :=
        (inMap.keys.sorted.imp ne_of_lt).filter _
      exact List.Pairwise.map (fun p => (inMap.deleter p, p))
        (fun p q hne heq => hne (congrArg Prod.snd heq)) hnodup
    · show (d, p) ∈ [] ++ _ ↔ _
      simp only [List.nil_append, List.mem_map, List.mem_filter, Prod.mk.injEq]
      constructor
      · rintro ⟨q, ⟨hin, hout⟩, rfl, rfl⟩
        exact ⟨rfl, hin, of_decide_eq_true hout⟩
      · rintro ⟨rfl, hin, hout⟩
        exact ⟨p, ⟨hin, decide_eq_true hout⟩, rfl, rfl⟩

/-- With `3` in `out` and not in `in`, the object at `7` is deleted though `out` has it, and the iterator
is read at its end. -/
theorem frees_kept :
    let inMap : PtrMap Unit := { keys := (Keys.empty.insert 5).insert 7, deleter := fun _ => () }
    let outSet : Keys Addr := (Keys.empty.insert 3).insert 7
    7 ∈ outSet ∧
      (∃ s', fifoGc.run { inMap := inMap, outSet := outSet, peekSet := .empty } =
        .error .pastEnd s' ∧ s'.called = [((), 5), ((), 7)]) ∧
      ¬Collects { inMap := inMap, outSet := outSet, peekSet := .empty } := by
  refine ⟨by decide, ⟨_, rfl, rfl⟩, ?_⟩
  rintro ⟨s', hok, -⟩
  cases hok

end PtrSets

/-- **The collection of a kernel's sets** deletes the objects whose deleters are called. -/
theorem fifoGc_refines {κ ι : Type} {cap : ι → Nat} [DecidableEq κ] [DecidableEq ι]
    (w : ExtWorld κ ι cap) (k : κ) (deleter : Addr → δ) :
    let s : PtrSets δ := { inMap := { keys := w.inMap k, deleter := deleter }
                           outSet := w.outSet k, peekSet := w.peekSet k }
    match PtrSets.fifoGc.run s with
    | .ok _ s' => (w.fifoGc k).heap = w.heap.destroyAll (s'.called.map Prod.snd) ∧
        (w.fifoGc k).undefined = w.undefined
    | .error _ s' => (w.fifoGc k).heap = w.heap.destroyAll (s'.called.map Prod.snd) ∧
        (w.fifoGc k).undefined = true := by
  intro s
  have hmap : ∀ ps : List Addr, (s.calling ps).called.map Prod.snd = ps := fun ps => by
    simp [s, PtrSets.calling, Function.comp_def]
  rw [PtrSets.fifoGc_run s]
  cases hfound : (unmatched (w.inMap k).list (w.outSet k).list).2 with
  | true =>
      simp only [s, if_true]
      exact ⟨by rw [hmap]; rfl, by simp [ExtWorld.fifoGc, hfound]⟩
  | false =>
      simp only [s, Bool.false_eq_true, if_false]
      exact ⟨by rw [hmap]; rfl, by simp [ExtWorld.fifoGc, hfound]⟩

end RaftLib.Queue
