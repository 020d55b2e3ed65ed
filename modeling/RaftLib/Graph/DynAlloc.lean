/-
# `RaftLib.Graph.DynAlloc` -- the monitor that resizes queues

The loop of `dynalloc::run` (`dynalloc.cpp`): in each round a traversal calls `mon_func` on the edges,
which counts in `size_map` how often the producer of a queue has been blocked for most of the time. The
key is put together from the low 16 bits of the addresses of the two `PortInfo`s, so edges whose
addresses agree there share a counter. `judges_each_iff` says that each queue is judged on its own record
exactly if no two edges do.

What the monitor finds in a queue when it comes to it is given from outside, and so is where the
`PortInfo`s lie. The quotient of `get_frac_write_blocked` is compared exactly, where the code has a
`float`.
-/
import RaftLib.Graph.GraphTools
import RaftLib.Queue.Buffer

namespace RaftLib.Graph

open RaftLib.Logic.Program
open RaftLib.Queue (Blocked)

/-! ## The monitor -/

/-- What the monitor finds in a queue: `write_stats`, and `capacity()`. -/
structure Observation where
  writeStats : Blocked
  capacity : Nat

/-- `get_frac_write_blocked`, as a fraction. -/
def Observation.fracWriteBlocked (o : Observation) : Nat × Nat :=
  if o.writeStats.blocked = 0 ∨ o.writeStats.count = 0 then (0, 1)
  else (o.writeStats.blocked.toNat, o.writeStats.count.toNat)

/-- `realized_ratio >= ratio`. -/
def Observation.Over (o : Observation) : Prop := 8 * o.fracWriteBlocked.2 ≤ 10 * o.fracWriteBlocked.1

instance : DecidablePred Observation.Over := fun _ => Nat.decLe _ _

/-- The map, `size_map`, and the calls of `resize` in this round, by the source port of the edge. -/
structure Monitor where
  world : World
  sizeMap : Nat → Nat := fun _ => 0
  resized : List (PortRef × Nat) := []

namespace Monitor

/-- `size_map[ hash_val ] = count`. -/
def setCount (m : Monitor) (hashVal count : Nat) : Monitor :=
  { m with sizeMap := Function.update m.sizeMap hashVal count }

/-- `buff_ptr->resize( size )`, on the queue of the port. -/
def resize (m : Monitor) (r : PortRef) (size : Nat) : Monitor :=
  { m with resized := m.resized ++ [(r, size)] }

end Monitor

/-- `dynalloc::hash`, of the addresses of the two `PortInfo`s. -/
def hash (a b : Nat) : Nat := b % 2 ^ 16 * 2 ^ 32 + a % 2 ^ 16

variable (address : PortRef → Nat)

/-- `mon_func`. -/
def monFunc (seen : PortRef → Observation) (a b : PortRef) : EStateM Err Monitor PUnit := do
  if ((← get).world.info a).fixedBufferSize ≠ 0 then return ⟨⟩
  else
    let hashVal := hash (address a) (address b)
    if (seen a).Over then
      -- `size_map[ hash_val ]++` gives the count before this round
      let currCount := (← get).sizeMap hashVal
      modify (·.setCount hashVal (currCount + 1))
      if 2 < currCount then
        modify (·.resize a ((seen a).capacity * 2))
        modify (·.setCount hashVal 0)

/-- The monitor loop, and what it resizes in each round; `rounds` has what it finds in the queues. -/
def monitorLoop (fuel : Nat) (sourceKernels : List KernelId) :
    List (PortRef → Observation) → EStateM Err Monitor (List (List (PortRef × Nat)))
  | [] => return []
  | seen :: rounds => do
      -- the calls of `resize` are listed round by round
      modify fun m => { m with resized := [] }
      let _ ← bfs Monitor.world (monFunc address seen) false fuel sourceKernels
      let resized := (← get).resized
      return resized :: (← monitorLoop fuel sourceKernels rounds)

/-! ## One queue on its own -/

namespace Observation

/-- How often the queue has been over the threshold since its last resize, after one more observation. -/
def next (o : Observation) (count : Nat) : Nat :=
  if o.Over then if count + 1 = 4 then 0 else count + 1 else count

/-- What is then to be requested: the fourth time, twice the capacity. -/
def request (o : Observation) (count : Nat) : Option Nat :=
  if o.Over ∧ count + 1 = 4 then some (2 * o.capacity) else none

end Observation

/-- What is to be requested for a queue with these observations. -/
def ownRequests : Nat → List Observation → List (Option Nat)
  | _, [] => []
  | count, o :: later => o.request count :: ownRequests (o.next count) later

/-- The requests for the queue of a port. -/
def requestsFor (r : PortRef) (resized : List (PortRef × Nat)) : List Nat :=
  (resized.filter fun x => x.1 = r).map Prod.snd

/-- **Each queue is judged on its own record**, whatever is found in the queues and for however long. -/
def JudgesEach (fuel : Nat) (w : World) (sourceKernels : List KernelId) : Prop :=
  ∀ rounds : List (PortRef → Observation), ∃ resized m,
    (monitorLoop address fuel sourceKernels rounds).run { world := w } = .ok resized m ∧
      ∀ e ∈ w.edgesMet sourceKernels, (w.info e.1).fixedBufferSize = 0 →
        resized.map (requestsFor e.1) = (ownRequests 0 (rounds.map fun seen => seen e.1)).map Option.toList

/-! ## A call of `mon_func` -/

variable {address}
variable {w : World} {m : Monitor} {seen : PortRef → Observation} {e e' : PortRef × PortRef}

/-- The key of an edge. -/
abbrev key (address : PortRef → Nat) (e : PortRef × PortRef) : Nat := hash (address e.1) (address e.2)

/-- What a call does. -/
def judged (address : PortRef → Nat) (seen : PortRef → Observation) (m : Monitor) (e : PortRef × PortRef) :
    Monitor :=
  if (m.world.info e.1).fixedBufferSize ≠ 0 then m
  else if (seen e.1).Over then
    if 2 < m.sizeMap (key address e) then
      (m.resize e.1 ((seen e.1).capacity * 2)).setCount (key address e) 0
    else m.setCount (key address e) (m.sizeMap (key address e) + 1)
  else m

theorem monFunc_run (address : PortRef → Nat) (seen : PortRef → Observation) (m : Monitor)
    (e : PortRef × PortRef) :
    (monFunc address seen e.1 e.2).run m = .ok ⟨⟩ (judged address seen m e) := by
  have hget : (get : EStateM Err Monitor Monitor).run m = .ok m m := rfl
  unfold monFunc judged
  rw [run_bind_of_ok hget]
  by_cases hfixed : (m.world.info e.1).fixedBufferSize ≠ 0
  · rw [if_pos hfixed, if_pos hfixed]
    rfl
  · rw [if_neg hfixed, if_neg hfixed]
    by_cases hover : (seen e.1).Over
    · rw [if_pos hover, if_pos hover, run_bind_of_ok hget]
      by_cases hcount : 2 < m.sizeMap (key address e)
      · rw [if_pos hcount]
        simp [hcount, key, Monitor.setCount, Monitor.resize]
      · rw [if_neg hcount]
        simp [hcount, key]
    · rw [if_neg hover, if_neg hover]
      rfl

@[simp] theorem judged_world : (judged address seen m e).world = m.world := by
  unfold judged
  split_ifs <;> rfl

theorem keeps_monFunc (address : PortRef → Nat) (seen : PortRef → Observation) :
    Keeps Monitor.world (monFunc address seen) := by
  intro r r' m u m' h
  rw [monFunc_run address seen m (r, r')] at h
  cases h
  rw [judged_world]
  exact .refl _

theorem callAll_monFunc (address : PortRef → Nat) (seen : PortRef → Observation)
    (edges : List (PortRef × PortRef)) (m : Monitor) :
    (callAll (monFunc address seen) edges).run m = .ok ⟨⟩ (edges.foldl (judged address seen) m) := by
  induction edges generalizing m with
  | nil => rfl
  | cons e edges ih => rw [callAll_cons, run_bind_of_ok (monFunc_run address seen m e), ih, List.foldl_cons]

@[simp] theorem foldl_judged_world (edges : List (PortRef × PortRef)) :
    (edges.foldl (judged address seen) m).world = m.world := by
  induction edges generalizing m with
  | nil => rfl
  | cons e edges ih => rw [List.foldl_cons, ih, judged_world]

/-! ## A round -/

theorem requestsFor_append (r : PortRef) (l l' : List (PortRef × Nat)) :
    requestsFor r (l ++ l') = requestsFor r l ++ requestsFor r l' := by
  unfold requestsFor
  rw [List.filter_append, List.map_append]

theorem requestsFor_self (r : PortRef) (n : Nat) : requestsFor r [(r, n)] = [n] := by simp [requestsFor]

theorem requestsFor_of_ne {r r' : PortRef} (hne : r' ≠ r) (n : Nat) : requestsFor r [(r', n)] = [] := by
  simp [requestsFor, hne]

/-- The queue of the edge has been judged on what was found in it. -/
structure Judged (address : PortRef → Nat) (e : PortRef × PortRef) (o : Observation) (m m' : Monitor) :
    Prop where
  count : m'.sizeMap (key address e) = o.next (m.sizeMap (key address e))
  requests : requestsFor e.1 m'.resized =
    requestsFor e.1 m.resized ++ (o.request (m.sizeMap (key address e))).toList

/-- Nothing has happened to it. -/
structure Passed (address : PortRef → Nat) (e : PortRef × PortRef) (m m' : Monitor) : Prop where
  count : m'.sizeMap (key address e) = m.sizeMap (key address e)
  requests : requestsFor e.1 m'.resized = requestsFor e.1 m.resized

theorem Passed.trans {m' m'' : Monitor} (h : Passed address e m m') (h' : Passed address e m' m'') :
    Passed address e m m'' := ⟨h'.count.trans h.count, h'.requests.trans h.requests⟩

theorem Judged.trans {o : Observation} {m₁ m₂ m₃ : Monitor} (h₁ : Passed address e m m₁)
    (h₂ : Judged address e o m₁ m₂) (h₃ : Passed address e m₂ m₃) : Judged address e o m m₃ where
  count := by rw [h₃.count, h₂.count, h₁.count]
  requests := by rw [h₃.requests, h₂.requests, h₁.requests, h₁.count]

theorem Observation.next_le {o : Observation} {count : Nat} (h : count ≤ 3) : o.next count ≤ 3 := by
  unfold Observation.next
  split_ifs <;> omega

/-- **The call on the edge itself.** -/
theorem judged_self (seen : PortRef → Observation) (hfixed : (m.world.info e.1).fixedBufferSize = 0)
    (hcount : m.sizeMap (key address e) ≤ 3) :
    Judged address e (seen e.1) m (judged address seen m e) := by
  unfold judged
  rw [if_neg (not_not_intro hfixed)]
  by_cases hover : (seen e.1).Over
  · rw [if_pos hover]
    by_cases hfourth : 2 < m.sizeMap (key address e)
    · have hfour : m.sizeMap (key address e) + 1 = 4 := by omega
      rw [if_pos hfourth]
      refine ⟨?_, ?_⟩
      · simp [Monitor.setCount, Observation.next, hover, hfour]
      · simp only [Monitor.setCount, Monitor.resize, Observation.request, hover, hfour, and_self, if_true,
          requestsFor_append, requestsFor_self, Nat.mul_comm 2, Option.toList_some]
    · have hfour : m.sizeMap (key address e) + 1 ≠ 4 := by omega
      rw [if_neg hfourth]
      refine ⟨?_, ?_⟩
      · simp [Monitor.setCount, Observation.next, hover, hfour]
      · simp [Monitor.setCount, Observation.request, hfour]
  · rw [if_neg hover]
    exact ⟨by simp [Observation.next, hover], by simp [Observation.request, hover]⟩

/-- The call on another edge, with another key unless it is skipped. -/
theorem judged_other (hne : e'.1 ≠ e.1)
    (hkey : (m.world.info e'.1).fixedBufferSize = 0 → key address e' ≠ key address e) :
    Passed address e m (judged address seen m e') := by
  unfold judged
  by_cases hfixed : (m.world.info e'.1).fixedBufferSize = 0
  · have hother := (hkey hfixed).symm
    rw [if_neg (not_not_intro hfixed)]
    by_cases hover : (seen e'.1).Over
    · rw [if_pos hover]
      split
      · refine ⟨by simp [Monitor.setCount, Monitor.resize, hother], ?_⟩
        simp [Monitor.setCount, Monitor.resize, requestsFor_append, requestsFor_of_ne hne]
      · exact ⟨by simp [Monitor.setCount, hother], rfl⟩
    · rw [if_neg hover]
      exact ⟨rfl, rfl⟩
  · rw [if_pos hfixed]
    exact ⟨rfl, rfl⟩

theorem foldl_judged_other (seen : PortRef → Observation) {edges : List (PortRef × PortRef)} (hne : ∀ e' ∈ edges, e'.1 ≠ e.1)
    (hkey : ∀ e' ∈ edges, (m.world.info e'.1).fixedBufferSize = 0 → key address e' ≠ key address e) :
    Passed address e m (edges.foldl (judged address seen) m) := by
  induction edges generalizing m with
  | nil => exact ⟨rfl, rfl⟩
  | cons e' edges ih =>
      obtain ⟨hne', hne⟩ := List.forall_mem_cons.mp hne
      obtain ⟨hkey', hkey⟩ := List.forall_mem_cons.mp hkey
      exact (judged_other hne' hkey').trans (ih hne (by rwa [judged_world]))

/-- **A round judges a queue on what is found in it**, if no other edge has its key. -/
theorem foldl_judged (seen : PortRef → Observation) {edges : List (PortRef × PortRef)} (hnodup : (edges.map Prod.fst).Nodup)
    (hmem : e ∈ edges) (hfixed : (m.world.info e.1).fixedBufferSize = 0)
    (hkey : ∀ e' ∈ edges, (m.world.info e'.1).fixedBufferSize = 0 → key address e' = key address e → e' = e)
    (hcount : m.sizeMap (key address e) ≤ 3) :
    Judged address e (seen e.1) m (edges.foldl (judged address seen) m) := by
  obtain ⟨before, after, rfl⟩ := List.append_of_mem hmem
  rw [List.map_append, List.map_cons] at hnodup
  obtain ⟨-, hcons, hapart⟩ := List.nodup_append.mp hnodup
  have hbefore : ∀ e' ∈ before, e'.1 ≠ e.1 := fun e' he' =>
    hapart e'.1 (List.mem_map_of_mem he') e.1 List.mem_cons_self
  have hafter : ∀ e' ∈ after, e'.1 ≠ e.1 := fun e' he' heq =>
    (List.nodup_cons.mp hcons).1 (heq ▸ List.mem_map_of_mem he')
  have hpassed : Passed address e m _ := foldl_judged_other seen hbefore
    fun e' he' hf heq => hbefore e' he' (congrArg Prod.fst
      (hkey e' (List.mem_append_left _ he') hf heq))
  rw [List.foldl_append, List.foldl_cons]
  refine Judged.trans hpassed (judged_self seen ?_ ?_) (foldl_judged_other seen hafter fun e' he' hf heq => ?_)
  · rwa [foldl_judged_world]
  · rwa [hpassed.count]
  · rw [judged_world, foldl_judged_world] at hf
    exact hafter e' he' (congrArg Prod.fst
      (hkey e' (List.mem_append_right _ (List.mem_cons_of_mem _ he')) hf heq))

/-! ## The loop -/

/-- What the rounds request, over the edges that the traversal meets. -/
def requested (address : PortRef → Nat) (edges : List (PortRef × PortRef)) :
    List (PortRef → Observation) → Monitor → List (List (PortRef × Nat))
  | [], _ => []
  | seen :: rounds, m =>
      let m' := edges.foldl (judged address seen) { m with resized := [] }
      m'.resized :: requested address edges rounds m'

section Loop

variable {sources : List KernelId} {fuel : Nat}

theorem monitorLoop_run (hclosed : w.Closed) (hlt : ∀ k ∈ sources, k < w.next) (hnodup : sources.Nodup)
    (hfuel : w.next + 2 ≤ fuel) (rounds : List (PortRef → Observation)) (hworld : m.world = w) :
    ∃ m', (monitorLoop address fuel sources rounds).run m =
      .ok (requested address (w.edgesMet sources) rounds m) m' := by
  induction rounds generalizing m with
  | nil => exact ⟨m, rfl⟩
  | cons seen rounds ih =>
      have hclear : (modify fun m => { m with resized := [] } : EStateM Err Monitor PUnit).run m =
        .ok ⟨⟩ { m with resized := [] } := rfl
      have hround : (bfs Monitor.world (monFunc address seen) false fuel sources).run { m with resized := [] } =
          .ok true ((w.edgesMet sources).foldl (judged address seen) { m with resized := [] }) := by
        rw [bfs_edgesMet hclosed hlt hnodup (keeps_monFunc address seen) (hworld ▸ .refl _) hfuel,
          run_bind_of_ok (callAll_monFunc address seen _ _)]
        rfl
      obtain ⟨m', hm'⟩ := ih (m := (w.edgesMet sources).foldl (judged address seen) { m with resized := [] })
        (by rw [foldl_judged_world]; exact hworld)
      refine ⟨m', ?_⟩
      rw [monitorLoop, run_bind_of_ok hclear, run_bind_of_ok hround, EStateM.run_bind, EStateM.run_get]
      show (monitorLoop address fuel sources rounds >>= fun l => pure (_ :: l)).run _ = _
      rw [run_bind_of_ok hm']
      rfl

/-- Over all rounds, from any count. -/
theorem requested_own {edges : List (PortRef × PortRef)} (hnodup : (edges.map Prod.fst).Nodup)
    (hmem : e ∈ edges) (hfixed : (w.info e.1).fixedBufferSize = 0)
    (hkey : ∀ e' ∈ edges, (w.info e'.1).fixedBufferSize = 0 → key address e' = key address e → e' = e)
    {rounds : List (PortRef → Observation)} (hworld : m.world = w) (hcount : m.sizeMap (key address e) ≤ 3) :
    (requested address edges rounds m).map (requestsFor e.1) =
      (ownRequests (m.sizeMap (key address e)) (rounds.map fun seen => seen e.1)).map Option.toList := by
  induction rounds generalizing m with
  | nil => rfl
  | cons seen rounds ih =>
      have hjudged := foldl_judged (m := { m with resized := [] }) seen hnodup
        hmem (hworld ▸ hfixed) (hworld ▸ hkey) hcount
      have hlater := ih (m := edges.foldl (judged address seen) { m with resized := [] })
        (by rw [foldl_judged_world]; exact hworld) (by rw [hjudged.count]; exact Observation.next_le hcount)
      rw [requested, List.map_cons, List.map_cons, ownRequests, List.map_cons, hlater, hjudged.requests,
        hjudged.count]
      rfl

/-- Rounds in which one queue is over the threshold, and no other. -/
def only (r : PortRef) : PortRef → Observation := fun r' =>
  { writeStats := if r' = r then { blocked := 1, count := 1 } else {}, capacity := 1 }

theorem only_over {r r' : PortRef} : (only r r').Over ↔ r' = r := by
  unfold only
  by_cases h : r' = r
  · rw [if_pos h]
    exact iff_of_true (by decide) h
  · rw [if_neg h]
    exact iff_of_false (by decide) h

theorem foldl_only {edges : List (PortRef × PortRef)} (hnodup : (edges.map Prod.fst).Nodup)
    (hmem : e ∈ edges) :
    edges.foldl (judged address (only e.1)) m = judged address (only e.1) m e := by
  have hidle : ∀ (l : List (PortRef × PortRef)) (m : Monitor), (∀ e' ∈ l, e'.1 ≠ e.1) →
      l.foldl (judged address (only e.1)) m = m := by
    intro l
    induction l with
    | nil => exact fun _ _ => rfl
    | cons e' l ih =>
        intro m hne
        obtain ⟨hne', hne⟩ := List.forall_mem_cons.mp hne
        have hskip : judged address (only e.1) m e' = m := by
          unfold judged
          rw [if_neg (mt only_over.mp hne'), ite_self]
        rw [List.foldl_cons, hskip, ih m hne]
  obtain ⟨before, after, rfl⟩ := List.append_of_mem hmem
  rw [List.map_append, List.map_cons] at hnodup
  obtain ⟨-, hcons, hapart⟩ := List.nodup_append.mp hnodup
  rw [List.foldl_append, List.foldl_cons, hidle before m fun e' he' =>
    hapart e'.1 (List.mem_map_of_mem he') e.1 List.mem_cons_self]
  exact hidle after _ fun e' he' heq => (List.nodup_cons.mp hcons).1 (heq ▸ List.mem_map_of_mem he')

/-- One round counts up to three. -/
theorem judged_only {count : Nat} (hfixed : (m.world.info e.1).fixedBufferSize = 0)
    (hcount : m.sizeMap (key address e) = count) (hle : count ≤ 2) :
    (judged address (only e.1) { m with resized := [] } e).world = m.world ∧
      (judged address (only e.1) { m with resized := [] } e).sizeMap (key address e) = count + 1 ∧
      requestsFor e.1 (judged address (only e.1) { m with resized := [] } e).resized = [] := by
  have h := judged_self (m := { m with resized := [] }) (only e.1) hfixed
    (hcount.trans_le (by omega))
  refine ⟨judged_world, ?_, ?_⟩
  · rw [h.count]
    show (only e.1 e.1).next (m.sizeMap (key address e)) = count + 1
    rw [hcount, Observation.next, if_pos (only_over.mpr rfl), if_neg (by omega)]
  · rw [h.requests]
    show requestsFor e.1 [] ++ ((only e.1 e.1).request (m.sizeMap (key address e))).toList = []
    rw [hcount, Observation.request, if_neg (fun h => absurd h.2 (by omega))]
    rfl

/-- **Two edges with one key**: one observation of the first hastens the resize of the second. -/
theorem requested_hastened {edges : List (PortRef × PortRef)} (hnodup : (edges.map Prod.fst).Nodup)
    (hmem : e ∈ edges) (hmem' : e' ∈ edges) (hne : e'.1 ≠ e.1) (hfixed : (w.info e.1).fixedBufferSize = 0)
    (hfixed' : (w.info e'.1).fixedBufferSize = 0) (hkey : key address e' = key address e)
    (hworld : m.world = w) (hcount : m.sizeMap (key address e) = 0) :
    (requested address edges [only e'.1, only e.1, only e.1, only e.1] m).map (requestsFor e.1) ≠
      (ownRequests 0 [only e'.1 e.1, only e.1 e.1, only e.1 e.1, only e.1 e.1]).map Option.toList := by
  subst hworld
  simp only [requested, foldl_only hnodup hmem, foldl_only hnodup hmem']
  -- the counter after each of the four rounds
  obtain ⟨hw₁, hc₁, -⟩ := judged_only hfixed' (by rw [hkey]; exact hcount) (Nat.zero_le 2)
  generalize judged address (only e'.1) { m with resized := [] } e' = m₁ at *
  obtain ⟨hw₂, hc₂, -⟩ := judged_only (m := m₁) (by rw [hw₁]; exact hfixed)
    (by rw [← hkey]; exact hc₁) (Nat.le_succ 1)
  generalize judged address (only e.1) { m₁ with resized := [] } e = m₂ at *
  obtain ⟨hw₃, hc₃, -⟩ := judged_only (m := m₂) (by rw [hw₂, hw₁]; exact hfixed) hc₂ (Nat.le_refl 2)
  generalize judged address (only e.1) { m₂ with resized := [] } e = m₃ at *
  have h₄ := judged_self (m := { m₃ with resized := [] }) (only e.1)
    (by rw [hw₃, hw₂, hw₁]; exact hfixed) (Nat.le_of_eq hc₃)
  intro heq
  have hfourth : requestsFor e.1 (judged address (only e.1) { m₃ with resized := [] } e).resized = [] := by
    have hentry := congrArg (fun l => l[3]?) heq
    simpa [ownRequests, Observation.request, Observation.next, only_over, hne.symm] using hentry
  have hsome : (only e.1 e.1).request 3 = some 2 := if_pos ⟨only_over.mpr rfl, rfl⟩
  rw [h₄.requests, hc₃, hsome] at hfourth
  exact absurd hfourth (List.append_ne_nil_of_right_ne_nil _ (List.cons_ne_nil 2 []))

/-- **Each queue is judged on its own record exactly if no two edges without a fixed buffer size have
addresses that agree in their low 16 bits.** -/
theorem judges_each_iff (hclosed : w.Closed) (hlt : ∀ k ∈ sources, k < w.next) (hnodup : sources.Nodup)
    (hfuel : w.next + 2 ≤ fuel) :
    JudgesEach address fuel w sources ↔
      ∀ e ∈ w.edgesMet sources, ∀ e' ∈ w.edgesMet sources, (w.info e.1).fixedBufferSize = 0 →
        (w.info e'.1).fixedBufferSize = 0 → address e.1 % 2 ^ 16 = address e'.1 % 2 ^ 16 →
        address e.2 % 2 ^ 16 = address e'.2 % 2 ^ 16 → e = e' := by
  have hports := nodup_edgesMet hclosed hlt hnodup
  constructor
  · intro h e hmem e' hmem' hfixed hfixed' ha hb
    by_contra hne
    have hne' : e'.1 ≠ e.1 := fun heq => hne (List.inj_on_of_nodup_map hports hmem hmem' heq.symm)
    obtain ⟨resized, m, hrun, hall⟩ := h [only e'.1, only e.1, only e.1, only e.1]
    obtain ⟨m', hm'⟩ := monitorLoop_run (m := { world := w }) hclosed hlt hnodup hfuel
      [only e'.1, only e.1, only e.1, only e.1] rfl
    obtain ⟨rfl, -⟩ := EStateM.Result.ok.inj (hm'.symm.trans hrun)
    exact requested_hastened hports hmem hmem' hne' hfixed hfixed' (by rw [key, key, hash, hash, ha, hb])
      rfl rfl (hall e hmem hfixed)
  · intro h rounds
    obtain ⟨m', hm'⟩ := monitorLoop_run (m := { world := w }) hclosed hlt hnodup hfuel rounds rfl
    refine ⟨_, m', hm', fun e hmem hfixed => ?_⟩
    refine requested_own (w := w) hports hmem hfixed (fun e' hmem' hfixed' hkey => ?_) rfl (Nat.zero_le 3)
    unfold key hash at hkey
    exact h e' hmem' e hmem hfixed' hfixed (by omega) (by omega)

end Loop

/-! ## Two queues -/

/-- A kernel with two output ports, each connected with a kernel of its own. -/
def fork : World where
  kernel := fun k =>
    if k = 0 then { className := "gen", input := .empty, output := twoPorts }
    else { className := "sink", input := .one "0", output := .empty }
  info := fun r => match r with
    | ⟨0, .output, "0"⟩ => { type := "int", otherKernel := some 1, otherName := "0" }
    | ⟨0, .output, "1"⟩ => { type := "int", otherKernel := some 2, otherName := "0" }
    | ⟨1, .input, "0"⟩ => { type := "int", otherKernel := some 0, otherName := "0" }
    | ⟨2, .input, "0"⟩ => { type := "int", otherKernel := some 0, otherName := "1" }
    | _ => { type := "int" }
  next := 3

theorem fork_closed : fork.Closed := by
  unfold World.Closed
  decide +kernel

theorem fork_edgesMet : fork.edgesMet [0] = [(⟨0, .output, "0"⟩, ⟨1, .input, "0"⟩),
    (⟨0, .output, "1"⟩, ⟨2, .input, "0"⟩)] := by rfl

/-- The records side by side. -/
def sideBySide (r : PortRef) : Nat := 256 * r.kernel + if r.key = "1" then 128 else 0

/-- Those of the second edge sixteen pages behind those of the first. -/
def pagesApart (r : PortRef) : Nat :=
  match r with
  | ⟨0, .output, "0"⟩ => 0
  | ⟨1, .input, "0"⟩ => 256
  | ⟨0, .output, "1"⟩ => 2 ^ 16
  | _ => 2 ^ 16 + 256

theorem judges_each_fork : JudgesEach sideBySide 5 fork [0] :=
  (judges_each_iff fork_closed (by decide) (by decide) (by decide)).mpr (by
    rw [fork_edgesMet]
    decide +kernel)

/-- One observation of the second queue and three of the first: the first is resized in the fourth round,
although its producer has been blocked in three. -/
theorem resize_hastened : pagesApart ⟨0, .output, "0"⟩ ≠ pagesApart ⟨0, .output, "1"⟩ ∧
    pagesApart ⟨1, .input, "0"⟩ ≠ pagesApart ⟨2, .input, "0"⟩ ∧ ¬JudgesEach pagesApart 5 fork [0] := by
  refine ⟨by decide, by decide, fun h => ?_⟩
  obtain ⟨resized, m, hrun, hall⟩ := h [only ⟨0, .output, "1"⟩, only ⟨0, .output, "0"⟩,
    only ⟨0, .output, "0"⟩, only ⟨0, .output, "0"⟩]
  have hports : ((fork.edgesMet [0]).map Prod.fst).Nodup := nodup_edgesMet fork_closed (by decide) (by decide)
  obtain ⟨m', hm'⟩ : ∃ m', (monitorLoop pagesApart 5 [0] _).run { world := fork } =
      .ok (requested pagesApart (fork.edgesMet [0]) _ { world := fork }) m' :=
    monitorLoop_run fork_closed (by decide) (by decide) (by decide) [only ⟨0, .output, "1"⟩,
      only ⟨0, .output, "0"⟩, only ⟨0, .output, "0"⟩, only ⟨0, .output, "0"⟩] rfl
  obtain ⟨rfl, -⟩ := EStateM.Result.ok.inj (hm'.symm.trans hrun)
  rw [fork_edgesMet] at hports hall
  exact requested_hastened (w := fork) hports List.mem_cons_self
    (List.mem_cons_of_mem _ List.mem_cons_self) (by decide) rfl rfl (by decide +kernel) rfl rfl
    (hall _ List.mem_cons_self rfl)

end RaftLib.Graph
