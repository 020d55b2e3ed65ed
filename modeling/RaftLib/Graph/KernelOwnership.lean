/-
# `RaftLib.Graph.KernelOwnership` -- which kernels are deleted, and how often

A kernel that the library allocates has `internal_alloc` set: by `kernel::make`, which returns it in a
`kernel_wrapper`, or by `clone`. A wrapper deletes the kernel it holds, unless it has been copied or its
kernel taken out (`kernel_wrapper.cpp`); the kernels that are linked in a map and have `internal_alloc`
are deleted by `~MapBase` (`mapbase.cpp`). The program declares the others, and nobody deletes them.

A run is any sequence of these, over any number of wrappers and maps. What is deleted by its end can be
read off it (`deletes_of_run`): a kernel that was taken out of its wrapper is deleted once for each map
in which it was linked. The builder of a map is one of those who make kernels, and `deletes_of_calls` says
when its clones are deleted.

The copy assignment that `kernel_wrapper` has implicitly is left out: it copies the pointer and leaves it
to the other wrapper too.
-/
import RaftLib.Graph.EnableDuplication

namespace RaftLib.Graph.KernelOwnership

open RaftLib.Logic.Program
open RaftLib.Logic.Steps

/-! ## Wrappers and maps -/

abbrev WrapperId := Nat
abbrev MapId := Nat

/-- A `kernel_wrapper`. -/
inductive Wrapper where
  | unbuilt
  | holds (k : KernelId)
  | sentinel
  | destroyed
  deriving DecidableEq, Repr

/-- A `MapBase`. -/
inductive MapState where
  | unbuilt
  | built (internallyCreatedKernels : Finset KernelId)
  | destroyed
  deriving DecidableEq

/-- Kernels from `next` on are yet to be made. `known` are those that the program has a pointer to,
outside of wrappers, and `deletes` counts the calls of `delete`. -/
structure State where
  next : KernelId := 0
  internalAlloc : KernelId → Bool := fun _ => false
  wrapper : WrapperId → Wrapper := fun _ => .unbuilt
  map : MapId → MapState := fun _ => .unbuilt
  known : Finset KernelId := ∅
  deletes : KernelId → Nat := fun _ => 0

inductive Act where
  | declare
  | make (w : WrapperId)
  | copy (w w' : WrapperId)
  | take (w : WrapperId)
  | destroy (w : WrapperId)
  | clone (k : KernelId)
  | map (m : MapId)
  | updateKernels (m : MapId) (a b : KernelId)
  | scheduleKernel (m : MapId) (k : KernelId)
  | endMap (m : MapId)
  deriving DecidableEq, Repr

namespace State

variable (s : State)

/-- The kernel may be used: the program has a pointer to it, and it has not been deleted. -/
def Usable (k : KernelId) : Prop := k ∈ s.known ∧ s.deletes k = 0

instance (k : KernelId) : Decidable (s.Usable k) := inferInstanceAs (Decidable (_ ∧ _))

def setWrapper (w : WrapperId) (x : Wrapper) : State :=
  { s with wrapper := Function.update s.wrapper w x }

def setMap (m : MapId) (x : MapState) : State := { s with map := Function.update s.map m x }

def know (k : KernelId) : State := { s with known := insert k s.known }

/-- `delete` is called for each of the kernels. -/
def deleteAll (kernels : Finset KernelId) : State :=
  { s with deletes := fun k => if k ∈ kernels then s.deletes k + 1 else s.deletes k }

/-- A new kernel that the library has allocated. -/
def allocated : State :=
  { s with next := s.next + 1, internalAlloc := Function.update s.internalAlloc s.next true }

/-- `internally_created_kernels += k`, for a kernel that has `internal_alloc`. -/
def keep (kernels : Finset KernelId) (k : KernelId) : Finset KernelId :=
  if s.internalAlloc k then insert k kernels else kernels

/-- What the map `m` keeps of the kernels `ks` that are linked in it. -/
def register (m : MapId) (ks : List KernelId) : Option State :=
  match s.map m with
  | .built kernels => if ∀ k ∈ ks, s.Usable k then some (s.setMap m (.built (ks.foldl s.keep kernels)))
    else none
  | _ => none

/-- One step, where the program has a defined behaviour: what a wrapper holds after its kernel was taken
is no kernel, and one that was deleted is not used. -/
def step : Act → Option State
  | .declare => some { s with next := s.next + 1, known := insert s.next s.known }
  | .make w => match s.wrapper w with
    | .unbuilt => some (s.allocated.setWrapper w (.holds s.next))
    | _ => none
  -- The copying constructor leaves the sentinel in the wrapper that it copies.
  | .copy w w' => match s.wrapper w, s.wrapper w' with
    | .holds k, .unbuilt => some ((s.setWrapper w .sentinel).setWrapper w' (.holds k))
    | .sentinel, .unbuilt => some (s.setWrapper w' .sentinel)
    | _, _ => none
  | .take w => match s.wrapper w with
    | .holds k => some ((s.setWrapper w .sentinel).know k)
    | _ => none
  | .destroy w => match s.wrapper w with
    | .holds k => some ((s.setWrapper w .destroyed).deleteAll {k})
    | .sentinel => some (s.setWrapper w .destroyed)
    | _ => none
  | .clone k => if s.Usable k then some (s.allocated.know s.next) else none
  | .map m => match s.map m with
    | .unbuilt => some (s.setMap m (.built ∅))
    | _ => none
  | .updateKernels m a b => s.register m [a, b]
  | .scheduleKernel m k => s.register m [k]
  | .endMap m => match s.map m with
    | .built kernels => some ((s.setMap m .destroyed).deleteAll kernels)
    | _ => none

variable {s} in
theorem register_eq_some {m : MapId} {ks : List KernelId} {t : State} : s.register m ks = some t ↔
    ∃ kernels, s.map m = .built kernels ∧ (∀ k ∈ ks, s.Usable k) ∧
      s.setMap m (.built (ks.foldl s.keep kernels)) = t := by
  unfold register
  split
  · next kernels hm => simp [hm]
  · next hm =>
      refine ⟨by rintro ⟨⟩, ?_⟩
      rintro ⟨kernels, hk, -⟩
      exact absurd hk (hm kernels)

/-- No wrapper holds a kernel any more, and no map is left. -/
def Ended : Prop := (∀ w k, s.wrapper w ≠ .holds k) ∧ ∀ m kernels, s.map m ≠ .built kernels

end State

/-- The maps in which the step links the kernel. -/
def Act.joins : Act → KernelId → Finset MapId
  | .updateKernels m a b, k => if k ∈ [a, b] then {m} else ∅
  | .scheduleKernel m j, k => if k ∈ [j] then {m} else ∅
  | _, _ => ∅

/-- The maps in which the run links the kernel. -/
def linkedIn : List Act → KernelId → Finset MapId
  | [], _ => ∅
  | a :: as, k => a.joins k ∪ linkedIn as k

/-! ## The account -/

/-- **The account of the kernels**, where `joined` are the maps in which each has been linked. -/
structure Accounts (joined : KernelId → Finset MapId) (s : State) : Prop where
  /-- Only what was made is known, or has been allocated. -/
  old : ∀ k, k ∈ s.known ∨ s.internalAlloc k = true → k < s.next
  linked : ∀ m k, m ∈ joined k → k ∈ s.known ∧ s.map m ≠ .unbuilt
  /-- What a wrapper holds, nobody else has. -/
  wrapped : ∀ w k, s.wrapper w = .holds k → s.internalAlloc k = true ∧ k ∉ s.known ∧ s.deletes k = 0
  apart : ∀ w w' k, s.wrapper w = .holds k → s.wrapper w' = .holds k → w = w'
  /-- What was never taken out of its wrapper is gone with it. -/
  unwrapped : ∀ k, s.internalAlloc k = true → k ∉ s.known → (∀ w, s.wrapper w ≠ .holds k) → s.deletes k = 1
  declared : ∀ k, s.internalAlloc k = false → s.deletes k = 0
  /-- What was taken has been deleted by the maps that are gone. -/
  taken : ∀ k ∈ s.known, s.internalAlloc k = true →
    s.deletes k = ((joined k).filter fun m => s.map m = .destroyed).card
  kept : ∀ m kernels, s.map m = .built kernels → ∀ k, k ∈ kernels ↔ s.internalAlloc k = true ∧ m ∈ joined k

namespace Accounts

variable {joined : KernelId → Finset MapId} {s t : State} {w w' : WrapperId} {m : MapId} {k : KernelId}
variable {kernels : Finset KernelId} {ks : List KernelId}

theorem init : Accounts (fun _ => ∅) {} where
  old k h := by rcases h with h | h <;> cases h
  linked m k h := absurd h (Finset.notMem_empty m)
  wrapped w k h := by cases h
  apart w w' k h := by cases h
  unwrapped k h := by cases h
  declared k _ := rfl
  taken k h := absurd h (Finset.notMem_empty k)
  kept m kernels h := by cases h

theorem next_not_known (h : Accounts joined s) : s.next ∉ s.known := fun hk =>
  Nat.lt_irrefl _ (h.old _ (.inl hk))

theorem internalAlloc_next (h : Accounts joined s) : s.internalAlloc s.next = false := by
  cases hk : s.internalAlloc s.next with
  | false => rfl
  | true => exact absurd (h.old _ (.inr hk)) (Nat.lt_irrefl _)

/-- What is known to nobody is in no map. -/
theorem joined_eq_empty (h : Accounts joined s) (hk : k ∉ s.known) : joined k = ∅ :=
  Finset.eq_empty_of_forall_notMem fun m hm => hk (h.linked m k hm).1

theorem joined_next (h : Accounts joined s) : joined s.next = ∅ := h.joined_eq_empty h.next_not_known

theorem not_mem_kernels (h : Accounts joined s) (hm : s.map m = .built kernels) (hk : k ∉ s.known) :
    k ∉ kernels := by
  intro hmem
  have hjoined := ((h.kept m kernels hm k).mp hmem).2
  rw [h.joined_eq_empty hk] at hjoined
  cases hjoined

/-! ### Making kernels -/

theorem declare (h : Accounts joined s) :
    Accounts joined { s with next := s.next + 1, known := insert s.next s.known } where
  old k hk := by
    rcases hk with hk | hk
    · rcases Finset.mem_insert.mp hk with rfl | hk
      · exact Nat.lt_succ_self _
      · exact Nat.lt_succ_of_lt (h.old k (.inl hk))
    · exact Nat.lt_succ_of_lt (h.old k (.inr hk))
  linked m k hm := ⟨Finset.mem_insert_of_mem (h.linked m k hm).1, (h.linked m k hm).2⟩
  wrapped w k hw := by
    obtain ⟨hint, hk, hdel⟩ := h.wrapped w k hw
    refine ⟨hint, fun hmem => ?_, hdel⟩
    rcases Finset.mem_insert.mp hmem with rfl | hmem
    · rw [h.internalAlloc_next] at hint
      cases hint
    · exact hk hmem
  apart := h.apart
  unwrapped k hint hk := h.unwrapped k hint fun hmem => hk (Finset.mem_insert_of_mem hmem)
  declared := h.declared
  taken k hk hint := by
    rcases Finset.mem_insert.mp hk with rfl | hk
    · have hint : s.internalAlloc s.next = true := hint
      rw [h.internalAlloc_next] at hint
      cases hint
    · exact h.taken k hk hint
  kept := h.kept

/-- The new kernel is the only one for which it matters. -/
theorem allocated_eq (hk : k ≠ s.next) : s.allocated.internalAlloc k = s.internalAlloc k :=
  Function.update_of_ne hk _ _

theorem allocated_next : s.allocated.internalAlloc s.next = true := Function.update_self _ _ _

theorem old_allocated (h : Accounts joined s) (hk : k ∈ s.known ∨ s.allocated.internalAlloc k = true) :
    k < s.next + 1 := by
  by_cases hnext : k = s.next
  · exact hnext ▸ Nat.lt_succ_self _
  · rw [allocated_eq hnext] at hk
    exact Nat.lt_succ_of_lt (h.old k hk)

theorem kept_allocated (h : Accounts joined s) (hm : s.map m = .built kernels) (k : KernelId) :
    k ∈ kernels ↔ s.allocated.internalAlloc k = true ∧ m ∈ joined k := by
  by_cases hnext : k = s.next
  · rw [hnext, h.joined_next]
    exact ⟨fun hk => absurd hk (h.not_mem_kernels hm h.next_not_known), fun hk => by cases hk.2⟩
  · rw [allocated_eq hnext]
    exact h.kept m kernels hm k

theorem make (h : Accounts joined s) (hw : s.wrapper w = .unbuilt) :
    Accounts joined (s.allocated.setWrapper w (.holds s.next)) where
  old k := h.old_allocated
  linked := h.linked
  wrapped w' k hk := by
    by_cases hw' : w' = w
    · subst hw'
      obtain rfl : s.next = k := Wrapper.holds.inj ((Function.update_self _ _ _).symm.trans hk)
      exact ⟨allocated_next, h.next_not_known, h.declared _ h.internalAlloc_next⟩
    · obtain ⟨hint, hknown, hdel⟩ := h.wrapped w' k ((Function.update_of_ne hw' _ _).symm.trans hk)
      exact ⟨(allocated_eq (Nat.ne_of_lt (h.old k (.inr hint)))).trans hint, hknown, hdel⟩
  apart w₁ w₂ k h₁ h₂ := by
    have hold : ∀ w', w' ≠ w → s.wrapper w' ≠ .holds s.next := fun w' _ hw' => by
      have hint := (h.wrapped w' _ hw').1
      rw [h.internalAlloc_next] at hint
      cases hint
    by_cases hw₁ : w₁ = w <;> by_cases hw₂ : w₂ = w
    · exact hw₁.trans hw₂.symm
    · subst hw₁
      obtain rfl : s.next = k := Wrapper.holds.inj ((Function.update_self _ _ _).symm.trans h₁)
      exact absurd ((Function.update_of_ne hw₂ _ _).symm.trans h₂) (hold w₂ hw₂)
    · subst hw₂
      obtain rfl : s.next = k := Wrapper.holds.inj ((Function.update_self _ _ _).symm.trans h₂)
      exact absurd ((Function.update_of_ne hw₁ _ _).symm.trans h₁) (hold w₁ hw₁)
    · exact h.apart w₁ w₂ k ((Function.update_of_ne hw₁ _ _).symm.trans h₁)
        ((Function.update_of_ne hw₂ _ _).symm.trans h₂)
  unwrapped k hint hk hno := by
    have hne : k ≠ s.next := fun hk => hno w (hk ▸ Function.update_self _ _ _)
    refine h.unwrapped k ((allocated_eq hne).symm.trans hint) hk fun w' hw' => hno w' ?_
    have hw'w : w' ≠ w := by
      rintro rfl
      rw [hw] at hw'
      cases hw'
    exact (Function.update_of_ne hw'w _ _).trans hw'
  declared k hint := by
    by_cases hnext : k = s.next
    · rw [hnext]
      exact h.declared _ h.internalAlloc_next
    · exact h.declared k ((allocated_eq hnext).symm.trans hint)
  taken k hk hint := h.taken k hk ((allocated_eq (Nat.ne_of_lt (h.old k (.inl hk)))).symm.trans hint)
  kept m kernels hm := h.kept_allocated hm

theorem clone (h : Accounts joined s) :
    Accounts joined (s.allocated.know s.next) where
  old k hk := by
    rcases hk with hk | hk
    · rcases Finset.mem_insert.mp hk with rfl | hk
      · exact Nat.lt_succ_self _
      · exact h.old_allocated (.inl hk)
    · exact h.old_allocated (.inr hk)
  linked m k hm := ⟨Finset.mem_insert_of_mem (h.linked m k hm).1, (h.linked m k hm).2⟩
  wrapped w k hw := by
    obtain ⟨hint, hk, hdel⟩ := h.wrapped w k hw
    have hne : k ≠ s.next := Nat.ne_of_lt (h.old k (.inr hint))
    exact ⟨(allocated_eq hne).trans hint, fun hmem => hk (Finset.mem_of_mem_insert_of_ne hmem hne), hdel⟩
  apart := h.apart
  unwrapped k hint hk hno := by
    have hne : k ≠ s.next := fun hnext => hk (hnext ▸ Finset.mem_insert_self _ _)
    exact h.unwrapped k ((allocated_eq hne).symm.trans hint)
      (fun hmem => hk (Finset.mem_insert_of_mem hmem)) hno
  declared k hint := by
    by_cases hnext : k = s.next
    · rw [hnext]
      exact h.declared _ h.internalAlloc_next
    · exact h.declared k ((allocated_eq hnext).symm.trans hint)
  taken k hk hint := by
    by_cases hnext : k = s.next
    · rw [hnext, h.joined_next]
      exact h.declared _ h.internalAlloc_next
    · exact h.taken k (Finset.mem_of_mem_insert_of_ne hk hnext) ((allocated_eq hnext).symm.trans hint)
  kept m kernels hm := h.kept_allocated hm

/-! ### Wrappers -/

/-- Where the wrappers hold the same kernels as before, each in one wrapper, nothing else changes. -/
theorem rewrap (h : Accounts joined s) {f : WrapperId → Wrapper}
    (hsame : ∀ j, (∃ x, f x = .holds j) ↔ ∃ x, s.wrapper x = .holds j)
    (hapart : ∀ x x' j, f x = .holds j → f x' = .holds j → x = x') :
    Accounts joined { s with wrapper := f } where
  old := h.old
  linked := h.linked
  wrapped x j hx := by
    obtain ⟨x', hx'⟩ := (hsame j).mp ⟨x, hx⟩
    exact h.wrapped x' j hx'
  apart := hapart
  unwrapped j hint hj hno := h.unwrapped j hint hj fun x hx => by
    obtain ⟨x', hx'⟩ := (hsame j).mpr ⟨x, hx⟩
    exact hno x' hx'
  declared := h.declared
  taken := h.taken
  kept := h.kept

theorem wrapper_setWrapper (s : State) (w : WrapperId) (x : Wrapper) (w' : WrapperId) :
    (s.setWrapper w x).wrapper w' = if w' = w then x else s.wrapper w' :=
  Function.update_apply _ _ _ _

/-- The wrapper that held the kernel has the sentinel, and the copy holds it. -/
theorem copy (h : Accounts joined s) (hw : s.wrapper w = .holds k) (hw' : s.wrapper w' = .unbuilt) :
    Accounts joined ((s.setWrapper w .sentinel).setWrapper w' (.holds k)) := by
  have hne : w ≠ w' := by
    rintro rfl
    rw [hw] at hw'
    cases hw'
  have hiff (x : WrapperId) (j : KernelId) :
      ((s.setWrapper w .sentinel).setWrapper w' (.holds k)).wrapper x = .holds j ↔
        x = w' ∧ k = j ∨ x ≠ w' ∧ x ≠ w ∧ s.wrapper x = .holds j := by
    rw [wrapper_setWrapper, wrapper_setWrapper]
    by_cases hx' : x = w'
    · simp [hx']
    · by_cases hx : x = w <;> simp [hx, hx', hne]
  refine h.rewrap (fun j => ⟨?_, ?_⟩) fun x x' j hx hx' => ?_
  · rintro ⟨x, hx⟩
    rcases (hiff x j).mp hx with ⟨-, rfl⟩ | ⟨-, -, hx⟩
    · exact ⟨w, hw⟩
    · exact ⟨x, hx⟩
  · rintro ⟨x, hx⟩
    by_cases hxw : x = w
    · rw [hxw, hw] at hx
      exact ⟨w', (hiff w' j).mpr (.inl ⟨rfl, Wrapper.holds.inj hx⟩)⟩
    · have hxw' : x ≠ w' := by
        rintro rfl
        rw [hw'] at hx
        cases hx
      exact ⟨x, (hiff x j).mpr (.inr ⟨hxw', hxw, hx⟩)⟩
  · rcases (hiff x j).mp hx with ⟨rfl, rfl⟩ | ⟨-, hxw, hx⟩ <;>
      rcases (hiff x' _).mp hx' with ⟨rfl, hj⟩ | ⟨-, hxw', hx'⟩
    · rfl
    · exact absurd (h.apart x' w _ hx' hw) hxw'
    · exact absurd (h.apart x w j ‹_› (hj ▸ hw)) hxw
    · exact h.apart x x' j ‹_› hx'

/-- A wrapper that holds no kernel comes to hold none in another way. -/
theorem setEmpty (h : Accounts joined s) {x : Wrapper} (hw : ∀ j, s.wrapper w ≠ .holds j)
    (hx : ∀ j, x ≠ .holds j) : Accounts joined (s.setWrapper w x) := by
  have hiff (y : WrapperId) (j : KernelId) :
      (s.setWrapper w x).wrapper y = .holds j ↔ s.wrapper y = .holds j := by
    rw [wrapper_setWrapper]
    by_cases hy : y = w
    · simp [hy, hw, hx]
    · simp [hy]
  exact h.rewrap (fun j => exists_congr fun y => hiff y j) fun y y' j hy hy' =>
    h.apart y y' j ((hiff y j).mp hy) ((hiff y' j).mp hy')

/-- Where `w` holds `k`, the others hold other kernels. -/
theorem holds_of_setWrapper (h : Accounts joined s) (hw : s.wrapper w = .holds k) {x : Wrapper}
    (hx : ∀ j, x ≠ .holds j) {y : WrapperId} {j : KernelId} :
    (s.setWrapper w x).wrapper y = .holds j ↔ s.wrapper y = .holds j ∧ j ≠ k := by
  rw [wrapper_setWrapper]
  by_cases hy : y = w
  · subst hy
    rw [if_pos rfl]
    refine ⟨fun hxj => absurd hxj (hx j), ?_⟩
    rintro ⟨hj, hne⟩
    exact absurd (Wrapper.holds.inj (hj.symm.trans hw)) hne
  · rw [if_neg hy]
    refine ⟨fun hj => ⟨hj, ?_⟩, fun hj => hj.1⟩
    rintro rfl
    exact hy (h.apart y w j hj hw)

theorem take (h : Accounts joined s) (hw : s.wrapper w = .holds k) :
    Accounts joined ((s.setWrapper w .sentinel).know k) := by
  have hholds {y : WrapperId} {j : KernelId} := h.holds_of_setWrapper (y := y) (j := j) hw
    (x := .sentinel) (by rintro _ ⟨⟩)
  obtain ⟨hint, hknown, hdel⟩ := h.wrapped w k hw
  constructor
  case old =>
    rintro j (hj | hj)
    · rcases Finset.mem_insert.mp hj with rfl | hj
      · exact h.old j (.inr hint)
      · exact h.old j (.inl hj)
    · exact h.old j (.inr hj)
  case linked => exact fun m j hm => ⟨Finset.mem_insert_of_mem (h.linked m j hm).1, (h.linked m j hm).2⟩
  case wrapped =>
    intro y j hy
    obtain ⟨hy, hne⟩ := hholds.mp hy
    obtain ⟨hintj, hknownj, hdelj⟩ := h.wrapped y j hy
    exact ⟨hintj, fun hmem => hknownj (Finset.mem_of_mem_insert_of_ne hmem hne), hdelj⟩
  case apart => exact fun y y' j hy hy' => h.apart y y' j (hholds.mp hy).1 (hholds.mp hy').1
  case unwrapped =>
    intro j hj hjk hno
    have hne : j ≠ k := fun hjeq => hjk (hjeq ▸ Finset.mem_insert_self _ _)
    exact h.unwrapped j hj (fun hmem => hjk (Finset.mem_insert_of_mem hmem))
      fun y hy => hno y (hholds.mpr ⟨hy, hne⟩)
  case declared => exact h.declared
  case taken =>
    intro j hj hintj
    rcases Finset.mem_insert.mp hj with rfl | hj
    · rw [h.joined_eq_empty hknown]
      exact hdel
    · exact h.taken j hj hintj
  case kept => exact h.kept

/-- `~kernel_wrapper` of a wrapper with a kernel. -/
theorem destroy (h : Accounts joined s) (hw : s.wrapper w = .holds k) :
    Accounts joined ((s.setWrapper w .destroyed).deleteAll {k}) := by
  have hholds {y : WrapperId} {j : KernelId} := h.holds_of_setWrapper (y := y) (j := j) hw
    (x := .destroyed) (by rintro _ ⟨⟩)
  obtain ⟨hint, hknown, hdel⟩ := h.wrapped w k hw
  have hsame {j : KernelId} (hj : j ≠ k) :
      ((s.setWrapper w .destroyed).deleteAll {k}).deletes j = s.deletes j :=
    if_neg fun hmem => hj (Finset.mem_singleton.mp hmem)
  constructor
  case old => exact h.old
  case linked => exact h.linked
  case wrapped =>
    intro y j hy
    obtain ⟨hy, hne⟩ := hholds.mp hy
    obtain ⟨hintj, hknownj, hdelj⟩ := h.wrapped y j hy
    exact ⟨hintj, hknownj, (hsame hne).trans hdelj⟩
  case apart => exact fun y y' j hy hy' => h.apart y y' j (hholds.mp hy).1 (hholds.mp hy').1
  case unwrapped =>
    intro j hj hjk hno
    by_cases hne : j = k
    · subst hne
      exact (if_pos (Finset.mem_singleton_self j)).trans (congrArg (· + 1) hdel)
    · exact (hsame hne).trans (h.unwrapped j hj hjk fun y hy => hno y (hholds.mpr ⟨hy, hne⟩))
  case declared =>
    intro j hj
    have hne : j ≠ k := by
      rintro rfl
      have hj : s.internalAlloc j = false := hj
      rw [hint] at hj
      cases hj
    exact (hsame hne).trans (h.declared j hj)
  case taken =>
    intro j hj hintj
    have hne : j ≠ k := fun hjk => hknown (hjk ▸ hj)
    exact (hsame hne).trans (h.taken j hj hintj)
  case kept => exact h.kept

/-! ### Maps -/

theorem map_setMap (s : State) (m : MapId) (x : MapState) (m' : MapId) :
    (s.setMap m x).map m' = if m' = m then x else s.map m' :=
  Function.update_apply _ _ _ _

theorem map (h : Accounts joined s) (hm : s.map m = .unbuilt) :
    Accounts joined (s.setMap m (.built ∅)) := by
  have hne {m' : MapId} {k : KernelId} (hj : m' ∈ joined k) : m' ≠ m := by
    rintro rfl
    exact (h.linked m' k hj).2 hm
  have hsame {m' : MapId} {k : KernelId} (hj : m' ∈ joined k) :
      (s.setMap m (.built ∅)).map m' = s.map m' := by rw [map_setMap, if_neg (hne hj)]
  refine { h with linked := fun m' k hj => ?_, taken := fun k hk hint => ?_, kept := fun m' kernels hm' k => ?_ }
  · exact ⟨(h.linked m' k hj).1, (hsame hj).symm ▸ (h.linked m' k hj).2⟩
  · rw [Finset.filter_congr fun m' hj => by rw [hsame hj]]
    exact h.taken k hk hint
  · rw [map_setMap] at hm'
    split at hm'
    · next hmm =>
        obtain rfl : (∅ : Finset KernelId) = kernels := MapState.built.inj hm'
        exact ⟨fun hk => absurd hk (Finset.notMem_empty k), fun hk => absurd hmm (hne hk.2)⟩
    · exact h.kept m' kernels hm' k

theorem mem_keep {j : KernelId} : j ∈ s.keep kernels k ↔ j ∈ kernels ∨ s.internalAlloc j = true ∧ j = k := by
  unfold State.keep
  split
  · next hk =>
      rw [Finset.mem_insert, or_comm]
      refine or_congr_right ⟨?_, fun hj => hj.2⟩
      rintro rfl
      exact ⟨hk, rfl⟩
  · next hk =>
      refine ⟨.inl, ?_⟩
      rintro (hj | ⟨hj, rfl⟩)
      · exact hj
      · exact absurd hj hk

theorem mem_foldl_keep {j : KernelId} :
    j ∈ ks.foldl s.keep kernels ↔ j ∈ kernels ∨ s.internalAlloc j = true ∧ j ∈ ks := by
  induction ks generalizing kernels with
  | nil => simp
  | cons k ks ih => rw [List.foldl_cons, ih, mem_keep, List.mem_cons, or_assoc, ← and_or_left]

/-- **Kernels are linked in a map.** -/
theorem register (h : Accounts joined s) (hm : s.map m = .built kernels) (hks : ∀ k ∈ ks, s.Usable k) :
    Accounts (fun k => joined k ∪ if k ∈ ks then {m} else ∅)
      (s.setMap m (.built (ks.foldl s.keep kernels))) := by
  have hjoins {m' : MapId} {k : KernelId} :
      m' ∈ joined k ∪ (if k ∈ ks then {m} else ∅) ↔ m' ∈ joined k ∨ k ∈ ks ∧ m' = m := by
    rw [Finset.mem_union]
    split <;> simp [*]
  have hdead (m' : MapId) : (s.setMap m (.built (ks.foldl s.keep kernels))).map m' = .destroyed ↔
      s.map m' = .destroyed := by
    rw [map_setMap]
    split
    · next hmm => simp [hmm, hm]
    · rfl
  refine { h with linked := fun m' k hj => ⟨?_, ?_⟩, unwrapped := h.unwrapped,
                  taken := fun k hk hint => ?_, kept := fun m' kernels' hm' k => ?_ }
  · rcases hjoins.mp hj with hj | ⟨hk, -⟩
    · exact (h.linked m' k hj).1
    · exact (hks k hk).1
  · rw [map_setMap]
    split
    · rintro ⟨⟩
    · next hne =>
        rcases hjoins.mp hj with hj | ⟨-, hj⟩
        · exact (h.linked m' k hj).2
        · exact absurd hj hne
  · refine (h.taken k hk hint).trans (congrArg Finset.card (Finset.ext fun m' => ?_))
    rw [Finset.mem_filter, Finset.mem_filter, hdead, hjoins]
    refine and_congr_left fun hd => ⟨.inl, ?_⟩
    rintro (hj | ⟨-, rfl⟩)
    · exact hj
    · rw [hm] at hd
      cases hd
  · rw [hjoins]
    rw [map_setMap] at hm'
    split at hm'
    · next hmm =>
        obtain rfl := MapState.built.inj hm'
        rw [mem_foldl_keep, h.kept m kernels hm, hmm, ← and_or_left]
        exact and_congr_right' (or_congr_right (and_iff_left rfl).symm)
    · next hne =>
        rw [h.kept m' kernels' hm']
        exact and_congr_right' (or_iff_left fun hk => hne hk.2).symm

/-- `~MapBase`. -/
theorem endMap (h : Accounts joined s) (hm : s.map m = .built kernels) :
    Accounts joined ((s.setMap m .destroyed).deleteAll kernels) := by
  have hout {k : KernelId} (hk : k ∉ kernels) :
      ((s.setMap m .destroyed).deleteAll kernels).deletes k = s.deletes k := if_neg hk
  refine { h with linked := fun m' k hj => ⟨(h.linked m' k hj).1, ?_⟩,
                  wrapped := fun w k hw => ?_, unwrapped := fun k hint hk hno => ?_,
                  declared := fun k hint => ?_, taken := fun k hk hint => ?_,
                  kept := fun m' kernels' hm' k => ?_ }
  · show (s.setMap m .destroyed).map m' ≠ _
    rw [map_setMap]
    split
    · rintro ⟨⟩
    · exact (h.linked m' k hj).2
  · obtain ⟨hint, hk, hdel⟩ := h.wrapped w k hw
    exact ⟨hint, hk, (hout (h.not_mem_kernels hm hk)).trans hdel⟩
  · exact (hout (h.not_mem_kernels hm hk)).trans (h.unwrapped k hint hk hno)
  · refine (hout fun hk => ?_).trans (h.declared k hint)
    have hint' := ((h.kept m kernels hm k).mp hk).1
    have hint : s.internalAlloc k = false := hint
    rw [hint] at hint'
    cases hint'
  · have hset : ((joined k).filter fun m' => (s.setMap m .destroyed).map m' = .destroyed) =
        if m ∈ joined k then insert m ((joined k).filter fun m' => s.map m' = .destroyed)
        else (joined k).filter fun m' => s.map m' = .destroyed := by
      ext m'
      rw [Finset.mem_filter, map_setMap]
      by_cases hmm : m' = m
      · rw [hmm, if_pos rfl]
        split <;> simp [*]
      · rw [if_neg hmm]
        split <;> simp [hmm]
    have hnew : m ∉ (joined k).filter fun m' => s.map m' = .destroyed := by
      rw [Finset.mem_filter, hm]
      rintro ⟨-, ⟨⟩⟩
    show (if k ∈ kernels then s.deletes k + 1 else s.deletes k) =
        ((joined k).filter fun m' => (s.setMap m .destroyed).map m' = .destroyed).card
    rw [hset]
    by_cases hj : m ∈ joined k
    · rw [if_pos ((h.kept m kernels hm k).mpr ⟨hint, hj⟩), if_pos hj, Finset.card_insert_of_notMem hnew,
        h.taken k hk hint]
    · rw [if_neg fun hmem => hj ((h.kept m kernels hm k).mp hmem).2, if_neg hj, h.taken k hk hint]
  · have hm' : (s.setMap m .destroyed).map m' = .built kernels' := hm'
    rw [map_setMap] at hm'
    split at hm'
    · cases hm'
    · exact h.kept m' kernels' hm' k

/-! ### Runs -/

/-- **One step keeps the account.** -/
theorem step (h : Accounts joined s) {a : Act} (hstep : s.step a = some t) :
    Accounts (fun k => joined k ∪ a.joins k) t := by
  have hnone {t : State} (ht : Accounts joined t) : Accounts (fun k => joined k ∪ ∅) t := by
    simpa only [Finset.union_empty] using ht
  cases a with
  | declare =>
      cases hstep
      exact hnone h.declare
  | make w =>
      simp only [State.step] at hstep
      split at hstep
      · next hw =>
          cases hstep
          exact hnone (h.make hw)
      · cases hstep
  | copy w w' =>
      simp only [State.step] at hstep
      split at hstep
      · next hw hw' =>
          cases hstep
          exact hnone (h.copy hw hw')
      · next hw hw' =>
          cases hstep
          refine hnone (h.setEmpty ?_ ?_)
          · rw [hw']
            rintro _ ⟨⟩
          · rintro _ ⟨⟩
      · cases hstep
  | take w =>
      simp only [State.step] at hstep
      split at hstep
      · next hw =>
          cases hstep
          exact hnone (h.take hw)
      · cases hstep
  | destroy w =>
      simp only [State.step] at hstep
      split at hstep
      · next hw =>
          cases hstep
          exact hnone (h.destroy hw)
      · next hw =>
          cases hstep
          refine hnone (h.setEmpty ?_ ?_)
          · rw [hw]
            rintro _ ⟨⟩
          · rintro _ ⟨⟩
      · cases hstep
  | clone k =>
      simp only [State.step] at hstep
      split at hstep
      · cases hstep
        exact hnone h.clone
      · cases hstep
  | map m =>
      simp only [State.step] at hstep
      split at hstep
      · next hm =>
          cases hstep
          exact hnone (h.map hm)
      · cases hstep
  | updateKernels m a b =>
      obtain ⟨kernels, hm, hks, rfl⟩ := State.register_eq_some.mp hstep
      exact h.register hm hks
  | scheduleKernel m k =>
      obtain ⟨kernels, hm, hks, rfl⟩ := State.register_eq_some.mp hstep
      exact h.register hm hks
  | endMap m =>
      simp only [State.step] at hstep
      split at hstep
      · next hm =>
          cases hstep
          exact hnone (h.endMap hm)
      · cases hstep

/-- **So does a run.** -/
theorem run {as : List Act} (h : Accounts joined s) (hrun : Run (ofFun State.step) s as t) :
    Accounts (fun k => joined k ∪ linkedIn as k) t := by
  induction hrun generalizing joined with
  | nil s => simpa only [linkedIn, Finset.union_empty] using h
  | cons hstep _ ih => simpa only [linkedIn, Finset.union_assoc] using ih (h.step hstep)

end Accounts

section Runs

variable {s t : State} {as : List Act} {k : KernelId}

/-- **How often a kernel is deleted**, in a run after which no wrapper holds a kernel and no map is left.
One that the program declared is not; one that never left its wrappers is deleted once; and any other
one once for each map in which it was linked. -/
theorem deletes_of_run (hrun : Run (ofFun State.step) {} as s) (hend : s.Ended) (k : KernelId) :
    s.deletes k = if s.internalAlloc k then if k ∈ s.known then (linkedIn as k).card else 1 else 0 := by
  have h : Accounts (fun k => ∅ ∪ linkedIn as k) s := Accounts.init.run hrun
  simp only [Finset.empty_union] at h
  cases hint : s.internalAlloc k with
  | false => exact h.declared k hint
  | true =>
      by_cases hk : k ∈ s.known
      · rw [if_pos rfl, if_pos hk, h.taken k hk hint]
        refine congrArg Finset.card (Finset.filter_true_of_mem fun m hm => ?_)
        cases hmap : s.map m with
        | unbuilt => exact absurd hmap (h.linked m k hm).2
        | built kernels => exact absurd hmap (hend.2 m kernels)
        | destroyed => rfl
      · rw [if_pos rfl, if_neg hk]
        exact h.unwrapped k hint hk fun w => hend.1 w k

/-- Kernel `0` is declared; kernel `1` is taken out of its wrapper and linked in two maps, and kernel `2`
stays in its wrapper. -/
theorem deletes_of_run_twoMaps : ∃ s, Run (ofFun State.step) {}
    [.declare, .make 0, .take 0, .make 1, .map 0, .map 1, .updateKernels 0 0 1, .updateKernels 1 1 0,
      .destroy 0, .destroy 1, .endMap 0, .endMap 1] s ∧
    s.deletes 0 = 0 ∧ s.deletes 1 = 2 ∧ s.deletes 2 = 1 := by
  obtain ⟨s, hrun, hend, hint, hknown⟩ : ∃ s, Run (ofFun State.step) {}
      [.declare, .make 0, .take 0, .make 1, .map 0, .map 1, .updateKernels 0 0 1, .updateKernels 1 1 0,
        .destroy 0, .destroy 1, .endMap 0, .endMap 1] s ∧ s.Ended ∧
      (s.internalAlloc 0 = false ∧ s.internalAlloc 1 = true ∧ s.internalAlloc 2 = true) ∧
      s.known = {1, 0} := by
    refine ⟨_, exec_iff_run.mp rfl, ⟨?_, ?_⟩, ⟨rfl, rfl, rfl⟩, rfl⟩
    · rintro (_ | _ | w) k ⟨⟩
    · rintro (_ | _ | m) kernels ⟨⟩
  obtain ⟨h₀, h₁, h₂⟩ := hint
  refine ⟨s, hrun, ?_, ?_, ?_⟩
  · rw [deletes_of_run hrun hend, h₀]
    rfl
  · rw [deletes_of_run hrun hend, h₁, hknown]
    rfl
  · rw [deletes_of_run hrun hend, h₂, hknown]
    rfl

end Runs

/-! ## Building a map -/

/-- **The map `m` of the account is `w`**, and all kernels may be used. -/
structure Mirrors (m : MapId) (w : World) (s : State) : Prop where
  next : s.next = w.next
  internal : ∀ k < w.next, s.internalAlloc k = (w.kernel k).internalAlloc
  map : s.map m = .built w.internallyCreatedKernels
  usable : ∀ k < w.next, s.Usable k
  fresh : ∀ k, w.next ≤ k → s.deletes k = 0
  below : ∀ k ∈ w.allKernels, k < w.next
  /-- The keeper has the kernels of the map that were allocated by the library. -/
  kept : ∀ k, k ∈ w.internallyCreatedKernels ↔ k ∈ w.allKernels ∧ (w.kernel k).internalAlloc = true

/-- What happened to the map can happen in the account too, and the kernels that are new were allocated
by the library. -/
structure Followed (m : MapId) (w w' : World) : Prop where
  next : w.next ≤ w'.next
  old : ∀ k < w.next, (w'.kernel k).internalAlloc = (w.kernel k).internalAlloc
  made : ∀ k, w.next ≤ k → k < w'.next → (w'.kernel k).internalAlloc = true
  mirrored : ∀ s, Mirrors m w s → ∃ as t, Run (ofFun State.step) s as t ∧ Mirrors m w' t

section Building

variable {m : MapId} {w w' w'' : World} {s : State} {a b k : KernelId}

theorem Followed.refl (w : World) : Followed m w w where
  next := Nat.le_refl _
  old _ _ := rfl
  made _ hk hk' := absurd hk (Nat.not_le_of_lt hk')
  mirrored s hs := ⟨[], s, .nil s, hs⟩

theorem Followed.trans (h : Followed m w w') (h' : Followed m w' w'') : Followed m w w'' where
  next := h.next.trans h'.next
  old k hk := (h'.old k (Nat.lt_of_lt_of_le hk h.next)).trans (h.old k hk)
  made k hk hk' := by
    by_cases hlt : k < w'.next
    · exact (h'.old k hlt).trans (h.made k hk hlt)
    · exact h'.made k (Nat.le_of_not_lt hlt) hk'
  mirrored s hs := by
    obtain ⟨as, t, hrun, ht⟩ := h.mirrored s hs
    obtain ⟨as', u, hrun', hu⟩ := h'.mirrored t ht
    exact ⟨as ++ as', u, hrun.append hrun', hu⟩

/-- **Kernels of the map are linked.** -/
theorem Followed.register (act : Act) (ks : List KernelId) (hact : ∀ s : State, s.step act = s.register m ks)
    (hks : ∀ k ∈ ks, k < w.next) (hkernel : w'.kernel = w.kernel) (hnext : w'.next = w.next)
    (hall : ∀ k, k ∈ w'.allKernels ↔ k ∈ w.allKernels ∨ k ∈ ks)
    (hint : ∀ k, k ∈ w'.internallyCreatedKernels ↔
      k ∈ w.internallyCreatedKernels ∨ (w.kernel k).internalAlloc = true ∧ k ∈ ks) : Followed m w w' where
  next := hnext.ge
  old _ _ := by rw [hkernel]
  made k hk hk' := absurd hk (Nat.not_le_of_lt (hnext ▸ hk'))
  mirrored s hs := by
    have hstep : s.step act = some (s.setMap m (.built (ks.foldl s.keep w.internallyCreatedKernels))) :=
      (hact s).trans (State.register_eq_some.mpr
        ⟨_, hs.map, fun k hk => hs.usable k (hks k hk), rfl⟩)
    have hkeeper : ks.foldl s.keep w.internallyCreatedKernels = w'.internallyCreatedKernels := by
      ext k
      rw [Accounts.mem_foldl_keep, hint]
      refine or_congr_right (and_congr_left fun hk => ?_)
      rw [hs.internal k (hks k hk)]
    refine ⟨[act], _, .single hstep, hs.next.trans hnext.symm, fun k hk => ?_, ?_, ?_, ?_, fun k hk => ?_,
      fun k => ?_⟩
    · rw [hkernel]
      exact hs.internal k (hnext ▸ hk)
    · rw [Accounts.map_setMap, if_pos rfl, hkeeper]
    · rw [hnext]
      exact hs.usable
    · rw [hnext]
      exact hs.fresh
    · rw [hnext]
      exact ((hall k).mp hk).elim (hs.below k) (hks k)
    · rw [hint, hall, hkernel, hs.kept, or_and_right, and_comm (b := k ∈ ks)]

theorem followed_withClone (hk : k < w.next) : Followed m w (w.withClone k) where
  next := Nat.le_succ _
  old j hj := by rw [World.withClone_kernel_of_ne w k (Nat.ne_of_lt hj)]
  made j hj hj' := by
    obtain rfl : j = w.next := Nat.le_antisymm (Nat.le_of_lt_succ hj') hj
    rw [World.withClone_kernel_self]
    rfl
  mirrored s hs := by
    have hstep : s.step (.clone k) = some (s.allocated.know s.next) := if_pos (hs.usable k hk)
    have hkernel {j : KernelId} (hj : j ≠ w.next) :
        ((w.withClone k).kernel j).internalAlloc = (w.kernel j).internalAlloc := by
      rw [World.withClone_kernel_of_ne w k hj]
    refine ⟨[.clone k], _, .single hstep, ?_, fun j hj => ?_, hs.map, fun j hj => ?_, fun j hj => ?_,
      fun j hj => ?_, fun j => ?_⟩
    · show s.next + 1 = w.next + 1
      rw [hs.next]
    · rcases Nat.lt_succ_iff_lt_or_eq.mp hj with hj | rfl
      · rw [hkernel (Nat.ne_of_lt hj), ← hs.internal j hj]
        exact Accounts.allocated_eq (hs.next ▸ Nat.ne_of_lt hj)
      · rw [World.withClone_kernel_self, ← hs.next]
        exact Accounts.allocated_next
    · rcases Nat.lt_succ_iff_lt_or_eq.mp hj with hj | rfl
      · exact ⟨Finset.mem_insert_of_mem (hs.usable j hj).1, (hs.usable j hj).2⟩
      · exact ⟨hs.next ▸ Finset.mem_insert_self _ _, hs.fresh _ (Nat.le_refl _)⟩
    · exact hs.fresh j (Nat.le_of_succ_le hj)
    · exact Nat.lt_succ_of_lt (hs.below j hj)
    · refine (hs.kept j).trans (and_congr_right fun hj => ?_)
      rw [hkernel (Nat.ne_of_lt (hs.below j hj))]

/-- A link enters both kernels, whether it returns or throws. -/
theorem followed_link (ha : a < w.next) (hb : b < w.next) (t : Order) (aPort bPort : PortKey)
    (buffer : Nat) : Along (Followed m) (link t a aPort b bPort buffer) (fun _ _ => True) w := by
  have hkeepers {v : World} (hkernel : v.kernel = w.kernel) (hnext : v.next = w.next)
      (hall : v.allKernels = (w.withKernels a b).allKernels)
      (hint : v.internallyCreatedKernels = (w.withKernels a b).internallyCreatedKernels) :
      Followed m w v := by
    refine Followed.register (.updateKernels m a b) [a, b] (fun s => rfl) ?_ hkernel hnext (fun k => ?_)
      fun k => ?_
    · intro k hk
      rcases List.mem_pair.mp hk with rfl | rfl
      · exact ha
      · exact hb
    · rw [hall]
      simp only [World.withKernels, Finset.mem_insert, List.mem_pair]
      tauto
    · rw [hint]
      by_cases hinta : (w.kernel a).internalAlloc = true <;>
        by_cases hintb : (w.kernel b).internalAlloc = true <;>
          simp only [World.withKernels, hinta, hintb, if_true, Finset.mem_insert, List.mem_pair] <;>
            grind
  rcases link_run (w := w) t a aPort b bPort buffer with ⟨e, hrun⟩ | ⟨ra, rb, -, -, -, -, -, hrun⟩
  · have hsized := World.sized_keepers (w.withKernels a b) buffer (w.foundPorts a aPort b bPort)
    refine .intro (fun p v hv => ?_) fun e' v hv => ?_
    · rw [hrun] at hv
      cases hv
    · rw [hrun] at hv
      cases hv
      exact hkeepers (World.sized_kernel ..) (World.sized_next ..) hsized.2.2.1 hsized.2.2.2
  · have hsized := World.sized_keepers (w.withKernels a b) buffer [ra, rb]
    refine .intro (fun p v hv => ?_) fun e' v hv => ?_
    · rw [hrun] at hv
      cases hv
      exact ⟨hkeepers (World.sized_kernel (w.withKernels a b) buffer [ra, rb])
        (World.sized_next (w.withKernels a b) buffer [ra, rb]) hsized.2.2.1 hsized.2.2.2, trivial⟩
    · rw [hrun] at hv
      cases hv

theorem followed_clone (hk : k < w.next) :
    Along (Followed m) (clone k) (fun j (w' : World) => j < w'.next) w := by
  rcases clone_run (w := w) k with ⟨-, hrun⟩ | ⟨-, e, hrun⟩
  · refine .intro (fun j v hv => ?_) fun e v hv => ?_
    · rw [hrun] at hv
      cases hv
      exact ⟨followed_withClone hk, Nat.lt_succ_self _⟩
    · rw [hrun] at hv
      cases hv
  · refine .intro (fun j v hv => ?_) fun e' v hv => ?_
    · rw [hrun] at hv
      cases hv
    · rw [hrun] at hv
      cases hv
      exact .refl w

/-- **The account can follow the builder.** -/
theorem discipline_followed (m : MapId) : Discipline (Followed m) fun k w => k < w.next where
  refl := .refl
  trans _ _ _ := .trans
  mono hk h := Nat.lt_of_lt_of_le hk h.next
  link ha hb := followed_link ha hb
  clone hk := followed_clone hk

/-- When the map ends, the kernels in it that the library allocated are deleted, each once. -/
theorem Mirrors.endMap (h : Mirrors m w s) : ∃ t, s.step (.endMap m) = some t ∧ ∀ k < w.next,
    t.deletes k = if k ∈ w.allKernels ∧ (w.kernel k).internalAlloc = true then 1 else 0 := by
  refine ⟨(s.setMap m .destroyed).deleteAll w.internallyCreatedKernels, ?_, fun k hk => ?_⟩
  · simp only [State.step, h.map]
  · show (if k ∈ w.internallyCreatedKernels then s.deletes k + 1 else s.deletes k) = _
    rw [(h.usable k hk).2]
    exact if_congr (h.kept k) rfl rfl

/-- **What the program builds is deleted with its map.** In any run of links and `+=` that return or
throw, the kernels that are made are clones; and when the map ends, a clone is deleted once if it is in
the map, and is never deleted if it is not. -/
theorem deletes_of_calls {cs : List Call} (h : Mirrors m w s) (hrun : Run Calls w cs w') :
    ∃ as t, Run (ofFun State.step) s (as ++ [.endMap m]) t ∧
      (∀ k < w'.next, t.deletes k = if k ∈ w'.allKernels ∧ (w'.kernel k).internalAlloc = true then 1 else 0) ∧
      ∀ k, w.next ≤ k → k < w'.next → t.deletes k = if k ∈ w'.allKernels then 1 else 0 := by
  have hfollowed : Followed m w w' := (discipline_followed m).of_run (fun _ _ hk => hk) hrun
  obtain ⟨as, t, hrun', ht⟩ := hfollowed.mirrored s h
  obtain ⟨u, hend, hdel⟩ := ht.endMap
  refine ⟨as, u, hrun'.append (.single hend), hdel, fun k hk hk' => ?_⟩
  exact (hdel k hk').trans (if_congr (and_iff_left (hfollowed.made k hk hk')) rfl rfl)

/-- Kernel `0` is split to kernel `1` and a clone of it. -/
theorem deletes_of_calls_fan : ∃ w' as t,
    Run Calls fan [.addAssign [{ head := 0, src := 0, dst := 1, splitTo := true, srcOutCount := 2 }]] w' ∧
      Run (ofFun State.step) {} ([.declare, .declare, .declare, .map 0] ++ (as ++ [.endMap 0])) t ∧
      t.deletes 1 = 0 ∧ t.deletes 3 = 1 := by
  obtain ⟨w', hcalls, hnext, hall, hint⟩ : ∃ w',
      Run Calls fan [.addAssign [{ head := 0, src := 0, dst := 1, splitTo := true, srcOutCount := 2 }]] w' ∧
        w'.next = 4 ∧ 3 ∈ w'.allKernels ∧ (w'.kernel 1).internalAlloc = false := by
    refine ⟨_, .single ⟨?_, .inl ⟨_, rfl⟩⟩, rfl, by decide, rfl⟩
    intro p hp
    obtain rfl := List.mem_singleton.mp hp
    exact ⟨by decide, by decide⟩
  obtain ⟨s, hdeclared, hs⟩ : ∃ s, Run (ofFun State.step) {} [.declare, .declare, .declare, .map 0] s ∧
      Mirrors 0 fan s := by
    refine ⟨_, exec_iff_run.mp rfl, rfl, fun k hk => ?_, rfl, ?_, fun _ _ => rfl, ?_, ?_⟩
    · show false = (fan.kernel k).internalAlloc
      unfold fan
      dsimp only
      split
      · rfl
      · split <;> rfl
    · decide
    · rintro k ⟨⟩
    · intro k
      exact ⟨fun hk => absurd hk (Finset.notMem_empty k), fun hk => absurd hk.1 (Finset.notMem_empty k)⟩
  obtain ⟨as, t, hrun, hdel, hclone⟩ := deletes_of_calls hs hcalls
  refine ⟨w', as, t, hcalls, hdeclared.append hrun, ?_, ?_⟩
  · rw [hdel 1 (by rw [hnext]; decide)]
    exact if_neg fun h => by rw [hint] at h; cases h.2
  · rw [hclone 3 (by decide) (by rw [hnext]; decide)]
    exact if_pos hall

end Building

end RaftLib.Graph.KernelOwnership
