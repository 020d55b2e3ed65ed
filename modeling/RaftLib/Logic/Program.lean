/-
# `RaftLib.Logic.Program` -- rules of pre- and postconditions for programs with state and exceptions

A program is an `EStateM ε σ α`: it runs from a state and either returns a value or raises an
exception, and in both cases the state it got to is kept, as a C++ object keeps the writes made
before a `throw`. `Triple P x Q E` is the usual statement about such a program: from a state that
meets `P`, a return meets `Q` and an exception meets `E`. `Preserves I x` is the special case of an
invariant that holds on every way out.

The rules follow the program's shape: one for each primitive, one for sequencing, one for a loop
over a list.
-/
import Mathlib.Tactic.Common

namespace RaftLib.Logic.Program

universe u

variable {ε σ α β : Type u}

/-! ## Runs that return -/

/-- Sequencing, read off a run that returns: both parts returned. -/
theorem run_bind_ok {x : EStateM ε σ α} {f : α → EStateM ε σ β} {s t : σ} {b : β} :
    (x >>= f).run s = .ok b t ↔ ∃ a m, x.run s = .ok a m ∧ (f a).run m = .ok b t := by
  rw [EStateM.run_bind]
  cases hx : x.run s with
  | ok a m => simp
  | error e m => simp

/-- A loop over a list, read off a run that returns, with an invariant of the elements done. -/
theorem run_foldlM_ok {f : β → α → EStateM ε σ β} {I : List α → β → σ → Prop} {l : List α} {b b' : β}
    {s t : σ} (hf : ∀ done a rest b b' s t, l = done ++ a :: rest → I done b s →
      (f b a).run s = .ok b' t → I (done ++ [a]) b' t)
    (hb : I [] b s) (hrun : (l.foldlM f b).run s = .ok b' t) : I l b' t := by
  suffices h : ∀ rest done b s, l = done ++ rest → I done b s → (rest.foldlM f b).run s = .ok b' t →
      I l b' t from h l [] b s rfl hb hrun
  intro rest
  induction rest with
  | nil =>
      intro done b s hl hI hrun
      injection hrun with hb ht
      subst hb ht
      rw [hl, List.append_nil]
      exact hI
  | cons a rest ih =>
      intro done b s hl hI hrun
      rw [List.foldlM_cons] at hrun
      obtain ⟨b₁, s₁, hrun₁, hrest⟩ := run_bind_ok.mp hrun
      refine ih (done ++ [a]) b₁ s₁ ?_ (hf done a rest b b₁ s s₁ hl hI hrun₁) hrest
      rw [hl, List.append_assoc, List.singleton_append]

/-- Sequencing after a part that is known to return. -/
theorem run_bind_of_ok {x : EStateM ε σ α} {f : α → EStateM ε σ β} {s m : σ} {a : α}
    (hx : x.run s = .ok a m) : (x >>= f).run s = (f a).run m := by
  rw [EStateM.run_bind, hx]

/-- Sequencing after a part that is known to raise. -/
theorem run_bind_of_error {x : EStateM ε σ α} {f : α → EStateM ε σ β} {s m : σ} {e : ε}
    (hx : x.run s = .error e m) : (x >>= f).run s = .error e m := by
  rw [EStateM.run_bind, hx]

@[simp] theorem run_map (f : α → β) (x : EStateM ε σ α) (s : σ) :
    (f <$> x).run s = match x.run s with
      | .ok a t => .ok (f a) t
      | .error e t => .error e t := rfl

@[simp] theorem run_throw_any (e : ε) (s : σ) :
    EStateM.run (throw e : EStateM ε σ α) s = .error e s := rfl

/-- A handler is not asked about a return, -/
theorem run_tryCatch_of_ok {x : EStateM ε σ α} {f : ε → EStateM ε σ α} {s t : σ} {a : α}
    (hx : x.run s = .ok a t) : (tryCatch x f).run s = .ok a t := by
  show EStateM.tryCatch x f s = _
  unfold EStateM.tryCatch
  rw [show x s = _ from hx]

/-- and goes on in the state of the exception. -/
theorem run_tryCatch_of_error {x : EStateM ε σ α} {f : ε → EStateM ε σ α} {s t : σ} {e : ε}
    (hx : x.run s = .error e t) : (tryCatch x f).run s = (f e).run t := by
  show EStateM.tryCatch x f s = _
  unfold EStateM.tryCatch
  rw [show x s = _ from hx]
  rfl

/-! ## Triples -/

/-- From `P`, a return of `x` meets `Q` and an exception of `x` meets `E`. -/
def Triple (P : σ → Prop) (x : EStateM ε σ α) (Q : α → σ → Prop) (E : ε → σ → Prop) : Prop :=
  ∀ s, P s → match x.run s with
    | .ok a t => Q a t
    | .error e t => E e t

section Rules

variable {P P' I : σ → Prop} {Q Q' : α → σ → Prop} {E E' : ε → σ → Prop}

theorem Triple.ok {x : EStateM ε σ α} (h : Triple P x Q E) {s t : σ} {a : α} (hs : P s)
    (hx : x.run s = .ok a t) : Q a t := by
  have := h s hs
  rwa [hx] at this

theorem Triple.error {x : EStateM ε σ α} (h : Triple P x Q E) {s t : σ} {e : ε} (hs : P s)
    (hx : x.run s = .error e t) : E e t := by
  have := h s hs
  rwa [hx] at this

theorem Triple.intro {x : EStateM ε σ α}
    (hok : ∀ s a t, P s → x.run s = .ok a t → Q a t)
    (herr : ∀ s e t, P s → x.run s = .error e t → E e t) : Triple P x Q E := by
  intro s hs
  cases hx : x.run s with
  | ok a t => exact hok s a t hs hx
  | error e t => exact herr s e t hs hx

theorem triple_bind {x : EStateM ε σ α} {f : α → EStateM ε σ β} {R : β → σ → Prop}
    (hx : Triple P x Q E) (hf : ∀ a, Triple (Q a) (f a) R E) : Triple P (x >>= f) R E := by
  intro s hs
  cases hrun : x.run s with
  | ok a m =>
      rw [run_bind_of_ok hrun]
      exact hf a m (hx.ok hs hrun)
  | error e m =>
      rw [run_bind_of_error hrun]
      exact hx.error hs hrun

end Rules

/-! ## Invariants of a program -/

/-- `I` holds after `x` whenever it held before, whichever way `x` ends. -/
def Preserves (I : σ → Prop) (x : EStateM ε σ α) : Prop :=
  Triple I x (fun _ => I) (fun _ => I)

section Preserves

variable {I J : σ → Prop}

theorem preserves_pure (a : α) : Preserves I (pure a : EStateM ε σ α) := fun _ hs => hs

theorem preserves_throw (e : ε) : Preserves I (throw e : EStateM ε σ α) := fun _ hs => hs

theorem preserves_get : Preserves I (get : EStateM ε σ σ) := fun _ hs => hs

theorem preserves_modify {f : σ → σ} (h : ∀ s, I s → I (f s)) :
    Preserves I (modify f : EStateM ε σ PUnit) := fun s hs => h s hs

theorem Preserves.bind {x : EStateM ε σ α} {f : α → EStateM ε σ β}
    (hx : Preserves I x) (hf : ∀ a, Preserves I (f a)) : Preserves I (x >>= f) :=
  triple_bind hx hf

theorem Preserves.ite {c : Prop} [Decidable c] {x y : EStateM ε σ α}
    (hx : Preserves I x) (hy : Preserves I y) : Preserves I (if c then x else y) := by
  split
  · exact hx
  · exact hy

end Preserves

/-! ## Programs along a relation -/

/-- From `s`, `x` ends in a state related to `s`, whichever way it ends, and a return meets `Q`. -/
def Along (R : σ → σ → Prop) (x : EStateM ε σ α) (Q : α → σ → Prop) (s : σ) : Prop :=
  match x.run s with
  | .ok a t => R s t ∧ Q a t
  | .error _ t => R s t

section Along

variable {R : σ → σ → Prop} {Q Q' : α → σ → Prop} {s t : σ}

theorem Along.ok {x : EStateM ε σ α} {a : α} (h : Along R x Q s) (hx : x.run s = .ok a t) :
    R s t ∧ Q a t := by
  rwa [Along, hx] at h

theorem Along.error {x : EStateM ε σ α} {e : ε} (h : Along R x Q s) (hx : x.run s = .error e t) :
    R s t := by
  rwa [Along, hx] at h

theorem Along.intro {x : EStateM ε σ α} (hok : ∀ a t, x.run s = .ok a t → R s t ∧ Q a t)
    (herr : ∀ e t, x.run s = .error e t → R s t) : Along R x Q s := by
  unfold Along
  cases hx : x.run s with
  | ok a t => exact hok a t hx
  | error e t => exact herr e t hx

theorem Along.conseq {x : EStateM ε σ α} (h : Along R x Q s)
    (hQ : ∀ a t, R s t → Q a t → Q' a t) : Along R x Q' s :=
  .intro (fun a t hx => ⟨(h.ok hx).1, hQ a t (h.ok hx).1 (h.ok hx).2⟩) fun _ _ hx => h.error hx

theorem along_pure (hrefl : ∀ s, R s s) {a : α} (h : Q a s) :
    Along R (pure a : EStateM ε σ α) Q s := ⟨hrefl s, h⟩

theorem along_throw (hrefl : ∀ s, R s s) (e : ε) : Along R (throw e : EStateM ε σ α) Q s := hrefl s

theorem Along.bind (htrans : ∀ s t u, R s t → R t u → R s u) {x : EStateM ε σ α}
    {f : α → EStateM ε σ β} {Q' : β → σ → Prop} (hx : Along R x Q s)
    (hf : ∀ a t, R s t → Q a t → Along R (f a) Q' t) : Along R (x >>= f) Q' s := by
  cases hrun : x.run s with
  | ok a m =>
      obtain ⟨hR, hQ⟩ := hx.ok hrun
      refine .intro (fun b t hb => ?_) fun e t he => ?_
      · rw [run_bind_of_ok hrun] at hb
        have := (hf a m hR hQ).ok hb
        exact ⟨htrans s m t hR this.1, this.2⟩
      · rw [run_bind_of_ok hrun] at he
        exact htrans s m t hR ((hf a m hR hQ).error he)
  | error e m =>
      refine .intro (fun b t hb => ?_) fun e' t he => ?_
      · rw [run_bind_of_error hrun] at hb
        cases hb
      · rw [run_bind_of_error hrun] at he
        cases he
        exact hx.error hrun

/-- A loop over a list, with an invariant of its variables. -/
theorem Along.foldlM (hrefl : ∀ s, R s s) (htrans : ∀ s t u, R s t → R t u → R s u)
    {f : β → α → EStateM ε σ β} {I : β → σ → Prop} {l : List α}
    (hf : ∀ b s, I b s → ∀ a ∈ l, Along R (f b a) I s) {b : β} (hb : I b s) :
    Along R (l.foldlM f b) I s := by
  induction l generalizing b s with
  | nil => exact along_pure hrefl hb
  | cons a l ih =>
      rw [List.foldlM_cons]
      exact (hf b s hb a List.mem_cons_self).bind htrans fun b' t _ hb' =>
        ih (fun b s hb c hc => hf b s hb c (List.mem_cons_of_mem a hc)) hb'

end Along

/-! ## Programs that return -/

/-- From `s`, `x` returns, and the return meets `Q`. -/
def Returns (x : EStateM ε σ α) (Q : α → σ → Prop) (s : σ) : Prop :=
  ∃ a t, x.run s = .ok a t ∧ Q a t

section Returns

variable {Q Q' : α → σ → Prop} {s t : σ}

theorem Returns.ok {x : EStateM ε σ α} {a : α} (h : Returns x Q s) (hx : x.run s = .ok a t) :
    Q a t := by
  obtain ⟨b, u, hrun, hQ⟩ := h
  rw [hrun] at hx
  cases hx
  exact hQ

theorem Returns.conseq {x : EStateM ε σ α} (h : Returns x Q s) (hQ : ∀ a t, Q a t → Q' a t) :
    Returns x Q' s := by
  obtain ⟨a, t, hrun, hq⟩ := h
  exact ⟨a, t, hrun, hQ a t hq⟩

theorem returns_pure {a : α} (h : Q a s) : Returns (pure a : EStateM ε σ α) Q s := ⟨a, s, rfl, h⟩

theorem returns_get : Returns (get : EStateM ε σ σ) (fun v t => v = s ∧ t = s) s :=
  ⟨s, s, rfl, rfl, rfl⟩

theorem Returns.bind {x : EStateM ε σ α} {f : α → EStateM ε σ β} {Q' : β → σ → Prop}
    (hx : Returns x Q s) (hf : ∀ a t, Q a t → Returns (f a) Q' t) : Returns (x >>= f) Q' s := by
  obtain ⟨a, m, hrun, hq⟩ := hx
  obtain ⟨b, t, hrun', hq'⟩ := hf a m hq
  exact ⟨b, t, by rw [run_bind_of_ok hrun, hrun'], hq'⟩

/-- A loop over a list, with an invariant of the elements done and its variables. -/
theorem Returns.foldlM {f : β → α → EStateM ε σ β} {I : List α → β → σ → Prop} {l : List α}
    (hf : ∀ done a rest, l = done ++ a :: rest → ∀ b s, I done b s →
      Returns (f b a) (I (done ++ [a])) s)
    {b : β} (hb : I [] b s) : Returns (l.foldlM f b) (I l) s := by
  suffices h : ∀ rest done b s, l = done ++ rest → I done b s → Returns (rest.foldlM f b) (I l) s from
    h l [] b s rfl hb
  intro rest
  induction rest with
  | nil =>
      intro done b s hl hI
      rw [hl, List.append_nil]
      exact returns_pure hI
  | cons a rest ih =>
      intro done b s hl hI
      rw [List.foldlM_cons]
      refine (hf done a rest hl b s hI).bind fun b' s' hI' => ih (done ++ [a]) b' s' ?_ hI'
      rw [hl, List.append_assoc, List.singleton_append]

/-- A loop over lists is the loop over all their elements. -/
theorem foldlM_flatten {f : β → α → EStateM ε σ β} (ls : List (List α)) (b : β) :
    ls.flatten.foldlM f b = ls.foldlM (fun b l => l.foldlM f b) b := by
  induction ls generalizing b with
  | nil => rfl
  | cons l ls ih => simp only [List.flatten_cons, List.foldlM_append, List.foldlM_cons, ih]

/-- A loop of checks that change nothing returns exactly if each of them does. -/
theorem run_forM_ok {f : α → EStateM ε σ PUnit} (hf : ∀ a s t u, (f a).run s = .ok u t → t = s)
    {l : List α} {u : PUnit} : (l.forM f).run s = .ok u t ↔ t = s ∧ ∀ a ∈ l, (f a).run s = .ok u s := by
  induction l generalizing s with
  | nil =>
      constructor
      · rintro ⟨⟩
        exact ⟨rfl, by simp⟩
      · rintro ⟨rfl, -⟩
        rfl
  | cons a l ih =>
      show (f a >>= fun _ => l.forM f).run s = .ok u t ↔ _
      rw [run_bind_ok]
      constructor
      · rintro ⟨v, m, ha, hl⟩
        obtain rfl := hf a s m v ha
        obtain ⟨rfl, hl⟩ := ih.mp hl
        exact ⟨rfl, List.forall_mem_cons.mpr ⟨ha, hl⟩⟩
      · rintro ⟨rfl, hl⟩
        obtain ⟨ha, hl⟩ := List.forall_mem_cons.mp hl
        exact ⟨u, t, ha, ih.mpr ⟨rfl, hl⟩⟩

end Returns

end RaftLib.Logic.Program
