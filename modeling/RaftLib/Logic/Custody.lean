/-
# `RaftLib.Logic.Custody` -- references in places, and who owns what they refer to

Objects live under addresses, and places hold references to them. Places belong to sides. A side may pass
an object on: another place then gets a reference to it, and one that the side still holds is spent. The
side remembers what it has passed on, until it settles: then it gives up the references it keeps for that,
deletes what it owned by them, and forgets.

What a side passes on may come back to it before it has settled, or the side passes it on to itself. Then
the side holds two references and has spent one of them. Which of the two that is nobody can tell, and
nobody needs to: the later one, in an order that the layout has, is taken for the owner.

`Sound` is what keeps this in order. Between two of its holders an object is adrift. So creating, handing
over and passing on are each a step that sets an object adrift, and `put`, which finds it an owner.
-/
import Mathlib.Data.List.Nodup
import RaftLib.Logic.Lifetime

namespace RaftLib.Logic.Custody

open RaftLib.Logic.Lifetime

universe u v w

variable {P : Type u} {κ : Type v} {α : Type w}

/-! ## The references of one side to one object -/

section References

variable {S S' : P → Prop} {spent : Prop} {p₀ p₁ : P}

/-- The places in `S` hold one reference more than is spent, so that one of them owns the object. -/
def Owning (S : P → Prop) (spent : Prop) : Prop := ∃ p, S p ∧ (spent → ∃ r, r ≠ p ∧ S r)

/-- No reference is spent that is not held; and no two are held, unless one of them is spent. -/
structure Fair (S : P → Prop) (spent : Prop) : Prop where
  kept : spent → ∃ p, S p
  twice : ∀ p r, S p → S r → r ≠ p → spent ∧ ∀ p', S p' → p' ≠ p → p' = r

theorem owning_iff_of_mem (hp : S p₀) : Owning S spent ↔ (spent → ∃ r, r ≠ p₀ ∧ S r) := by
  constructor
  · rintro ⟨p, hS, hother⟩ hspent
    by_cases heq : p = p₀
    · exact heq ▸ hother hspent
    · exact ⟨p, heq, hS⟩
  · intro hother
    exact ⟨p₀, hp, hother⟩

theorem fair_iff_of_mem (hp : S p₀) : Fair S spent ↔
    ∀ r, r ≠ p₀ → S r → spent ∧ ∀ r', r' ≠ p₀ → S r' → r' = r := by
  constructor
  · intro h r hne hr
    obtain ⟨hspent, honly⟩ := h.twice p₀ r hp hr hne
    exact ⟨hspent, fun r' hne' hr' => honly r' hr' hne'⟩
  · intro h
    refine ⟨fun _ => ⟨p₀, hp⟩, fun p r hS hr hne => ?_⟩
    by_cases heq : p = p₀
    · subst heq
      obtain ⟨hspent, honly⟩ := h r hne hr
      exact ⟨hspent, fun p' hp' hne' => honly p' hne' hp'⟩
    · obtain ⟨hspent, honly⟩ := h p heq hS
      -- all but `p₀` is `p`
      have hall : ∀ p', S p' → p' ≠ p → p' = p₀ := by
        intro p' hp' hne'
        by_contra hnot
        exact hne' (honly p' hnot hp')
      refine ⟨hspent, fun p' hp' hne' => ?_⟩
      rw [hall p' hp' hne', hall r hr hne]

/-- Who does not own the object holds one reference at most, which is spent. -/
theorem spare (h : ¬Owning S spent) (hp : S p₀) : spent ∧ ∀ r, S r → r = p₀ := by
  constructor
  · by_contra hspent
    exact h ⟨p₀, hp, fun hs => absurd hs hspent⟩
  · intro r hr
    by_contra hne
    exact h ⟨p₀, hp, fun _ => ⟨r, hne, hr⟩⟩

/-- Who does not own the object owns it with one reference more. -/
theorem Fair.put (h : Fair S spent) (ho : ¬Owning S spent) (hS : ∀ p, S' p ↔ p = p₁ ∨ S p)
    (hnot : ¬S p₁) : Owning S' spent ∧ Fair S' spent := by
  have hp : S' p₁ := (hS p₁).mpr (.inl rfl)
  have hold : ∀ r, r ≠ p₁ → S' r → S r := fun r hne hr => ((hS r).mp hr).resolve_left hne
  constructor
  · apply (owning_iff_of_mem hp).mpr
    intro hspent
    obtain ⟨r, hr⟩ := h.kept hspent
    exact ⟨r, fun heq => hnot (heq ▸ hr), (hS r).mpr (.inr hr)⟩
  · apply (fair_iff_of_mem hp).mpr
    intro r hne hr
    obtain ⟨hspent, honly⟩ := spare ho (hold r hne hr)
    exact ⟨hspent, fun r' hne' hr' => honly r' (hold r' hne' hr')⟩

/-- Who owns the object and has spent no reference does not own it when one is spent. -/
theorem Fair.spend (h : Fair S spent) (ho : Owning S spent) (hs : ¬spent) :
    ¬Owning S True ∧ Fair S True := by
  obtain ⟨p, hp, -⟩ := ho
  have honly : ∀ r, r ≠ p → ¬S r := fun r hne hr => hs (h.twice p r hp hr hne).1
  constructor
  · rw [owning_iff_of_mem hp]
    intro hother
    obtain ⟨r, hne, hr⟩ := hother trivial
    exact honly r hne hr
  · apply (fair_iff_of_mem hp).mpr
    intro r hne hr
    exact absurd hr (honly r hne)

/-- It makes no difference in which place a reference is held. -/
theorem owning_rename (hp : S p₀) (hp' : S' p₁) (h : ∀ r, r ≠ p₁ ∧ S' r ↔ r ≠ p₀ ∧ S r) :
    Owning S' spent ↔ Owning S spent := by
  rw [owning_iff_of_mem hp, owning_iff_of_mem hp']
  simp only [h]

theorem Fair.rename (hf : Fair S spent) (hp : S p₀) (hp' : S' p₁)
    (h : ∀ r, r ≠ p₁ ∧ S' r ↔ r ≠ p₀ ∧ S r) : Fair S' spent := by
  apply (fair_iff_of_mem hp').mpr
  intro r hne hr
  obtain ⟨hne', hr'⟩ := (h r).mp ⟨hne, hr⟩
  obtain ⟨hspent, honly⟩ := (fair_iff_of_mem hp).mp hf r hne' hr'
  refine ⟨hspent, fun p hp hS => ?_⟩
  obtain ⟨hnep, hold⟩ := (h p).mp ⟨hp, hS⟩
  exact honly p hnep hold

end References

/-! ## Books -/

/-- The side of a place, if it has one; the places whose references may be followed at any time; and an
order of the places of each side. -/
structure Layout (P : Type u) (κ : Type v) where
  side : P → Option κ
  slot : P → Prop
  before : P → P → Prop
  side_of_slot : ∀ p, slot p → ∃ k, side p = some k
  asymm : ∀ p r, before p r → ¬before r p
  total : ∀ p r k, side p = some k → side r = some k → p ≠ r → before p r ∨ before r p

/-- Who can own an object: a place without a side, or a side. -/
inductive Owner (P : Type u) (κ : Type v) where
  | place (p : P)
  | side (k : κ)

/-- To whom a place belongs. -/
def Layout.owner (L : Layout P κ) (p : P) : Owner P κ :=
  match L.side p with
  | none => .place p
  | some k => .side k

theorem Layout.owner_eq_place {L : Layout P κ} {p r : P} :
    L.owner p = .place r ↔ p = r ∧ L.side p = none := by
  unfold owner
  split
  · next hs => simp [hs]
  · next hs => simp [hs]

theorem Layout.owner_eq_side {L : Layout P κ} {p : P} {k : κ} :
    L.owner p = .side k ↔ L.side p = some k := by
  unfold owner
  split
  · next hs => simp [hs]
  · next hs => simp [hs]

/-- References, what the sides have passed on and looked at, and the objects by address. -/
structure Books (P : Type u) (κ : Type v) (α : Type w) where
  refs : P → Option α
  passed : κ → α → Prop
  seen : κ → α → Prop
  heap : Places α

namespace Books

/-- There is an object at this address. -/
def Live (B : Books P κ α) (x : α) : Prop := ∃ o, B.heap.place x = some o

/-- The place belongs to side `k` and refers to the object at `x`. -/
def Refers (L : Layout P κ) (B : Books P κ α) (k : κ) (x : α) (p : P) : Prop :=
  L.side p = some k ∧ B.refs p = some x

/-- The place owns the object at `x`: it refers to it; and if its side has passed the object on, there is
another place of the side, before this one, that still refers to it as well. -/
def Owns (L : Layout P κ) (B : Books P κ α) (p : P) (x : α) : Prop :=
  B.refs p = some x ∧ ∀ k, L.side p = some k → B.passed k x → ∃ r, L.before r p ∧ B.Refers L k x r

/-- **In order.** Every object made was deleted once or is at one address; every object that is there
has one owner; and no slot refers to one that is gone. -/
structure Accounted (L : Layout P κ) (B : Books P κ α) : Prop where
  ledger : Places.Ledger B.heap
  owned : ∀ x, B.Live x ↔ ∃ p, B.Owns L p x
  apart : ∀ p p' x, B.Owns L p x → B.Owns L p' x → p = p'
  slots : ∀ p x, L.slot p → B.refs p = some x → B.Live x

/-- A place without a side owns what it refers to, and a side what it has a reference to that is not
spent. -/
def OwnedBy (L : Layout P κ) (B : Books P κ α) (x : α) : Owner P κ → Prop
  | .place p => L.side p = none ∧ B.refs p = some x
  | .side k => Owning (B.Refers L k x) (B.passed k x)

/-- What keeps the books in order. Every object has one owner, apart from the one that is adrift; what is
in no side's hands yet is in no slot; and what a side has looked at it has passed on or owns. -/
structure Sound (L : Layout P κ) (B : Books P κ α) (adrift : Option α) : Prop where
  ledger : Places.Ledger B.heap
  owned : ∀ x, B.Live x ↔ adrift = some x ∨ ∃ o, B.OwnedBy L x o
  apart : ∀ o o' x, B.OwnedBy L x o → B.OwnedBy L x o' → o = o'
  nobody : ∀ o x, adrift = some x → ¬B.OwnedBy L x o
  fair : ∀ k x, Fair (B.Refers L k x) (B.passed k x)
  slots : ∀ p x, L.slot p → B.refs p = some x → B.Live x
  fresh : ∀ p p' x, L.side p = none → B.refs p = some x → L.slot p' → B.refs p' ≠ some x
  seen : ∀ k x, B.seen k x → B.passed k x ∨ B.OwnedBy L x (.side k)

variable {L : Layout P κ} {B B' : Books P κ α} {p₀ p₁ : P} {x : α} {k : κ}

theorem ownedBy_of_owns (h : B.Owns L p₀ x) : B.OwnedBy L x (L.owner p₀) := by
  obtain ⟨href, hearlier⟩ := h
  cases hs : L.side p₀ with
  | none =>
      rw [Layout.owner_eq_place.mpr ⟨rfl, hs⟩]
      exact ⟨hs, href⟩
  | some k =>
      rw [Layout.owner_eq_side.mpr hs]
      refine ⟨p₀, ⟨hs, href⟩, fun hpassed => ?_⟩
      obtain ⟨r, hbefore, hr⟩ := hearlier k hs hpassed
      refine ⟨r, ?_, hr⟩
      rintro rfl
      exact L.asymm r r hbefore hbefore

theorem exists_owns {o : Owner P κ} (h : B.OwnedBy L x o) : ∃ p, B.Owns L p x := by
  cases o with
  | place p =>
      obtain ⟨hs, href⟩ := h
      refine ⟨p, href, fun k hk => ?_⟩
      rw [hs] at hk
      cases hk
  | side k =>
      obtain ⟨p, ⟨hs, href⟩, hother⟩ := h
      by_cases hpassed : B.passed k x
      · obtain ⟨r, hne, hsr, hrefr⟩ := hother hpassed
        rcases L.total r p k hsr hs hne with hbefore | hbefore
        · refine ⟨p, href, fun j hj _ => ⟨r, hbefore, ?_, hrefr⟩⟩
          exact hsr.trans (hs.symm.trans hj)
        · refine ⟨r, hrefr, fun j hj _ => ⟨p, hbefore, ?_, href⟩⟩
          exact hs.trans (hsr.symm.trans hj)
      · refine ⟨p, href, fun j hj hp => absurd hp ?_⟩
        rw [hs, Option.some_inj] at hj
        exact hj ▸ hpassed

/-- **One owner among the sides is one owner among the places.** -/
theorem Sound.accounted (h : Sound L B none) : Accounted L B where
  ledger := h.ledger
  owned x := by
    rw [h.owned]
    constructor
    · rintro (hnone | ⟨o, ho⟩)
      · cases hnone
      · exact exists_owns ho
    · rintro ⟨p, hp⟩
      exact .inr ⟨_, ownedBy_of_owns hp⟩
  apart p p' x hp hp' := by
    have howner := h.apart _ _ x (ownedBy_of_owns hp) (ownedBy_of_owns hp')
    cases hs : L.side p with
    | none =>
        rw [Layout.owner_eq_place.mpr ⟨rfl, hs⟩] at howner
        exact (Layout.owner_eq_place.mp howner.symm).1.symm
    | some k =>
        rw [Layout.owner_eq_side.mpr hs] at howner
        have hs' := Layout.owner_eq_side.mp howner.symm
        by_contra hne
        -- each of the two would have to come before the other
        obtain ⟨hpassed, honly⟩ := (h.fair k x).twice p p' ⟨hs, hp.1⟩ ⟨hs', hp'.1⟩ (Ne.symm hne)
        obtain ⟨-, honly'⟩ := (h.fair k x).twice p' p ⟨hs', hp'.1⟩ ⟨hs, hp.1⟩ hne
        obtain ⟨r, hbefore, hr⟩ := hp.2 k hs hpassed
        obtain ⟨r', hbefore', hr'⟩ := hp'.2 k hs' hpassed
        have hirr : ∀ q, ¬L.before q q := fun q hq => L.asymm q q hq hq
        obtain rfl := honly r hr fun heq => hirr p (heq ▸ hbefore)
        obtain rfl := honly' r' hr' fun heq => hirr r (heq ▸ hbefore')
        exact L.asymm _ _ hbefore hbefore'
  slots := h.slots

theorem Sound.init (L : Layout P κ) :
    Sound L { refs := fun _ => none, passed := fun _ _ => False, seen := fun _ _ => False,
              heap := ({} : Places α) } none where
  ledger := Places.ledger_empty
  owned x := by
    constructor
    · rintro ⟨o, ho⟩
      cases ho
    · rintro (hnone | ⟨o, ho⟩)
      · cases hnone
      · obtain ⟨p, hp, -⟩ := exists_owns ho
        cases hp
  apart o o' x ho := by
    obtain ⟨p, hp, -⟩ := exists_owns ho
    cases hp
  nobody _ _ h := nomatch h
  fair k x := ⟨False.elim, fun p r hp => nomatch hp.2⟩
  slots _ _ _ h := nomatch h
  fresh _ _ _ _ h := nomatch h
  seen _ _ h := h.elim

/-! ## Looking -/

/-- A side looks at what one of its places refers to. -/
def look (B : Books P κ α) (k : κ) (x : α) : Books P κ α :=
  { B with seen := fun j y => (j = k ∧ y = x) ∨ B.seen j y }

theorem Sound.look (h : Sound L B none) (hr : B.Refers L k x p₀) : Sound L (B.look k x) none where
  ledger := h.ledger
  owned := h.owned
  apart := h.apart
  nobody := h.nobody
  fair := h.fair
  slots := h.slots
  fresh := h.fresh
  seen := by
    rintro j y (⟨rfl, rfl⟩ | hseen)
    · by_cases ho : B.OwnedBy L y (.side j)
      · exact .inr ho
      · exact .inl (spare ho hr).1
    · exact h.seen j y hseen

/-! ## Setting an object adrift -/

theorem not_ownedBy (h : Sound L B none) (hx : B.heap.place x = none) (o : Owner P κ) :
    ¬B.OwnedBy L x o := by
  intro ho
  obtain ⟨c, hc⟩ := (h.owned x).mpr (.inr ⟨o, ho⟩)
  rw [hx] at hc
  cases hc

/-- Side `k` has passed the object on. -/
def mark (B : Books P κ α) (k : κ) (x : α) : Books P κ α :=
  { B with passed := fun j y => (j = k ∧ y = x) ∨ B.passed j y }

theorem passed_mark_of_ne {j : κ} {y : α} (hne : ¬(j = k ∧ y = x)) :
    (B.mark k x).passed j y ↔ B.passed j y := or_iff_right hne

theorem passed_mark_self : (B.mark k x).passed k x = True := eq_true (.inl ⟨rfl, rfl⟩)

theorem ownedBy_mark (h : Sound L B none) (ho : B.OwnedBy L x (.side k)) (hp : ¬B.passed k x) {y : α}
    {o : Owner P κ} : (B.mark k x).OwnedBy L y o ↔ y ≠ x ∧ B.OwnedBy L y o := by
  have hself : ¬(B.mark k x).OwnedBy L x (.side k) := by
    show ¬Owning _ ((B.mark k x).passed k x)
    rw [passed_mark_self]
    exact ((h.fair k x).spend ho hp).1
  -- all others are as they were
  have hsame : ∀ o y, ¬(o = .side k ∧ y = x) → ((B.mark k x).OwnedBy L y o ↔ B.OwnedBy L y o) := by
    intro o y hne
    cases o with
    | place p => rfl
    | side j =>
        show Owning _ ((B.mark k x).passed j y) ↔ _
        rw [passed_mark_of_ne fun heq => hne ⟨congrArg _ heq.1, heq.2⟩]
        rfl
  by_cases hy : y = x
  · subst hy
    refine iff_of_false (fun ho' => ?_) fun hcon => hcon.1 rfl
    by_cases hk : o = .side k
    · exact hself (hk ▸ ho')
    · exact hk (h.apart o _ y ((hsame o y fun heq => hk heq.1).mp ho') ho)
  · rw [hsame o y fun heq => hy heq.2]
    exact (and_iff_right hy).symm

theorem Sound.mark (h : Sound L B none) (ho : B.OwnedBy L x (.side k)) (hp : ¬B.passed k x) :
    Sound L (B.mark k x) (some x) where
  ledger := h.ledger
  owned y := by
    show B.Live y ↔ _
    rw [h.owned]
    constructor
    · rintro (hnone | ⟨o, hown⟩)
      · cases hnone
      · by_cases hy : y = x
        · exact .inl (congrArg some hy.symm)
        · exact .inr ⟨o, (ownedBy_mark h ho hp).mpr ⟨hy, hown⟩⟩
    · rintro (hx | ⟨o, hown⟩)
      · obtain rfl := Option.some_inj.mp hx
        exact .inr ⟨_, ho⟩
      · exact .inr ⟨o, ((ownedBy_mark h ho hp).mp hown).2⟩
  apart o o' y hown hown' :=
    h.apart o o' y ((ownedBy_mark h ho hp).mp hown).2 ((ownedBy_mark h ho hp).mp hown').2
  nobody o y hy hown := ((ownedBy_mark h ho hp).mp hown).1 (Option.some_inj.mp hy).symm
  fair j y := by
    by_cases heq : j = k ∧ y = x
    · obtain ⟨rfl, rfl⟩ := heq
      rw [passed_mark_self]
      exact ((h.fair j y).spend ho hp).2
    · rw [passed_mark_of_ne heq]
      exact h.fair j y
  slots := h.slots
  fresh := h.fresh
  seen j y hseen := by
    rcases h.seen j y hseen with hpassed | hown
    · exact .inl (.inr hpassed)
    · by_cases hy : y = x
      · subst hy
        have hj := h.apart _ _ y hown ho
        cases hj
        exact .inl (.inl ⟨rfl, rfl⟩)
      · exact .inr ((ownedBy_mark h ho hp).mpr ⟨hy, hown⟩)

section Construct

variable [DecidableEq α]

/-- A new object. -/
def construct (B : Books P κ α) (x : α) : Books P κ α := { B with heap := B.heap.construct x }

theorem live_construct {y : α} : (B.construct x).Live y ↔ y = x ∨ B.Live y := by
  unfold Live construct Places.construct
  by_cases hy : y = x
  · simp [hy]
  · simp [hy]

theorem Sound.construct (h : Sound L B none) (hx : B.heap.place x = none) :
    Sound L (B.construct x) (some x) where
  ledger := h.ledger.construct hx
  owned y := by
    rw [live_construct, h.owned]
    constructor
    · rintro (rfl | hnone | ho)
      · exact .inl rfl
      · cases hnone
      · exact .inr ho
    · rintro (hx | ho)
      · exact .inl (Option.some_inj.mp hx).symm
      · exact .inr (.inr ho)
  apart := h.apart
  nobody o y hy := by
    obtain rfl := Option.some_inj.mp hy
    exact not_ownedBy h hx o
  fair := h.fair
  slots p y hs hr := live_construct.mpr (.inr (h.slots p y hs hr))
  fresh := h.fresh
  seen := h.seen

end Construct

section Update

variable [DecidableEq P]

/-- A place gives up what it refers to. -/
def clear (B : Books P κ α) (p : P) : Books P κ α := { B with refs := Function.update B.refs p none }

theorem refs_clear {p : P} {y : α} :
    (B.clear p₀).refs p = some y ↔ p ≠ p₀ ∧ B.refs p = some y := by
  by_cases heq : p = p₀
  · simp [clear, heq]
  · simp [clear, heq]

/-- A place without a side is in no side's references. -/
theorem refers_clear (hs : L.side p₀ = none) (k : κ) (y : α) :
    (B.clear p₀).Refers L k y = B.Refers L k y := by
  funext p
  apply propext
  unfold Refers
  rw [refs_clear]
  constructor
  · rintro ⟨hside, -, href⟩
    exact ⟨hside, href⟩
  · rintro ⟨hside, href⟩
    refine ⟨hside, ?_, href⟩
    rintro rfl
    rw [hs] at hside
    cases hside

theorem ownedBy_clear (hs : L.side p₀ = none) {y : α} {o : Owner P κ} :
    (B.clear p₀).OwnedBy L y o ↔ o ≠ .place p₀ ∧ B.OwnedBy L y o := by
  cases o with
  | place p =>
      show L.side p = none ∧ (B.clear p₀).refs p = some y ↔ _
      rw [refs_clear, and_left_comm, ne_eq, ne_eq, Owner.place.injEq]
      rfl
  | side k =>
      show Owning ((B.clear p₀).Refers L k y) (B.passed k y) ↔ _
      rw [refers_clear hs]
      exact (and_iff_right nofun).symm

theorem Sound.clear (h : Sound L B none) (hs : L.side p₀ = none) (hr : B.refs p₀ = some x) :
    Sound L (B.clear p₀) (some x) where
  ledger := h.ledger
  owned y := by
    show B.Live y ↔ _
    rw [h.owned]
    constructor
    · rintro (hnone | ⟨o, ho⟩)
      · cases hnone
      · by_cases heq : o = .place p₀
        · subst heq
          exact .inl (hr.symm.trans ho.2)
        · exact .inr ⟨o, (ownedBy_clear hs).mpr ⟨heq, ho⟩⟩
    · rintro (hx | ⟨o, ho⟩)
      · obtain rfl := Option.some_inj.mp hx
        exact .inr ⟨.place p₀, hs, hr⟩
      · exact .inr ⟨o, ((ownedBy_clear hs).mp ho).2⟩
  apart o o' y ho ho' := h.apart o o' y ((ownedBy_clear hs).mp ho).2 ((ownedBy_clear hs).mp ho').2
  nobody o y hy ho := by
    obtain rfl := Option.some_inj.mp hy
    obtain ⟨hne, hold⟩ := (ownedBy_clear hs).mp ho
    exact hne (h.apart o (.place p₀) x hold ⟨hs, hr⟩)
  fair k y := by
    rw [refers_clear hs]
    exact h.fair k y
  slots p y hs' hr' := h.slots p y hs' (refs_clear.mp hr').2
  fresh p p' y hp hr hs' hr' := h.fresh p p' y hp (refs_clear.mp hr).2 hs' (refs_clear.mp hr').2
  seen k y hseen := (h.seen k y hseen).imp_right fun ho => (ownedBy_clear hs).mpr ⟨nofun, ho⟩

/-! ## Finding an owner -/

/-- A place gets a reference. -/
def put (B : Books P κ α) (p : P) (x : α) : Books P κ α :=
  { B with refs := Function.update B.refs p (some x) }

section Put

variable (hr : B.refs p₁ = none)

include hr

theorem refs_put {p : P} {y : α} :
    (B.put p₁ x).refs p = some y ↔ p = p₁ ∧ y = x ∨ B.refs p = some y := by
  by_cases heq : p = p₁
  · simp [put, heq, hr, eq_comm]
  · simp [put, heq]

/-- The references of the side that gets one. -/
theorem refers_put_self (hs : L.side p₁ = some k) (p : P) :
    (B.put p₁ x).Refers L k x p ↔ p = p₁ ∨ B.Refers L k x p := by
  unfold Refers
  rw [refs_put hr]
  constructor
  · rintro ⟨hside, ⟨heq, -⟩ | hold⟩
    · exact .inl heq
    · exact .inr ⟨hside, hold⟩
  · rintro (rfl | ⟨hside, hold⟩)
    · exact ⟨hs, .inl ⟨rfl, rfl⟩⟩
    · exact ⟨hside, .inr hold⟩

theorem refers_put_of_ne {y : α} (hne : ¬(L.side p₁ = some k ∧ y = x)) :
    (B.put p₁ x).Refers L k y = B.Refers L k y := by
  funext p
  apply propext
  unfold Refers
  rw [refs_put hr]
  constructor
  · rintro ⟨hside, ⟨rfl, hy⟩ | hold⟩
    · exact absurd ⟨hside, hy⟩ hne
    · exact ⟨hside, hold⟩
  · rintro ⟨hside, hold⟩
    exact ⟨hside, .inr hold⟩

/-- The object is adrift, so the side that gets the reference owns it from now on. -/
theorem Sound.put_self (h : Sound L B (some x)) (hs : L.side p₁ = some k) :
    (B.put p₁ x).OwnedBy L x (.side k) ∧ Fair ((B.put p₁ x).Refers L k x) (B.passed k x) :=
  (h.fair k x).put (h.nobody (.side k) x rfl) (refers_put_self hr hs) fun hold => by
    have href := hold.2
    rw [hr] at href
    cases href

theorem ownedBy_put (h : Sound L B (some x)) {y : α} {o : Owner P κ} :
    (B.put p₁ x).OwnedBy L y o ↔ (y = x ∧ L.owner p₁ = o) ∨ B.OwnedBy L y o := by
  cases o with
  | place p =>
      show L.side p = none ∧ (B.put p₁ x).refs p = some y ↔ _
      rw [refs_put hr, Layout.owner_eq_place]
      constructor
      · rintro ⟨hs, ⟨rfl, rfl⟩ | hold⟩
        · exact .inl ⟨rfl, rfl, hs⟩
        · exact .inr ⟨hs, hold⟩
      · rintro (⟨rfl, rfl, hs⟩ | ⟨hs, hold⟩)
        · exact ⟨hs, .inl ⟨rfl, rfl⟩⟩
        · exact ⟨hs, .inr hold⟩
  | side k =>
      rw [Layout.owner_eq_side]
      by_cases hself : L.side p₁ = some k ∧ y = x
      · obtain ⟨hs, rfl⟩ := hself
        exact iff_of_true (h.put_self hr hs).1 (.inl ⟨rfl, hs⟩)
      · show Owning ((B.put p₁ x).Refers L k y) (B.passed k y) ↔ _
        rw [refers_put_of_ne hr hself]
        exact (or_iff_right fun heq => hself heq.symm).symm

/-- Whoever gets the reference owns the object. A place without a side gets it only if no slot refers to
the object. -/
theorem Sound.put (h : Sound L B (some x))
    (hfresh : L.side p₁ = none → ∀ p, L.slot p → B.refs p ≠ some x) : Sound L (B.put p₁ x) none where
  ledger := h.ledger
  owned y := by
    show B.Live y ↔ _
    rw [h.owned]
    constructor
    · rintro (hx | ⟨o, ho⟩)
      · exact .inr ⟨_, (ownedBy_put hr h).mpr (.inl ⟨(Option.some_inj.mp hx).symm, rfl⟩)⟩
      · exact .inr ⟨o, (ownedBy_put hr h).mpr (.inr ho)⟩
    · rintro (hnone | ⟨o, ho⟩)
      · cases hnone
      · rcases (ownedBy_put hr h).mp ho with ⟨rfl, -⟩ | hold
        · exact .inl rfl
        · exact .inr ⟨o, hold⟩
  apart o o' y ho ho' := by
    rcases (ownedBy_put hr h).mp ho with ⟨rfl, rfl⟩ | hold
    · rcases (ownedBy_put hr h).mp ho' with ⟨-, rfl⟩ | hold'
      · rfl
      · exact absurd hold' (h.nobody o' y rfl)
    · rcases (ownedBy_put hr h).mp ho' with ⟨rfl, -⟩ | hold'
      · exact absurd hold (h.nobody o y rfl)
      · exact h.apart o o' y hold hold'
  nobody _ _ hnone := nomatch hnone
  fair k y := by
    by_cases hself : L.side p₁ = some k ∧ y = x
    · obtain ⟨hs, rfl⟩ := hself
      exact (h.put_self hr hs).2
    · rw [refers_put_of_ne hr hself]
      exact h.fair k y
  slots p y hs href := by
    rcases (refs_put hr).mp href with ⟨-, rfl⟩ | hold
    · exact (h.owned y).mpr (.inl rfl)
    · exact h.slots p y hs hold
  fresh p p' y hs href hs' href' := by
    rcases (refs_put hr).mp href with ⟨rfl, rfl⟩ | hold
    · rcases (refs_put hr).mp href' with ⟨rfl, -⟩ | hold'
      · obtain ⟨k, hk⟩ := L.side_of_slot p' hs'
        rw [hs] at hk
        cases hk
      · exact hfresh hs p' hs' hold'
    · rcases (refs_put hr).mp href' with ⟨-, rfl⟩ | hold'
      · exact h.nobody (.place p) y rfl ⟨hs, hold⟩
      · exact h.fresh p p' y hs hold hs' hold'
  seen k y hseen := (h.seen k y hseen).imp_right fun ho => (ownedBy_put hr h).mpr (.inr ho)

end Put

/-! ## What may happen -/

/-- A reference goes from one place to another. -/
def move (B : Books P κ α) (p r : P) (x : α) : Books P κ α := (B.clear p).put r x

/-- Side `k` passes an object on: the place `p` gets a reference to it. -/
def pass (B : Books P κ α) (k : κ) (p : P) (x : α) : Books P κ α := (B.mark k x).put p x

/-- An object is handed over to a place, of whatever side. -/
theorem Sound.handOver (h : Sound L B none) (hs : L.side p₀ = none) (hr : B.refs p₀ = some x)
    (hr' : B.refs p₁ = none) : Sound L (B.move p₀ p₁ x) none := by
  apply (h.clear hs hr).put
  · show Function.update B.refs p₀ none p₁ = none
    by_cases heq : p₁ = p₀
    · rw [heq, Function.update_self]
    · rw [Function.update_of_ne heq, hr']
  · intro _ p hslot href
    exact h.fresh p₀ p x hs hr hslot (refs_clear.mp href).2

/-- A side that owns what it has looked at passes it on, to whatever side. -/
theorem Sound.pass (h : Sound L B none) (hseen : B.seen k x) (hp : ¬B.passed k x)
    (hr : B.refs p₁ = none) {k' : κ} (hs : L.side p₁ = some k') : Sound L (B.pass k p₁ x) none := by
  have hmark := h.mark ((h.seen k x hseen).resolve_left hp) hp
  refine Sound.put (B := B.mark k x) hr hmark fun hnone => ?_
  rw [hs] at hnone
  cases hnone

section SetAside

variable (hs₀ : L.side p₀ = some k) (hr₀ : B.refs p₀ = some x) (hr₁ : B.refs p₁ = none)

include hs₀ hr₀ hr₁

theorem refs_move {p : P} {y : α} :
    (B.move p₀ p₁ x).refs p = some y ↔ p = p₁ ∧ y = x ∨ p ≠ p₀ ∧ B.refs p = some y := by
  have hne : p₁ ≠ p₀ := by
    rintro rfl
    rw [hr₁] at hr₀
    cases hr₀
  have hnone : (B.clear p₀).refs p₁ = none := (Function.update_of_ne hne ..).trans hr₁
  exact (refs_put hnone).trans (or_congr_right refs_clear)

/-- Only the references of the side to this object change. -/
theorem refers_move_of_ne (hs₁ : L.side p₁ = some k) {j : κ} {y : α} (hne : ¬(j = k ∧ y = x)) :
    (B.move p₀ p₁ x).Refers L j y = B.Refers L j y := by
  funext p
  apply propext
  unfold Refers
  rw [refs_move hs₀ hr₀ hr₁]
  constructor
  · rintro ⟨hside, ⟨rfl, hy⟩ | ⟨-, hold⟩⟩
    · exact absurd ⟨Option.some_inj.mp (hside.symm.trans hs₁), hy⟩ hne
    · exact ⟨hside, hold⟩
  · rintro ⟨hside, hold⟩
    refine ⟨hside, .inr ⟨?_, hold⟩⟩
    rintro rfl
    exact hne ⟨Option.some_inj.mp (hside.symm.trans hs₀), Option.some_inj.mp (hold.symm.trans hr₀)⟩

theorem refers_move (r : P) :
    r ≠ p₁ ∧ (B.move p₀ p₁ x).Refers L k x r ↔ r ≠ p₀ ∧ B.Refers L k x r := by
  unfold Refers
  rw [refs_move hs₀ hr₀ hr₁]
  constructor
  · rintro ⟨hne, hside, ⟨heq, -⟩ | ⟨hne', hold⟩⟩
    · exact absurd heq hne
    · exact ⟨hne', hside, hold⟩
  · rintro ⟨hne, hside, hold⟩
    refine ⟨?_, hside, .inr ⟨hne, hold⟩⟩
    rintro rfl
    rw [hr₁] at hold
    cases hold

theorem ownedBy_move (hs₁ : L.side p₁ = some k) {y : α} {o : Owner P κ} :
    (B.move p₀ p₁ x).OwnedBy L y o ↔ B.OwnedBy L y o := by
  cases o with
  | place p =>
      refine and_congr_right fun hside => ?_
      have hne {r : P} (hs : L.side r = some k) : p ≠ r := by
        rintro rfl
        rw [hs] at hside
        cases hside
      rw [refs_move hs₀ hr₀ hr₁]
      constructor
      · rintro (⟨heq, -⟩ | ⟨-, hold⟩)
        · exact absurd heq (hne hs₁)
        · exact hold
      · intro hold
        exact .inr ⟨hne hs₀, hold⟩
  | side j =>
      by_cases heq : j = k ∧ y = x
      · obtain ⟨rfl, rfl⟩ := heq
        exact owning_rename ⟨hs₀, hr₀⟩ ⟨hs₁, (refs_move hs₀ hr₀ hr₁).mpr (.inl ⟨rfl, rfl⟩)⟩
          (refers_move hs₀ hr₀ hr₁)
      · show Owning ((B.move p₀ p₁ x).Refers L j y) (B.passed j y) ↔ _
        rw [refers_move_of_ne hs₀ hr₀ hr₁ hs₁ heq]
        rfl

/-- A reference is set aside within its side. -/
theorem Sound.setAside (h : Sound L B none) (hs₁ : L.side p₁ = some k) (hslot : ¬L.slot p₁) :
    Sound L (B.move p₀ p₁ x) none where
  ledger := h.ledger
  owned y := by
    show B.Live y ↔ _
    simp only [h.owned, ownedBy_move hs₀ hr₀ hr₁ hs₁]
  apart o o' y ho ho' := h.apart o o' y ((ownedBy_move hs₀ hr₀ hr₁ hs₁).mp ho)
    ((ownedBy_move hs₀ hr₀ hr₁ hs₁).mp ho')
  nobody _ _ hnone := nomatch hnone
  fair j y := by
    by_cases heq : j = k ∧ y = x
    · obtain ⟨rfl, rfl⟩ := heq
      exact (h.fair j y).rename ⟨hs₀, hr₀⟩ ⟨hs₁, (refs_move hs₀ hr₀ hr₁).mpr (.inl ⟨rfl, rfl⟩)⟩
        (refers_move hs₀ hr₀ hr₁)
    · rw [refers_move_of_ne hs₀ hr₀ hr₁ hs₁ heq]
      exact h.fair j y
  slots p y hs href := by
    rcases (refs_move hs₀ hr₀ hr₁).mp href with ⟨rfl, -⟩ | ⟨-, hold⟩
    · exact absurd hs hslot
    · exact h.slots p y hs hold
  fresh p p' y hs href hs' href' := by
    rcases (refs_move hs₀ hr₀ hr₁).mp href with ⟨rfl, -⟩ | ⟨-, hold⟩
    · rw [hs₁] at hs
      cases hs
    · rcases (refs_move hs₀ hr₀ hr₁).mp href' with ⟨rfl, -⟩ | ⟨-, hold'⟩
      · exact hslot hs'
      · exact h.fresh p p' y hs hold hs' hold'
  seen j y hseen := (h.seen j y hseen).imp_right (ownedBy_move hs₀ hr₀ hr₁ hs₁).mpr

end SetAside

variable [DecidableEq α]

/-- A new object, and a place that refers to it. -/
def create (B : Books P κ α) (p : P) (x : α) : Books P κ α := (B.construct x).put p x

theorem Sound.create (h : Sound L B none) (hr : B.refs p₁ = none) (hx : B.heap.place x = none) :
    Sound L (B.create p₁ x) none := by
  refine Sound.put (B := B.construct x) hr (h.construct hx) fun _ p hslot href => ?_
  obtain ⟨o, ho⟩ := h.slots p x hslot href
  rw [hx] at ho
  cases ho

/-- A place without a side gives up its object, which is deleted. -/
def takeBack (B : Books P κ α) (p : P) (x : α) : Books P κ α :=
  { B.clear p with heap := B.heap.destroy x }

omit [DecidableEq P] in
theorem live_destroy (hx : B.Live x) {y : α} :
    ({ B with heap := B.heap.destroy x } : Books P κ α).Live y ↔ y ≠ x ∧ B.Live y := by
  obtain ⟨o, ho⟩ := hx
  unfold Live
  rw [Places.destroy_of_some ho]
  by_cases hy : y = x
  · simp [hy]
  · simp [hy]

theorem Sound.takeBack (h : Sound L B none) (hs : L.side p₀ = none) (hr : B.refs p₀ = some x) :
    Sound L (B.takeBack p₀ x) none := by
  have hc := h.clear hs hr
  have hlive : (B.clear p₀).Live x := (hc.owned x).mpr (.inl rfl)
  refine { hc with
    ledger := hc.ledger.destroy hlive.choose_spec
    owned := fun y => (live_destroy hlive).trans ?_
    nobody := nofun
    slots := fun p y hslot href => (live_destroy hlive).mpr ⟨?_, hc.slots p y hslot href⟩ }
  · rw [hc.owned]
    constructor
    · rintro ⟨hne, hx | ho⟩
      · exact absurd (Option.some_inj.mp hx).symm hne
      · exact .inr ho
    · rintro (hnone | ⟨o, ho⟩)
      · cases hnone
      · refine ⟨?_, .inr ⟨o, ho⟩⟩
        rintro rfl
        exact hc.nobody o y rfl ho
  · rintro rfl
    exact h.fresh p₀ p y hs hr hslot (refs_clear.mp href).2

end Update

/-! ## Settling -/

/-- A reference that side `k` keeps outside of its slots. -/
def Kept (L : Layout P κ) (B : Books P κ α) (k : κ) (x : α) (p : P) : Prop :=
  B.Refers L k x p ∧ ¬L.slot p

/-- `B'` is `B` after side `k` has given up what it keeps, deleted the objects `ys` and forgotten what
it has passed on and looked at. -/
structure Settled [DecidableEq α] (L : Layout P κ) (k : κ) (ys : List α) (B B' : Books P κ α) : Prop where
  refs : ∀ p x, B'.refs p = some x ↔ B.refs p = some x ∧ ¬(L.side p = some k ∧ ¬L.slot p)
  passed : ∀ j x, B'.passed j x ↔ j ≠ k ∧ B.passed j x
  seen : ∀ j x, B'.seen j x ↔ j ≠ k ∧ B.seen j x
  heap : B'.heap = B.heap.destroyAll ys

section Settle

variable {ys : List α}

/-- What a side must have kept, and what it deletes. The side has set aside, in one place for each
object, all that it has passed on. It deletes what it has set aside and not passed on, once every side
that has passed the object on has set it aside too. -/
structure Settleable (L : Layout P κ) (B : Books P κ α) (k : κ) (ys : List α) : Prop where
  nodup : ys.Nodup
  mem : ∀ x, x ∈ ys ↔ (∃ p, B.Kept L k x p) ∧ ¬B.passed k x
  kept : ∀ x, B.passed k x → ∃ p, B.Kept L k x p
  once : ∀ x p r, B.Kept L k x p → B.Kept L k x r → p = r
  back : ∀ x ∈ ys, ∀ j, B.passed j x → ∃ p, B.Kept L j x p

/-- What is deleted the side owned. -/
theorem Settleable.owned (hc : Settleable L B k ys) (hx : x ∈ ys) : B.OwnedBy L x (.side k) := by
  obtain ⟨⟨p, hp, -⟩, hpassed⟩ := (hc.mem x).mp hx
  exact ⟨p, hp, fun hpass => absurd hpass hpassed⟩

/-- What is deleted is in no slot. -/
theorem Sound.no_slot (h : Sound L B none) (hc : Settleable L B k ys) (hx : x ∈ ys)
    (hslot : L.slot p₀) : B.refs p₀ ≠ some x := by
  intro href
  obtain ⟨j, hj⟩ := L.side_of_slot p₀ hslot
  obtain ⟨⟨r, hr, hnot⟩, hpassed⟩ := (hc.mem x).mp hx
  by_cases hjk : j = k
  · subst hjk
    -- two references, though none is spent
    have hne : r ≠ p₀ := fun heq => hnot (heq ▸ hslot)
    exact hpassed ((h.fair j x).twice p₀ r ⟨hj, href⟩ hr hne).1
  · have hno : ¬B.OwnedBy L x (.side j) := fun ho =>
      hjk (Owner.side.inj (h.apart _ _ x ho (hc.owned hx)))
    -- the other side has set its only reference aside
    obtain ⟨hspent, honly⟩ := spare hno ⟨hj, href⟩
    obtain ⟨r', hr', hnot'⟩ := hc.back x hx j hspent
    exact hnot' (honly r' hr' ▸ hslot)

variable [DecidableEq α]

theorem Settled.refers_of_ne (hset : Settled L k ys B B') {j : κ} (hne : j ≠ k) (x : α) :
    B'.Refers L j x = B.Refers L j x := by
  funext p
  apply propext
  unfold Refers
  rw [hset.refs]
  constructor
  · rintro ⟨hs, hr, -⟩
    exact ⟨hs, hr⟩
  · rintro ⟨hs, hr⟩
    exact ⟨hs, hr, fun hk => hne (Option.some_inj.mp (hs.symm.trans hk.1))⟩

theorem Settled.refers_self (hset : Settled L k ys B B') {p : P} :
    B'.Refers L k x p ↔ B.Refers L k x p ∧ L.slot p := by
  unfold Refers
  rw [hset.refs]
  constructor
  · rintro ⟨hs, hr, hnot⟩
    refine ⟨⟨hs, hr⟩, ?_⟩
    by_contra hslot
    exact hnot ⟨hs, hslot⟩
  · rintro ⟨⟨hs, hr⟩, hslot⟩
    exact ⟨hs, hr, fun hk => hk.2 hslot⟩

theorem Settled.not_passed (hset : Settled L k ys B B') (x : α) : ¬B'.passed k x :=
  fun hp => ((hset.passed k x).mp hp).1 rfl

variable (h : Sound L B none) (hset : Settled L k ys B B') (hc : Settleable L B k ys)

include h hset hc

/-- The side still owns what it does not delete: of what it has passed on it has set one reference aside,
which was spent. -/
theorem Sound.owning_settle :
    Owning (B'.Refers L k x) (B'.passed k x) ↔ B.OwnedBy L x (.side k) ∧ x ∉ ys := by
  constructor
  · rintro ⟨p, hp, -⟩
    obtain ⟨hp, hslot⟩ := hset.refers_self.mp hp
    refine ⟨⟨p, hp, fun hpassed => ?_⟩, fun hx => h.no_slot hc hx hslot hp.2⟩
    obtain ⟨r, hr, hnot⟩ := hc.kept x hpassed
    exact ⟨r, fun heq => hnot (heq ▸ hslot), hr⟩
  · rintro ⟨⟨p, hp, hmore⟩, hx⟩
    have hstays : ∃ r, B.Refers L k x r ∧ L.slot r := by
      by_cases hslot : L.slot p
      · exact ⟨p, hp, hslot⟩
      · by_cases hpassed : B.passed k x
        · obtain ⟨r, hne, hr⟩ := hmore hpassed
          refine ⟨r, hr, ?_⟩
          by_contra hnot
          exact hne (hc.once x r p ⟨hr, hnot⟩ ⟨hp, hslot⟩)
        · exact absurd ((hc.mem x).mpr ⟨⟨p, hp, hslot⟩, hpassed⟩) hx
    obtain ⟨r, hr⟩ := hstays
    exact ⟨r, hset.refers_self.mpr hr, fun hpassed => absurd hpassed (hset.not_passed x)⟩

/-- All that is not deleted has the owner it had. -/
theorem Sound.ownedBy_settle {o : Owner P κ} : B'.OwnedBy L x o ↔ B.OwnedBy L x o ∧ x ∉ ys := by
  have hother (o' : Owner P κ) (hne : o' ≠ .side k) (ho : B.OwnedBy L x o') : x ∉ ys := fun hx =>
    hne (h.apart o' _ x ho (hc.owned hx))
  cases o with
  | place p =>
      show L.side p = none ∧ B'.refs p = some x ↔ _
      rw [hset.refs]
      constructor
      · rintro ⟨hs, hr, -⟩
        exact ⟨⟨hs, hr⟩, hother (.place p) nofun ⟨hs, hr⟩⟩
      · rintro ⟨⟨hs, hr⟩, -⟩
        exact ⟨hs, hr, fun hk => nomatch hs.symm.trans hk.1⟩
  | side j =>
      by_cases hj : j = k
      · subst hj
        exact h.owning_settle hset hc
      · have hpassed : B'.passed j x = B.passed j x :=
          propext ((hset.passed j x).trans (and_iff_right hj))
        show Owning (B'.Refers L j x) (B'.passed j x) ↔ _
        rw [hset.refers_of_ne hj, hpassed]
        exact (and_iff_left_of_imp (hother (.side j) fun heq => hj (Owner.side.inj heq))).symm

theorem Sound.settle : Sound L B' none := by
  have hown {x : α} {o : Owner P κ} := h.ownedBy_settle hset hc (x := x) (o := o)
  obtain ⟨hledger, hplace⟩ := h.ledger.destroyAll
    (fun x hx => (h.owned x).mpr (.inr ⟨_, hc.owned hx⟩)) hc.nodup
  have hlive (x : α) : B'.Live x ↔ B.Live x ∧ x ∉ ys := by
    unfold Live
    rw [hset.heap, hplace]
    by_cases hx : x ∈ ys
    · simp [hx]
    · simp [hx]
  refine ⟨hset.heap ▸ hledger, fun x => ?_, fun o o' x ho ho' => ?_, nofun, fun j x => ?_,
    fun p x hs hr => ?_, fun p p' x hs hr hs' hr' => ?_, fun j x hseen => ?_⟩
  · simp only [hlive, h.owned, hown]
    simp
  · exact h.apart o o' x (hown.mp ho).1 (hown.mp ho').1
  · by_cases hj : j = k
    · subst hj
      refine ⟨fun hp => absurd hp (hset.not_passed x), fun p r hp hr hne => ?_⟩
      -- two slots and what is set aside would be three references
      obtain ⟨hp, hslot⟩ := hset.refers_self.mp hp
      obtain ⟨hr, hslot'⟩ := hset.refers_self.mp hr
      obtain ⟨hpassed, honly⟩ := (h.fair j x).twice p r hp hr hne
      obtain ⟨q, hq, hnot⟩ := hc.kept x hpassed
      obtain rfl := honly q hq fun heq => hnot (heq ▸ hslot)
      exact absurd hslot' hnot
    · rw [hset.refers_of_ne hj, propext (hset.passed j x), and_iff_right hj]
      exact h.fair j x
  · have hold := ((hset.refs p x).mp hr).1
    exact (hlive x).mpr ⟨h.slots p x hs hold, fun hx => h.no_slot hc hx hs hold⟩
  · exact h.fresh p p' x hs ((hset.refs p x).mp hr).1 hs' ((hset.refs p' x).mp hr').1
  · obtain ⟨hjk, hold⟩ := (hset.seen j x).mp hseen
    rcases h.seen j x hold with hp | ho
    · exact .inl ((hset.passed j x).mpr ⟨hjk, hp⟩)
    · refine .inr (hown.mpr ⟨ho, fun hx => hjk ?_⟩)
      exact Owner.side.inj (h.apart _ _ x ho (hc.owned hx))

end Settle

end Books

end RaftLib.Logic.Custody
