/-
# `RaftLib.Graph.KpairChain` -- the list of links that an expression leaves behind

What an expression is written as (`Expr.links`) against what its evaluation leaves on the heap. The
result of an operator stands somewhere in a list of pairs: some come before it, from `head` on, some
after it, through `next` (`Chain`, `Expr.built`). An operator continues its left operand's list right
behind the result pair of that operand, whatever already came after it, and takes over its right
operand's list from that operand's result pair on, whatever came before. So nothing is lost exactly
if nothing comes after a left operand and nothing before a right one (`Expr.Straight`).
-/
import RaftLib.Graph.Kpair
import RaftLib.Logic.Linked

namespace RaftLib.Graph

open RaftLib.Logic.Program
open RaftLib.Logic.Linked

/-! ## What is written -/

/-- A link, as `operator +=` will see it. -/
structure Link where
  src : KernelId
  dst : KernelId
  splitTo : Bool
  joinFrom : Bool
  deriving DecidableEq, Repr

def Op.link (op : Op) (a b : KernelId) : Link := ⟨a, b, op.splitFlag, op.joinFlag⟩

namespace Expr

/-- The operands, from left to right. -/
def operands : Expr → List Operand
  | operand o => [o]
  | bin _ l r => l.operands ++ r.operands

def kernels (e : Expr) : List KernelId := e.operands.map Operand.id

def first : Expr → KernelId
  | operand o => o.id
  | bin _ l _ => l.first

def last : Expr → KernelId
  | operand o => o.id
  | bin _ _ r => r.last

/-- The consecutive links, from left to right. -/
def links : Expr → List Link
  | operand _ => []
  | bin op l r => l.links ++ op.link l.last r.first :: r.links

def isPlain : Expr → Bool
  | operand _ => true
  | bin _ _ _ => false

def startsPlain : Expr → Bool
  | operand _ => true
  | bin _ l _ => l.isPlain

def endsPlain : Expr → Bool
  | operand _ => true
  | bin _ _ r => r.isPlain

/-- A compound left operand has a plain kernel on its own right, and a compound right operand a plain
kernel on its own left, everywhere in the expression. -/
def Straight : Expr → Prop
  | operand _ => True
  | bin _ l r => l.endsPlain = true ∧ r.startsPlain = true ∧ l.Straight ∧ r.Straight

instance decidableStraight : (e : Expr) → Decidable e.Straight
  | operand _ => .isTrue trivial
  | bin _ l r =>
      have := decidableStraight l
      have := decidableStraight r
      inferInstanceAs (Decidable (_ ∧ _ ∧ _ ∧ _))

end Expr

/-! ## What is built -/

/-- The links before a result pair, its own, and those after it. -/
structure Chain where
  before : List Link
  this : Link
  after : List Link

def Chain.links (c : Chain) : List Link := c.before ++ c.this :: c.after

/-- What an operand is worth: a kernel, or the pair of another operator in its list. -/
abbrev Built := KernelId ⊕ Chain

namespace Built

/-- What comes before a pair that is made with `x` on its left. -/
def before : Built → List Link
  | .inl _ => []
  | .inr c => c.before ++ [c.this]

/-- What comes after a pair that is made with `x` on its right. -/
def after : Built → List Link
  | .inl _ => []
  | .inr c => c.this :: c.after

def src : Built → KernelId
  | .inl k => k
  | .inr c => c.this.src

def dst : Built → KernelId
  | .inl k => k
  | .inr c => c.this.dst

end Built

/-- What the constructors make of their operands. -/
def Op.build (op : Op) (x y : Built) : Chain := ⟨x.before, op.link x.dst y.src, y.after⟩

def Expr.built : Expr → Built
  | .operand o => .inl o.id
  | .bin op l r => .inr (op.build l.built r.built)

namespace Expr

/-- A straight expression that ends plain has nothing after its result pair. -/
theorem Straight.built_left {e : Expr} (h : e.Straight) (hp : e.endsPlain = true) :
    e.built.before = e.links ∧ e.built.dst = e.last := by
  induction e with
  | operand o => exact ⟨rfl, rfl⟩
  | bin op l r ihl _ =>
      obtain ⟨hl, -, hsl, -⟩ := h
      cases r with
      | bin _ _ _ => cases hp
      | operand o =>
          obtain ⟨hbefore, hdst⟩ := ihl hsl hl
          refine ⟨?_, rfl⟩
          show l.built.before ++ [op.link l.built.dst o.id] = l.links ++ [op.link l.last o.id]
          rw [hbefore, hdst]

/-- A straight expression that starts plain has nothing before its result pair. -/
theorem Straight.built_right {e : Expr} (h : e.Straight) (hp : e.startsPlain = true) :
    e.built.after = e.links ∧ e.built.src = e.first := by
  induction e with
  | operand o => exact ⟨rfl, rfl⟩
  | bin op l r _ ihr =>
      obtain ⟨-, hr, -, hsr⟩ := h
      cases l with
      | bin _ _ _ => cases hp
      | operand o =>
          obtain ⟨hafter, hsrc⟩ := ihr hsr hr
          refine ⟨?_, rfl⟩
          show op.link o.id r.built.src :: r.built.after = op.link o.id r.first :: r.links
          rw [hafter, hsrc]

/-- Nothing is lost from a straight expression. -/
theorem Straight.built_links {op : Op} {l r : Expr} (h : (bin op l r).Straight) :
    (op.build l.built r.built).links = (bin op l r).links := by
  obtain ⟨hl, hr, hsl, hsr⟩ := h
  obtain ⟨hbefore, hdst⟩ := hsl.built_left hl
  obtain ⟨hafter, hsrc⟩ := hsr.built_right hr
  simp only [Op.build, Chain.links, links, hbefore, hdst, hafter, hsrc]

/-- The links of a compound expression, counted. -/
theorem links_length (op : Op) (l r : Expr) :
    (bin op l r).links.length = l.links.length + 1 + r.links.length := by
  simp only [links, List.length_append, List.length_cons]
  omega

theorem endsPlain_of_after {op : Op} {l r : Expr} (h : r.built.after = []) :
    (bin op l r).endsPlain = true := by
  cases r with
  | operand o => rfl
  | bin op' l' r' => cases h

theorem startsPlain_of_before {op : Op} {l r : Expr} (h : l.built.before = []) :
    (bin op l r).startsPlain = true := by
  cases l with
  | operand o => rfl
  | bin op' l' r' => simp [built, Built.before] at h

theorem before_length (op : Op) (l r : Expr) :
    (bin op l r).built.before.length = l.built.before.length + 1 := by
  simp [built, Built.before, Op.build]

theorem after_length (op : Op) (l r : Expr) :
    (bin op l r).built.after.length = r.built.after.length + 1 := by
  simp [built, Built.after, Op.build]

/-- What a left operand keeps is at most its links, and each way of losing something makes it less;
the same on the right. -/
theorem built_bounds (e : Expr) :
    (e.built.before.length ≤ e.links.length ∧
      (e.built.before.length = e.links.length → e.endsPlain = true ∧ e.Straight)) ∧
    (e.built.after.length ≤ e.links.length ∧
      (e.built.after.length = e.links.length → e.startsPlain = true ∧ e.Straight)) := by
  induction e with
  | operand o =>
      exact ⟨⟨Nat.le_refl _, fun _ => ⟨rfl, trivial⟩⟩, ⟨Nat.le_refl _, fun _ => ⟨rfl, trivial⟩⟩⟩
  | bin op l r ihl ihr =>
      obtain ⟨⟨hlel, heql⟩, -⟩ := ihl
      obtain ⟨-, hler, heqr⟩ := ihr
      -- complete on both sides, the expression is straight
      have hstraight : l.built.before.length = l.links.length →
          r.built.after.length = r.links.length → (bin op l r).Straight := fun hl hr =>
        ⟨(heql hl).1, (heqr hr).1, (heql hl).2, (heqr hr).2⟩
      rw [before_length, after_length, links_length]
      refine ⟨⟨by omega, fun h => ?_⟩, ⟨by omega, fun h => ?_⟩⟩
      · have hnil : r.built.after = [] := List.eq_nil_of_length_eq_zero (by omega)
        exact ⟨endsPlain_of_after hnil, hstraight (by omega) (by omega)⟩
      · have hnil : l.built.before = [] := List.eq_nil_of_length_eq_zero (by omega)
        exact ⟨startsPlain_of_before hnil, hstraight (by omega) (by omega)⟩

/-- **All links are kept exactly in the straight expressions.** -/
theorem built_links_iff {op : Op} {l r : Expr} :
    (op.build l.built r.built).links = (bin op l r).links ↔ (bin op l r).Straight := by
  refine ⟨fun h => ?_, Straight.built_links⟩
  obtain ⟨⟨hlel, heql⟩, -⟩ := built_bounds l
  obtain ⟨-, hler, heqr⟩ := built_bounds r
  have hlen := congrArg List.length h
  simp only [Chain.links, Op.build, links, List.length_append, List.length_cons] at hlen
  obtain ⟨hends, hsl⟩ := heql (by omega)
  obtain ⟨hstarts, hsr⟩ := heqr (by omega)
  exact ⟨hends, hstarts, hsl, hsr⟩

end Expr

/-! ## The evaluation -/

namespace Pairs

def link (h : Pairs) (p : KpairId) : Link :=
  ⟨(h.pair p).src, (h.pair p).dst, (h.pair p).splitTo, (h.pair p).joinFrom⟩

def nextOf (h : Pairs) (p : KpairId) : Option KpairId := (h.pair p).next

/-- The pairs from `p` on, through `next`. -/
def ListFrom (h : Pairs) (p : KpairId) (l : List KpairId) : Prop := Seg h.nextOf (some p) l none

end Pairs

/-- What evaluating something over the kernels `ks` leaves alone. -/
structure Frame (h h' : Pairs) (ks : List KernelId) : Prop where
  next : h.next ≤ h'.next
  pair : ∀ p, p < h.next → h'.pair p = h.pair p
  kernel : ∀ k, k ∉ ks → h'.kernel k = h.kernel k

theorem Frame.trans {h m h' : Pairs} {ks ls : List KernelId} (h₁ : Frame h m ks) (h₂ : Frame m h' ls) :
    Frame h h' (ks ++ ls) := by
  refine ⟨h₁.next.trans h₂.next, fun p hp => ?_, fun k hk => ?_⟩
  · rw [h₂.pair p (hp.trans_le h₁.next), h₁.pair p hp]
  · rw [List.mem_append, not_or] at hk
    rw [h₂.kernel k hk.2, h₁.kernel k hk.1]

/-! ### Operands -/

theorem getEnabledPort_run (h : Pairs) (k : KernelId) :
    ∃ name h', (getEnabledPort k).run h = .ok name h' ∧ h'.pair = h.pair ∧ h'.next = h.next ∧
      ∀ j, j ≠ k → h'.kernel j = h.kernel j := by
  cases he : (h.kernel k).enabledPort with
  | nil => exact ⟨nullPortValue, h, by simp [getEnabledPort, he], rfl, rfl, fun _ _ => rfl⟩
  | cons front rest =>
      refine ⟨front, h.setKernel k { h.kernel k with enabledPort := rest }, by
        simp [getEnabledPort, he], rfl, rfl, fun j hj => ?_⟩
      simp [Pairs.setKernel, hj]

theorem bracket_run {h : Pairs} {k : KernelId} (name : PortKey)
    (hfit : (h.kernel k).enabledPort.length < 2) :
    ∃ h', (bracket k name).run h = .ok ⟨⟩ h' ∧ h'.pair = h.pair ∧ h'.next = h.next ∧
      (∀ j, j ≠ k → h'.kernel j = h.kernel j) ∧
      (h'.kernel k).enabledPort.length = (h.kernel k).enabledPort.length + 1 := by
  refine ⟨h.setKernel k { h.kernel k with enabledPort := (h.kernel k).enabledPort ++ [name] },
    ?_, rfl, rfl, fun j hj => ?_, ?_⟩
  · show EStateM.run (if (h.kernel k).enabledPort.length < 2 then _ else _) h = _
    rw [if_pos hfit]
    rfl
  · simp [Pairs.setKernel, hj]
  · simp [Pairs.setKernel]

/-- There is room for the names behind an operand. -/
def Fits (h : Pairs) (o : Operand) : Prop :=
  (h.kernel o.id).enabledPort.length + o.names.length ≤ 2

instance (h : Pairs) (o : Operand) : Decidable (Fits h o) := inferInstanceAs (Decidable (_ ≤ _))

theorem brackets_run {h : Pairs} {k : KernelId} {names : List PortKey}
    (hfit : (h.kernel k).enabledPort.length + names.length ≤ 2) :
    ∃ h', (names.forM (bracket k)).run h = .ok ⟨⟩ h' ∧ h'.pair = h.pair ∧ h'.next = h.next ∧
      ∀ j, j ≠ k → h'.kernel j = h.kernel j := by
  induction names generalizing h with
  | nil => exact ⟨h, rfl, rfl, rfl, fun _ _ => rfl⟩
  | cons name names ih =>
      rw [List.length_cons] at hfit
      obtain ⟨m, hm, hpair, hnext, hkernel, hlen⟩ := bracket_run (h := h) (k := k) name (by omega)
      obtain ⟨h', hh, hpair', hnext', hkernel'⟩ := ih (h := m) (by omega)
      refine ⟨h', ?_, hpair'.trans hpair, hnext'.trans hnext, fun j hj => ?_⟩
      · show (bracket k name >>= fun _ => names.forM (bracket k)).run h = _
        rw [run_bind_of_ok hm]
        exact hh
      · rw [hkernel' j hj, hkernel j hj]

/-! ### Constructors -/

/-- What a constructor does: it makes the pair under the next number, hangs it behind the pair `left`,
and has the pair `right` after it. -/
structure Made (h h' : Pairs) (link : Link) (head : KpairId) (left right : Option KpairId) : Prop where
  next : h'.next = h.next + 1
  this : h'.link h.next = link
  thisHead : (h'.pair h.next).head = head
  thisNext : h'.nextOf h.next = right
  hung : ∀ a, left = some a → h'.nextOf a = some h.next
  links : ∀ q, q ≠ h.next → h'.link q = h.link q
  nexts : ∀ q, q ≠ h.next → left ≠ some q → h'.nextOf q = h.nextOf q
  pairs : ∀ q, q ≠ h.next → left ≠ some q → right ≠ some q → h'.pair q = h.pair q
  kernel : ∀ k, k ≠ link.src → k ≠ link.dst → h'.kernel k = h.kernel k

theorem Pairs.setPair_pair (h : Pairs) (p : KpairId) (x : Kpair) (q : KpairId) :
    (h.setPair p x).pair q = if q = p then x else h.pair q := by
  simp only [setPair, Function.update_apply]

namespace Kpair

/-- The constructor the others delegate to. -/
theorem make_run (h : Pairs) (a b : KernelId) :
    ∃ m, (make a b).run h = .ok h.next m ∧ m.next = h.next + 1 ∧ m.link h.next = ⟨a, b, false, false⟩ ∧
      (m.pair h.next).head = h.next ∧ (m.pair h.next).next = none ∧
      (∀ q, q ≠ h.next → m.pair q = h.pair q) ∧ ∀ k, k ≠ a → k ≠ b → m.kernel k = h.kernel k := by
  obtain ⟨srcName, h₁, hrun₁, hpair₁, hnext₁, hkernel₁⟩ := getEnabledPort_run h a
  obtain ⟨dstName, h₂, hrun₂, hpair₂, hnext₂, hkernel₂⟩ := getEnabledPort_run h₁ b
  have hnext : h₂.next = h.next := hnext₂.trans hnext₁
  refine ⟨{ h₂.setPair h₂.next {
    head := h₂.next
    src := a
    hasSrcName := decide (srcName ≠ nullPortValue)
    srcName := srcName
    dst := b
    hasDstName := decide (dstName ≠ nullPortValue)
    dstName := dstName
    srcOutCount := (h₂.kernel a).output.count
    dstInCount := (h₂.kernel b).input.count } with next := h₂.next + 1 }, ?_, by rw [hnext], ?_, ?_, ?_,
    fun q hq => ?_, fun k ha hb => ?_⟩
  · unfold make
    rw [run_bind_of_ok hrun₁, run_bind_of_ok hrun₂, ← hnext]
    rfl
  · simp [Pairs.link, Pairs.setPair, hnext]
  · simp [Pairs.setPair, hnext]
  · simp [Pairs.setPair, hnext]
  · simp [Pairs.setPair, hnext, hq, hpair₂, hpair₁]
  · show h₂.kernel k = h.kernel k
    rw [hkernel₂ k hb, hkernel₁ k ha]

theorem ofKernels_run (h : Pairs) (op : Op) (a b : KernelId) :
    ∃ h', (ofKernels a b op.splitFlag op.joinFlag).run h = .ok h.next h' ∧
      Made h h' (op.link a b) h.next none none := by
  obtain ⟨m, hrun, hm, hlink, hhead, hnext, hpair, hkernel⟩ := make_run h a b
  refine ⟨m.setPair h.next { m.pair h.next with splitTo := op.splitFlag, joinFrom := op.joinFlag }, ?_,
    hm, ?_, ?_, ?_, (fun _ ha => nomatch ha), fun q hq => ?_, fun q hq _ => ?_, fun q hq _ _ => ?_,
    hkernel⟩
  · rw [ofKernels, run_bind_of_ok hrun]
    rfl
  · simp_all [Pairs.link, Pairs.setPair_pair, Op.link]
  · simp_all [Pairs.setPair_pair]
  · simp_all [Pairs.nextOf, Pairs.setPair_pair]
  · simp_all [Pairs.link, Pairs.setPair_pair]
  · simp_all [Pairs.nextOf, Pairs.setPair_pair]
  · simp_all [Pairs.setPair_pair]

theorem ofPairKernel_run {h : Pairs} {a : KpairId} (ha : a < h.next) (op : Op) (b : KernelId) :
    ∃ h', (ofPairKernel a b op.splitFlag op.joinFlag).run h = .ok h.next h' ∧
      Made h h' (op.link (h.pair a).dst b) (h.pair a).head (some a) none := by
  obtain ⟨m, hrun, hm, hlink, hhead, hnext, hpair, hkernel⟩ := make_run h (h.pair a).dst b
  have hne : a ≠ h.next := ha.ne
  let m₁ := m.setPair h.next { m.pair h.next with head := (m.pair a).head }
  let m₂ := m₁.setPair a { m₁.pair a with next := some h.next }
  refine ⟨m₂.setPair h.next
    { m₂.pair h.next with splitTo := op.splitFlag, joinFrom := op.joinFlag }, ?_,
    hm, ?_, ?_, ?_, fun q hq => ?_, fun q hq => ?_, fun q hq hl => ?_, fun q hq hl _ => ?_, hkernel⟩
  · unfold ofPairKernel
    simp only [EStateM.run_bind, EStateM.run_get, hrun]
    rfl
  · simp_all [m₁, m₂, Pairs.link, Pairs.setPair_pair, Op.link, hne.symm]
  · simp_all [m₁, m₂, Pairs.setPair_pair, hne.symm]
  · simp_all [m₁, m₂, Pairs.nextOf, Pairs.setPair_pair, hne.symm]
  · obtain rfl := Option.some_inj.mp hq
    simp [m₁, m₂, Pairs.nextOf, Pairs.setPair_pair, hne]
  · by_cases hqa : q = a
    · simp [m₁, m₂, Pairs.link, Pairs.setPair_pair, hqa, hne, hpair a hne]
    · simp [m₁, m₂, Pairs.link, Pairs.setPair_pair, hqa, hq, hpair q hq]
  · have hqa : q ≠ a := fun e => hl (e ▸ rfl)
    simp [m₁, m₂, Pairs.nextOf, Pairs.setPair_pair, hqa, hq, hpair q hq]
  · have hqa : q ≠ a := fun e => hl (e ▸ rfl)
    simp [m₁, m₂, Pairs.setPair_pair, hqa, hq, hpair q hq]

theorem ofKernelPair_run (h : Pairs) (n : KpairId) (op : Op) (a : KernelId) :
    ∃ h', (ofKernelPair a n op.splitFlag op.joinFlag).run h = .ok h.next h' ∧
      Made h h' (op.link a (h.pair n).src) h.next none (some n) := by
  obtain ⟨m, hrun, hm, hlink, hhead, hnext, hpair, hkernel⟩ := make_run h a (h.pair n).src
  refine ⟨m.setPair h.next { m.pair h.next with
      head := h.next, next := some n, splitTo := op.splitFlag, joinFrom := op.joinFlag }, ?_,
    hm, ?_, ?_, ?_, (fun _ ha => nomatch ha), fun q hq => ?_, fun q hq _ => ?_, fun q hq _ _ => ?_,
    hkernel⟩
  · unfold ofKernelPair
    simp only [EStateM.run_bind, EStateM.run_get, hrun]
    rfl
  · simp_all [Pairs.link, Pairs.setPair_pair, Op.link]
  · simp_all [Pairs.setPair_pair]
  · simp_all [Pairs.nextOf, Pairs.setPair_pair]
  · simp_all [Pairs.link, Pairs.setPair_pair]
  · simp_all [Pairs.nextOf, Pairs.setPair_pair]
  · simp_all [Pairs.setPair_pair]

theorem ofPairs_run {h : Pairs} {a b : KpairId} (ha : a < h.next) (hb : b < h.next) (op : Op) :
    ∃ h', (ofPairs a b op.splitFlag op.joinFlag).run h = .ok h.next h' ∧
      Made h h' (op.link (h.pair a).dst (h.pair b).src) (h.pair a).head (some a) (some b) := by
  obtain ⟨m, hrun, hm, hlink, hhead, hnext, hpair, hkernel⟩ :=
    make_run h (h.pair a).dst (h.pair b).src
  have hne : a ≠ h.next := ha.ne
  have hneb : b ≠ h.next := hb.ne
  let m₁ := m.setPair h.next { m.pair h.next with head := (m.pair a).head }
  let m₂ := m₁.setPair a { m₁.pair a with next := some h.next }
  let m₃ := m₂.setPair b { m₂.pair b with head := (m.pair a).head }
  refine ⟨m₃.setPair h.next
    { m₃.pair h.next with next := some b, splitTo := op.splitFlag, joinFrom := op.joinFlag }, ?_,
    hm, ?_, ?_, ?_, fun q hq => ?_, fun q hq => ?_, fun q hq hl => ?_, fun q hq hl hr => ?_, hkernel⟩
  · unfold ofPairs
    simp only [EStateM.run_bind, EStateM.run_get, hrun]
    rfl
  · simp_all [m₁, m₂, m₃, Pairs.link, Pairs.setPair_pair, Op.link, hne.symm, hneb.symm]
  · simp_all [m₁, m₂, m₃, Pairs.setPair_pair, hne.symm, hneb.symm]
  · simp_all [m₁, m₂, m₃, Pairs.nextOf, Pairs.setPair_pair, hne.symm, hneb.symm]
  · obtain rfl := Option.some_inj.mp hq
    by_cases hab : a = b
    · simp [m₁, m₂, m₃, Pairs.nextOf, Pairs.setPair_pair, hab, hneb]
    · simp [m₁, m₂, m₃, Pairs.nextOf, Pairs.setPair_pair, hne, hab]
  · have hkeep : m.link q = h.link q := by simp only [Pairs.link, hpair q hq]
    rw [← hkeep]
    by_cases hqa : q = a <;> by_cases hqb : q = b <;>
      simp [m₁, m₂, m₃, Pairs.link, Pairs.setPair_pair, hqa, hqb, hne, hneb, hq] <;> simp_all
  · have hqa : q ≠ a := fun e => hl (e ▸ rfl)
    by_cases hqb : q = b
    · simp [m₁, m₂, m₃, Pairs.nextOf, Pairs.setPair_pair, hqb ▸ hqa, hqb, hneb, hpair b hneb]
    · simp [m₁, m₂, m₃, Pairs.nextOf, Pairs.setPair_pair, hqa, hqb, hq, hpair q hq]
  · have hqa : q ≠ a := fun e => hl (e ▸ rfl)
    have hqb : q ≠ b := fun e => hr (e ▸ rfl)
    simp [m₁, m₂, m₃, Pairs.setPair_pair, hqa, hqb, hq, hpair q hq]

end Kpair

/-! ### Expressions -/

/-- The pair `p` stands for `c`: the pairs from its head on are those made since `h`, with `pre` before
it and `suf` after it. -/
structure Holds (h h' : Pairs) (c : Chain) (p : KpairId) (pre suf : List KpairId) : Prop where
  path : h'.ListFrom (h'.pair p).head (pre ++ p :: suf)
  range : ∀ q ∈ pre ++ p :: suf, h.next ≤ q ∧ q < h'.next
  fresh : p ∉ pre
  before : pre.map h'.link = c.before
  this : h'.link p = c.this
  after : suf.map h'.link = c.after

/-- What the evaluation of something worth `x` has returned. -/
def Denotes (h h' : Pairs) : Built → Value → Prop
  | .inl k, .kernel j => j = k
  | .inr c, .pair p => ∃ pre suf, Holds h h' c p pre suf
  | _, _ => False

theorem Holds.self {h h' : Pairs} {c : Chain} {p : KpairId} {pre suf : List KpairId}
    (hc : Holds h h' c p pre suf) : h.next ≤ p ∧ p < h'.next :=
  hc.range p (List.mem_append_right _ List.mem_cons_self)

theorem Holds.frame {h m h' : Pairs} {c : Chain} {p : KpairId} {pre suf : List KpairId}
    {ks : List KernelId} (hc : Holds h m c p pre suf) (hf : Frame m h' ks) :
    Holds h h' c p pre suf := by
  have hpair : ∀ q ∈ pre ++ p :: suf, h'.pair q = m.pair q := fun q hq =>
    hf.pair q (hc.range q hq).2
  have hlink : ∀ q ∈ pre ++ p :: suf, h'.link q = m.link q := fun q hq => by
    simp only [Pairs.link, hpair q hq]
  refine ⟨?_, fun q hq => ⟨(hc.range q hq).1, (hc.range q hq).2.trans_le hf.next⟩, hc.fresh, ?_, ?_,
    ?_⟩
  · rw [hf.pair p hc.self.2]
    exact hc.path.congr fun q hq => by simp only [Pairs.nextOf, hpair q hq]
  · rw [← hc.before]
    exact List.map_congr_left fun q hq => hlink q (List.mem_append_left _ hq)
  · rw [← hc.this]
    exact hlink p (List.mem_append_right _ List.mem_cons_self)
  · rw [← hc.after]
    exact List.map_congr_left fun q hq =>
      hlink q (List.mem_append_right _ (List.mem_cons_of_mem _ hq))

theorem Denotes.frame {h m h' : Pairs} {x : Built} {v : Value} {ks : List KernelId}
    (hx : Denotes h m x v) (hf : Frame m h' ks) : Denotes h h' x v := by
  cases x with
  | inl k => cases v <;> exact hx
  | inr c =>
      cases v with
      | kernel j => exact hx
      | pair p =>
          obtain ⟨pre, suf, hc⟩ := hx
          exact ⟨pre, suf, hc.frame hf⟩

/-- The pair behind which a constructor hangs its own, or which it takes over. -/
def Value.pair? : Value → Option KpairId
  | .kernel _ => none
  | .pair p => some p

/-- A pair that is returned was made on the way. -/
theorem Denotes.pair_range {h h' : Pairs} {x : Built} {v : Value} (hx : Denotes h h' x v) {p : KpairId}
    (hp : v.pair? = some p) : h.next ≤ p ∧ p < h'.next := by
  cases v with
  | kernel j => cases hp
  | pair q =>
      obtain rfl := Option.some_inj.mp hp
      cases x with
      | inl k => exact nomatch hx
      | inr c =>
          obtain ⟨pre, suf, hc⟩ := hx
          exact hc.self

/-- The head that a constructor gives its pair. -/
def Value.headOr (h : Pairs) (this : KpairId) : Value → KpairId
  | .kernel _ => this
  | .pair p => (h.pair p).head

/-- The overload that the operands pick makes the pair they denote. -/
theorem Op.apply_run {h₀ h₁ h₂ : Pairs} {x y : Built} {v w : Value} (op : Op)
    (hx : Denotes h₀ h₂ x v) (hy : Denotes h₁ h₂ y w) :
    ∃ h₃, (op.apply v w).run h₂ = .ok h₂.next h₃ ∧
      Made h₂ h₃ (op.link x.dst y.src) (v.headOr h₂ h₂.next) v.pair? w.pair? := by
  cases x with
  | inl a =>
      cases v with
      | pair p => exact nomatch hx
      | kernel j =>
          obtain rfl : j = a := hx
          cases y with
          | inl b =>
              cases w with
              | pair p => exact nomatch hy
              | kernel i =>
                  obtain rfl : i = b := hy
                  exact Kpair.ofKernels_run h₂ op j i
          | inr n =>
              cases w with
              | kernel i => exact nomatch hy
              | pair q =>
                  obtain ⟨pre, suf, hn⟩ := hy
                  have hsrc : (h₂.pair q).src = n.this.src := congrArg Link.src hn.this
                  have hmade := Kpair.ofKernelPair_run h₂ q op j
                  rw [hsrc] at hmade
                  exact hmade
  | inr c =>
      cases v with
      | kernel j => exact nomatch hx
      | pair p =>
          obtain ⟨pre, suf, hc⟩ := hx
          have hdst : (h₂.pair p).dst = c.this.dst := congrArg Link.dst hc.this
          cases y with
          | inl b =>
              cases w with
              | pair q => exact nomatch hy
              | kernel i =>
                  obtain rfl : i = b := hy
                  have hmade := Kpair.ofPairKernel_run hc.self.2 op i
                  rw [hdst] at hmade
                  exact hmade
          | inr n =>
              cases w with
              | kernel i => exact nomatch hy
              | pair q =>
                  obtain ⟨pre', suf', hn⟩ := hy
                  have hsrc : (h₂.pair q).src = n.this.src := congrArg Link.src hn.this
                  have hmade := Kpair.ofPairs_run hc.self.2 hn.self.2 op
                  rw [hdst, hsrc] at hmade
                  exact hmade

section Combine

variable {h₀ h₁ h₂ h₃ : Pairs} {x y : Built} {v w : Value} {l : Link}

/-- The part of the list before the new pair: that of the left operand, cut off behind it. -/
theorem Made.before (hm : Made h₂ h₃ l (v.headOr h₂ h₂.next) v.pair? w.pair?)
    (hx : Denotes h₀ h₂ x v) :
    ∃ pre, Seg h₃.nextOf (some (v.headOr h₂ h₂.next)) pre (some h₂.next) ∧
      (∀ q ∈ pre, h₀.next ≤ q ∧ q < h₂.next) ∧ pre.map h₃.link = x.before := by
  cases x with
  | inl a =>
      cases v with
      | pair p => exact nomatch hx
      | kernel j => exact ⟨[], rfl, (fun _ hq => nomatch hq), rfl⟩
  | inr c =>
      cases v with
      | kernel j => exact nomatch hx
      | pair p =>
          obtain ⟨pre, suf, hc⟩ := hx
          have hrange : ∀ q ∈ pre ++ [p], h₀.next ≤ q ∧ q < h₂.next := fun q hq =>
            hc.range q (by
              rw [List.append_cons]
              exact List.mem_append_left _ hq)
          obtain ⟨m, hpre, rfl, -⟩ := seg_append.mp hc.path
          refine ⟨pre ++ [p], seg_append.mpr ⟨some p, hpre.congr fun q hq => ?_, rfl, ?_⟩, hrange, ?_⟩
          · refine hm.nexts q (hrange q (List.mem_append_left _ hq)).2.ne fun he => ?_
            exact hc.fresh (Option.some_inj.mp he ▸ hq)
          · exact hm.hung p rfl
          · show _ = c.before ++ [c.this]
            rw [← hc.before, ← hc.this, List.map_append]
            have hlink : ∀ q ∈ pre ++ [p], h₃.link q = h₂.link q := fun q hq =>
              hm.links q (hrange q hq).2.ne
            congr 1
            · exact List.map_congr_left fun q hq => hlink q (List.mem_append_left _ hq)
            · rw [List.map_singleton, hlink p (List.mem_append_right _ List.mem_cons_self)]

/-- The part after it: that of the right operand, from its result pair on. -/
theorem Made.after (hm : Made h₂ h₃ l (v.headOr h₂ h₂.next) v.pair? w.pair?)
    (hv : ∀ a, v.pair? = some a → a < h₁.next) (hy : Denotes h₁ h₂ y w) :
    ∃ suf, Seg h₃.nextOf w.pair? suf none ∧ (∀ q ∈ suf, h₁.next ≤ q ∧ q < h₂.next) ∧
      suf.map h₃.link = y.after := by
  cases y with
  | inl b =>
      cases w with
      | pair p => exact nomatch hy
      | kernel j => exact ⟨[], rfl, (fun _ hq => nomatch hq), rfl⟩
  | inr c =>
      cases w with
      | kernel j => exact nomatch hy
      | pair p =>
          obtain ⟨pre, suf, hc⟩ := hy
          have hrange : ∀ q ∈ p :: suf, h₁.next ≤ q ∧ q < h₂.next := fun q hq =>
            hc.range q (List.mem_append_right _ hq)
          obtain ⟨m, -, rfl, hsuf⟩ := seg_append.mp hc.path
          have hseg : Seg h₂.nextOf (some p) (p :: suf) none := ⟨rfl, hsuf⟩
          refine ⟨p :: suf, hseg.congr fun q hq => ?_, hrange, ?_⟩
          · refine hm.nexts q (hrange q hq).2.ne fun he => ?_
            exact absurd (hv q he) (Nat.not_lt.mpr (hrange q hq).1)
          · show _ = c.this :: c.after
            rw [← hc.after, ← hc.this, ← List.map_cons (f := h₂.link)]
            exact List.map_congr_left fun q hq => hm.links q (hrange q hq).2.ne

/-- **The result of an operator stands for what `build` says.** -/
theorem Made.holds {op : Op} (hm : Made h₂ h₃ (op.link x.dst y.src) (v.headOr h₂ h₂.next) v.pair? w.pair?)
    (hx : Denotes h₀ h₂ x v) (hv : ∀ a, v.pair? = some a → a < h₁.next) (hy : Denotes h₁ h₂ y w)
    (h01 : h₀.next ≤ h₁.next) (h12 : h₁.next ≤ h₂.next) :
    ∃ pre suf, Holds h₀ h₃ (op.build x y) h₂.next pre suf := by
  obtain ⟨pre, hpre, hrpre, hlpre⟩ := hm.before hx
  obtain ⟨suf, hsuf, hrsuf, hlsuf⟩ := hm.after hv hy
  refine ⟨pre, suf, ?_, fun q hq => ?_, fun hq => ?_, hlpre, hm.this, hlsuf⟩
  · rw [hm.thisHead]
    exact seg_append.mpr ⟨_, hpre, rfl, hm.thisNext ▸ hsuf⟩
  · rw [hm.next]
    rcases List.mem_append.mp hq with hq | hq
    · exact ⟨(hrpre q hq).1, Nat.lt_succ_of_lt (hrpre q hq).2⟩
    · rcases List.mem_cons.mp hq with rfl | hq
      · exact ⟨h01.trans h12, Nat.lt_succ_self _⟩
      · exact ⟨h01.trans (hrsuf q hq).1, Nat.lt_succ_of_lt (hrsuf q hq).2⟩
  · exact absurd (hrpre _ hq).2 (Nat.lt_irrefl _)

end Combine

theorem Operand.eval_run {h : Pairs} {o : Operand} (hfit : Fits h o) :
    ∃ h', o.eval.run h = .ok (.kernel o.id) h' ∧ h'.next = h.next ∧ Frame h h' [o.id] := by
  obtain ⟨h', hrun, hpair, hnext, hkernel⟩ := brackets_run hfit
  refine ⟨h', ?_, hnext, hnext.ge, fun p _ => by rw [hpair], fun k hk => hkernel k ?_⟩
  · unfold eval
    rw [run_bind_of_ok hrun]
    rfl
  · exact fun e => hk (e ▸ List.mem_singleton_self _)

namespace Expr

/-- A link starts and ends at operands of the expression. -/
theorem built_mem (e : Expr) : e.built.src ∈ e.kernels ∧ e.built.dst ∈ e.kernels := by
  induction e with
  | operand o => exact ⟨List.mem_singleton_self _, List.mem_singleton_self _⟩
  | bin op l r ihl ihr =>
      rw [show (bin op l r).kernels = l.kernels ++ r.kernels by simp [kernels, operands]]
      exact ⟨List.mem_append_left _ ihl.2, List.mem_append_right _ ihr.1⟩

/-- **The evaluation of an expression**: it returns, what it returns stands for `built`, and it
touches nothing but its own kernels' port names and its own pairs. -/
theorem eval_run {e : Expr} {h : Pairs} (hnodup : e.kernels.Nodup) (hfit : ∀ o ∈ e.operands, Fits h o) :
    ∃ v h', e.eval.run h = .ok v h' ∧ Denotes h h' e.built v ∧ Frame h h' e.kernels := by
  induction e generalizing h with
  | operand o =>
      obtain ⟨h', hrun, -, hframe⟩ := Operand.eval_run (hfit o (List.mem_singleton_self _))
      exact ⟨.kernel o.id, h', hrun, rfl, hframe⟩
  | bin op l r ihl ihr =>
      have hkernels : (bin op l r).kernels = l.kernels ++ r.kernels := by simp [kernels, operands]
      rw [hkernels] at hnodup ⊢
      obtain ⟨hnl, hnr, hdisj⟩ := List.nodup_append'.mp hnodup
      obtain ⟨v, h₁, hrunl, hx, hfl⟩ := ihl hnl fun o ho => hfit o (List.mem_append_left _ ho)
      -- the left operand has not used up the room of the right one
      have hfit₁ : ∀ o ∈ r.operands, Fits h₁ o := by
        intro o ho
        have hmem : o.id ∈ r.kernels := List.mem_map_of_mem ho
        rw [Fits, hfl.kernel o.id fun hl => hdisj hl hmem]
        exact hfit o (List.mem_append_right _ ho)
      obtain ⟨w, h₂, hrunr, hy, hfr⟩ := ihr hnr hfit₁
      have hv : ∀ a, v.pair? = some a → a < h₁.next := fun a ha => (hx.pair_range ha).2
      have hx₂ : Denotes h h₂ l.built v := hx.frame hfr
      obtain ⟨h₃, hrun, hmade⟩ := op.apply_run hx₂ hy
      obtain ⟨pre, suf, hc⟩ := hmade.holds hx₂ hv hy hfl.next hfr.next
      refine ⟨.pair h₂.next, h₃, ?_, ⟨pre, suf, hc⟩, ?_, fun p hp => ?_, fun k hk => ?_⟩
      · unfold eval
        rw [run_bind_of_ok hrunl, run_bind_of_ok hrunr, run_bind_of_ok hrun]
        rfl
      · rw [hmade.next]
        exact (hfl.trans hfr).next.trans (Nat.le_succ _)
      · rw [hmade.pairs p, (hfl.trans hfr).pair p hp]
        · exact (hp.trans_le (hfl.trans hfr).next).ne
        · exact fun hl => absurd hp (Nat.not_lt.mpr (hx.pair_range hl).1)
        · exact fun hr => absurd (hp.trans_le hfl.next) (Nat.not_lt.mpr (hy.pair_range hr).1)
      · rw [hmade.kernel k, (hfl.trans hfr).kernel k hk]
        · exact fun hs => hk (hs ▸ List.mem_append_left _ l.built_mem.2)
        · exact fun hd => hk (hd ▸ List.mem_append_right _ r.built_mem.1)

/-- What the list behind the head of the result holds. -/
theorem eval_links {op : Op} {l r : Expr} {h : Pairs} (hnodup : (bin op l r).kernels.Nodup)
    (hfit : ∀ o ∈ (bin op l r).operands, Fits h o) :
    ∃ p h' ps, (bin op l r).eval.run h = .ok (.pair p) h' ∧ h'.ListFrom (h'.pair p).head ps ∧
      ps.map h'.link = (op.build l.built r.built).links := by
  obtain ⟨v, h', hrun, hx, -⟩ := eval_run hnodup hfit
  cases v with
  | kernel j => exact nomatch hx
  | pair p =>
      obtain ⟨pre, suf, hc⟩ := hx
      refine ⟨p, h', pre ++ p :: suf, hrun, hc.path, ?_⟩
      rw [List.map_append, List.map_cons, hc.before, hc.this, hc.after]
      rfl

/-- **An expression keeps its links exactly if it is straight.** Evaluated over distinct kernels, an
expression that type-checks returns a pair; the list from the head of that pair on ends; and it is the
list of the links as they are written, with their flags, if and only if every compound left operand
has a plain kernel on its own right and every compound right operand one on its own left. -/
theorem links_kept_iff {e : Expr} {h : Pairs} (htype : e.type = some .pair)
    (hnodup : e.kernels.Nodup) (hfit : ∀ o ∈ e.operands, Fits h o) :
    ∃ p h', e.eval.run h = .ok (.pair p) h' ∧ (∃ ps, h'.ListFrom (h'.pair p).head ps) ∧
      ∀ ps, h'.ListFrom (h'.pair p).head ps → (ps.map h'.link = e.links ↔ e.Straight) := by
  cases e with
  | operand o => cases o <;> cases htype
  | bin op l r =>
      obtain ⟨p, h', ps, hrun, hlist, hlinks⟩ := eval_links hnodup hfit
      refine ⟨p, h', hrun, ⟨ps, hlist⟩, fun qs hqs => ?_⟩
      rw [← hlist.unique hqs, hlinks]
      exact built_links_iff

/-- `g <= s >= j >> print`, grouped as C++ groups it. -/
def splitJoin : Expr :=
  .bin .join (.bin .split (.operand (.kernel 0 [])) (.operand (.kernel 1 [])))
    (.bin .cont (.operand (.kernel 2 [])) (.operand (.kernel 3 [])))

/-- `g <= s >> s2 >> print`. -/
def longSplitChain : Expr :=
  .bin .split (.operand (.kernel 0 []))
    (.bin .cont (.bin .cont (.operand (.kernel 1 [])) (.operand (.kernel 2 [])))
      (.operand (.kernel 3 [])))

/-- Kernels without names in brackets, and no pairs. -/
def noPairs : Pairs where
  kernel := fun _ => { className := "", input := .empty, output := .empty }
  pair := fun _ => { head := 0, src := 0, dst := 0 }

/-- It is straight, and all its links are kept. -/
theorem links_kept_iff_splitJoin :
    ∃ p h' ps, splitJoin.eval.run noPairs = .ok (.pair p) h' ∧ h'.ListFrom (h'.pair p).head ps ∧
      ps.map h'.link = splitJoin.links := by
  obtain ⟨p, h', hrun, ⟨ps, hlist⟩, hiff⟩ :=
    links_kept_iff (e := splitJoin) (h := noPairs) (by decide) (by decide) (by decide)
  exact ⟨p, h', ps, hrun, hlist, (hiff ps hlist).mpr (by decide)⟩

/-- **The long split chain drops a kernel**: the list is `(g, s2)`, `(s2, print)`. -/
theorem longSplitChain_drops :
    longSplitChain.type = some .pair ∧ longSplitChain.kernels.Nodup ∧
      ∃ p h' ps, longSplitChain.eval.run noPairs = .ok (.pair p) h' ∧
        h'.ListFrom (h'.pair p).head ps ∧
        ps.map h'.link = [⟨0, 2, true, false⟩, ⟨2, 3, false, false⟩] ∧
        ps.map h'.link ≠ longSplitChain.links := by
  refine ⟨by decide, by decide, ?_⟩
  obtain ⟨p, h', ps, hrun, hlist, hlinks⟩ : ∃ p h' ps,
      longSplitChain.eval.run noPairs = .ok (.pair p) h' ∧ h'.ListFrom (h'.pair p).head ps ∧
        ps.map h'.link = [⟨0, 2, true, false⟩, ⟨2, 3, false, false⟩] :=
    eval_links (by decide) (by decide)
  refine ⟨p, h', ps, hrun, hlist, hlinks, ?_⟩
  rw [hlinks]
  decide

end Expr

end RaftLib.Graph
