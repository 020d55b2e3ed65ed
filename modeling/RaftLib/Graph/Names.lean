/-
# `RaftLib.Graph.Names` -- which link a port name in brackets ends up on

`kernel::operator[]` queues the names inside the kernel, and every constructor of a pair takes one name
from its source and one from its destination. So the `i`-th pair that is made at a kernel, on either
side of it, takes the `i`-th of its names (`Expr.uses`, `Expr.named`): the order of evaluation decides,
not what is input and what is output. A kernel that is the right operand of an operator has the link
before it made first; the left operand of one has the link after it made first.
-/
import RaftLib.Graph.KpairChain

namespace RaftLib.Graph

open RaftLib.Logic.Program
open RaftLib.Logic.Linked

/-! ## The names on a list -/

/-- The ends of a pair with the names that it has for them. -/
structure Named where
  src : KernelId
  srcName : Option PortKey
  dst : KernelId
  dstName : Option PortKey
  deriving DecidableEq, Repr

def Kpair.named (x : Kpair) : Named where
  src := x.src
  srcName := if x.hasSrcName then some x.srcName else none
  dst := x.dst
  dstName := if x.hasDstName then some x.dstName else none

namespace Pairs

def named (h : Pairs) (p : KpairId) : Named := (h.pair p).named

/-- The names that the pairs `ps` have for input ports of `k`. -/
def inputNames (h : Pairs) (ps : List KpairId) (k : KernelId) : List PortKey :=
  ps.filterMap fun p => if (h.named p).dst = k then (h.named p).dstName else none

/-- The names that the pairs `ps` have for output ports of `k`. -/
def outputNames (h : Pairs) (ps : List KpairId) (k : KernelId) : List PortKey :=
  ps.filterMap fun p => if (h.named p).src = k then (h.named p).srcName else none

end Pairs

theorem filterMap_eq_singleton {α β : Type} {f : α → Option β} {l : List α} {x : α} {b : β}
    (hl : l.Nodup) (hx : x ∈ l) (hfx : f x = some b) (honly : ∀ y ∈ l, (f y).isSome → y = x) :
    l.filterMap f = [b] := by
  induction l with
  | nil => exact nomatch hx
  | cons y l ih =>
      obtain ⟨hnot, hl⟩ := List.nodup_cons.mp hl
      rcases List.mem_cons.mp hx with rfl | hx
      · rw [List.filterMap_cons_some hfx, List.filterMap_eq_nil_iff.mpr fun z hz => ?_]
        refine Option.not_isSome_iff_eq_none.mp fun h => hnot ?_
        exact honly z (List.mem_cons_of_mem _ hz) h ▸ hz
      · have hy : f y = none := Option.not_isSome_iff_eq_none.mp fun h =>
          hnot (honly y List.mem_cons_self h ▸ hx)
        rw [List.filterMap_cons_none hy]
        exact ih hl hx fun z hz => honly z (List.mem_cons_of_mem _ hz)

namespace Expr

/-- How the names behind `k` are to be distributed: of two names the first is an input port and the
second an output port; a single one is the input port of a kernel that is not the first of the
expression, or the output port of one that is not the last. -/
def Distributed (e : Expr) (k : KernelId) (inputs outputs : List PortKey) : List PortKey → Prop
  | [] => inputs = [] ∧ outputs = []
  | [a] => inputs = [a] ∧ outputs = [] ∧ k ≠ e.first ∨ inputs = [] ∧ outputs = [a] ∧ k ≠ e.last
  | [a, b] => inputs = [a] ∧ outputs = [b]
  | _ => False

/-- The names of the operand `o` are all taken, by pairs of the list `ps` that stand for links as they
are written, each once and on its side. -/
structure NamesRight (e : Expr) (h : Pairs) (ps : List KpairId) (o : Operand) : Prop where
  taken : (h.kernel o.id).enabledPort = []
  distributed : e.Distributed o.id (h.inputNames ps o.id) (h.outputNames ps o.id) o.names
  srcRight : ∀ p ∈ ps, (h.named p).src = o.id → (h.named p).srcName.isSome → h.link p ∈ e.links
  dstRight : ∀ p ∈ ps, (h.named p).dst = o.id → (h.named p).dstName.isSome → h.link p ∈ e.links

/-! ## Where the names go -/

/-- The link an operator makes: from what its left operand ends in to what its right one starts with. -/
def joint (op : Op) (l r : Expr) : Link := op.link l.built.dst r.built.src

/-- The links that are made, in the order in which they are. -/
def made : Expr → List Link
  | operand _ => []
  | bin op l r => l.made ++ r.made ++ [joint op l r]

/-- The links that take a name from `k`, in the order in which they do, and on which side of them. -/
def uses : Expr → KernelId → List (Link × Side)
  | operand _, _ => []
  | bin op l r, k =>
      l.uses k ++ r.uses k ++
        ((if k = l.built.dst then [(joint op l r, .output)] else []) ++
          if k = r.built.src then [(joint op l r, .input)] else [])

/-- The names with which `k` is written. -/
def namesOf : Expr → KernelId → List PortKey
  | operand o, k => if k = o.id then o.names else []
  | bin _ l r, k => l.namesOf k ++ r.namesOf k

/-- The name that a link takes from `k`. The empty name is none. -/
def nameAt (e : Expr) (k : KernelId) (use : Link × Side) : Option PortKey :=
  (e.namesOf k)[(e.uses k).idxOf use]?.filter (· ≠ nullPortValue)

/-- A link with the names it takes. -/
def named (e : Expr) (x : Link) : Named :=
  ⟨x.src, e.nameAt x.src (x, .output), x.dst, e.nameAt x.dst (x, .input)⟩

section Mem

variable {op : Op} {l r e : Expr} {k : KernelId} {x : Link}

theorem kernels_bin : (bin op l r).kernels = l.kernels ++ r.kernels := by
  simp [kernels, operands]

theorem joint_mem : (joint op l r).src ∈ l.kernels ∧ (joint op l r).dst ∈ r.kernels :=
  ⟨l.built_mem.2, r.built_mem.1⟩

theorem made_mem (hx : x ∈ e.made) : x.src ∈ e.kernels ∧ x.dst ∈ e.kernels := by
  induction e with
  | operand o => exact nomatch hx
  | bin op l r ihl ihr =>
      rw [kernels_bin]
      rcases List.mem_append.mp hx with hx | hx
      · rcases List.mem_append.mp hx with hx | hx
        · exact ⟨List.mem_append_left _ (ihl hx).1, List.mem_append_left _ (ihl hx).2⟩
        · exact ⟨List.mem_append_right _ (ihr hx).1, List.mem_append_right _ (ihr hx).2⟩
      · obtain rfl := List.mem_singleton.mp hx
        exact ⟨List.mem_append_left _ joint_mem.1, List.mem_append_right _ joint_mem.2⟩

/-- What takes a name is a link that is made. -/
theorem made_of_uses {u : Link × Side} (hu : u ∈ e.uses k) : u.1 ∈ e.made := by
  induction e with
  | operand o => exact nomatch hu
  | bin op l r ihl ihr =>
      simp only [uses, List.mem_append] at hu
      rw [made, List.mem_append, List.mem_append]
      rcases hu with (hu | hu) | hu | hu
      · exact Or.inl (Or.inl (ihl hu))
      · exact Or.inl (Or.inr (ihr hu))
      · split at hu
        · exact Or.inr (List.mem_singleton.mp hu ▸ List.mem_singleton_self _)
        · exact nomatch hu
      · split at hu
        · exact Or.inr (List.mem_singleton.mp hu ▸ List.mem_singleton_self _)
        · exact nomatch hu

/-- A link that is made takes a name on either side. -/
theorem uses_of_made (hx : x ∈ e.made) :
    (x, Side.output) ∈ e.uses x.src ∧ (x, Side.input) ∈ e.uses x.dst := by
  induction e with
  | operand o => exact nomatch hx
  | bin op l r ihl ihr =>
      simp only [uses, List.mem_append]
      rcases List.mem_append.mp hx with hx | hx
      · rcases List.mem_append.mp hx with hx | hx
        · exact ⟨Or.inl (Or.inl (ihl hx).1), Or.inl (Or.inl (ihl hx).2)⟩
        · exact ⟨Or.inl (Or.inr (ihr hx).1), Or.inl (Or.inr (ihr hx).2)⟩
      · obtain rfl := List.mem_singleton.mp hx
        have hsrc : (joint op l r).src = l.built.dst := rfl
        have hdst : (joint op l r).dst = r.built.src := rfl
        rw [if_pos hsrc, if_pos hdst]
        exact ⟨Or.inr (Or.inl (List.mem_singleton_self _)), Or.inr (Or.inr (List.mem_singleton_self _))⟩

theorem uses_of_notMem (hk : k ∉ e.kernels) : e.uses k = [] := by
  induction e with
  | operand o => rfl
  | bin op l r ihl ihr =>
      rw [kernels_bin, List.mem_append, not_or] at hk
      have hdst : k ≠ l.built.dst := fun h => hk.1 (h ▸ l.built_mem.2)
      have hsrc : k ≠ r.built.src := fun h => hk.2 (h ▸ r.built_mem.1)
      simp [uses, ihl hk.1, ihr hk.2, hdst, hsrc]

theorem namesOf_of_notMem (hk : k ∉ e.kernels) : e.namesOf k = [] := by
  induction e with
  | operand o => exact if_neg fun h : k = o.id => hk (h ▸ List.mem_singleton_self _)
  | bin op l r ihl ihr =>
      rw [kernels_bin, List.mem_append, not_or] at hk
      rw [namesOf, ihl hk.1, ihr hk.2, List.nil_append]

end Mem

/-! ### An operator over disjoint operands -/

section Disjoint

variable {op : Op} {l r : Expr} {k : KernelId} {x : Link} (hdisj : l.kernels.Disjoint r.kernels)

include hdisj

theorem uses_left (hk : k ∈ l.kernels) :
    (bin op l r).uses k = l.uses k ++ if k = l.built.dst then [(joint op l r, .output)] else [] := by
  have hsrc : k ≠ r.built.src := fun h => hdisj hk (h ▸ r.built_mem.1)
  simp [uses, uses_of_notMem (hdisj hk), hsrc]

theorem uses_right (hk : k ∈ r.kernels) :
    (bin op l r).uses k = r.uses k ++ if k = r.built.src then [(joint op l r, .input)] else [] := by
  have hdst : k ≠ l.built.dst := fun h => hdisj (h ▸ l.built_mem.2) hk
  simp [uses, uses_of_notMem fun h => hdisj h hk, hdst]

theorem namesOf_left (hk : k ∈ l.kernels) : (bin op l r).namesOf k = l.namesOf k := by
  rw [namesOf, namesOf_of_notMem (hdisj hk), List.append_nil]

theorem namesOf_right (hk : k ∈ r.kernels) : (bin op l r).namesOf k = r.namesOf k := by
  rw [namesOf, namesOf_of_notMem fun h => hdisj h hk, List.nil_append]

/-- The link of an operator is new. -/
theorem joint_notMem : joint op l r ∉ l.made ∧ joint op l r ∉ r.made :=
  ⟨fun h => hdisj (made_mem h).2 joint_mem.2, fun h => hdisj joint_mem.1 (made_mem h).1⟩

end Disjoint

/-! ## The evaluation -/

end Expr

/-- A name in brackets counts if it is not the empty one. -/
theorem getEnabledPort_names (h : Pairs) (k : KernelId) :
    ∃ name m, (getEnabledPort k).run h = .ok name m ∧
      (if name ≠ nullPortValue then some name else none) =
        (h.kernel k).enabledPort.head?.filter (· ≠ nullPortValue) ∧
      (m.kernel k).enabledPort = (h.kernel k).enabledPort.tail ∧
      (∀ j, j ≠ k → m.kernel j = h.kernel j) ∧ m.pair = h.pair ∧ m.next = h.next := by
  cases he : (h.kernel k).enabledPort with
  | nil =>
      exact ⟨nullPortValue, h, by simp [getEnabledPort, he], by simp, he, fun _ _ => rfl, rfl, rfl⟩
  | cons front rest =>
      refine ⟨front, h.setKernel k { h.kernel k with enabledPort := rest },
        by simp [getEnabledPort, he], ?_, by simp [Pairs.setKernel], fun j hj => ?_, rfl, rfl⟩
      · by_cases hf : front = nullPortValue <;> simp [Option.filter, hf]
      · simp [Pairs.setKernel, hj]

/-- What a constructor does to names: it takes the next name of its source and the next one of its
destination. -/
structure Takes (h h' : Pairs) : Prop where
  srcName : (h'.named h.next).srcName =
    (h.kernel (h'.named h.next).src).enabledPort.head?.filter (· ≠ nullPortValue)
  dstName : (h'.named h.next).dstName =
    (h.kernel (h'.named h.next).dst).enabledPort.head?.filter (· ≠ nullPortValue)
  srcRest : (h'.kernel (h'.named h.next).src).enabledPort =
    (h.kernel (h'.named h.next).src).enabledPort.tail
  dstRest : (h'.kernel (h'.named h.next).dst).enabledPort =
    (h.kernel (h'.named h.next).dst).enabledPort.tail
  others : ∀ q, q ≠ h.next → h'.named q = h.named q

/-- What is written into pairs later on leaves the names alone. -/
theorem Takes.congr {h m h' : Pairs} (ht : Takes h m) (hkernel : h'.kernel = m.kernel)
    (hnamed : ∀ q, h'.named q = m.named q) : Takes h h' := by
  obtain ⟨hsrc, hdst, hsrcRest, hdstRest, hothers⟩ := ht
  constructor
  · rw [hnamed]
    exact hsrc
  · rw [hnamed]
    exact hdst
  · rw [hnamed, hkernel]
    exact hsrcRest
  · rw [hnamed, hkernel]
    exact hdstRest
  · intro q hq
    rw [hnamed]
    exact hothers q hq

theorem Pairs.named_setPair {h : Pairs} {p : KpairId} {x : Kpair} (hx : x.named = (h.pair p).named)
    (q : KpairId) : (h.setPair p x).named q = h.named q := by
  unfold named
  rw [setPair_pair]
  split
  · rename_i he
    rw [hx, he]
  · rfl

namespace Kpair

/-- The constructor the others delegate to, for two kernels. -/
theorem make_takes (h : Pairs) {a b : KernelId} (hab : a ≠ b) :
    ∃ m, (make a b).run h = .ok h.next m ∧ Takes h m := by
  obtain ⟨srcName, h₁, hrun₁, hname₁, hrest₁, hkernel₁, hpair₁, hnext₁⟩ := getEnabledPort_names h a
  obtain ⟨dstName, h₂, hrun₂, hname₂, hrest₂, hkernel₂, hpair₂, hnext₂⟩ := getEnabledPort_names h₁ b
  have hnext : h₂.next = h.next := hnext₂.trans hnext₁
  let x : Kpair :=
    { head := h₂.next
      src := a
      hasSrcName := decide (srcName ≠ nullPortValue)
      srcName := srcName
      dst := b
      hasDstName := decide (dstName ≠ nullPortValue)
      dstName := dstName
      srcOutCount := (h₂.kernel a).output.count
      dstInCount := (h₂.kernel b).input.count }
  let m : Pairs := { h₂.setPair h₂.next x with next := h₂.next + 1 }
  have hthis : m.pair h.next = x := by
    show Function.update h₂.pair h₂.next x h.next = x
    rw [hnext, Function.update_self]
  refine ⟨m, ?_, ?_⟩
  · unfold make
    rw [run_bind_of_ok hrun₁, run_bind_of_ok hrun₂, ← hnext]
    rfl
  · constructor
    · simp only [Pairs.named, Kpair.named, hthis, x, decide_eq_true_eq]
      exact hname₁
    · simp only [Pairs.named, Kpair.named, hthis, x, decide_eq_true_eq]
      rw [hname₂, hkernel₁ b hab.symm]
    · simp only [Pairs.named, Kpair.named, hthis, x]
      show (h₂.kernel a).enabledPort = _
      rw [hkernel₂ a hab, hrest₁]
    · simp only [Pairs.named, Kpair.named, hthis, x]
      show (h₂.kernel b).enabledPort = _
      rw [hrest₂, hkernel₁ b hab.symm]
    · intro q hq
      show ({ h₂.setPair h₂.next x with next := h₂.next + 1 } : Pairs).named q = h.named q
      simp [Pairs.named, Kpair.named, Pairs.setPair, hnext, hq, hpair₂, hpair₁]

end Kpair

/-- The end of a value at which an operator continues it. -/
def Value.dst (h : Pairs) : Value → KernelId
  | .kernel k => k
  | .pair p => (h.pair p).dst

def Value.src (h : Pairs) : Value → KernelId
  | .kernel k => k
  | .pair p => (h.pair p).src

theorem Denotes.dst {h h' : Pairs} {x : Built} {v : Value} (hx : Denotes h h' x v) :
    v.dst h' = x.dst := by
  cases x with
  | inl k =>
      cases v with
      | kernel j => exact hx
      | pair p => exact nomatch hx
  | inr c =>
      cases v with
      | kernel j => exact nomatch hx
      | pair p =>
          obtain ⟨pre, suf, hc⟩ := hx
          exact congrArg Link.dst hc.this

theorem Denotes.src {h h' : Pairs} {x : Built} {v : Value} (hx : Denotes h h' x v) :
    v.src h' = x.src := by
  cases x with
  | inl k =>
      cases v with
      | kernel j => exact hx
      | pair p => exact nomatch hx
  | inr c =>
      cases v with
      | kernel j => exact nomatch hx
      | pair p =>
          obtain ⟨pre, suf, hc⟩ := hx
          exact congrArg Link.src hc.this

/-- Every overload takes names as the constructor it delegates to does. -/
theorem Op.apply_takes {op : Op} {v w : Value} {h h' : Pairs} {p : KpairId}
    (hne : v.dst h ≠ w.src h) (hrun : (op.apply v w).run h = .ok p h') : Takes h h' := by
  obtain ⟨m, hm, ht⟩ := Kpair.make_takes h hne
  cases v with
  | kernel a =>
      cases w with
      | kernel b =>
          replace hm : (Kpair.make a b).run h = .ok h.next m := hm
          simp only [apply, Kpair.ofKernels, EStateM.run_bind, hm] at hrun
          injection hrun with hp hh
          subst hh
          exact ht.congr rfl fun q => Pairs.named_setPair (by rfl) q
      | pair b =>
          replace hm : (Kpair.make a (h.pair b).src).run h = .ok h.next m := hm
          simp only [apply, Kpair.ofKernelPair, EStateM.run_bind, EStateM.run_get, hm] at hrun
          injection hrun with hp hh
          subst hh
          exact ht.congr rfl fun q => Pairs.named_setPair (by rfl) q
  | pair a =>
      cases w with
      | kernel b =>
          replace hm : (Kpair.make (h.pair a).dst b).run h = .ok h.next m := hm
          simp only [apply, Kpair.ofPairKernel, EStateM.run_bind, EStateM.run_get, hm] at hrun
          injection hrun with hp hh
          subst hh
          refine ht.congr rfl fun q => ?_
          refine Eq.trans (Pairs.named_setPair (by rfl) q) ?_
          refine Eq.trans (Pairs.named_setPair (by rfl) q) ?_
          exact Pairs.named_setPair (by rfl) q
      | pair b =>
          replace hm : (Kpair.make (h.pair a).dst (h.pair b).src).run h = .ok h.next m := hm
          simp only [apply, Kpair.ofPairs, EStateM.run_bind, EStateM.run_get, hm] at hrun
          injection hrun with hp hh
          subst hh
          refine ht.congr rfl fun q => ?_
          refine Eq.trans (Pairs.named_setPair (by rfl) q) ?_
          refine Eq.trans (Pairs.named_setPair (by rfl) q) ?_
          refine Eq.trans (Pairs.named_setPair (by rfl) q) ?_
          exact Pairs.named_setPair (by rfl) q

/-! ### Expressions -/

theorem bracket_names {h h' : Pairs} {k : KernelId} {name : PortKey}
    (hrun : (bracket k name).run h = .ok ⟨⟩ h') :
    (h'.kernel k).enabledPort = (h.kernel k).enabledPort ++ [name] := by
  change EStateM.run (if (h.kernel k).enabledPort.length < 2 then _ else _) h = _ at hrun
  split at hrun
  · injection hrun with _ hh
    subst hh
    simp [Pairs.setKernel]
  · cases hrun

theorem brackets_names {h h' : Pairs} {k : KernelId} {names : List PortKey}
    (hrun : (names.forM (bracket k)).run h = .ok ⟨⟩ h') :
    (h'.kernel k).enabledPort = (h.kernel k).enabledPort ++ names := by
  induction names generalizing h with
  | nil =>
      injection hrun with _ hh
      subst hh
      exact (List.append_nil _).symm
  | cons name names ih =>
      change (bracket k name >>= fun _ => names.forM (bracket k)).run h = _ at hrun
      obtain ⟨_, m, hm, hrest⟩ := run_bind_ok.mp hrun
      rw [ih hrest, bracket_names hm, List.append_assoc, List.singleton_append]

namespace Expr

/-- What the evaluation of `e` has made of the names behind its kernels: each pair has taken those that
fall to its link, and the others are still queued. -/
structure Consumed (e : Expr) (h h' : Pairs) : Prop where
  rest : ∀ k ∈ e.kernels, (h'.kernel k).enabledPort = (e.namesOf k).drop (e.uses k).length
  pairs : ∀ q, h.next ≤ q → q < h'.next → h'.link q ∈ e.made ∧ h'.named q = e.named (h'.link q)

section Disjoint

variable {op : Op} {l r : Expr} {x : Link} (hdisj : l.kernels.Disjoint r.kernels)

include hdisj

theorem nameAt_left {k : KernelId} {u : Link × Side} (hk : k ∈ l.kernels) (hu : u ∈ l.uses k) :
    (bin op l r).nameAt k u = l.nameAt k u := by
  unfold nameAt
  rw [uses_left hdisj hk, namesOf_left hdisj hk, List.idxOf_append_of_mem hu]

theorem nameAt_right {k : KernelId} {u : Link × Side} (hk : k ∈ r.kernels) (hu : u ∈ r.uses k) :
    (bin op l r).nameAt k u = r.nameAt k u := by
  unfold nameAt
  rw [uses_right hdisj hk, namesOf_right hdisj hk, List.idxOf_append_of_mem hu]

/-- A link of an operand takes the names that it took there, -/
theorem named_left (hx : x ∈ l.made) : (bin op l r).named x = l.named x := by
  obtain ⟨hsrc, hdst⟩ := made_mem hx
  obtain ⟨husrc, hudst⟩ := uses_of_made hx
  unfold named
  rw [nameAt_left hdisj hsrc husrc, nameAt_left hdisj hdst hudst]

theorem named_right (hx : x ∈ r.made) : (bin op l r).named x = r.named x := by
  obtain ⟨hsrc, hdst⟩ := made_mem hx
  obtain ⟨husrc, hudst⟩ := uses_of_made hx
  unfold named
  rw [nameAt_right hdisj hsrc husrc, nameAt_right hdisj hdst hudst]

/-- and the link of the operator takes the first ones that are left. -/
theorem named_joint : (bin op l r).named (joint op l r) =
    ⟨l.built.dst,
      ((l.namesOf l.built.dst).drop (l.uses l.built.dst).length).head?.filter (· ≠ nullPortValue),
      r.built.src,
      ((r.namesOf r.built.src).drop (r.uses r.built.src).length).head?.filter (· ≠ nullPortValue)⟩ := by
  have hnotl : (joint op l r, Side.output) ∉ l.uses l.built.dst := fun h =>
    (joint_notMem hdisj).1 (made_of_uses h)
  have hnotr : (joint op l r, Side.input) ∉ r.uses r.built.src := fun h =>
    (joint_notMem hdisj).2 (made_of_uses h)
  have hsrc : (joint op l r).src = l.built.dst := rfl
  have hdst : (joint op l r).dst = r.built.src := rfl
  unfold named nameAt
  rw [hsrc, hdst, uses_left hdisj l.built_mem.2, uses_right hdisj r.built_mem.1, if_pos rfl, if_pos rfl,
    namesOf_left hdisj l.built_mem.2, namesOf_right hdisj r.built_mem.1,
    List.idxOf_append_of_notMem hnotl, List.idxOf_append_of_notMem hnotr, List.idxOf_cons_self,
    List.idxOf_cons_self, List.head?_drop, List.head?_drop]
  rfl

end Disjoint

theorem namesOf_operand (o : Operand) : (operand o).namesOf o.id = o.names := if_pos rfl

/-- The evaluation of an operator in its parts. The left operand leaves room for the names of the right
one. -/
theorem eval_parts {op : Op} {l r : Expr} {h h' : Pairs} {v : Value}
    (hnodup : (bin op l r).kernels.Nodup) (hfit : ∀ o ∈ (bin op l r).operands, Fits h o)
    (hrun : (bin op l r).eval.run h = .ok v h') :
    ∃ a h₁ b h₂, l.eval.run h = .ok a h₁ ∧ r.eval.run h₁ = .ok b h₂ ∧
      (op.apply a b).run h₂ = .ok h₂.next h' ∧ Frame h h₁ l.kernels ∧ Frame h₁ h₂ r.kernels ∧
      (∀ o ∈ r.operands, Fits h₁ o) ∧ Made h₂ h' (joint op l r) (a.headOr h₂ h₂.next) a.pair? b.pair? ∧
      a.dst h₂ = l.built.dst ∧ b.src h₂ = r.built.src := by
  rw [kernels_bin] at hnodup
  obtain ⟨hnl, hnr, hdisj⟩ := List.nodup_append'.mp hnodup
  obtain ⟨a, h₁, hrunl, hx, hfl⟩ := eval_run hnl fun o ho => hfit o (List.mem_append_left _ ho)
  have hfit₁ : ∀ o ∈ r.operands, Fits h₁ o := by
    intro o ho
    rw [Fits, hfl.kernel o.id fun hl => hdisj hl (List.mem_map_of_mem ho)]
    exact hfit o (List.mem_append_right _ ho)
  obtain ⟨b, h₂, hrunr, hy, hfr⟩ := eval_run hnr hfit₁
  have hx₂ : Denotes h h₂ l.built a := hx.frame hfr
  obtain ⟨h₃, happly, hmade⟩ := op.apply_run hx₂ hy
  unfold eval at hrun
  rw [run_bind_of_ok hrunl, run_bind_of_ok hrunr, run_bind_of_ok happly] at hrun
  injection hrun with _ hh
  subst hh
  exact ⟨a, h₁, b, h₂, hrunl, hrunr, happly, hfl, hfr, hfit₁, hmade, hx₂.dst, hy.src⟩

section Step

variable {op : Op} {l r : Expr} {h h₁ h₂ h' : Pairs} {head : KpairId} {left right : Option KpairId}
  (hdisj : l.kernels.Disjoint r.kernels) (hcl : l.Consumed h h₁) (hcr : r.Consumed h₁ h₂)
  (hfr : Frame h₁ h₂ r.kernels) (htakes : Takes h₂ h')
  (hmade : Made h₂ h' (joint op l r) head left right)

include hdisj hcl hcr hfr htakes hmade

/-- An operator over operands that have taken their names takes one more at either end. -/
theorem Consumed.step : (bin op l r).Consumed h h' := by
  have hsrc : (h'.named h₂.next).src = l.built.dst := congrArg Link.src hmade.this
  have hdst : (h'.named h₂.next).dst = r.built.src := congrArg Link.dst hmade.this
  -- what is queued when the operator is reached
  have hleft : ∀ k ∈ l.kernels, (h₂.kernel k).enabledPort =
      (l.namesOf k).drop (l.uses k).length := fun k hk => by
    rw [hfr.kernel k (hdisj hk), hcl.rest k hk]
  constructor
  · intro k hk
    rw [kernels_bin, List.mem_append] at hk
    rcases hk with hk | hk
    · rw [uses_left hdisj hk, namesOf_left hdisj hk]
      split
      · rename_i he
        have hrest := htakes.srcRest
        rw [hsrc, ← he, hleft k hk, List.tail_drop] at hrest
        rw [hrest, List.length_append, List.length_singleton]
      · rename_i hne
        rw [hmade.kernel k hne fun e => hdisj hk (e ▸ joint_mem.2), hleft k hk, List.append_nil]
    · rw [uses_right hdisj hk, namesOf_right hdisj hk]
      split
      · rename_i he
        have hrest := htakes.dstRest
        rw [hdst, ← he, hcr.rest k hk, List.tail_drop] at hrest
        rw [hrest, List.length_append, List.length_singleton]
      · rename_i hne
        rw [hmade.kernel k (fun e => hdisj (e ▸ joint_mem.1) hk) hne, hcr.rest k hk, List.append_nil]
  · intro q hge hlt
    rw [hmade.next] at hlt
    rw [Expr.made, List.mem_append, List.mem_append]
    by_cases hq : q = h₂.next
    · subst hq
      rw [hmade.this, named_joint hdisj]
      refine ⟨Or.inr (List.mem_singleton_self _), ?_⟩
      have hsrcName := htakes.srcName
      have hdstName := htakes.dstName
      rw [hsrc, hleft _ l.built_mem.2] at hsrcName
      rw [hdst, hcr.rest _ r.built_mem.1] at hdstName
      rw [← hsrcName, ← hdstName, ← hsrc, ← hdst]
    · rw [hmade.links q hq, htakes.others q hq]
      by_cases hq₁ : q < h₁.next
      · have hkeep : h₂.pair q = h₁.pair q := hfr.pair q hq₁
        obtain ⟨hlink, hnamed⟩ := hcl.pairs q hge hq₁
        have hlink₂ : h₂.link q = h₁.link q := by simp only [Pairs.link, hkeep]
        have hnamed₂ : h₂.named q = h₁.named q := by simp only [Pairs.named, hkeep]
        rw [hlink₂, hnamed₂, named_left hdisj hlink]
        exact ⟨Or.inl (Or.inl hlink), hnamed⟩
      · obtain ⟨hlink, hnamed⟩ := hcr.pairs q (Nat.not_lt.mp hq₁)
          (Nat.lt_of_le_of_ne (Nat.le_of_lt_succ hlt) hq)
        rw [named_right hdisj hlink]
        exact ⟨Or.inl (Or.inr hlink), hnamed⟩

end Step

/-- **The `i`-th pair at a kernel takes the `i`-th of its names.** -/
theorem eval_consumed {e : Expr} {h h' : Pairs} {v : Value} (hnodup : e.kernels.Nodup)
    (hempty : ∀ k ∈ e.kernels, (h.kernel k).enabledPort = [])
    (hfit : ∀ o ∈ e.operands, Fits h o) (hrun : e.eval.run h = .ok v h') : e.Consumed h h' := by
  induction e generalizing h v h' with
  | operand o =>
      obtain ⟨m, hm, hpair, hnext, -⟩ := brackets_run (hfit o (List.mem_singleton_self _))
      unfold eval Operand.eval at hrun
      rw [run_bind_of_ok hm] at hrun
      injection hrun with _ hh
      subst hh
      constructor
      · intro k hk
        obtain rfl := List.mem_singleton.mp hk
        rw [brackets_names hm, hempty _ hk, namesOf_operand]
        rfl
      · intro q hge hlt
        exact absurd (hnext ▸ hlt) (Nat.not_lt.mpr hge)
  | bin op l r ihl ihr =>
      obtain ⟨a, h₁, b, h₂, hrunl, hrunr, hrun, hfl, hfr, hfit₁, hmade, hdst, hsrc⟩ :=
        eval_parts hnodup hfit hrun
      rw [kernels_bin] at hnodup hempty
      obtain ⟨hnl, hnr, hdisj⟩ := List.nodup_append'.mp hnodup
      have hcl : l.Consumed h h₁ := ihl hnl (fun k hk => hempty k (List.mem_append_left _ hk))
        (fun o ho => hfit o (List.mem_append_left _ ho)) hrunl
      have hcr : r.Consumed h₁ h₂ := ihr hnr (fun k hk => by
        rw [hfl.kernel k fun hl => hdisj hl hk]
        exact hempty k (List.mem_append_right _ hk)) hfit₁ hrunr
      have htakes : Takes h₂ h' := op.apply_takes (by
        rw [hdst, hsrc]
        exact fun h => hdisj l.built_mem.2 (h ▸ r.built_mem.1)) hrun
      exact Consumed.step hdisj hcl hcr hfr htakes hmade

/-! ## The links that are kept -/

/-- The link an operator is written for is the one it makes if its left operand is a kernel or ends in
one that it was given last, and its right operand likewise on its left. -/
def tight (l r : Expr) : Bool := l.endsPlain && r.startsPlain

/-- The written links that a left operand brings into the list. -/
def keptBefore : Expr → List Link
  | operand _ => []
  | bin op l r => l.keptBefore ++ if tight l r then [op.link l.last r.first] else []

/-- The written links that a right operand brings into the list. -/
def keptAfter : Expr → List Link
  | operand _ => []
  | bin op l r => (if tight l r then [op.link l.last r.first] else []) ++ r.keptAfter

/-- The written links that end up in the list. -/
def kept : Expr → List Link
  | operand _ => []
  | bin op l r => l.keptBefore ++ (if tight l r then [op.link l.last r.first] else []) ++ r.keptAfter

/-- The kernels that are the right operand of an operator. -/
def rightOperands : Expr → List KernelId
  | operand _ => []
  | bin _ l r => l.rightOperands ++ if r.isPlain then r.kernels else r.rightOperands

/-- The list that an operator leaves. -/
def listed : Expr → List Link
  | operand _ => []
  | bin op l r => (op.build l.built r.built).links

theorem first_mem (e : Expr) : e.first ∈ e.kernels := by
  induction e with
  | operand o => exact List.mem_singleton_self _
  | bin op l r ihl _ =>
      rw [kernels_bin]
      exact List.mem_append_left _ ihl

theorem last_mem (e : Expr) : e.last ∈ e.kernels := by
  induction e with
  | operand o => exact List.mem_singleton_self _
  | bin op l r _ ihr =>
      rw [kernels_bin]
      exact List.mem_append_right _ ihr

theorem links_mem {e : Expr} {x : Link} (hx : x ∈ e.links) : x.src ∈ e.kernels ∧ x.dst ∈ e.kernels := by
  induction e with
  | operand o => exact nomatch hx
  | bin op l r ihl ihr =>
      rw [kernels_bin]
      rcases List.mem_append.mp hx with hx | hx
      · exact ⟨List.mem_append_left _ (ihl hx).1, List.mem_append_left _ (ihl hx).2⟩
      · rcases List.mem_cons.mp hx with rfl | hx
        · exact ⟨List.mem_append_left _ l.last_mem, List.mem_append_right _ r.first_mem⟩
        · exact ⟨List.mem_append_right _ (ihr hx).1, List.mem_append_right _ (ihr hx).2⟩

/-- An expression ends in the kernel it was given last if and only if that is an operand of its own
operator. -/
theorem built_dst_iff {e : Expr} (hnodup : e.kernels.Nodup) : e.built.dst = e.last ↔ e.endsPlain := by
  cases e with
  | operand o => exact ⟨fun _ => rfl, fun _ => rfl⟩
  | bin op l r =>
      cases r with
      | operand o => exact ⟨fun _ => rfl, fun _ => rfl⟩
      | bin op' l' r' =>
          rw [kernels_bin, kernels_bin] at hnodup
          obtain ⟨-, -, hdisj⟩ := List.nodup_append'.mp (List.nodup_append'.mp hnodup).2.1
          refine ⟨fun h => ?_, fun h => nomatch h⟩
          exact absurd r'.last_mem (hdisj (h ▸ l'.built_mem.2 : r'.last ∈ l'.kernels))

theorem built_src_iff {e : Expr} (hnodup : e.kernels.Nodup) : e.built.src = e.first ↔ e.startsPlain := by
  cases e with
  | operand o => exact ⟨fun _ => rfl, fun _ => rfl⟩
  | bin op l r =>
      cases l with
      | operand o => exact ⟨fun _ => rfl, fun _ => rfl⟩
      | bin op' l' r' =>
          rw [kernels_bin, kernels_bin] at hnodup
          obtain ⟨-, -, hdisj⟩ := List.nodup_append'.mp (List.nodup_append'.mp hnodup).1
          refine ⟨fun h => ?_, fun h => nomatch h⟩
          exact absurd (h ▸ r'.built_mem.1 : l'.first ∈ r'.kernels) (hdisj l'.first_mem)

section Links

variable {op : Op} {l r : Expr} {x : Link} (hnodup : (bin op l r).kernels.Nodup)

include hnodup

theorem mem_links_left (hdst : x.dst ∈ l.kernels) : x ∈ (bin op l r).links ↔ x ∈ l.links := by
  rw [kernels_bin] at hnodup
  obtain ⟨-, -, hdisj⟩ := List.nodup_append'.mp hnodup
  refine ⟨fun h => ?_, fun h => List.mem_append_left _ h⟩
  rcases List.mem_append.mp h with h | h
  · exact h
  · rcases List.mem_cons.mp h with rfl | h
    · exact absurd r.first_mem (hdisj hdst)
    · exact absurd (links_mem h).2 (hdisj hdst)

theorem mem_links_right (hsrc : x.src ∈ r.kernels) : x ∈ (bin op l r).links ↔ x ∈ r.links := by
  rw [kernels_bin] at hnodup
  obtain ⟨-, -, hdisj⟩ := List.nodup_append'.mp hnodup
  refine ⟨fun h => ?_, fun h => List.mem_append_right _ (List.mem_cons_of_mem _ h)⟩
  rcases List.mem_append.mp h with h | h
  · exact absurd hsrc (hdisj (links_mem h).1)
  · rcases List.mem_cons.mp h with rfl | h
    · exact absurd hsrc (hdisj l.last_mem)
    · exact h

omit hnodup in
/-- No link leads to the first kernel, and none from the last one. -/
theorem links_ends {e : Expr} (hnodup : e.kernels.Nodup) (hx : x ∈ e.links) :
    x.dst ≠ e.first ∧ x.src ≠ e.last := by
  induction e with
  | operand o => exact nomatch hx
  | bin op l r ihl ihr =>
      obtain ⟨hnl, hnr, hdisj⟩ := List.nodup_append'.mp (kernels_bin ▸ hnodup)
      rcases List.mem_append.mp hx with hx | hx
      · exact ⟨(ihl hnl hx).1, fun h => hdisj (links_mem hx).1 (h ▸ r.last_mem)⟩
      · rcases List.mem_cons.mp hx with rfl | hx
        · exact ⟨fun h => hdisj l.first_mem (h ▸ r.first_mem),
            fun h => hdisj l.last_mem ((show l.last = r.last from h) ▸ r.last_mem)⟩
        · exact ⟨fun h => hdisj l.first_mem (h ▸ (links_mem hx).2), (ihr hnr hx).2⟩

/-- The link of an operator is one that is written exactly if the operator is tight. -/
theorem joint_mem_links : joint op l r ∈ (bin op l r).links ↔ tight l r := by
  rw [kernels_bin] at hnodup
  obtain ⟨hnl, hnr, hdisj⟩ := List.nodup_append'.mp hnodup
  unfold tight
  rw [Bool.and_eq_true, ← built_dst_iff hnl, ← built_src_iff hnr]
  constructor
  · intro h
    rcases List.mem_append.mp h with h | h
    · exact absurd joint_mem.2 (hdisj (links_mem h).2)
    · rcases List.mem_cons.mp h with h | h
      · exact ⟨congrArg Link.src h, congrArg Link.dst h⟩
      · exact absurd (links_mem h).1 (hdisj joint_mem.1)
  · rintro ⟨hdst, hsrc⟩
    unfold joint
    rw [hdst, hsrc]
    exact List.mem_append_right _ List.mem_cons_self

theorem mem_tight_iff : x ∈ (if tight l r then [op.link l.last r.first] else []) ↔
    x = joint op l r ∧ x ∈ (bin op l r).links := by
  have hmem := joint_mem_links hnodup
  rw [kernels_bin] at hnodup
  obtain ⟨hnl, hnr, -⟩ := List.nodup_append'.mp hnodup
  split
  · rename_i ht
    have hjoint : joint op l r = op.link l.last r.first := by
      obtain ⟨hends, hstarts⟩ := Bool.and_eq_true _ _ ▸ ht
      unfold joint
      rw [(built_dst_iff hnl).mpr hends, (built_src_iff hnr).mpr hstarts]
    rw [List.mem_singleton, ← hjoint]
    exact ⟨fun h => ⟨h, h ▸ hmem.mpr ht⟩, And.left⟩
  · rename_i ht
    refine ⟨fun h => (nomatch h), ?_⟩
    rintro ⟨rfl, h⟩
    exact absurd (hmem.mp h) ht

end Links

theorem before_made {e : Expr} {x : Link} (hx : x ∈ e.built.before) : x ∈ e.made := by
  induction e with
  | operand o => exact nomatch hx
  | bin op l r ihl _ =>
      rw [made, List.append_assoc]
      rcases List.mem_append.mp hx with hx | hx
      · exact List.mem_append_left _ (ihl hx)
      · exact List.mem_append_right _ (List.mem_append_right _ hx)

theorem after_made {e : Expr} {x : Link} (hx : x ∈ e.built.after) : x ∈ e.made := by
  induction e with
  | operand o => exact nomatch hx
  | bin op l r _ ihr =>
      rw [made, List.append_assoc]
      rcases List.mem_cons.mp hx with rfl | hx
      · exact List.mem_append_right _ (List.mem_append_right _ (List.mem_singleton_self _))
      · exact List.mem_append_right _ (List.mem_append_left _ (ihr hx))

theorem listed_made {e : Expr} {x : Link} (hx : x ∈ e.listed) : x ∈ e.made := by
  cases e with
  | operand o => exact nomatch hx
  | bin op l r =>
      rw [made, List.append_assoc]
      rcases List.mem_append.mp hx with hx | hx
      · exact List.mem_append_left _ (before_made hx)
      · rcases List.mem_cons.mp hx with rfl | hx
        · exact List.mem_append_right _ (List.mem_append_right _ (List.mem_singleton_self _))
        · exact List.mem_append_right _ (List.mem_append_left _ (after_made hx))

/-- A list that is taken over holds each link once. -/
theorem before_nodup {e : Expr} (hnodup : e.kernels.Nodup) : e.built.before.Nodup := by
  induction e with
  | operand o => exact List.nodup_nil
  | bin op l r ihl _ =>
      obtain ⟨hnl, -, hdisj⟩ := List.nodup_append'.mp (kernels_bin ▸ hnodup)
      exact List.nodup_append'.mpr ⟨ihl hnl, List.nodup_singleton _,
        List.disjoint_singleton.mpr fun h => (joint_notMem hdisj).1 (before_made h)⟩

theorem after_nodup {e : Expr} (hnodup : e.kernels.Nodup) : e.built.after.Nodup := by
  induction e with
  | operand o => exact List.nodup_nil
  | bin op l r _ ihr =>
      obtain ⟨-, hnr, hdisj⟩ := List.nodup_append'.mp (kernels_bin ▸ hnodup)
      exact List.nodup_cons.mpr ⟨fun h => (joint_notMem hdisj).2 (after_made h), ihr hnr⟩

theorem listed_nodup {e : Expr} (hnodup : e.kernels.Nodup) : e.listed.Nodup := by
  cases e with
  | operand o => exact List.nodup_nil
  | bin op l r =>
      obtain ⟨hnl, hnr, hdisj⟩ := List.nodup_append'.mp (kernels_bin ▸ hnodup)
      refine List.nodup_append'.mpr ⟨before_nodup hnl, List.nodup_cons.mpr
        ⟨fun h => (joint_notMem hdisj).2 (after_made h), after_nodup hnr⟩, fun x hx hy => ?_⟩
      rcases List.mem_cons.mp hy with rfl | hy
      · exact (joint_notMem hdisj).1 (before_made hx)
      · exact hdisj (made_mem (before_made hx)).1 (made_mem (after_made hy)).1

theorem mem_keptBefore {e : Expr} {x : Link} (hnodup : e.kernels.Nodup) :
    x ∈ e.keptBefore ↔ x ∈ e.built.before ∧ x ∈ e.links := by
  induction e with
  | operand o => exact ⟨fun h => (nomatch h), fun h => (nomatch h.1)⟩
  | bin op l r ihl _ =>
      have hnl := (List.nodup_append'.mp (kernels_bin ▸ hnodup)).1
      show x ∈ l.keptBefore ++ _ ↔ x ∈ l.built.before ++ [joint op l r] ∧ _
      rw [List.mem_append, List.mem_append, List.mem_singleton, or_and_right, mem_tight_iff hnodup,
        ihl hnl]
      refine or_congr_left (and_congr_right fun h => ?_)
      rw [mem_links_left hnodup (made_mem (before_made h)).2]

theorem mem_keptAfter {e : Expr} {x : Link} (hnodup : e.kernels.Nodup) :
    x ∈ e.keptAfter ↔ x ∈ e.built.after ∧ x ∈ e.links := by
  induction e with
  | operand o => exact ⟨fun h => (nomatch h), fun h => (nomatch h.1)⟩
  | bin op l r _ ihr =>
      have hnr := (List.nodup_append'.mp (kernels_bin ▸ hnodup)).2.1
      show x ∈ _ ++ r.keptAfter ↔ x ∈ joint op l r :: r.built.after ∧ _
      rw [List.mem_append, List.mem_cons, or_and_right, mem_tight_iff hnodup, ihr hnr]
      refine or_congr_right (and_congr_right fun h => ?_)
      rw [mem_links_right hnodup (made_mem (after_made h)).1]

/-- **The kept links are those of the list that are written.** -/
theorem mem_kept {e : Expr} {x : Link} (hnodup : e.kernels.Nodup) :
    x ∈ e.kept ↔ x ∈ e.listed ∧ x ∈ e.links := by
  cases e with
  | operand o => exact ⟨fun h => (nomatch h), fun h => (nomatch h.1)⟩
  | bin op l r =>
      obtain ⟨hnl, hnr, -⟩ := List.nodup_append'.mp (kernels_bin ▸ hnodup)
      show x ∈ l.keptBefore ++ _ ++ r.keptAfter ↔
        x ∈ l.built.before ++ joint op l r :: r.built.after ∧ _
      rw [List.mem_append, List.mem_append, List.mem_append, List.mem_cons, mem_tight_iff hnodup,
        mem_keptBefore hnl, mem_keptAfter hnr, or_and_right, or_and_right, or_assoc]
      refine or_congr (and_congr_right fun h => ?_) (or_congr_right (and_congr_right fun h => ?_))
      · rw [mem_links_left hnodup (made_mem (before_made h)).2]
      · rw [mem_links_right hnodup (made_mem (after_made h)).1]

/-! ## Which name a link takes -/

theorem rightOperands_mem {e : Expr} {k : KernelId} (hk : k ∈ e.rightOperands) : k ∈ e.kernels := by
  induction e with
  | operand o => exact nomatch hk
  | bin op l r ihl ihr =>
      rw [kernels_bin, List.mem_append]
      rcases List.mem_append.mp hk with hk | hk
      · exact Or.inl (ihl hk)
      · split at hk
        · exact Or.inr hk
        · exact Or.inr (ihr hk)

section RightOperands

variable {op : Op} {l r : Expr} {k : KernelId} (hdisj : l.kernels.Disjoint r.kernels)

include hdisj

theorem rightOperands_left (hk : k ∈ l.kernels) :
    k ∈ (bin op l r).rightOperands ↔ k ∈ l.rightOperands := by
  refine ⟨fun h => ?_, fun h => List.mem_append_left _ h⟩
  rcases List.mem_append.mp h with h | h
  · exact h
  · split at h
    · exact absurd h (hdisj hk)
    · exact absurd (rightOperands_mem h) (hdisj hk)

theorem rightOperands_right (hk : k ∈ r.kernels) :
    k ∈ (bin op l r).rightOperands ↔ r.isPlain ∨ k ∈ r.rightOperands := by
  rw [rightOperands, List.mem_append]
  have hleft : k ∉ l.rightOperands := fun h => hdisj (rightOperands_mem h) hk
  cases hp : r.isPlain with
  | true => simp [hk]
  | false => simp [hleft]

end RightOperands

/-- The kernel at the left end of an expression, if that end is plain: an operator has taken one name
from it, unless it is the whole expression. -/
theorem uses_first {e : Expr} (hnodup : e.kernels.Nodup) (hp : e.startsPlain) :
    (e.uses e.first).length = (if e.isPlain then 0 else 1) ∧ e.first ∉ e.rightOperands := by
  cases e with
  | operand o => exact ⟨rfl, fun h => nomatch h⟩
  | bin op l r =>
      cases l with
      | bin _ _ _ => exact nomatch hp
      | operand o =>
          have hdisj := (List.nodup_append'.mp (kernels_bin ▸ hnodup)).2.2
          have hmem : o.id ∈ (operand o).kernels := List.mem_singleton_self _
          show ((bin op (operand o) r).uses o.id).length = 1 ∧ o.id ∉ _
          rw [uses_left hdisj hmem, rightOperands_left hdisj hmem]
          refine ⟨?_, fun h => nomatch h⟩
          show ([] ++ if o.id = o.id then [_] else []).length = 1
          rw [if_pos rfl]
          rfl

/-- The kernel at its right end likewise. -/
theorem uses_last {e : Expr} (hnodup : e.kernels.Nodup) (hp : e.endsPlain) :
    (e.uses e.last).length = (if e.isPlain then 0 else 1) ∧
      (e.last ∈ e.rightOperands ↔ ¬e.isPlain) := by
  cases e with
  | operand o => exact ⟨rfl, fun h => (nomatch h), fun h => absurd rfl h⟩
  | bin op l r =>
      cases r with
      | bin _ _ _ => exact nomatch hp
      | operand o =>
          have hdisj := (List.nodup_append'.mp (kernels_bin ▸ hnodup)).2.2
          have hmem : o.id ∈ (operand o).kernels := List.mem_singleton_self _
          show ((bin op l (operand o)).uses o.id).length = 1 ∧ (o.id ∈ _ ↔ _)
          rw [uses_right hdisj hmem, rightOperands_right hdisj hmem]
          refine ⟨?_, fun _ h => (nomatch h), fun _ => Or.inl rfl⟩
          show ([] ++ if o.id = o.id then [_] else []).length = 1
          rw [if_pos rfl]
          rfl

/-- **Which of its names a written link takes.** From a right operand the link before it takes the first
and the link after it the second; from a left operand it is the other way round. -/
theorem index_of_links {e : Expr} {x : Link} (hnodup : e.kernels.Nodup) (hm : x ∈ e.made)
    (hx : x ∈ e.links) :
    (e.uses x.dst).idxOf (x, .input) = (if x.dst ∈ e.rightOperands then 0 else 1) ∧
      (e.uses x.src).idxOf (x, .output) = if x.src ∈ e.rightOperands then 1 else 0 := by
  induction e with
  | operand o => exact nomatch hm
  | bin op l r ihl ihr =>
      obtain ⟨hnl, hnr, hdisj⟩ := List.nodup_append'.mp (kernels_bin ▸ hnodup)
      rcases List.mem_append.mp hm with hm | hm
      · rcases List.mem_append.mp hm with hm | hm
        · obtain ⟨hsrc, hdst⟩ := made_mem hm
          obtain ⟨husrc, hudst⟩ := uses_of_made hm
          obtain ⟨hin, hout⟩ := ihl hnl hm ((mem_links_left hnodup hdst).mp hx)
          simp only [rightOperands_left hdisj hdst, rightOperands_left hdisj hsrc]
          rw [uses_left hdisj hdst, uses_left hdisj hsrc, List.idxOf_append_of_mem hudst,
            List.idxOf_append_of_mem husrc]
          exact ⟨hin, hout⟩
        · obtain ⟨hsrc, hdst⟩ := made_mem hm
          obtain ⟨husrc, hudst⟩ := uses_of_made hm
          obtain ⟨hin, hout⟩ := ihr hnr hm ((mem_links_right hnodup hsrc).mp hx)
          have hplain : r.isPlain = false := by
            cases r with
            | operand o => exact nomatch hm
            | bin _ _ _ => rfl
          simp only [rightOperands_right hdisj hdst, rightOperands_right hdisj hsrc, hplain,
            Bool.false_eq_true, false_or]
          rw [uses_right hdisj hdst, uses_right hdisj hsrc, List.idxOf_append_of_mem hudst,
            List.idxOf_append_of_mem husrc]
          exact ⟨hin, hout⟩
      · obtain rfl := List.mem_singleton.mp hm
        obtain ⟨hends, hstarts⟩ := Bool.and_eq_true _ _ ▸ (joint_mem_links hnodup).mp hx
        have hlast : (joint op l r).src = l.last := (built_dst_iff hnl).mpr hends
        have hfirst : (joint op l r).dst = r.first := (built_src_iff hnr).mpr hstarts
        obtain ⟨hlen, hright⟩ := uses_first hnr hstarts
        obtain ⟨hlen', hright'⟩ := uses_last hnl hends
        have hnotl : (joint op l r, Side.output) ∉ l.uses l.last := fun h =>
          (joint_notMem hdisj).1 (made_of_uses h)
        have hnotr : (joint op l r, Side.input) ∉ r.uses r.first := fun h =>
          (joint_notMem hdisj).2 (made_of_uses h)
        rw [hfirst, hlast, uses_right hdisj r.first_mem, uses_left hdisj l.last_mem,
          if_pos (show r.first = r.built.src from hfirst.symm),
          if_pos (show l.last = l.built.dst from hlast.symm), List.idxOf_append_of_notMem hnotr,
          List.idxOf_append_of_notMem hnotl, List.idxOf_cons_self, List.idxOf_cons_self, hlen, hlen']
        simp only [rightOperands_right hdisj r.first_mem, rightOperands_left hdisj l.last_mem, hright,
          hright', or_false, Nat.add_zero, ite_not, and_self]

/-! ## Which names go to the right link -/

/-- The list gives `k` an input port at a link that is written. -/
def keptInto (e : Expr) (k : KernelId) : Bool := e.kept.any fun x => decide (x.dst = k)

/-- The list gives `k` an output port at a link that is written. -/
def keptOutOf (e : Expr) (k : KernelId) : Bool := e.kept.any fun x => decide (x.src = k)

/-- A single name belongs to an operand whose own operator is kept. Two names belong to one between two
kept links; and as a left operand gets them the wrong way round, they are the same there. -/
def FitsNames (e : Expr) (k : KernelId) : List PortKey → Prop
  | [] => True
  | [a] => a ≠ nullPortValue ∧ if k ∈ e.rightOperands then e.keptInto k else e.keptOutOf k
  | [a, b] => a ≠ nullPortValue ∧ b ≠ nullPortValue ∧ e.keptInto k ∧ e.keptOutOf k ∧
      (k ∈ e.rightOperands ∨ a = b)
  | _ => False

instance (e : Expr) (k : KernelId) : (names : List PortKey) → Decidable (e.FitsNames k names)
  | [] => .isTrue trivial
  | [a] => inferInstanceAs (Decidable (a ≠ nullPortValue ∧
      if k ∈ e.rightOperands then e.keptInto k else e.keptOutOf k))
  | [a, b] => inferInstanceAs (Decidable (a ≠ nullPortValue ∧ b ≠ nullPortValue ∧ e.keptInto k ∧
      e.keptOutOf k ∧ (k ∈ e.rightOperands ∨ a = b)))
  | _ :: _ :: _ :: _ => .isFalse id

/-- The names that the listed links have for input ports of `k`. -/
def inputs (e : Expr) (k : KernelId) : List PortKey :=
  e.listed.filterMap fun x => if x.dst = k then e.nameAt k (x, .input) else none

/-- The names that the listed links have for output ports of `k`. -/
def outputs (e : Expr) (k : KernelId) : List PortKey :=
  e.listed.filterMap fun x => if x.src = k then e.nameAt k (x, .output) else none

/-- The kernel for which a link is an input, or an output. -/
def endAt (x : Link) : Side → KernelId
  | .input => x.dst
  | .output => x.src

/-- The names that the listed links have for ports of `k` on one side: `inputs` or `outputs`. -/
def portNames (e : Expr) (k : KernelId) (s : Side) : List PortKey :=
  e.listed.filterMap fun x => if endAt x s = k then e.nameAt k (x, s) else none

/-- The place among the names of `k` from which a written link takes its own. -/
def place (e : Expr) (k : KernelId) : Side → Nat
  | .input => if k ∈ e.rightOperands then 0 else 1
  | .output => if k ∈ e.rightOperands then 1 else 0

/-- `NamesRight`, said of the links. -/
structure LinksRight (e : Expr) (k : KernelId) : Prop where
  taken : (e.namesOf k).drop (e.uses k).length = []
  distributed : e.Distributed k (e.inputs k) (e.outputs k) (e.namesOf k)
  srcRight : ∀ x ∈ e.listed, x.src = k → (e.nameAt k (x, .output)).isSome → x ∈ e.links
  dstRight : ∀ x ∈ e.listed, x.dst = k → (e.nameAt k (x, .input)).isSome → x ∈ e.links

section Place

variable {e : Expr} {k : KernelId} {x : Link} {a : PortKey} {s : Side} {u u' : Link × Side}

theorem nameAt_eq_some : e.nameAt k u = some a ↔
    (e.namesOf k)[(e.uses k).idxOf u]? = some a ∧ a ≠ nullPortValue := by
  unfold nameAt
  rw [Option.filter_eq_some_iff, decide_eq_true_eq]

/-- A place is taken once. -/
theorem eq_of_index (hu : u ∈ e.uses k) (h : (e.uses k).idxOf u' = (e.uses k).idxOf u) : u' = u :=
  ((List.idxOf_inj hu).mp h.symm).symm

theorem keptInto_iff : e.keptInto k ↔ ∃ x ∈ e.kept, endAt x .input = k := by
  simp [keptInto, endAt]

theorem keptOutOf_iff : e.keptOutOf k ↔ ∃ x ∈ e.kept, endAt x .output = k := by
  simp [keptOutOf, endAt]

/-- A kept link at `k`, with its place among the names of `k`. -/
theorem kept_at (hnodup : e.kernels.Nodup) (hx : x ∈ e.kept) (hk : endAt x s = k) :
    x ∈ e.listed ∧ x ∈ e.links ∧ (x, s) ∈ e.uses k ∧ (e.uses k).idxOf (x, s) = e.place k s := by
  obtain ⟨hlisted, hlinks⟩ := (mem_kept hnodup).mp hx
  obtain ⟨houtput, hinput⟩ := uses_of_made (listed_made hlisted)
  obtain ⟨hindexIn, hindexOut⟩ := index_of_links hnodup (listed_made hlisted) hlinks
  subst hk
  cases s with
  | input => exact ⟨hlisted, hlinks, hinput, hindexIn⟩
  | output => exact ⟨hlisted, hlinks, houtput, hindexOut⟩

/-- A link of the list that has a name is written, on either side. -/
theorem LinksRight.right (hright : e.LinksRight k) (hx : x ∈ e.listed) (hk : endAt x s = k)
    (hname : (e.nameAt k (x, s)).isSome) : x ∈ e.links := by
  cases s with
  | input => exact hright.dstRight x hx hk hname
  | output => exact hright.srcRight x hx hk hname

/-- A name that the list has for a port, at a written link, comes from a kept one. -/
theorem LinksRight.port (hright : e.LinksRight k) (hnodup : e.kernels.Nodup)
    (ha : a ∈ e.portNames k s) : (∃ x ∈ e.kept, endAt x s = k) ∧ a ≠ nullPortValue ∧
      (e.namesOf k)[e.place k s]? = some a := by
  obtain ⟨x, hx, hname⟩ := List.mem_filterMap.mp ha
  split at hname
  · rename_i hk
    have hlinks := hright.right hx hk (hname ▸ rfl)
    have hkept := (mem_kept hnodup).mpr ⟨hx, hlinks⟩
    obtain ⟨hget, hne⟩ := nameAt_eq_some.mp hname
    obtain ⟨-, -, -, hindex⟩ := kept_at hnodup hkept hk
    exact ⟨⟨x, hkept, hk⟩, hne, hindex ▸ hget⟩
  · exact nomatch hname

/-- If the names are right, they fit. -/
theorem LinksRight.fits (hright : e.LinksRight k) (hnodup : e.kernels.Nodup) :
    e.FitsNames k (e.namesOf k) := by
  have hd := hright.distributed
  have hport := fun (s : Side) (a : PortKey) (ha : a ∈ e.portNames k s) => hright.port hnodup ha
  rcases hn : e.namesOf k with _ | ⟨a, _ | ⟨b, _ | ⟨c, rest⟩⟩⟩ <;> rw [hn] at hd hport
  · trivial
  · rcases hd with ⟨hi, -, -⟩ | ⟨-, ho, -⟩
    · obtain ⟨hkept, hne, hget⟩ := hport .input a (List.mem_of_mem_head? (congrArg List.head? hi))
      -- the only name is taken first, so by the operator of a right operand
      by_cases hk : k ∈ e.rightOperands
      · exact ⟨hne, by rwa [if_pos hk, keptInto_iff]⟩
      · rw [place, if_neg hk] at hget
        exact nomatch hget
    · obtain ⟨hkept, hne, hget⟩ := hport .output a (List.mem_of_mem_head? (congrArg List.head? ho))
      by_cases hk : k ∈ e.rightOperands
      · rw [place, if_pos hk] at hget
        exact nomatch hget
      · exact ⟨hne, by rwa [if_neg hk, keptOutOf_iff]⟩
  · obtain ⟨hi, ho⟩ := hd
    obtain ⟨hkeptIn, hneA, hget⟩ := hport .input a (List.mem_of_mem_head? (congrArg List.head? hi))
    obtain ⟨hkeptOut, hneB, -⟩ := hport .output b (List.mem_of_mem_head? (congrArg List.head? ho))
    refine ⟨hneA, hneB, keptInto_iff.mpr hkeptIn, keptOutOf_iff.mpr hkeptOut, ?_⟩
    by_cases hk : k ∈ e.rightOperands
    · exact Or.inl hk
    · rw [place, if_neg hk] at hget
      exact Or.inr (Option.some_inj.mp hget).symm
  · exact hd

/-- Only as many links get a name as there are names. -/
theorem index_lt (hu : (e.nameAt k u).isSome) : (e.uses k).idxOf u < (e.namesOf k).length := by
  obtain ⟨a, ha⟩ := Option.isSome_iff_exists.mp hu
  exact (List.getElem?_eq_some_iff.mp (nameAt_eq_some.mp ha).1).1

/-- A name that the links have for `k` at one place only. -/
theorem portNames_eq (hnodup : e.kernels.Nodup) (hx : x ∈ e.listed) (hk : endAt x s = k)
    (hname : e.nameAt k (x, s) = some a)
    (honly : ∀ y, (e.nameAt k (y, s)).isSome → y = x) : e.portNames k s = [a] := by
  refine filterMap_eq_singleton (listed_nodup hnodup) hx (by rw [if_pos hk, hname]) fun y _ hy => ?_
  split at hy
  · exact honly y hy
  · exact nomatch hy

theorem portNames_nil (hnone : ∀ y, ¬(e.nameAt k (y, s)).isSome) : e.portNames k s = [] := by
  refine List.filterMap_eq_nil_iff.mpr fun y _ => ?_
  split
  · exact Option.not_isSome_iff_eq_none.mp (hnone y)
  · rfl

/-- A single name, at the link that takes the first one. -/
theorem LinksRight.single (hnodup : e.kernels.Nodup) (hn : e.namesOf k = [a])
    (ha : a ≠ nullPortValue) (hplace : e.place k s = 0) (hx : x ∈ e.kept) (hk : endAt x s = k) :
    e.LinksRight k := by
  obtain ⟨hlisted, hlinks, huse, hindex⟩ := kept_at hnodup hx hk
  rw [hplace] at hindex
  have honly : ∀ u, (e.nameAt k u).isSome → u = (x, s) := fun u hu => by
    have hlt := index_lt hu
    rw [hn, List.length_singleton] at hlt
    exact eq_of_index huse (by omega)
  have hname : e.nameAt k (x, s) = some a := nameAt_eq_some.mpr ⟨by rw [hn, hindex]; rfl, ha⟩
  have hthis : e.portNames k s = [a] :=
    portNames_eq hnodup hlisted hk hname fun y hy => congrArg Prod.fst (honly _ hy)
  have hends := links_ends hnodup hlinks
  constructor
  · rw [hn]
    exact List.drop_eq_nil_of_le (List.length_pos_of_mem huse)
  · rw [hn]
    subst hk
    cases s with
    | input =>
        have hother : e.portNames x.dst .output = [] := portNames_nil fun y hy => nomatch honly _ hy
        exact Or.inl ⟨hthis, hother, hends.1⟩
    | output =>
        have hother : e.portNames x.src .input = [] := portNames_nil fun y hy => nomatch honly _ hy
        exact Or.inr ⟨hother, hthis, hends.2⟩
  · intro y _ _ hy
    obtain rfl : y = x := congrArg Prod.fst (honly _ hy)
    exact hlinks
  · intro y _ _ hy
    obtain rfl : y = x := congrArg Prod.fst (honly _ hy)
    exact hlinks

/-- Two names, at the links on either side. -/
theorem LinksRight.both {b : PortKey} {y : Link} (hnodup : e.kernels.Nodup)
    (hn : e.namesOf k = [a, b]) (ha : a ≠ nullPortValue) (hb : b ≠ nullPortValue)
    (hside : k ∈ e.rightOperands ∨ a = b) (hx : x ∈ e.kept) (hk : endAt x .input = k)
    (hy : y ∈ e.kept) (hk' : endAt y .output = k) : e.LinksRight k := by
  obtain ⟨hlisted, hlinks, huse, hindex⟩ := kept_at hnodup hx hk
  obtain ⟨hlisted', hlinks', huse', hindex'⟩ := kept_at hnodup hy hk'
  simp only [place] at hindex hindex'
  -- the two links have the two places
  have honly : ∀ u, (e.nameAt k u).isSome → u = (x, .input) ∨ u = (y, .output) := fun u hu => by
    have hlt := index_lt hu
    rw [hn, List.length_cons, List.length_singleton] at hlt
    by_cases hin : (e.uses k).idxOf u = (e.uses k).idxOf (x, .input)
    · exact Or.inl (eq_of_index huse hin)
    · refine Or.inr (eq_of_index huse' ?_)
      rw [hindex] at hin
      rw [hindex']
      split at hin <;> split <;> first | omega | contradiction
  have hname : e.nameAt k (x, .input) = some a := by
    refine nameAt_eq_some.mpr ⟨?_, ha⟩
    rw [hn, hindex]
    rcases hside with hright | rfl
    · rw [if_pos hright]
      rfl
    · split <;> rfl
  have hname' : e.nameAt k (y, .output) = some b := by
    refine nameAt_eq_some.mpr ⟨?_, hb⟩
    rw [hn, hindex']
    rcases hside with hright | rfl
    · rw [if_pos hright]
      rfl
    · split <;> rfl
  have hinput : ∀ z, (e.nameAt k (z, .input)).isSome → z = x := fun z hz => by
    rcases honly _ hz with h | h
    · exact congrArg Prod.fst h
    · exact nomatch h
  have houtput : ∀ z, (e.nameAt k (z, .output)).isSome → z = y := fun z hz => by
    rcases honly _ hz with h | h
    · exact nomatch h
    · exact congrArg Prod.fst h
  constructor
  · have hlt := List.idxOf_lt_length_of_mem huse
    have hlt' := List.idxOf_lt_length_of_mem huse'
    rw [hindex] at hlt
    rw [hindex'] at hlt'
    rw [hn]
    refine List.drop_eq_nil_of_le ?_
    show 2 ≤ (e.uses k).length
    split at hlt <;> split at hlt' <;> omega
  · rw [hn]
    exact ⟨portNames_eq hnodup hlisted hk hname hinput,
      portNames_eq hnodup hlisted' hk' hname' houtput⟩
  · intro z _ _ hz
    exact houtput z hz ▸ hlinks'
  · intro z _ _ hz
    exact hinput z hz ▸ hlinks

/-- Names that fit are right. -/
theorem LinksRight.of_fits (hnodup : e.kernels.Nodup) (hfits : e.FitsNames k (e.namesOf k)) :
    e.LinksRight k := by
  rcases hn : e.namesOf k with _ | ⟨a, _ | ⟨b, _ | ⟨c, rest⟩⟩⟩ <;> rw [hn] at hfits
  · have hnone : ∀ u, ¬(e.nameAt k u).isSome := fun u hu => by
      have hlt := index_lt hu
      rw [hn] at hlt
      exact absurd hlt (Nat.not_lt_zero _)
    constructor
    · rw [hn]
      exact List.drop_nil
    · rw [hn]
      have hnil : ∀ s, e.portNames k s = [] := fun s => portNames_nil fun y => hnone _
      exact ⟨hnil .input, hnil .output⟩
    · exact fun y _ _ hy => absurd hy (hnone _)
    · exact fun y _ _ hy => absurd hy (hnone _)
  · obtain ⟨ha, hkept⟩ := hfits
    split at hkept
    · rename_i hright
      obtain ⟨x, hx, hk⟩ := keptInto_iff.mp hkept
      exact LinksRight.single (s := .input) hnodup hn ha (if_pos hright) hx hk
    · rename_i hleft
      obtain ⟨x, hx, hk⟩ := keptOutOf_iff.mp hkept
      exact LinksRight.single (s := .output) hnodup hn ha (if_neg hleft) hx hk
  · obtain ⟨ha, hb, hin, hout, hside⟩ := hfits
    obtain ⟨x, hx, hk⟩ := keptInto_iff.mp hin
    obtain ⟨y, hy, hk'⟩ := keptOutOf_iff.mp hout
    exact LinksRight.both hnodup hn ha hb hside hx hk hy hk'
  · exact hfits.elim

end Place

/-! ## The list of an expression -/

/-- What the evaluation leaves, with the names. -/
theorem eval_listed {op : Op} {l r : Expr} {h : Pairs} (hnodup : (bin op l r).kernels.Nodup)
    (hempty : ∀ k ∈ (bin op l r).kernels, (h.kernel k).enabledPort = [])
    (hfit : ∀ o ∈ (bin op l r).operands, Fits h o) :
    ∃ p h' ps, (bin op l r).eval.run h = .ok (.pair p) h' ∧ h'.ListFrom (h'.pair p).head ps ∧
      ps.map h'.link = (bin op l r).listed ∧ (∀ q ∈ ps, h.next ≤ q ∧ q < h'.next) ∧
      (∀ q ∈ ps, h'.named q = (bin op l r).named (h'.link q)) ∧ (bin op l r).Consumed h h' := by
  obtain ⟨v, h', hrun, hx, -⟩ := eval_run hnodup hfit
  have hc := eval_consumed hnodup hempty hfit hrun
  cases v with
  | kernel j => exact nomatch hx
  | pair p =>
      obtain ⟨pre, suf, hholds⟩ := hx
      refine ⟨p, h', pre ++ p :: suf, hrun, hholds.path, ?_, hholds.range, fun q hq => ?_, hc⟩
      · rw [List.map_append, List.map_cons, hholds.before, hholds.this, hholds.after]
        rfl
      · obtain ⟨hge, hlt⟩ := hholds.range q hq
        exact (hc.pairs q hge hlt).2

theorem namesOf_mem {e : Expr} (hnodup : e.kernels.Nodup) {o : Operand} (ho : o ∈ e.operands) :
    e.namesOf o.id = o.names := by
  induction e with
  | operand o' =>
      obtain rfl := List.mem_singleton.mp ho
      exact namesOf_operand _
  | bin op l r ihl ihr =>
      obtain ⟨hnl, hnr, hdisj⟩ := List.nodup_append'.mp (kernels_bin ▸ hnodup)
      rcases List.mem_append.mp ho with ho | ho
      · rw [namesOf_left hdisj (List.mem_map_of_mem ho), ihl hnl ho]
      · rw [namesOf_right hdisj (List.mem_map_of_mem ho), ihr hnr ho]

section Listed

variable {e : Expr} {h h' : Pairs} {ps : List KpairId} {k : KernelId}
  (hlinks : ps.map h'.link = e.listed) (hnamed : ∀ q ∈ ps, h'.named q = e.named (h'.link q))

include hlinks hnamed

theorem inputNames_eq : h'.inputNames ps k = e.inputs k := by
  unfold Pairs.inputNames inputs
  rw [← hlinks, List.filterMap_map]
  refine List.filterMap_congr fun q hq => ?_
  rw [hnamed q hq]
  show (if (h'.link q).dst = k then e.nameAt (h'.link q).dst _ else none) = _
  by_cases hk : (h'.link q).dst = k
  · rw [Function.comp_apply, if_pos hk, if_pos hk, hk]
  · rw [Function.comp_apply, if_neg hk, if_neg hk]

theorem outputNames_eq : h'.outputNames ps k = e.outputs k := by
  unfold Pairs.outputNames outputs
  rw [← hlinks, List.filterMap_map]
  refine List.filterMap_congr fun q hq => ?_
  rw [hnamed q hq]
  show (if (h'.link q).src = k then e.nameAt (h'.link q).src _ else none) = _
  by_cases hk : (h'.link q).src = k
  · rw [Function.comp_apply, if_pos hk, if_pos hk, hk]
  · rw [Function.comp_apply, if_neg hk, if_neg hk]

/-- What is said of the pairs is what is said of the links. -/
theorem namesRight_iff {o : Operand} (hnodup : e.kernels.Nodup) (ho : o ∈ e.operands)
    (hc : e.Consumed h h') : e.NamesRight h' ps o ↔ e.LinksRight o.id := by
  have hinputs : h'.inputNames ps o.id = e.inputs o.id := inputNames_eq hlinks hnamed
  have houtputs : h'.outputNames ps o.id = e.outputs o.id := outputNames_eq hlinks hnamed
  have hrest := hc.rest o.id (List.mem_map_of_mem ho)
  have hnames := namesOf_mem hnodup ho
  constructor
  · rintro ⟨htaken, hdist, hsrc, hdst⟩
    refine ⟨hrest ▸ htaken, ?_, fun x hx hk hname => ?_, fun x hx hk hname => ?_⟩
    · rw [hinputs, houtputs] at hdist
      rw [hnames]
      exact hdist
    · rw [← hlinks] at hx
      obtain ⟨q, hq, rfl⟩ := List.mem_map.mp hx
      refine hsrc q hq (by rw [hnamed q hq]; exact hk) ?_
      rw [hnamed q hq]
      show (e.nameAt (h'.link q).src _).isSome
      rwa [hk]
    · rw [← hlinks] at hx
      obtain ⟨q, hq, rfl⟩ := List.mem_map.mp hx
      refine hdst q hq (by rw [hnamed q hq]; exact hk) ?_
      rw [hnamed q hq]
      show (e.nameAt (h'.link q).dst _).isSome
      rwa [hk]
  · rintro ⟨htaken, hdist, hsrc, hdst⟩
    refine ⟨hrest ▸ htaken, ?_, fun q hq hk hname => ?_, fun q hq hk hname => ?_⟩
    · rw [hinputs, houtputs, ← hnames]
      exact hdist
    · rw [hnamed q hq] at hk hname
      exact hsrc _ (hlinks ▸ List.mem_map_of_mem hq) hk (hk ▸ hname)
    · rw [hnamed q hq] at hk hname
      exact hdst _ (hlinks ▸ List.mem_map_of_mem hq) hk (hk ▸ hname)

end Listed

/-- **The names in brackets go to the right links exactly if they fit.** Evaluated over distinct kernels
on which no names are queued yet, with at most two names behind each, an expression that type-checks
returns a pair. All names are taken by the list from the head of that pair on, each once, on its side
and at a link as it is written, if and only if, for each operand: it has no names; or it has a single
one and is the right operand of an operator and the link into it is kept, or a left operand and the link
out of it is kept; or it has two, both links are kept, and it is a right operand. -/
theorem names_right_iff {e : Expr} {h : Pairs} (htype : e.type = some .pair)
    (hnodup : e.kernels.Nodup) (hempty : ∀ o ∈ e.operands, (h.kernel o.id).enabledPort = [])
    (hlen : ∀ o ∈ e.operands, o.names.length ≤ 2) :
    ∃ p h', e.eval.run h = .ok (.pair p) h' ∧ (∃ ps, h'.ListFrom (h'.pair p).head ps) ∧
      ∀ ps, h'.ListFrom (h'.pair p).head ps →
        ((∀ o ∈ e.operands, e.NamesRight h' ps o) ↔ ∀ o ∈ e.operands, e.FitsNames o.id o.names) := by
  have hfit : ∀ o ∈ e.operands, Fits h o := fun o ho => by
    rw [Fits, hempty o ho, List.length_nil, Nat.zero_add]
    exact hlen o ho
  have hempty' : ∀ k ∈ e.kernels, (h.kernel k).enabledPort = [] := fun k hk => by
    obtain ⟨o, ho, rfl⟩ := List.mem_map.mp hk
    exact hempty o ho
  cases e with
  | operand o => cases o <;> cases htype
  | bin op l r =>
      obtain ⟨p, h', ps, hrun, hlist, hlinks, -, hnamed, hc⟩ := eval_listed hnodup hempty' hfit
      refine ⟨p, h', hrun, ⟨ps, hlist⟩, fun qs hqs => forall₂_congr fun o ho => ?_⟩
      obtain rfl := hlist.unique hqs
      rw [namesRight_iff hlinks hnamed hnodup ho hc, ← namesOf_mem hnodup ho]
      exact ⟨fun hright => hright.fits hnodup, LinksRight.of_fits hnodup⟩

/-- `0["out"] >> 1["in"]["out"] >> 2["in"]`. -/
def namedChain : Expr :=
  .bin .cont (.bin .cont (.operand (.kernel 0 ["out"])) (.operand (.kernel 1 ["in", "out"])))
    (.operand (.kernel 2 ["in"]))

/-- `0["out"] <= 1["in"]["out"] >> 2["in"]`, where `>>` binds more tightly. -/
def namedSplit : Expr :=
  .bin .split (.operand (.kernel 0 ["out"]))
    (.bin .cont (.operand (.kernel 1 ["in", "out"])) (.operand (.kernel 2 ["in"])))

theorem names_right_iff_chain :
    ∃ p h' ps, namedChain.eval.run noPairs = .ok (.pair p) h' ∧ h'.ListFrom (h'.pair p).head ps ∧
      ∀ o ∈ namedChain.operands, namedChain.NamesRight h' ps o := by
  obtain ⟨p, h', hrun, ⟨ps, hlist⟩, hiff⟩ :=
    names_right_iff (e := namedChain) (h := noPairs) (by decide) (by decide) (by decide) (by decide)
  exact ⟨p, h', ps, hrun, hlist, (hiff ps hlist).mpr (by decide)⟩

/-- **A split takes the two names of the kernel it leads to the wrong way round**: the link into the
kernel gets the name of its output port, and the link out of it that of its input port. -/
theorem namedSplit_swaps :
    namedSplit.type = some .pair ∧ namedSplit.kernels.Nodup ∧
      ∃ p h' ps, namedSplit.eval.run noPairs = .ok (.pair p) h' ∧
        h'.ListFrom (h'.pair p).head ps ∧ ps.map h'.link = namedSplit.links ∧
        ps.map h'.named = [⟨0, some "out", 1, some "out"⟩, ⟨1, some "in", 2, some "in"⟩] ∧
        ¬namedSplit.NamesRight h' ps (.kernel 1 ["in", "out"]) := by
  refine ⟨by decide, by decide, 1, _, [1, 0], rfl, ⟨rfl, rfl, rfl⟩, rfl, rfl, fun hright => ?_⟩
  obtain ⟨hin, -⟩ := hright.distributed
  exact absurd hin (by decide)

end Expr

end RaftLib.Graph
