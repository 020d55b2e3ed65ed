/-
# `RaftLib.Graph.DupExpr` -- which expressions are duplicated into a join

`a >> b >= j >> x >> y` is grouped as `( a >> b ) >= ( j >> x >> y )`, as `>>` binds more tightly. A `>=`
leads to the source of the last pair on its right, so with two kernels behind `j` or more `j` is in no
pair of the list, and gets nothing. In `( a >> b >= j ) >> x >> y` each operand is in the list where it is
written, and what becomes of it is what `RaftLib.Graph.DupJoin` says of the list.
-/
import RaftLib.Graph.DupJoin
import RaftLib.Graph.Names

namespace RaftLib.Graph

open RaftLib.Logic.Program

/-! ## The expressions -/

namespace Expr

/-- `e >> o >> …`, over the operands `os`. -/
def thenCont (e : Expr) (os : List Operand) : Expr :=
  os.foldl (fun e o => .bin .cont e (.operand o)) e

/-- `a >> … >= j >> …`, as it is grouped. -/
def dupJoin (a : Operand) (middle : List Operand) (j : Operand) (rest : List Operand) : Expr :=
  .bin .join ((operand a).thenCont middle) ((operand j).thenCont rest)

/-- `( a >> … >= j ) >> …`. -/
def dupJoinFirst (a : Operand) (middle : List Operand) (j : Operand) (rest : List Operand) : Expr :=
  (bin .join ((operand a).thenCont middle) (.operand j)).thenCont rest

/-- **`m += e` duplicates the kernels `ks` into the join `j`** with `rest` behind it: the expression is
evaluated, and `operator +=` goes through the pairs from the head of its value on. -/
def Duplicated (e : Expr) (h : Pairs) (w : World) (ks : List KernelId) (j : KernelId)
    (rest : List KernelId) : Prop :=
  ∃ p h' ps, e.eval.run h = .ok (.pair p) h' ∧ h'.ListFrom (h'.pair p).head ps ∧
    Duplicates w ks j rest (ps.map h'.pair)

end Expr

/-- `a >> b` links the one output port of `a` to the one input port of `b`, of the same type. -/
structure World.Follows (w : World) (a b : KernelId) : Prop where
  out : (w.ports a .output).Sole nullPortValue
  into : (w.ports b .input).Sole nullPortValue
  type : ∀ x ∈ (w.ports a .output).keys, ∀ y ∈ (w.ports b .input).keys,
    (w.info ⟨a, .output, x⟩).type = (w.info ⟨b, .input, y⟩).type

/-- The operands are different kernels that are not linked yet; `a` has no input; along `middle` and along
`rest` one port leads to one port, and the kernel in front of `j` has one output, of the type of all input
ports of `j`. -/
structure DupOperands (w : World) (a : KernelId) (middle : List KernelId) (j : KernelId)
    (rest : List KernelId) : Prop where
  apart : (a :: middle ++ j :: rest).Nodup
  lt : ∀ k ∈ a :: middle ++ j :: rest, k < w.next
  free : ∀ k ∈ a :: middle ++ j :: rest, ∀ s key, w.other ⟨k, s, key⟩ = none
  source : (w.ports a .input).keys = []
  front : (a :: middle).IsChain w.Follows
  out : (w.ports (middle.getLastD a) .output).Sole nullPortValue
  named : (w.ports j .input).Named
  pos : 0 < (w.ports j .input).count
  type : ∀ x ∈ (w.ports (middle.getLastD a) .output).keys, ∀ y ∈ (w.ports j .input).keys,
    (w.info ⟨middle.getLastD a, .output, x⟩).type = (w.info ⟨j, .input, y⟩).type
  behind : (j :: rest).IsChain w.Follows

/-! ## Pairs without names -/

/-- A pair of two kernels without names in brackets. -/
def Kpair.Nameless (x : Kpair) : Prop := x.srcName = nullPortValue ∧ x.dstName = nullPortValue

/-- The flags of a pair say whether it has names. -/
def Kpair.Tagged (x : Kpair) : Prop :=
  x.hasSrcName = decide (x.srcName ≠ nullPortValue) ∧ x.hasDstName = decide (x.dstName ≠ nullPortValue)

/-- The pairs made since the number `n` was the next one are tagged. -/
def Pairs.TaggedFrom (n : KpairId) (h : Pairs) : Prop := ∀ q, n ≤ q → q < h.next → (h.pair q).Tagged

section Tagged

variable {n : KpairId}

theorem Kpair.Tagged.nameless {x : Kpair} (h : x.Tagged) (hsrc : x.named.srcName = none)
    (hdst : x.named.dstName = none) : x.Nameless := by
  obtain ⟨hs, hd⟩ := h
  simp only [Kpair.named, ite_eq_right_iff, reduceCtorEq, imp_false] at hsrc hdst
  rw [hs] at hsrc
  rw [hd] at hdst
  constructor
  · simpa using hsrc
  · simpa using hdst

theorem getEnabledPort_tagged (k : KernelId) : Preserves (Pairs.TaggedFrom n) (getEnabledPort k) := by
  intro h hh
  obtain ⟨name, h', hrun, hpair, hnext, -⟩ := getEnabledPort_run h k
  rw [hrun]
  intro q hge hlt
  rw [hpair]
  exact hh q hge (hnext ▸ hlt)

theorem make_tagged (a b : KernelId) : Preserves (Pairs.TaggedFrom n) (Kpair.make a b) := by
  unfold Kpair.make
  refine (getEnabledPort_tagged a).bind fun srcName => (getEnabledPort_tagged b).bind fun dstName => ?_
  intro h hh q hge hlt
  by_cases hq : q = h.next
  · subst hq
    simp [Pairs.setPair, Kpair.Tagged]
  · have hlt' : q < h.next := Nat.lt_of_le_of_ne (Nat.le_of_lt_succ hlt) hq
    simpa [Pairs.setPair, hq] using hh q hge hlt'

/-- What the constructors write into pairs is no name. -/
theorem modifyPair_tagged (p : KpairId) {f : Kpair → Kpair} (hf : ∀ x : Kpair, x.Tagged → (f x).Tagged) :
    Preserves (Pairs.TaggedFrom n) (Kpair.modifyPair p f) := by
  refine preserves_modify fun h hh q hge hlt => ?_
  rw [Pairs.setPair_pair]
  split
  · rename_i hq
    exact hf _ (hq ▸ hh q hge hlt)
  · exact hh q hge hlt

theorem modifyPair_bind_tagged {α : Type} {p : KpairId} {f : Kpair → Kpair} {x : PairProg α}
    (hf : ∀ x : Kpair, x.Tagged → (f x).Tagged) (hx : Preserves (Pairs.TaggedFrom n) x) :
    Preserves (Pairs.TaggedFrom n) (Kpair.modifyPair p f >>= fun _ => x) :=
  (modifyPair_tagged p hf).bind fun _ => hx

theorem apply_tagged (op : Op) (v w : Value) : Preserves (Pairs.TaggedFrom n) (op.apply v w) := by
  cases v with
  | kernel a =>
      cases w with
      | kernel b =>
          refine (make_tagged a b).bind fun this => ?_
          exact modifyPair_bind_tagged (by exact fun _ hx => hx) (preserves_pure _)
      | pair b =>
          refine preserves_get.bind fun h => (make_tagged a _).bind fun this => ?_
          exact modifyPair_bind_tagged (by exact fun _ hx => hx) (preserves_pure _)
  | pair a =>
      cases w with
      | kernel b =>
          refine preserves_get.bind fun h => (make_tagged _ b).bind fun this => ?_
          refine preserves_get.bind fun h => ?_
          refine modifyPair_bind_tagged (by exact fun _ hx => hx) ?_
          refine modifyPair_bind_tagged (by exact fun _ hx => hx) ?_
          exact modifyPair_bind_tagged (by exact fun _ hx => hx) (preserves_pure _)
      | pair b =>
          refine preserves_get.bind fun h => preserves_get.bind fun h => ?_
          refine (make_tagged _ _).bind fun this => preserves_get.bind fun h => ?_
          refine modifyPair_bind_tagged (by exact fun _ hx => hx) ?_
          refine modifyPair_bind_tagged (by exact fun _ hx => hx) ?_
          refine modifyPair_bind_tagged (by exact fun _ hx => hx) ?_
          exact modifyPair_bind_tagged (by exact fun _ hx => hx) (preserves_pure _)

theorem bracket_tagged (k : KernelId) (name : PortKey) :
    Preserves (Pairs.TaggedFrom n) (bracket k name) :=
  preserves_get.bind fun _ => Preserves.ite (preserves_modify fun _ hs => hs) (preserves_throw _)

/-- **The flags are right in all pairs that an expression makes.** -/
theorem eval_tagged (e : Expr) : Preserves (Pairs.TaggedFrom n) e.eval := by
  induction e with
  | operand o =>
      refine Preserves.bind ?_ fun _ => preserves_pure _
      induction o.names with
      | nil => exact preserves_pure _
      | cons name names ih => exact (bracket_tagged o.id name).bind fun _ => ih
  | bin op l r ihl ihr =>
      exact ihl.bind fun a => ihr.bind fun b => (apply_tagged op a b).bind fun _ => preserves_pure _

end Tagged

namespace Expr

section Nameless

variable {e : Expr} {h h' : Pairs} {p : KpairId} {ps : List KpairId} {w : World}
variable {ks rest : List KernelId} {j : KernelId}

/-- No names in brackets, neither behind the operands nor left over in their kernels. -/
def Plain (h : Pairs) (o : Operand) : Prop := o.names = [] ∧ (h.kernel o.id).enabledPort = []

theorem namesOf_plain (hplain : ∀ o ∈ e.operands, o.names = []) (k : KernelId) : e.namesOf k = [] := by
  induction e with
  | operand o =>
      rw [namesOf, hplain o (List.mem_singleton_self o)]
      split <;> rfl
  | bin op l r ihl ihr =>
      rw [namesOf, ihl fun o ho => hplain o (List.mem_append_left _ ho),
        ihr fun o ho => hplain o (List.mem_append_right _ ho), List.append_nil]

/-- **The pairs of an expression without names** are nameless, and have the links that are listed. -/
theorem eval_nameless (he : e.isPlain = false) (hnodup : e.kernels.Nodup)
    (hplain : ∀ o ∈ e.operands, Plain h o) :
    ∃ p h' ps, e.eval.run h = .ok (.pair p) h' ∧ h'.ListFrom (h'.pair p).head ps ∧
      ps.map h'.link = e.listed ∧ ∀ q ∈ ps, (h'.pair q).Nameless := by
  have hempty : ∀ k ∈ e.kernels, (h.kernel k).enabledPort = [] := by
    intro k hk
    obtain ⟨o, ho, rfl⟩ := List.mem_map.mp hk
    exact (hplain o ho).2
  have hfit : ∀ o ∈ e.operands, Fits h o := by
    intro o ho
    rw [Fits, (hplain o ho).1, (hplain o ho).2]
    exact Nat.zero_le 2
  have hnone : ∀ k use, e.nameAt k use = none := by
    intro k use
    rw [nameAt, namesOf_plain fun o ho => (hplain o ho).1]
    rfl
  cases e with
  | operand o => cases he
  | bin op l r =>
  obtain ⟨p, h', ps, hrun, hlist, hlinks, hrange, hnamed, -⟩ := eval_listed hnodup hempty hfit
  have htagged : h'.TaggedFrom h.next := (eval_tagged _).ok
    (fun q hge hlt => absurd hlt (Nat.not_lt.mpr hge)) hrun
  refine ⟨p, h', ps, hrun, hlist, hlinks, fun q hq => ?_⟩
  have hq' : (h'.pair q).named = (bin op l r).named (h'.link q) := hnamed q hq
  apply (htagged q (hrange q hq).1 (hrange q hq).2).nameless
  · rw [hq']
    exact hnone _ _
  · rw [hq']
    exact hnone _ _

/-- There is one list for an expression. -/
theorem duplicated_iff (hrun : e.eval.run h = .ok (.pair p) h')
    (hlist : h'.ListFrom (h'.pair p).head ps) :
    e.Duplicated h w ks j rest ↔ Duplicates w ks j rest (ps.map h'.pair) := by
  constructor
  · rintro ⟨p', m, qs, hrun', hlist', hdup⟩
    rw [hrun] at hrun'
    cases hrun'
    rwa [hlist.unique hlist']
  · intro hdup
    exact ⟨p, h', ps, hrun, hlist, hdup⟩

end Nameless

/-! ## The links of the list -/

/-- The links of `k >> …`, over the kernels `ks`. -/
def contLinks : KernelId → List KernelId → List Link
  | _, [] => []
  | k, l :: ks => Op.cont.link k l :: contLinks l ks

section Links

variable {op : Op} {e l : Expr} {o f : Operand} {os : List Operand} {k : KernelId}
variable {ks : List KernelId} {x : Link}

theorem contLinks_mem (hx : x ∈ contLinks k ks) : x.src ∈ k :: ks ∧ x.dst ∈ ks := by
  induction ks generalizing k with
  | nil => cases hx
  | cons l ks ih =>
      rcases List.mem_cons.mp hx with rfl | hx
      · exact ⟨List.mem_cons_self, List.mem_cons_self⟩
      · exact ⟨List.mem_cons_of_mem k (ih hx).1, List.mem_cons_of_mem l (ih hx).2⟩

theorem thenCont_concat : e.thenCont (os ++ [o]) = bin .cont (e.thenCont os) (operand o) := by
  simp [thenCont, List.foldl_append]

theorem thenCont_isPlain (he : e.isPlain = false) : (e.thenCont os).isPlain = false := by
  induction os using List.reverseRecOn with
  | nil => exact he
  | append_singleton os o ih => rw [thenCont_concat, isPlain]

theorem thenCont_operands : (e.thenCont os).operands = e.operands ++ os := by
  induction os using List.reverseRecOn with
  | nil => exact (List.append_nil _).symm
  | append_singleton os o ih => rw [thenCont_concat, operands, ih, List.append_assoc, operands]

/-- A continued expression is given on with all its links before it, -/
theorem thenCont_left : (e.thenCont os).built.before =
      e.built.before ++ contLinks e.built.dst (os.map Operand.id) ∧
    (e.thenCont os).built.dst = (os.map Operand.id).getLastD e.built.dst := by
  induction os generalizing e with
  | nil => simp [thenCont, contLinks]
  | cons o os ih =>
      obtain ⟨hbefore, hdst⟩ := ih (e := bin .cont e (operand o))
      constructor
      · refine hbefore.trans ?_
        show (e.built.before ++ [Op.cont.link e.built.dst o.id]) ++ _ = _
        rw [List.append_assoc]
        rfl
      · rw [List.map_cons, List.getLastD_cons]
        exact hdst

/-- and the last one of them is what comes after it on the right of an operator. -/
theorem thenCont_right : (e.thenCont (os ++ [o])).built.src = (os.map Operand.id).getLastD e.built.dst ∧
    (e.thenCont (os ++ [o])).built.after =
      [Op.cont.link ((os.map Operand.id).getLastD e.built.dst) o.id] := by
  rw [thenCont_concat, ← thenCont_left.2]
  exact ⟨rfl, rfl⟩

/-- The list of an operator that is continued. -/
theorem thenCont_listed : ((bin op l (operand o)).thenCont os).listed =
    l.built.before ++ op.link l.built.dst o.id :: contLinks o.id (os.map Operand.id) := by
  have hlisted : ((bin op l (operand o)).thenCont os).listed =
      ((bin op l (operand o)).thenCont os).built.before := by
    rcases List.eq_nil_or_concat os with rfl | ⟨os, f, rfl⟩
    · rfl
    · rw [List.concat_eq_append, thenCont_concat]
      rfl
  rw [hlisted, thenCont_left.1]
  show (l.built.before ++ [op.link l.built.dst o.id]) ++ _ = _
  rw [List.append_assoc]
  rfl

end Links

end Expr

/-! ## The list that is written -/

/-- The link that a pair stands for. -/
def Kpair.link (x : Kpair) : Link := ⟨x.src, x.dst, x.splitTo, x.joinFrom⟩

section Chain

variable {w : World} {a j k : KernelId} {middle rest ks : List KernelId} {xs : List Kpair}

open Expr (contLinks contLinks_mem)

/-- The join is none of the other operands. -/
theorem DupOperands.ne (ho : DupOperands w a middle j rest) :
    (∀ k ∈ a :: middle, k ≠ j) ∧ ∀ k ∈ rest, k ≠ j := by
  obtain ⟨-, hnodup, hdisj⟩ := List.nodup_append.mp ho.apart
  constructor
  · intro k hk
    exact hdisj k hk j List.mem_cons_self
  · rintro k hk rfl
    exact (List.nodup_cons.mp hnodup).1 hk

/-- Nameless pairs that continue, over kernels that follow one another. -/
theorem conts_of_links (hlinks : xs.map Kpair.link = contLinks k ks) (hnames : ∀ x ∈ xs, x.Nameless)
    (hks : (k :: ks).IsChain w.Follows) :
    Conts w k xs (ks.getLastD k) ∧ xs.map Kpair.dst = ks ∧ ∀ x ∈ xs, w.Follows x.src x.dst := by
  induction ks generalizing k xs with
  | nil =>
      obtain rfl := List.map_eq_nil_iff.mp hlinks
      exact ⟨.nil k, rfl, fun x hx => nomatch hx⟩
  | cons l ks ih =>
      obtain ⟨x, xs, rfl, hx, hxs⟩ := List.map_eq_cons_iff.mp hlinks
      obtain ⟨hfollows, hks⟩ := List.isChain_cons_cons.mp hks
      obtain ⟨hsrcName, hdstName⟩ := hnames x List.mem_cons_self
      obtain ⟨hconts, hdst, hall⟩ := ih hxs (fun y hy => hnames y (List.mem_cons_of_mem x hy)) hks
      simp only [Kpair.link, Op.link, Link.mk.injEq] at hx
      obtain ⟨rfl, rfl, hs, hj⟩ := hx
      refine ⟨?_, by rw [List.map_cons, hdst], List.forall_mem_cons.mpr ⟨hfollows, hall⟩⟩
      rw [List.getLastD_cons]
      exact .cons hs hj (hsrcName ▸ hfollows.out) (hdstName ▸ hfollows.into) hconts

/-- **Nameless pairs with the links that are written** are a chain as `RaftLib.Graph.DupJoin` has it. -/
theorem dupChain_of_links (ho : DupOperands w a middle j rest) (hnames : ∀ x ∈ xs, x.Nameless)
    (hlinks : xs.map Kpair.link =
      contLinks a middle ++ Op.join.link (middle.getLastD a) j :: contLinks j rest) :
    ∃ front q behind, xs = front ++ q :: behind ∧ DupChain w a front q behind ∧
      Loose w a (front ++ q :: behind) ∧ front.map Kpair.dst = middle ∧ q.dst = j ∧
      behind.map Kpair.dst = rest := by
  obtain ⟨front, ys, rfl, hfront, hys⟩ := List.map_eq_append_iff.mp hlinks
  obtain ⟨q, behind, rfl, hq, hbehind⟩ := List.map_eq_cons_iff.mp hys
  obtain ⟨hconts, hmiddle, hfollows⟩ := conts_of_links hfront
    (fun x hx => hnames x (List.mem_append_left _ hx)) ho.front
  obtain ⟨hrest, hdst, hfollows'⟩ := conts_of_links hbehind
    (fun x hx => hnames x (List.mem_append_right _ (List.mem_cons_of_mem q hx))) ho.behind
  obtain ⟨hsrcName, -⟩ := hnames q (List.mem_append_right _ List.mem_cons_self)
  simp only [Kpair.link, Op.link, Link.mk.injEq] at hq
  obtain ⟨hsrc, rfl, hs, hj⟩ := hq
  rw [← hsrc] at hconts
  have hall : (front ++ q :: behind).map Kpair.dst = middle ++ q.dst :: rest := by
    rw [List.map_append, List.map_cons, hmiddle, hdst]
  -- every pair leads from one of the operands to another
  have hmem : ∀ x ∈ front ++ q :: behind, x.src ∈ a :: middle ++ q.dst :: rest := by
    intro x hx
    have hlink : x.link ∈ (front ++ q :: behind).map Kpair.link := List.mem_map_of_mem hx
    rw [hlinks] at hlink
    rcases List.mem_append.mp hlink with hlink | hlink
    · exact List.mem_append_left _ (contLinks_mem hlink).1
    rcases List.mem_cons.mp hlink with hlink | hlink
    · have hlast : x.src = middle.getLastD a := congrArg Link.src hlink
      rw [hlast]
      exact List.mem_append_left _ List.getLastD_mem_cons
    · exact List.mem_append_right _ (contLinks_mem hlink).1
  refine ⟨front, q, behind, rfl, ⟨ho.source, hconts, hs, hj, ?_, ho.named, ho.pos, _, hrest⟩,
    ⟨?_, ?_, fun x hx => ⟨?_, ?_⟩, fun x hx => ?_, ?_, ?_⟩, hmiddle, rfl, hdst⟩
  · rw [hsrc, hsrcName]
    exact ho.out
  · rw [hall]
    exact ho.apart
  · exact ho.lt a List.mem_cons_self
  · exact ho.lt _ (hmem x hx)
  · apply ho.lt
    rw [List.cons_append, ← hall]
    exact List.mem_cons_of_mem a (List.mem_map_of_mem hx)
  · rcases List.mem_append.mp hx with hx | hx
    · exact (hfollows x hx).type
    rcases List.mem_cons.mp hx with rfl | hx
    · rw [hsrc]
      exact ho.type
    · exact (hfollows' x hx).type
  · exact fun key => ho.free a List.mem_cons_self .output key
  · intro k hk
    rw [hall] at hk
    exact ho.free k (List.mem_cons_of_mem a hk)

end Chain

/-! ## Which expressions are duplicated -/

namespace Expr

section Expressions

variable {a j f : Operand} {middle rest os : List Operand} {h : Pairs} {w : World}

theorem dupJoinFirst_operands : (dupJoinFirst a middle j rest).operands = a :: middle ++ j :: rest := by
  simp [dupJoinFirst, thenCont_operands, operands]

theorem dupJoin_operands : (dupJoin a middle j rest).operands = a :: middle ++ j :: rest := by
  simp [dupJoin, thenCont_operands, operands]

/-- In parentheses the chain is in the list as it is written, -/
theorem dupJoinFirst_listed : (dupJoinFirst a middle j rest).listed =
    contLinks a.id (middle.map Operand.id) ++ Op.join.link ((middle.map Operand.id).getLastD a.id) j.id ::
      contLinks j.id (rest.map Operand.id) := by
  rw [dupJoinFirst, thenCont_listed, thenCont_left.1, thenCont_left.2]
  rfl

/-- and without them the join is linked to the kernel before the last. -/
theorem dupJoin_listed : (dupJoin a middle j (os ++ [f])).listed =
    contLinks a.id (middle.map Operand.id) ++
      [Op.join.link ((middle.map Operand.id).getLastD a.id) ((os.map Operand.id).getLastD j.id),
        Op.cont.link ((os.map Operand.id).getLastD j.id) f.id] := by
  show ((operand a).thenCont middle).built.before ++
    Op.join.link ((operand a).thenCont middle).built.dst ((operand j).thenCont (os ++ [f])).built.src ::
      ((operand j).thenCont (os ++ [f])).built.after = _
  rw [thenCont_left.1, thenCont_left.2, thenCont_right.1, thenCont_right.2]
  rfl

/-- With two kernels behind it the join is in no link. -/
theorem left_out {g : Operand} {x : Kpair}
    (ho : DupOperands w a.id (middle.map Operand.id) j.id ((os ++ [g] ++ [f]).map Operand.id))
    (hx : x.link ∈ (dupJoin a middle j (os ++ [g] ++ [f])).listed) : x.src ≠ j.id ∧ x.dst ≠ j.id := by
  obtain ⟨hfront, hrest⟩ := ho.ne
  have hg : g.id ∈ (os ++ [g] ++ [f]).map Operand.id := by simp
  have hf : f.id ∈ (os ++ [g] ++ [f]).map Operand.id := by simp
  have hlast : ((os ++ [g]).map Operand.id).getLastD j.id = g.id := by
    rw [List.map_append, List.map_singleton, List.getLastD_concat]
  rw [dupJoin_listed, hlast] at hx
  rcases List.mem_append.mp hx with hx | hx
  · obtain ⟨hsrc, hdst⟩ := contLinks_mem hx
    exact ⟨hfront _ hsrc, hfront _ (List.mem_cons_of_mem _ hdst)⟩
  rcases List.mem_cons.mp hx with hx | hx
  · obtain ⟨hsrc, hdst⟩ : x.src = _ ∧ x.dst = g.id := ⟨congrArg Link.src hx, congrArg Link.dst hx⟩
    rw [hsrc, hdst]
    exact ⟨hfront _ List.getLastD_mem_cons, hrest _ hg⟩
  · have hx := List.mem_singleton.mp hx
    obtain ⟨hsrc, hdst⟩ : x.src = g.id ∧ x.dst = f.id := ⟨congrArg Link.src hx, congrArg Link.dst hx⟩
    rw [hsrc, hdst]
    exact ⟨hrest _ hg, hrest _ hf⟩

variable (ho : DupOperands w a.id (middle.map Operand.id) j.id (rest.map Operand.id))
variable (hclone : 1 < (w.ports j.id .input).count → ∀ o ∈ a :: middle, (w.kernel o.id).cloneable = true)
include ho hclone

/-- **A list of pairs as it is written.** -/
theorem written_duplicates_iff {xs : List Kpair} (hnames : ∀ x ∈ xs, x.Nameless)
    (hlinks : xs.map Kpair.link = (dupJoinFirst a middle j rest).listed) :
    Duplicates w ((a :: middle).map Operand.id) j.id (rest.map Operand.id) xs ↔
      middle.length ≤ 1 ∨ (w.ports j.id .input).count = 1 := by
  rw [dupJoinFirst_listed] at hlinks
  obtain ⟨front, q, behind, rfl, hd, hl, hfront, hq, hbehind⟩ := dupChain_of_links ho hnames hlinks
  have hclone' : 1 < (w.ports q.dst .input).count →
      ∀ k ∈ a.id :: front.map Kpair.dst, (w.kernel k).cloneable = true := by
    intro hmany k hk
    rw [hfront, ← List.map_cons] at hk
    obtain ⟨o, hmem, rfl⟩ := List.mem_map.mp hk
    exact hclone (hq ▸ hmany) o hmem
  have hiff := chain_duplicates_iff hd hl hclone'
  have hlength : front.length = middle.length := by
    rw [← List.length_map (f := Kpair.dst), hfront, List.length_map]
  rwa [hfront, hq, hbehind, hlength] at hiff

variable (hplain : ∀ o ∈ a :: middle ++ j :: rest, Plain h o)
include hplain

omit hclone in
/-- The pairs that `operator +=` is given. -/
theorem eval_pairs {e : Expr} (he : e.isPlain = false) (hops : e.operands = a :: middle ++ j :: rest) :
    ∃ xs : List Kpair, xs.map Kpair.link = e.listed ∧ (∀ x ∈ xs, x.Nameless) ∧ ∀ ks k ls,
      e.Duplicated h w ks k ls ↔ Duplicates w ks k ls xs := by
  have hnodup : e.kernels.Nodup := by
    rw [kernels, hops, List.map_append, List.map_cons, List.map_cons]
    exact ho.apart
  obtain ⟨p, h', ps, hrun, hlist, hlinks, hnames⟩ := eval_nameless he hnodup (hops ▸ hplain)
  refine ⟨ps.map h'.pair, ?_, fun x hx => ?_, fun ks k ls => duplicated_iff hrun hlist⟩
  · rw [List.map_map]
    exact hlinks
  · obtain ⟨q, hq, rfl⟩ := List.mem_map.mp hx
    exact hnames q hq

/-- With the part up to the join in parentheses. -/
theorem dupJoinFirst_duplicated_iff :
    (dupJoinFirst a middle j rest).Duplicated h w ((a :: middle).map Operand.id) j.id
        (rest.map Operand.id) ↔
      middle.length ≤ 1 ∨ (w.ports j.id .input).count = 1 := by
  obtain ⟨xs, hlinks, hnames, hiff⟩ := eval_pairs (e := dupJoinFirst a middle j rest) ho hplain
    (thenCont_isPlain rfl) dupJoinFirst_operands
  exact (hiff _ _ _).trans (written_duplicates_iff ho hclone hnames hlinks)

/-- As it is written. -/
theorem dupJoin_duplicated_iff :
    (dupJoin a middle j rest).Duplicated h w ((a :: middle).map Operand.id) j.id
        (rest.map Operand.id) ↔
      (middle.length ≤ 1 ∨ (w.ports j.id .input).count = 1) ∧ rest.length ≤ 1 := by
  rcases List.eq_nil_or_concat rest with rfl | ⟨os, f, rfl⟩
  · -- nothing behind the join: the two expressions are one
    exact (dupJoinFirst_duplicated_iff ho hclone hplain).trans (by simp)
  rw [List.concat_eq_append] at ho hplain ⊢
  obtain ⟨xs, hlinks, hnames, hiff⟩ := eval_pairs (e := dupJoin a middle j (os ++ [f])) ho hplain rfl
    dupJoin_operands
  rw [hiff]
  rcases List.eq_nil_or_concat os with rfl | ⟨os, g, rfl⟩
  · refine (written_duplicates_iff ho hclone hnames ?_).trans (by simp)
    rw [hlinks, dupJoinFirst_listed, dupJoin_listed]
    rfl
  · rw [List.concat_eq_append] at ho hlinks ⊢
    have hmem : j.id ∈ a.id :: middle.map Operand.id ++ j.id :: (os ++ [g] ++ [f]).map Operand.id :=
      List.mem_append_right _ List.mem_cons_self
    refine iff_of_false (not_duplicates_of_notMem (ho.lt _ hmem) ho.pos (ho.free _ hmem .input) ?_) ?_
    · intro x hx
      exact left_out ho (hlinks ▸ List.mem_map_of_mem hx)
    · rintro ⟨-, hlen⟩
      simp at hlen

end Expressions

end Expr

/-- **Which chains into a join are duplicated.** As it is written, `a >> … >= j >> …` is exactly if there
are at most two kernels in front of the join or the join has one input port, and there is at most one
kernel behind it. With the part up to the join in parentheses the number of those behind it does not
matter. -/
theorem duplicates_iff {a j : Operand} {middle rest : List Operand} {h : Pairs} {w : World}
    (ho : DupOperands w a.id (middle.map Operand.id) j.id (rest.map Operand.id))
    (hclone : 1 < (w.ports j.id .input).count →
      ∀ o ∈ a :: middle, (w.kernel o.id).cloneable = true)
    (hplain : ∀ o ∈ a :: middle ++ j :: rest, Expr.Plain h o) :
    ((Expr.dupJoin a middle j rest).Duplicated h w ((a :: middle).map Operand.id) j.id
        (rest.map Operand.id) ↔
      (middle.length ≤ 1 ∨ (w.ports j.id .input).count = 1) ∧ rest.length ≤ 1) ∧
    ((Expr.dupJoinFirst a middle j rest).Duplicated h w ((a :: middle).map Operand.id) j.id
        (rest.map Operand.id) ↔
      middle.length ≤ 1 ∨ (w.ports j.id .input).count = 1) :=
  ⟨Expr.dupJoin_duplicated_iff ho hclone hplain, Expr.dupJoinFirst_duplicated_iff ho hclone hplain⟩

/-- Kernel `0` is a source, `3` has two input ports and one output port, `5` one input port, and the
others one port on each side. -/
def joinOfTwo : World where
  kernel := fun
    | 0 => { className := "a", input := .empty, output := .one "out" }
    | 3 => { className := "d", input := twoPorts, output := .one "out" }
    | 5 => { className := "y", input := .one "in", output := .empty }
    | _ => { className := "b", input := .one "in", output := .one "out" }
  info := fun _ => { type := "int" }
  next := 6

theorem follows_joinOfTwo {a b : KernelId} (ha : (joinOfTwo.ports a .output).keys = ["out"])
    (hb : (joinOfTwo.ports b .input).keys = ["in"]) : joinOfTwo.Follows a b where
  out := ⟨"out", ha, .inr ⟨rfl, ha⟩⟩
  into := ⟨"in", hb, .inr ⟨rfl, hb⟩⟩
  type _ _ _ _ := rfl

theorem dupOperands_joinOfTwo {middle rest : List KernelId} (apart : (0 :: middle ++ 3 :: rest).Nodup)
    (lt : ∀ k ∈ 0 :: middle ++ 3 :: rest, k < 6) (front : (0 :: middle).IsChain joinOfTwo.Follows)
    (out : (joinOfTwo.ports (middle.getLastD 0) .output).keys = ["out"])
    (behind : (3 :: rest).IsChain joinOfTwo.Follows) : DupOperands joinOfTwo 0 middle 3 rest where
  apart := apart
  lt := lt
  free _ _ _ _ := rfl
  source := rfl
  front := front
  out := ⟨"out", out, .inr ⟨rfl, out⟩⟩
  named := named_twoPorts
  pos := Nat.two_pos
  type _ _ _ _ := rfl
  behind := behind

theorem plain_noPairs {os : List Operand} (hos : ∀ o ∈ os, o.names = []) :
    ∀ o ∈ os, Expr.Plain Expr.noPairs o := fun o ho => ⟨hos o ho, rfl⟩

theorem isChain_joinOfTwo {a b : KernelId} {ks : List KernelId}
    (ha : (joinOfTwo.ports a .output).keys = ["out"]) (hb : (joinOfTwo.ports b .input).keys = ["in"])
    (h : (b :: ks).IsChain joinOfTwo.Follows) : (a :: b :: ks).IsChain joinOfTwo.Follows :=
  .cons_cons (follows_joinOfTwo ha hb) h

/-- `a >> b >= d >> x`, and `( a >> b >= d ) >> x >> y`. -/
theorem duplicates_iff_short :
    (Expr.dupJoin (.kernel 0 []) [.kernel 1 []] (.kernel 3 []) [.kernel 4 []]).Duplicated Expr.noPairs
      joinOfTwo [0, 1] 3 [4] ∧
    (Expr.dupJoinFirst (.kernel 0 []) [.kernel 1 []] (.kernel 3 [])
      [.kernel 4 [], .kernel 5 []]).Duplicated Expr.noPairs joinOfTwo [0, 1] 3 [4, 5] := by
  have hfront : [0, 1].IsChain joinOfTwo.Follows := isChain_joinOfTwo rfl rfl (.singleton 1)
  have hone : [3, 4].IsChain joinOfTwo.Follows := isChain_joinOfTwo rfl rfl (.singleton 4)
  have htwo : [3, 4, 5].IsChain joinOfTwo.Follows :=
    isChain_joinOfTwo rfl rfl (isChain_joinOfTwo rfl rfl (.singleton 5))
  constructor
  · refine (duplicates_iff (dupOperands_joinOfTwo ?_ ?_ hfront rfl hone) ?_ (plain_noPairs ?_)).1.mpr
      ⟨.inl le_rfl, le_rfl⟩ <;> decide
  · refine (duplicates_iff (dupOperands_joinOfTwo ?_ ?_ hfront rfl htwo) ?_ (plain_noPairs ?_)).2.mpr
      (.inl le_rfl) <;> decide

/-- **Two ways to get no copies, or too few**: in `a >> b >> c >= d` two copies are to be made of three
kernels, and one kernel is left out; in `a >= d >> x >> y` `a` is linked to `x`, and `d` is left out. -/
theorem long_not_duplicated :
    DupOperands joinOfTwo 0 [1, 2] 3 [] ∧ DupOperands joinOfTwo 0 [] 3 [4, 5] ∧
    (∀ k, (joinOfTwo.kernel k).cloneable = true) ∧
    (Expr.dupJoin (.kernel 0 []) [.kernel 1 [], .kernel 2 []] (.kernel 3 []) []).type = some .pair ∧
    ¬(Expr.dupJoin (.kernel 0 []) [.kernel 1 [], .kernel 2 []] (.kernel 3 []) []).Duplicated Expr.noPairs
      joinOfTwo [0, 1, 2] 3 [] ∧
    (Expr.dupJoin (.kernel 0 []) [] (.kernel 3 []) [.kernel 4 [], .kernel 5 []]).type = some .pair ∧
    ¬(Expr.dupJoin (.kernel 0 []) [] (.kernel 3 []) [.kernel 4 [], .kernel 5 []]).Duplicated Expr.noPairs
      joinOfTwo [0] 3 [4, 5] := by
  have hfront : [0, 1, 2].IsChain joinOfTwo.Follows :=
    isChain_joinOfTwo rfl rfl (isChain_joinOfTwo rfl rfl (.singleton 2))
  have htwo : [3, 4, 5].IsChain joinOfTwo.Follows :=
    isChain_joinOfTwo rfl rfl (isChain_joinOfTwo rfl rfl (.singleton 5))
  have hlong : DupOperands joinOfTwo 0 [1, 2] 3 [] :=
    dupOperands_joinOfTwo (by decide) (by decide) hfront rfl (.singleton 3)
  have hbehind : DupOperands joinOfTwo 0 [] 3 [4, 5] :=
    dupOperands_joinOfTwo (by decide) (by decide) (.singleton 0) rfl htwo
  have hclone : ∀ k, (joinOfTwo.kernel k).cloneable = true := by
    intro k
    unfold joinOfTwo
    dsimp only
    split <;> rfl
  refine ⟨hlong, hbehind, hclone, rfl, fun h => ?_, rfl, fun h => ?_⟩
  · obtain ⟨hshort, -⟩ := Iff.mp (Expr.dupJoin_duplicated_iff (by exact hlong)
      (by exact fun _ o _ => hclone o.id) (plain_noPairs (by decide))) h
    exact absurd hshort (by decide)
  · obtain ⟨-, hone⟩ := Iff.mp (Expr.dupJoin_duplicated_iff (by exact hbehind)
      (by exact fun _ o _ => hclone o.id) (plain_noPairs (by decide))) h
    exact absurd hone (by decide)

end RaftLib.Graph
