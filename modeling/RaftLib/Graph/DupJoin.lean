/-
# `RaftLib.Graph.DupJoin` -- which lists of pairs are duplicated into a join

`a >> b >= j` with no split stands for as many copies of `a >> b` as `j` has input ports (`Duplicates`).
`inline_dup_join` walks from the head of the list of pairs to the pair of the join, but its loop stops
after one pair, so that a copy has two kernels at most. The kernels that were made are counted in every
run that returns; that is enough to tell. Here the list is the one that is written; what it is for an
expression, `RaftLib.Graph.DupExpr` has.
-/
import RaftLib.Graph.NestedSplit

namespace RaftLib.Graph

open RaftLib.Logic.Program

/-! ## Chains that are joined without a split -/

/-- From `k` to `last` the pairs continue, over kernels with one output and one input port. -/
inductive Conts (w : World) : KernelId → List Kpair → KernelId → Prop
  | nil (k : KernelId) : Conts w k [] k
  | cons {p : Kpair} {chain : List Kpair} {last : KernelId} (hs : p.splitTo = false)
      (hj : p.joinFrom = false) (hout : (w.ports p.src .output).Sole p.srcName)
      (hin : (w.ports p.dst .input).Sole p.dstName) (rest : Conts w p.dst chain last) :
      Conts w p.src (p :: chain) last

/-- `front` leads from `src`, which has no input, to the source of `q`, which joins; `rest` goes on
behind the join. -/
structure DupChain (w : World) (src : KernelId) (front : List Kpair) (q : Kpair) (rest : List Kpair) :
    Prop where
  source : (w.ports src .input).keys = []
  front : Conts w src front q.src
  split : q.splitTo = false
  join : q.joinFrom = true
  out : (w.ports q.src .output).Sole q.srcName
  named : (w.ports q.dst .input).Named
  pos : 0 < (w.ports q.dst .input).count
  rest : ∃ last, Conts w q.dst rest last

/-- The operands are different kernels, with one type where they are linked, and not linked yet. -/
structure Loose (w : World) (src : KernelId) (chain : List Kpair) : Prop where
  apart : (src :: chain.map Kpair.dst).Nodup
  start : src < w.next
  lt : ∀ p ∈ chain, p.src < w.next ∧ p.dst < w.next
  type : ∀ p ∈ chain, ∀ a ∈ (w.ports p.src .output).keys, ∀ b ∈ (w.ports p.dst .input).keys,
    (w.info ⟨p.src, .output, a⟩).type = (w.info ⟨p.dst, .input, b⟩).type
  source : ∀ key, w.other ⟨src, .output, key⟩ = none
  free : ∀ k ∈ chain.map Kpair.dst, ∀ s key, w.other ⟨k, s, key⟩ = none

/-! ## What such a chain stands for -/

/-- The ports on one side of the kernels, in order. -/
def World.portsOf (w : World) (s : Side) (ks : List KernelId) : List PortRef :=
  ks.flatMap fun k => ends s (w.ports k s).keys [k]

/-- The input ports that the outputs of the copies belong to: inside of a copy those of the next kernel,
and at its end one of the ports `keys` of `d`. -/
def World.entries (w : World) (d : KernelId) (copies : List (List KernelId)) (keys : List PortKey) :
    List PortRef :=
  (copies.zip keys).flatMap fun x => w.portsOf .input x.1.tail ++ [⟨d, .input, x.2⟩]

/-- `copies` are the kernels `ks` and copies of all of them, disjoint, and no other kernel was made. -/
structure Copies (w w' : World) (ks : List KernelId) (copies : List (List KernelId)) : Prop where
  first : copies.head? = some ks
  like : ∀ cs ∈ copies, List.Forall₂ (w.Like w') ks cs
  apart : copies.flatten.Nodup
  fresh : ∀ cs ∈ copies.tail, ∀ c ∈ cs, w.next ≤ c
  made : ∀ k, w.next ≤ k → k < w'.next → k ∈ copies.flatten

/-- **`operator +=` duplicates the kernels `ks` into the join `j`** with `rest` behind it: it returns;
there are as many copies of `ks` as `j` has input ports; the connections made are those inside of each
copy, from each copy to a port of its own, and along `rest`; and no port of a copy is left free. -/
def Duplicates (w : World) (ks : List KernelId) (j : KernelId) (rest : List KernelId)
    (chain : List Kpair) : Prop :=
  ∃ r w' copies, (addAssign chain).run w = .ok r w' ∧
    copies.length = (w.ports j .input).count ∧
    Copies w w' ks copies ∧
    w.Built w' (copies.flatMap (w'.portsOf .output) ++ w'.portsOf .output (j :: rest).dropLast)
      (w'.entries j copies (w.ports j .input).keys ++ w'.portsOf .input rest) ∧
    ∀ c ∈ copies.flatten, ∀ s, ∀ key ∈ (w'.ports c s).keys, w'.other ⟨c, s, key⟩ ≠ none

/-- A join that is in no pair gets nothing. -/
theorem not_duplicates_of_notMem {w : World} {ks rest : List KernelId} {j : KernelId}
    {chain : List Kpair} (hj : j < w.next) (hpos : 0 < (w.ports j .input).count)
    (hfree : ∀ key, w.other ⟨j, .input, key⟩ = none) (hnot : ∀ p ∈ chain, p.src ≠ j ∧ p.dst ≠ j) :
    ¬Duplicates w ks j rest chain := by
  rintro ⟨r, w', copies, hrun, hcount, -, hbuilt, -⟩
  obtain ⟨key, keys, hkeys⟩ := List.exists_cons_of_length_pos hpos
  obtain ⟨cs, copies, rfl⟩ := List.exists_cons_of_length_pos (hcount ▸ hpos)
  have hspares : Spares j w w' := by
    refine ((spares_discipline j).addAssign_along fun p hp => ⟨⟨?_, hj⟩, ?_, hj⟩).ok hrun |>.1
    · exact (hnot p hp).1
    · exact (hnot p hp).2
  refine hbuilt.ne_none (r := ⟨j, .input, key⟩) (.inr (List.mem_append_left _ ?_)) ?_
  · rw [hkeys, World.entries, List.zip_cons_cons, List.flatMap_cons]
    simp
  · rw [hspares.other, hfree]

/-! ## The steps of the loop -/

section Steps

variable {s : AddState} {p : Kpair} {k : KernelId}

/-- A pair that continues from one kernel is linked as it is. -/
theorem step_cont (hgroups : s.groups = [[k]]) (hs : p.splitTo = false) (hj : p.joinFrom = false) :
    s.step p = joink p >>= fun _ => pure (s.finish { tempGroups := [[p.dst]], next := p }) := by
  unfold AddState.step nextLinkType
  rw [hs, hj, hgroups]
  simp [inlineCont, contKernel, Groups.pushEmpty, Groups.firstEmpty, Groups.emplaceFirst]

/-- A pair that joins with no split open. -/
theorem step_dupJoin (hgroups : s.groups = [[k]]) (hstack : s.stack = []) (hs : p.splitTo = false)
    (hj : p.joinFrom = true) : s.step p = inlineDupJoin [[k]] p s.head >>= fun r =>
      pure (AddState.finish
        { s with
          groups := r.1
          retKernelPair := { s.retKernelPair with source := [] }
          initialized := false
          head := r.2.2 } r.2.1) := by
  unfold AddState.step nextLinkType
  rw [hs, hj, hgroups, hstack]
  simp

/-- One pass for the first port, the others in a loop. -/
theorem inlineDupJoin_run {w : World} {head : Option Kpair} {key : PortKey} {keys : List PortKey}
    (hkeys : (w.ports p.dst .input).keys = key :: keys) :
    (inlineDupJoin [[k]] p head).run w = (joink { p with dstName := key, hasDstName := true } >>= fun _ =>
      keys.foldlM dupPort
        { gp := [k], next := { p with dstName := key, hasDstName := true }, head := head } >>= fun l =>
      pure ([l.gp], { tempGroups := [[p.dst]], next := l.next }, l.head)).run w := by
  unfold inlineDupJoin
  simp [hkeys]

end Steps

/-! ## Counting the kernels made -/

section Counting

/-- Where `x` returns, it has made `n` kernels, and the value meets `Q`. -/
def Makes {α : Type} (n : Nat) (x : Prog α) (Q : α → Prop) : Prop :=
  ∀ m, Triple (fun w => w.next = m) x (fun a w => Q a ∧ w.next = m + n) (fun _ _ => True)

variable {α β : Type} {n n' : Nat} {Q : α → Prop} {R : β → Prop}
variable {s : AddState} {p : Kpair} {chain : List Kpair} {k last : KernelId}

theorem Makes.ok {x : Prog α} (h : Makes n x Q) {w w' : World} {a : α} (hx : x.run w = .ok a w') :
    Q a ∧ w'.next = w.next + n :=
  (h w.next).ok rfl hx

theorem makes_pure {a : α} (h : Q a) : Makes 0 (pure a) Q := fun _ _ hw => ⟨h, hw⟩

theorem Makes.bind {x : Prog α} {f : α → Prog β} (hx : Makes n x Q)
    (hf : ∀ a, Q a → Makes n' (f a) R) : Makes (n + n') (x >>= f) R := by
  intro m
  refine triple_bind (hx m) fun a w ⟨ha, hw⟩ => ?_
  rw [← Nat.add_assoc]
  exact hf a ha (m + n) w hw

theorem makes_foldlM {f : β → α → Prog β} (hf : ∀ b a, R b → Makes n (f b a) R) (l : List α) {b : β}
    (hb : R b) : Makes (l.length * n) (l.foldlM f b) R := by
  induction l generalizing b with
  | nil =>
      rw [List.length_nil, Nat.zero_mul]
      exact makes_pure hb
  | cons a l ih =>
      rw [List.foldlM_cons, List.length_cons, Nat.succ_mul, Nat.add_comm]
      exact (hf b a hb).bind fun _ => ih

/-- A call makes no kernel, -/
theorem makes_link (t : Order) (a : KernelId) (aPort : PortKey) (b : KernelId) (bPort : PortKey)
    (buffer : Nat) : Makes 0 (link t a aPort b bPort buffer) fun _ => True := by
  intro m w hw
  rcases link_run (w := w) t a aPort b bPort buffer with ⟨e, hrun⟩ | ⟨ra, rb, -, -, -, -, -, hrun⟩
  · rw [hrun]
    trivial
  · rw [hrun]
    exact ⟨trivial, hw⟩

theorem makes_joink (p : Kpair) : Makes 0 (joink p) fun _ => True :=
  (makes_link _ _ _ _ _ _).bind fun _ _ => makes_pure trivial

/-- and `clone` makes one. -/
theorem makes_clone (k : KernelId) : Makes 1 (clone k) fun _ => True := by
  intro m w hw
  rcases clone_run (w := w) k with ⟨-, hrun⟩ | ⟨-, e, hrun⟩
  · rw [hrun]
    exact ⟨trivial, congrArg (· + 1) hw⟩
  · rw [hrun]
    trivial

/-- **A pass of the loop over the input ports** makes two kernels, however long the chain is. -/
theorem makes_dupPort {l : DupLocals} (hl : l.head.isSome) (name : PortKey) :
    Makes 2 (dupPort l name) fun l' => l'.head.isSome := by
  obtain ⟨head, hhead⟩ := Option.isSome_iff_exists.mp hl
  unfold dupPort
  rw [hhead]
  show Makes (1 + (1 + (0 + (0 + 0)))) _ _
  refine (makes_clone _).bind fun src _ => (makes_clone _).bind fun dst _ => ?_
  exact (makes_joink _).bind fun _ _ => (makes_joink _).bind fun _ _ => makes_pure rfl

theorem makes_inlineDupJoin {w w' : World} {head : Option Kpair} (hhead : head.isSome)
    {r : Groups × Locals × Option Kpair} (hrun : (inlineDupJoin [[k]] p head).run w = .ok r w') :
    r.2.1.tempGroups = [[p.dst]] ∧ w'.next = w.next + ((w.ports p.dst .input).count - 1) * 2 := by
  cases hkeys : (w.ports p.dst .input).keys with
  | nil =>
      unfold inlineDupJoin at hrun
      simp [hkeys] at hrun
  | cons key keys =>
      rw [inlineDupJoin_run hkeys] at hrun
      have hmakes := (makes_joink { p with dstName := key, hasDstName := true }).bind fun _ _ =>
        (makes_foldlM (fun _ name hl => makes_dupPort hl name) keys
          (b := ⟨[k], { p with dstName := key, hasDstName := true }, head⟩) hhead).bind fun l _ =>
            makes_pure (Q := fun r : Groups × Locals × Option Kpair => r.2.1.tempGroups = [[p.dst]])
              (a := ([l.gp], ⟨[[p.dst]], l.next⟩, l.head)) rfl
      rw [PortMap.count, hkeys, List.length_cons, Nat.add_sub_cancel]
      simpa using hmakes.ok hrun

theorem makes_conts {w : World} (hc : Conts w k chain last) (hgroups : s.groups = [[k]]) :
    Makes 0 (chain.foldlM AddState.step s) fun _ => True := by
  induction hc generalizing s with
  | nil => exact makes_pure trivial
  | cons hs hj _ _ _ ih =>
      rw [List.foldlM_cons, step_cont hgroups hs hj, bind_assoc]
      show Makes (0 + 0) _ _
      refine (makes_joink _).bind fun _ _ => ?_
      rw [pure_bind]
      exact ih rfl

end Counting

/-! ## Ports along the chain -/

section Ports

variable {w w' : World} {s : Side} {ks : List KernelId} {k src last : KernelId} {key : PortKey}
variable {as bs : List PortRef} {r : PortRef} {p : Kpair} {chain : List Kpair}

theorem World.mem_portsOf :
    r ∈ w.portsOf s ks ↔ r.kernel ∈ ks ∧ r.side = s ∧ r.key ∈ (w.ports r.kernel s).keys := by
  unfold portsOf
  simp only [List.mem_flatMap, mem_ends, List.mem_singleton]
  constructor
  · rintro ⟨k, hk, rfl, hs, hkey⟩
    exact ⟨hk, hs, hkey⟩
  · rintro ⟨hk, hs, hkey⟩
    exact ⟨r.kernel, hk, rfl, hs, hkey⟩

theorem World.portsOf_cons (h : (w.ports k s).keys = [key]) :
    w.portsOf s (k :: ks) = ⟨k, s, key⟩ :: w.portsOf s ks := by
  unfold portsOf
  rw [List.flatMap_cons, h, ends_singleton]
  rfl

theorem World.Built.portsOf (h : w.Built w' as bs) (hlt : ∀ k ∈ ks, k < w.next) :
    w'.portsOf s ks = w.portsOf s ks := by
  unfold World.portsOf
  refine List.flatMap_congr fun k hk => ?_
  rw [h.ports (hlt k hk)]

theorem Conts.eq (h : Conts w k [] last) : k = last := by
  cases h
  rfl

theorem Conts.uncons (h : Conts w k (p :: chain) last) :
    p.src = k ∧ (w.ports p.src .output).Sole p.srcName ∧ (w.ports p.dst .input).Sole p.dstName ∧
      Conts w p.dst chain last := by
  cases h with
  | cons _ _ hout hin rest => exact ⟨rfl, hout, hin, rest⟩

theorem Conts.built (hc : Conts w k chain last) (h : w.Built w' as bs)
    (hlt : ∀ p ∈ chain, p.src < w.next ∧ p.dst < w.next) : Conts w' k chain last := by
  induction hc with
  | nil k => exact .nil k
  | cons hs hj hout hin _ ih =>
      obtain ⟨hsrc, hdst⟩ := hlt _ List.mem_cons_self
      refine .cons hs hj ?_ ?_ (ih fun q hq => hlt q (List.mem_cons_of_mem _ hq))
      · rw [h.ports hsrc]
        exact hout
      · rw [h.ports hdst]
        exact hin

theorem Loose.tail (h : Loose w src (p :: chain)) : Loose w p.dst chain where
  apart := (List.nodup_cons.mp h.apart).2
  start := (h.lt p List.mem_cons_self).2
  lt q hq := h.lt q (List.mem_cons_of_mem p hq)
  type q hq := h.type q (List.mem_cons_of_mem p hq)
  source key := h.free p.dst List.mem_cons_self _ key
  free k hk := h.free k (List.mem_cons_of_mem _ hk)

/-- Connections elsewhere leave a chain as loose as it was. -/
theorem Loose.built (h : Loose w src chain) (hb : w.Built w' as bs)
    (hsrc : ∀ key, ⟨src, .output, key⟩ ∉ as ∧ ⟨src, .output, key⟩ ∉ bs)
    (hdst : ∀ r : PortRef, r.kernel ∈ chain.map Kpair.dst → r ∉ as ∧ r ∉ bs) : Loose w' src chain where
  apart := h.apart
  start := h.start.trans_le hb.next
  lt q hq := ⟨(h.lt q hq).1.trans_le hb.next, (h.lt q hq).2.trans_le hb.next⟩
  type q hq a ha b hb' := by
    obtain ⟨hlt, hlt'⟩ := h.lt q hq
    rw [hb.ports hlt] at ha
    rw [hb.ports hlt'] at hb'
    rw [hb.type _ hlt, hb.type _ hlt']
    exact h.type q hq a ha b hb'
  source key := (hb.off _ h.start (hsrc key).1 (hsrc key).2).trans (h.source key)
  free k hk s key := by
    obtain ⟨q, hq, rfl⟩ := List.mem_map.mp hk
    have hoff := hdst ⟨q.dst, s, key⟩ hk
    rw [hb.off _ (h.lt q hq).2 hoff.1 hoff.2]
    exact h.free _ hk s key

/-- **A pair links** two free ports that its names find. -/
theorem joink_returns {n : Kpair} {a b : PortKey} (ha : (w.ports n.src .output).Resolves n.srcName a)
    (hb : (w.ports n.dst .input).Resolves n.dstName b) (hsrc : n.src < w.next) (hdst : n.dst < w.next)
    (hfa : w.other ⟨n.src, .output, a⟩ = none) (hfb : w.other ⟨n.dst, .input, b⟩ = none)
    (htype : (w.info ⟨n.src, .output, a⟩).type = (w.info ⟨n.dst, .input, b⟩).type) :
    Returns (joink n) (fun _ w' => w.Built w' [⟨n.src, .output, a⟩] [⟨n.dst, .input, b⟩] ∧
      w'.next = w.next) w := by
  unfold joink
  exact (link_of_resolves (a := ⟨n.src, .output, a⟩) (b := ⟨n.dst, .input, b⟩) rfl rfl ha hb hsrc hdst
    hfa hfb htype _ _).bind fun _ w' ⟨hbuilt, hnext, _⟩ => returns_pure ⟨hbuilt, hnext⟩

/-- **Along pairs that continue** the kernels are linked as they are written. -/
theorem conts_returns {s : AddState} {more : List Kpair} (hc : Conts w k chain last)
    (hl : Loose w k (chain ++ more)) (hgroups : s.groups = [[k]]) :
    Returns (chain.foldlM AddState.step s) (fun s' w' => s'.groups = [[last]] ∧ s'.stack = s.stack ∧
      s'.head = s.head.or chain.head? ∧ w.Built w' (w.portsOf .output (chain.map Kpair.src))
        (w.portsOf .input (chain.map Kpair.dst)) ∧ w'.next = w.next ∧ Loose w' last more) w := by
  induction chain generalizing w k s with
  | nil =>
      cases hc
      exact returns_pure ⟨hgroups, rfl, by simp, .refl w, rfl, hl⟩
  | cons p chain ih =>
      cases hc with
      | cons hs hj hout hin rest =>
      obtain ⟨a, hkeysa, ha⟩ := hout
      obtain ⟨b, hkeysb, hb⟩ := hin
      have hmem : p ∈ p :: chain ++ more := List.mem_cons_self
      have hdst : p.dst ∈ (p :: chain ++ more).map Kpair.dst := List.mem_map_of_mem hmem
      obtain ⟨hlt, hlt'⟩ := hl.lt p hmem
      rw [List.foldlM_cons, step_cont hgroups hs hj, bind_assoc]
      refine (joink_returns ha hb hlt hlt' (hl.source a) (hl.free _ hdst _ b)
        (hl.type p hmem a ha.mem b hb.mem)).bind fun _ w₁ ⟨hbuilt, hnext⟩ => ?_
      rw [pure_bind]
      -- the rest of the chain has nothing to do with the new connection
      have hl₁ : Loose w₁ p.dst (chain ++ more) := by
        refine hl.tail.built hbuilt (fun key => ?_) fun r hr => ?_
        · have hne := (List.nodup_cons.mp hl.apart).1
          simp only [List.mem_singleton, PortRef.mk.injEq]
          exact ⟨fun h => hne (h.1 ▸ hdst), fun h => nomatch h.2.1⟩
        · simp only [List.mem_singleton]
          constructor
          · rintro rfl
            exact (List.nodup_cons.mp hl.apart).1 (List.mem_cons_of_mem _ hr)
          · rintro rfl
            exact (List.nodup_cons.mp hl.tail.apart).1 hr
      have hrest : Conts w₁ p.dst chain last :=
        rest.built hbuilt fun q hq => hl.lt q (List.mem_cons_of_mem p (List.mem_append_left more hq))
      refine (ih hrest hl₁ rfl).conseq fun s' w' ⟨hg, hstack, hhead, hb', hnext', hl'⟩ =>
        ⟨hg, hstack, ?_, ?_, hnext'.trans hnext, hl'⟩
      · rw [hhead]
        cases hh : s.head <;> simp [AddState.finish, hh]
      · have htrans := hbuilt.trans hb'
        rw [hbuilt.portsOf, hbuilt.portsOf] at htrans
        · rw [List.map_cons, List.map_cons, World.portsOf_cons hkeysa, World.portsOf_cons hkeysb]
          exact htrans
        · simp only [List.mem_map]
          rintro _ ⟨q, hq, rfl⟩
          exact (hl.lt q (List.mem_cons_of_mem p (List.mem_append_left more hq))).2
        · simp only [List.mem_map]
          rintro _ ⟨q, hq, rfl⟩
          exact (hl.lt q (List.mem_cons_of_mem p (List.mem_append_left more hq))).1

end Ports

/-! ## The loop over the input ports -/

/-- The kernels of the copy that the next one is made from. -/
def DupLocals.held (l : DupLocals) : List KernelId :=
  match l.head with
  | some head => [head.src, head.dst]
  | none => [l.next.src]

/-- From `w` to `w'` the kernels `ks` of `w₀` were copied, to `cs`, and the copies linked in order. -/
structure NewCopy (w₀ w w' : World) (ks cs : List KernelId) : Prop where
  like : List.Forall₂ (w₀.Like w') ks cs
  range : cs = List.range' w.next ks.length
  next : w'.next = w.next + ks.length
  built : w.Built w' (w'.portsOf .output cs.dropLast) (w'.portsOf .input cs.tail)

/-- The ports `done` of the join have a copy of the chain each. -/
structure Joined (w₀ w : World) (ks : List KernelId) (q : Kpair) (done : List PortKey)
    (copies : List (List KernelId)) : Prop where
  made : Copies w₀ w ks copies
  count : copies.length = done.length
  built : w₀.Built w (copies.flatMap (w.portsOf .output)) (w.entries q.dst copies done)

/-- Where `inline_dup_join` is when it has been through the ports `done`. -/
structure DupState (w₀ w : World) (ks : List KernelId) (q : Kpair) (done : List PortKey)
    (copies : List (List KernelId)) (l : DupLocals) : Prop extends
    Joined w₀ w ks q done copies where
  held : copies.getLast? = some l.held
  dst : l.next.dst = q.dst
  srcName : l.next.srcName = q.srcName

/-- What the join needs of its two kernels. -/
structure Joins (w₀ : World) (ks : List KernelId) (q : Kpair) (a : PortKey) : Prop where
  last : ks.getLast? = some q.src
  lt : q.dst < w₀.next
  not_mem : q.dst ∉ ks
  keys : (w₀.ports q.src .output).keys = [a]
  out : (w₀.ports q.src .output).Resolves q.srcName a
  named : (w₀.ports q.dst .input).Named
  type : ∀ b ∈ (w₀.ports q.dst .input).keys,
    (w₀.info ⟨q.src, .output, a⟩).type = (w₀.info ⟨q.dst, .input, b⟩).type
  free : ∀ key, w₀.other ⟨q.dst, .input, key⟩ = none

section Copying

variable {w₀ w w₁ w' : World} {ks cs : List KernelId} {keys done : List PortKey} {q : Kpair}
variable {copies : List (List KernelId)} {l : DupLocals} {a key : PortKey} {c d : KernelId}
variable {as bs : List PortRef} {r : PortRef}

theorem World.mem_entries (h : r ∈ w.entries d copies keys) :
    r.side = .input ∧ (r.kernel ∈ copies.flatten ∨ r.kernel = d ∧ r.key ∈ keys) := by
  obtain ⟨⟨cs, key⟩, hmem, hr⟩ := List.mem_flatMap.mp h
  obtain ⟨hcs, hkey⟩ := List.of_mem_zip hmem
  rcases List.mem_append.mp hr with hr | hr
  · obtain ⟨hk, hside, -⟩ := World.mem_portsOf.mp hr
    exact ⟨hside, .inl (List.mem_flatten.mpr ⟨cs, hcs, List.mem_of_mem_tail hk⟩)⟩
  · rw [List.mem_singleton.mp hr]
    exact ⟨rfl, .inr ⟨rfl, hkey⟩⟩

theorem Copies.lt (h : Copies w₀ w ks copies) (hc : c ∈ copies.flatten) : c < w.next := by
  obtain ⟨cs, hcs, hc⟩ := List.mem_flatten.mp hc
  obtain ⟨k, -, hlike⟩ := exists_of_forall₂_left (h.like cs hcs).flip hc
  exact hlike.lt

/-- A kernel is in the chain, or was made. -/
theorem Copies.mem (h : Copies w₀ w ks copies) (hc : c ∈ copies.flatten) : c ∈ ks ∨ w₀.next ≤ c := by
  obtain ⟨copies', hcopies⟩ := List.head?_eq_some_iff.mp h.first
  obtain ⟨cs, hcs, hmem⟩ := List.mem_flatten.mp hc
  rw [hcopies] at hcs
  rcases List.mem_cons.mp hcs with rfl | hcs
  · exact .inl hmem
  · exact .inr (h.fresh cs (by rw [hcopies]; exact hcs) c hmem)

theorem Joins.not_copied (hj : Joins w₀ ks q a) (h : Copies w₀ w ks copies) :
    q.dst ∉ copies.flatten := by
  intro hmem
  rcases h.mem hmem with hmem | hle
  · exact hj.not_mem hmem
  · exact absurd hj.lt (Nat.not_lt.mpr hle)

theorem Copies.portsOf (h : Copies w₀ w ks copies) (hb : w.Built w' as bs) (s : Side) :
    copies.flatMap (w'.portsOf s) = copies.flatMap (w.portsOf s) :=
  List.flatMap_congr fun cs hcs =>
    hb.portsOf fun _ hc => h.lt (List.mem_flatten.mpr ⟨cs, hcs, hc⟩)

theorem Copies.entries (h : Copies w₀ w ks copies) (hb : w.Built w' as bs) (d : KernelId)
    (keys : List PortKey) : w'.entries d copies keys = w.entries d copies keys := by
  refine List.flatMap_congr fun x hx => ?_
  rw [hb.portsOf fun c hc => h.lt
    (List.mem_flatten.mpr ⟨x.1, (List.of_mem_zip hx).1, List.mem_of_mem_tail hc⟩)]

theorem entries_concat (hcount : copies.length = keys.length) (d : KernelId) :
    w.entries d (copies ++ [cs]) (keys ++ [key]) =
      w.entries d copies keys ++ (w.portsOf .input cs.tail ++ [⟨d, .input, key⟩]) := by
  unfold World.entries
  rw [List.zip_append hcount, List.flatMap_append]
  simp

theorem Copies.mono (h : Copies w₀ w ks copies) (hb : w.Built w' as bs) (hnext : w'.next = w.next) :
    Copies w₀ w' ks copies :=
  ⟨h.first, fun cs hcs => (h.like cs hcs).imp fun _ _ hlike => hlike.mono hb, h.apart, h.fresh,
    fun k hle hlt => h.made k hle (hnext ▸ hlt)⟩

/-- **A count of the copies**: as many kernels were made as they need. -/
theorem Copies.length_le (h : Copies w₀ w ks copies) :
    (copies.length - 1) * ks.length ≤ w.next - w₀.next := by
  obtain ⟨copies', hcopies⟩ := List.head?_eq_some_iff.mp h.first
  have hflatten : copies'.flatten.length = copies'.length * ks.length :=
    length_flatten_of_full fun cs hcs =>
      (h.like cs (by rw [hcopies]; exact List.mem_cons_of_mem _ hcs)).length_eq.symm
  have hnodup : copies'.flatten.Nodup := by
    have hall := h.apart
    rw [hcopies, List.flatten_cons] at hall
    exact (List.nodup_append.mp hall).2.1
  have hsub : copies'.flatten ⊆ List.range' w₀.next (w.next - w₀.next) := by
    intro c hc
    have hmem : c ∈ copies.flatten := by
      rw [hcopies, List.flatten_cons]
      exact List.mem_append_right _ hc
    obtain ⟨cs, hcs, hc⟩ := List.mem_flatten.mp hc
    have hle : w₀.next ≤ c := h.fresh cs (by rw [hcopies]; exact hcs) c hc
    have hlt : c < w.next := h.lt hmem
    rw [List.mem_range'_1, Nat.add_sub_cancel' (hle.trans hlt.le)]
    exact ⟨hle, hlt⟩
  have hlength := (hnodup.subperm hsub).length_le
  rw [hflatten, List.length_range'] at hlength
  rwa [hcopies, List.length_cons, Nat.add_sub_cancel]

/-- One more copy of the chain. -/
theorem Copies.add (h : Copies w₀ w ks copies) (hnext : w₀.next ≤ w.next)
    (hnew : NewCopy w₀ w w₁ ks cs) (hb : w₁.Built w' as bs) (hnext' : w'.next = w₁.next) :
    Copies w₀ w' ks (copies ++ [cs]) := by
  have hmem : ∀ c, c ∈ cs ↔ w.next ≤ c ∧ c < w₁.next := by
    intro c
    rw [hnew.range, List.mem_range'_1, hnew.next]
  obtain ⟨copies', hcopies⟩ := List.head?_eq_some_iff.mp h.first
  refine ⟨by rw [hcopies]; rfl, fun cs' hcs' => ?_, ?_, fun cs' hcs' c hc => ?_, fun k hle hlt => ?_⟩
  · rcases List.mem_append.mp hcs' with hcs' | hcs'
    · exact (h.like cs' hcs').imp fun _ _ hlike => (hlike.mono hnew.built).mono hb
    · rw [List.mem_singleton.mp hcs']
      exact hnew.like.imp fun _ _ hlike => hlike.mono hb
  · rw [List.flatten_append, List.flatten_singleton]
    refine h.apart.append (by rw [hnew.range]; exact List.nodup_range') fun c hc hc' => ?_
    exact absurd (h.lt hc) (Nat.not_lt.mpr ((hmem c).mp hc').1)
  · have htail : (copies ++ [cs]).tail = copies.tail ++ [cs] := by rw [hcopies]; rfl
    rw [htail] at hcs'
    rcases List.mem_append.mp hcs' with hcs' | hcs'
    · exact h.fresh cs' hcs' c hc
    · rw [List.mem_singleton.mp hcs'] at hc
      exact hnext.trans ((hmem c).mp hc).1
  · rw [List.flatten_append, List.flatten_singleton]
    by_cases hk : k < w.next
    · exact List.mem_append_left _ (h.made k hle hk)
    · exact List.mem_append_right _ ((hmem k).mpr ⟨Nat.not_lt.mp hk, hnext' ▸ hlt⟩)

/-- **The last kernel of a new copy is linked** to the next port of the join. -/
theorem DupState.add (h : DupState w₀ w ks q done copies l) (hj : Joins w₀ ks q a)
    (hnew : NewCopy w₀ w w₁ ks cs) {n : Kpair} (hlast : cs.getLast? = some n.src)
    (hdst : n.dst = q.dst) (hname : n.srcName = q.srcName)
    (hkey : n.dstName ∈ (w₀.ports q.dst .input).keys) (hdone : n.dstName ∉ done) :
    Returns (joink n) (fun _ w' => ∀ l' : DupLocals, l'.held = cs → l'.next = n →
      DupState w₀ w' ks q (done ++ [n.dstName]) (copies ++ [cs]) l') w₁ := by
  obtain ⟨cs', hcs⟩ := List.getLast?_eq_some_iff.mp hlast
  have hmem : ∀ c, c ∈ cs ↔ w.next ≤ c ∧ c < w₁.next := by
    intro c
    rw [hnew.range, List.mem_range'_1, hnew.next]
  have hsrc : n.src ∈ cs := by rw [hcs]; exact List.mem_append_right _ List.mem_cons_self
  have hnodup : cs.Nodup := by
    rw [hnew.range]
    exact List.nodup_range'
  have hlike : w₀.Like w₁ q.src n.src := by
    obtain ⟨ks', hks⟩ := List.getLast?_eq_some_iff.mp hj.last
    have hrev := List.rel_reverse hnew.like
    rw [hks, hcs, List.reverse_concat, List.reverse_concat] at hrev
    exact (List.forall₂_cons.mp hrev).1
  have hbuilt := h.built.trans hnew.built
  -- neither end has been connected yet
  have hfa : w₁.other ⟨n.src, .output, a⟩ = none := by
    refine hnew.built.fresh _ ((hmem _).mp hsrc).1 ((hmem _).mp hsrc).2 (fun hr => ?_) fun hr => ?_
    · have hdrop := (World.mem_portsOf.mp hr).1
      rw [hcs, List.dropLast_concat] at hdrop
      rw [hcs] at hnodup
      exact (List.nodup_append.mp hnodup).2.2 _ hdrop _ List.mem_cons_self rfl
    · cases (World.mem_portsOf.mp hr).2.1
  have hfb : w₁.other ⟨q.dst, .input, n.dstName⟩ = none := by
    refine (hbuilt.off _ hj.lt (fun hr => ?_) fun hr => ?_).trans (hj.free _)
    · rcases List.mem_append.mp hr with hr | hr
      · obtain ⟨_, _, hr⟩ := List.mem_flatMap.mp hr
        cases (World.mem_portsOf.mp hr).2.1
      · cases (World.mem_portsOf.mp hr).2.1
    · rcases List.mem_append.mp hr with hr | hr
      · rcases (World.mem_entries hr).2 with hr | hr
        · exact hj.not_copied h.made hr
        · exact hdone hr.2
      · have hle := ((hmem _).mp (List.mem_of_mem_tail (World.mem_portsOf.mp hr).1)).1
        exact absurd (hj.lt.trans_le h.built.next) (Nat.not_lt.mpr hle)
  have hports : w₁.ports q.dst .input = w₀.ports q.dst .input := hbuilt.ports hj.lt .input
  refine (joink_returns (a := a) (b := n.dstName) (by rw [hlike.ports, hname]; exact hj.out)
    (by rw [hdst, hports]; exact hj.named _ hkey) hlike.lt (hdst ▸ hj.lt.trans_le hbuilt.next) hfa
    (hdst ▸ hfb) ?_).conseq fun _ w' ⟨hb, hnext⟩ l' hheld hl' => ?_
  · rw [hlike.type, hdst, hbuilt.type _ hj.lt]
    exact hj.type _ hkey
  · refine ⟨⟨h.made.add h.built.next hnew hb hnext, ?_, ?_⟩, ?_, by rw [hl', hdst],
      by rw [hl', hname]⟩
    · rw [List.length_append, List.length_append, h.count]
      rfl
    · have houts : w'.portsOf .output cs = w₁.portsOf .output cs.dropLast ++ [⟨n.src, .output, a⟩] := by
        rw [hb.portsOf fun c hc => ((hmem c).mp hc).2, hcs, List.dropLast_concat, World.portsOf,
          List.flatMap_append, List.flatMap_singleton, hlike.ports, hj.keys, ends_singleton]
        rfl
      have hins : w'.portsOf .input cs.tail = w₁.portsOf .input cs.tail :=
        hb.portsOf fun c hc => ((hmem c).mp (List.mem_of_mem_tail hc)).2
      have hall := hnew.built.trans hb
      rw [hdst] at hall
      rw [List.flatMap_append, List.flatMap_singleton, entries_concat h.count, h.made.portsOf hall,
        h.made.entries hall, houts, hins]
      exact h.built.trans hall
    · rw [List.getLast?_concat, hheld]

theorem clone_returns {k c : KernelId} (hlike : w₀.Like w k c)
    (hclone : (w₀.kernel k).cloneable = true) :
    Returns (clone c) (fun d w' => d = w.next ∧ w' = w.withClone c) w :=
  ⟨w.next, w.withClone c, clone_ok (hlike.cloneable.trans hclone), rfl, rfl⟩

/-- The copy that the locals hold is like the chain. -/
theorem DupState.held_like (h : DupState w₀ w ks q done copies l) :
    List.Forall₂ (w₀.Like w) ks l.held :=
  h.made.like _ (List.mem_of_getLast? h.held)

variable (h : DupState w₀ w ks q done copies l) (hj : Joins w₀ ks q a)
  (hclone : ∀ k ∈ ks, (w₀.kernel k).cloneable = true)
  (hkey : key ∈ (w₀.ports q.dst .input).keys) (hdone : key ∉ done)
include h hj hclone hkey hdone

/-- **A pass that copies one kernel.** -/
theorem dupPort_one (hhead : l.head = none) : Returns (dupPort l key)
    (fun l' w' => l'.head = none ∧ ∃ copies', DupState w₀ w' ks q (done ++ [key]) copies' l') w := by
  have hheld := h.held_like
  simp only [DupLocals.held, hhead] at hheld
  cases hheld with
  | @cons k _ _ _ hlike hnil =>
  cases hnil
  unfold dupPort
  rw [hhead]
  refine (clone_returns hlike (hclone k List.mem_cons_self)).bind fun c w₁ ⟨hc, hw₁⟩ => ?_
  subst hc hw₁
  have hnew : NewCopy w₀ w (w.withClone l.next.src) [k] [w.next] :=
    ⟨.cons hlike.withClone .nil, rfl, rfl, World.built_withClone l.next.src⟩
  refine (h.add (n := { l.next with src := w.next, dstName := key, hasDstName := true })
    hj hnew rfl h.dst h.srcName hkey hdone).bind fun _ w' hadd => returns_pure ⟨rfl, _, hadd _ ?_ rfl⟩
  rfl

/-- **A pass that copies two kernels**, those of the first pair. -/
theorem dupPort_two {p : Kpair} {a' b' : PortKey} {k : KernelId} (hks : ks = [k, q.src])
    (ha : (w₀.ports k .output).Resolves p.srcName a') (hkeysa : (w₀.ports k .output).keys = [a'])
    (hb : (w₀.ports q.src .input).Resolves p.dstName b')
    (hkeysb : (w₀.ports q.src .input).keys = [b'])
    (htype : (w₀.info ⟨k, .output, a'⟩).type = (w₀.info ⟨q.src, .input, b'⟩).type)
    (hhead : ∃ n, l.head = some n ∧ n.srcName = p.srcName ∧ n.dstName = p.dstName) :
    Returns (dupPort l key) (fun l' w' =>
      (∃ n, l'.head = some n ∧ n.srcName = p.srcName ∧ n.dstName = p.dstName) ∧
        ∃ copies', DupState w₀ w' ks q (done ++ [key]) copies' l') w := by
  subst hks
  obtain ⟨n, hhead, hsrc, hdst⟩ := hhead
  have hheld := h.held_like
  simp only [DupLocals.held, hhead, List.forall₂_cons, List.Forall₂.nil, and_true] at hheld
  obtain ⟨hlike, hlike'⟩ := hheld
  unfold dupPort
  rw [hhead]
  refine (clone_returns hlike (hclone k List.mem_cons_self)).bind fun c w₁ ⟨hc, hw₁⟩ => ?_
  subst hc hw₁
  have hb₁ := World.built_withClone (w := w) n.src
  refine (clone_returns (hlike'.mono hb₁) (hclone q.src (by simp))).bind fun d w₂ ⟨hd, hw₂⟩ => ?_
  subst hd hw₂
  have hb₂ := World.built_withClone (w := w.withClone n.src) n.dst
  have hbuilt : w.Built ((w.withClone n.src).withClone n.dst) [] [] := hb₁.trans hb₂
  have hc := hlike.withClone.mono hb₂
  have hd := (hlike'.mono hb₁).withClone
  have hfree : ∀ r : PortRef, w.next ≤ r.kernel → r.kernel < w.next + 2 →
      ((w.withClone n.src).withClone n.dst).other r = none := fun r hle hlt =>
    hbuilt.fresh r hle hlt List.not_mem_nil List.not_mem_nil
  refine (joink_returns (n := { n with src := w.next, dst := (w.withClone n.src).next }) (a := a')
    (b := b') (by rw [hc.ports, hsrc]; exact ha) (by rw [hd.ports, hdst]; exact hb) hc.lt hd.lt
    (hfree _ (Nat.le_refl _) (by simp)) (hfree _ (Nat.le_succ _) (by simp)) ?_).bind
      fun _ w₃ ⟨hb₃, hnext⟩ => ?_
  · rw [hc.type, hd.type]
    exact htype
  · have hc₃ := hc.mono hb₃
    have hd₃ := hd.mono hb₃
    have hnew : NewCopy w₀ w w₃ [k, q.src] [w.next, (w.withClone n.src).next] := by
      refine ⟨.cons hc₃ (.cons hd₃ .nil), rfl, hnext, ?_⟩
      rw [List.tail_cons, World.portsOf_cons (by rw [hd₃.ports]; exact hkeysb)]
      show w.Built w₃ (w₃.portsOf .output [w.next]) _
      rw [World.portsOf_cons (by rw [hc₃.ports]; exact hkeysa)]
      exact hbuilt.trans hb₃
    refine (h.add
      (n := { l.next with src := (w.withClone n.src).next, dstName := key, hasDstName := true })
      hj hnew rfl h.dst h.srcName hkey hdone).bind fun _ w' hadd =>
        returns_pure ⟨⟨_, rfl, hsrc, hdst⟩, _, hadd _ ?_ rfl⟩
    rfl

end Copying

section Join

variable {w₀ w w' : World} {ks : List KernelId} {done keys : List PortKey} {q : Kpair} {a : PortKey}
variable {copies : List (List KernelId)} {l : DupLocals} {src k last : KernelId}
variable {front rest : List Kpair}

/-- **All passes**, for a chain of one kernel or two. -/
theorem dupPorts_returns (hj : Joins w₀ ks q a) (hks : ks = src :: front.map Kpair.dst)
    (hfront : Conts w₀ src front q.src) (hl : Loose w₀ src (front ++ q :: rest))
    (hshort : front.length ≤ 1) (hclone : ∀ k ∈ ks, (w₀.kernel k).cloneable = true)
    (hkeys : (w₀.ports q.dst .input).keys = done ++ keys) (h : DupState w₀ w ks q done copies l)
    (hhead : l.head = front.head?) :
    Returns (keys.foldlM dupPort l)
      (fun _ w' => ∃ copies', Joined w₀ w' ks q (done ++ keys) copies') w := by
  have hnodup := (w₀.ports q.dst .input).nodup
  -- what is kept of the head of the list besides its ends
  let Head (l : DupLocals) : Prop := match front with
    | [] => l.head = none
    | p :: _ => ∃ n, l.head = some n ∧ n.srcName = p.srcName ∧ n.dstName = p.dstName
  have hstep (done' : List PortKey) (key : PortKey) (more : List PortKey)
      (hsplit : keys = done' ++ key :: more) (l' : DupLocals) (w' : World)
      (hstate : ∃ copies', DupState w₀ w' ks q (done ++ done') copies' l' ∧ Head l') :
      Returns (dupPort l' key) (fun l'' w'' =>
        ∃ copies'', DupState w₀ w'' ks q (done ++ (done' ++ [key])) copies'' l'' ∧ Head l'') w' := by
    obtain ⟨copies', h', hhead'⟩ := hstate
    rw [hkeys, hsplit, ← List.append_assoc] at hnodup
    have hdone : key ∉ done ++ done' := fun hmem =>
      (List.nodup_append.mp hnodup).2.2 key hmem key List.mem_cons_self rfl
    have hkey : key ∈ (w₀.ports q.dst .input).keys := by simp [hkeys, hsplit]
    rw [← List.append_assoc]
    cases front with
    | nil =>
        exact (dupPort_one h' hj hclone hkey hdone hhead').conseq fun l'' w'' ⟨hn, copies'', h''⟩ =>
          ⟨copies'', h'', hn⟩
    | cons p front =>
        obtain rfl := List.length_eq_zero_iff.mp (Nat.le_zero.mp (Nat.le_of_succ_le_succ hshort))
        obtain ⟨hsrc, ⟨a', hkeysa, ha⟩, ⟨b', hkeysb, hb⟩, hnil⟩ := hfront.uncons
        have hq : p.dst = q.src := hnil.eq
        rw [hsrc] at hkeysa ha
        rw [hq] at hkeysb hb
        have htype := hl.type p List.mem_cons_self a' (hsrc ▸ ha.mem) b' (hq ▸ hb.mem)
        rw [hsrc, hq] at htype
        exact (dupPort_two h' hj hclone hkey hdone (hks.trans (by rw [← hq]; rfl)) ha hkeysa hb hkeysb
          htype hhead').conseq fun l'' w'' ⟨hn, copies'', h''⟩ => ⟨copies'', h'', hn⟩
  have hfirst : Head l := by
    cases front with
    | nil => exact hhead
    | cons p _ => exact ⟨p, hhead, rfl, rfl⟩
  refine (Returns.foldlM (I := fun done' l' w' =>
    ∃ copies', DupState w₀ w' ks q (done ++ done') copies' l' ∧ Head l')
    hstep ⟨copies, by rwa [List.append_nil], hfirst⟩).conseq
      fun l' w' ⟨copies', h', _⟩ => ⟨copies', h'.toJoined⟩

/-- The sources of the pairs that continue, and the kernel that they lead to. -/
theorem Conts.kernels (h : Conts w k front last) :
    k :: front.map Kpair.dst = front.map Kpair.src ++ [last] := by
  induction h with
  | nil => rfl
  | cons _ _ _ _ _ ih => rw [List.map_cons, List.map_cons, ih, List.cons_append]

/-- The chain behind a pair. -/
theorem Loose.drop (h : Loose w₀ src (front ++ q :: rest)) : Loose w₀ q.dst rest := by
  induction front generalizing src with
  | nil => exact h.tail
  | cons p front ih => exact ih h.tail

/-- `operator +=`, from the first kernel of the chain. -/
theorem addAssign_front (h : Conts w₀ src front q.src) : addAssign (front ++ q :: rest) =
    addLoop src (front ++ q :: rest) >>= fun s => pure { s.retKernelPair with
      destination := s.retKernelPair.destination ++ s.groups.flatten } := by
  cases front with
  | nil =>
      rw [h.eq]
      rfl
  | cons p front =>
      rw [← h.uncons.1]
      rfl

variable (hd : DupChain w₀ src front q rest) (hl : Loose w₀ src (front ++ q :: rest))
include hd hl

theorem joins_of_dupChain : ∃ a, Joins w₀ (src :: front.map Kpair.dst) q a := by
  obtain ⟨a, hkeys, ha⟩ := hd.out
  have hmem : q ∈ front ++ q :: rest := List.mem_append_right _ List.mem_cons_self
  refine ⟨a, ?_, (hl.lt q hmem).2, fun hq => ?_, hkeys, ha, hd.named, hl.type q hmem a ha.mem,
    hl.free q.dst (List.mem_map_of_mem hmem) _⟩
  · rw [hd.front.kernels, List.getLast?_concat]
  · have hnodup := hl.apart
    rw [List.map_append, ← List.cons_append, List.map_cons] at hnodup
    exact (List.nodup_append.mp hnodup).2.2 _ hq _ List.mem_cons_self rfl

/-- **The first port** takes the chain itself. -/
theorem joined_first {key : PortKey} (hkeys : (w₀.ports q.dst .input).keys = key :: keys)
    (hbuilt : w₀.Built w (w₀.portsOf .output (front.map Kpair.src))
      (w₀.portsOf .input (front.map Kpair.dst))) (hnext : w.next = w₀.next)
    (hloose : Loose w q.src (q :: rest)) :
    Returns (joink { q with dstName := key, hasDstName := true }) (fun _ w' =>
      Joined w₀ w' (src :: front.map Kpair.dst) q [key] [src :: front.map Kpair.dst]) w := by
  obtain ⟨a, hj⟩ := joins_of_dupChain hd hl
  have hmem : q ∈ front ++ q :: rest := List.mem_append_right _ List.mem_cons_self
  have hkey : key ∈ (w₀.ports q.dst .input).keys := by rw [hkeys]; exact List.mem_cons_self
  have hlt := (hl.lt q hmem).1
  refine (joink_returns (n := { q with dstName := key, hasDstName := true }) (a := a) (b := key)
    (by rw [hbuilt.ports hlt]; exact hj.out) (by rw [hbuilt.ports hj.lt]; exact hj.named key hkey)
    (hlt.trans_le hbuilt.next) (hj.lt.trans_le hbuilt.next) (hloose.source a)
    (hloose.free q.dst List.mem_cons_self _ key) ?_).conseq fun _ w' ⟨hb, hnext'⟩ => ?_
  · rw [hbuilt.type _ hlt, hbuilt.type _ hj.lt]
    exact hj.type key hkey
  have hall := hbuilt.trans hb
  have hin : ∀ k ∈ src :: front.map Kpair.dst, k < w₀.next := by
    intro k hk
    rcases List.mem_cons.mp hk with rfl | hk
    · exact hl.start
    · obtain ⟨p, hp, rfl⟩ := List.mem_map.mp hk
      exact (hl.lt p (List.mem_append_left _ hp)).2
  refine ⟨⟨rfl, fun cs hcs => ?_, ?_, (fun cs hcs => nomatch hcs), fun k hle hlt => ?_⟩, rfl, ?_⟩
  · rw [List.mem_singleton.mp hcs]
    refine List.forall₂_same.mpr fun k hk => ⟨(hin k hk).trans_le hall.next, hall.ports (hin k hk),
      fun s key => hall.type ⟨k, s, key⟩ (hin k hk), by rw [hall.kernel k (hin k hk)]⟩
  · have hnodup := hl.apart
    rw [List.map_append, ← List.cons_append] at hnodup
    simpa using (List.nodup_append.mp hnodup).1
  · rw [hnext', hnext] at hlt
    exact absurd hlt (Nat.not_lt.mpr hle)
  · have houts : w'.portsOf .output (src :: front.map Kpair.dst) =
        w₀.portsOf .output (front.map Kpair.src) ++ [⟨q.src, .output, a⟩] := by
      rw [hall.portsOf hin, hd.front.kernels, World.portsOf, List.flatMap_append,
        List.flatMap_singleton, hj.keys, ends_singleton]
      rfl
    have hins : w'.portsOf .input (front.map Kpair.dst) = w₀.portsOf .input (front.map Kpair.dst) :=
      hall.portsOf fun k hk => hin k (List.mem_cons_of_mem _ hk)
    rw [List.flatMap_singleton, houts, World.entries]
    simpa [hins] using hall

/-- **`inline_dup_join`** gives each input port a copy, for a chain of one kernel or two, and for any
chain if there is one port. -/
theorem inlineDupJoin_returns
    (hclone : 1 < (w₀.ports q.dst .input).count →
      ∀ k ∈ src :: front.map Kpair.dst, (w₀.kernel k).cloneable = true)
    (hfits : front.length ≤ 1 ∨ (w₀.ports q.dst .input).count = 1)
    (hbuilt : w₀.Built w (w₀.portsOf .output (front.map Kpair.src))
      (w₀.portsOf .input (front.map Kpair.dst))) (hnext : w.next = w₀.next)
    (hloose : Loose w q.src (q :: rest)) :
    Returns (inlineDupJoin [[q.src]] q front.head?) (fun r w' => r.2.1.tempGroups = [[q.dst]] ∧
      ∃ copies, Joined w₀ w' (src :: front.map Kpair.dst) q (w₀.ports q.dst .input).keys copies) w := by
  obtain ⟨a, hj⟩ := joins_of_dupChain hd hl
  obtain ⟨key, keys, hkeys⟩ := List.exists_cons_of_length_pos hd.pos
  unfold Returns
  rw [inlineDupJoin_run (by rw [hbuilt.ports hj.lt]; exact hkeys)]
  refine (joined_first hd hl hkeys hbuilt hnext hloose).bind fun _ w₁ hfirst => ?_
  rcases Nat.lt_or_eq_of_le (Nat.succ_le_of_lt hd.pos) with hmany | hone
  · have hshort : front.length ≤ 1 := hfits.resolve_right hmany.ne'
    have hheld : [src :: front.map Kpair.dst].getLast? =
        some (DupLocals.held ⟨[q.src], { q with dstName := key, hasDstName := true }, front.head?⟩) := by
      cases front with
      | nil =>
          rw [hd.front.eq]
          rfl
      | cons p front =>
          obtain rfl := List.length_eq_zero_iff.mp (Nat.le_zero.mp (Nat.le_of_succ_le_succ hshort))
          rw [← hd.front.uncons.1]
          rfl
    have hstate : DupState w₀ w₁ (src :: front.map Kpair.dst) q [key] [src :: front.map Kpair.dst]
        ⟨[q.src], { q with dstName := key, hasDstName := true }, front.head?⟩ :=
      ⟨hfirst, hheld, rfl, rfl⟩
    refine (dupPorts_returns hj rfl hd.front hl hshort (hclone hmany) hkeys hstate rfl).bind
      fun l w' ⟨copies, hjoined⟩ => returns_pure ⟨rfl, copies, ?_⟩
    rw [hkeys]
    exact hjoined
  · obtain rfl : keys = [] := by
      rw [PortMap.count, hkeys] at hone
      exact List.length_eq_zero_iff.mp (Nat.succ.inj hone.symm)
    refine returns_pure ⟨rfl, [src :: front.map Kpair.dst], ?_⟩
    rw [hkeys]
    exact hfirst

/-- The chain behind the join is untouched. -/
theorem Joined.loose (h : Joined w₀ w (src :: front.map Kpair.dst) q keys copies) :
    Loose w q.dst rest := by
  obtain ⟨a, hj⟩ := joins_of_dupChain hd hl
  have hnot := hj.not_copied h.made
  refine hl.drop.built h.built (fun key => ⟨fun hr => ?_, fun hr => ?_⟩) fun r hr => ?_
  · obtain ⟨cs, hcs, hr⟩ := List.mem_flatMap.mp hr
    exact hnot (List.mem_flatten.mpr ⟨cs, hcs, (World.mem_portsOf.mp hr).1⟩)
  · cases (World.mem_entries hr).1
  · have hcopied : r.kernel ∉ copies.flatten := by
      intro hmem
      rcases h.made.mem hmem with hmem | hle
      · have hnodup := hl.apart
        rw [List.map_append, ← List.cons_append] at hnodup
        exact (List.nodup_append.mp hnodup).2.2 _ hmem _ (List.mem_cons_of_mem _ hr) rfl
      · obtain ⟨p, hp, heq⟩ := List.mem_map.mp hr
        have hlt := (hl.drop.lt p hp).2
        rw [heq] at hlt
        exact absurd hlt (Nat.not_lt.mpr hle)
    constructor
    · intro hmem
      obtain ⟨cs, hcs, hmem⟩ := List.mem_flatMap.mp hmem
      exact hcopied (List.mem_flatten.mpr ⟨cs, hcs, (World.mem_portsOf.mp hmem).1⟩)
    · intro hmem
      rcases (World.mem_entries hmem).2 with hmem | ⟨heq, -⟩
      · exact hcopied hmem
      · exact (List.nodup_cons.mp hl.drop.apart).1 (heq ▸ hr)

/-- Then the whole map. -/
theorem duplicates_of_fits
    (hclone : 1 < (w₀.ports q.dst .input).count →
      ∀ k ∈ src :: front.map Kpair.dst, (w₀.kernel k).cloneable = true)
    (hfits : front.length ≤ 1 ∨ (w₀.ports q.dst .input).count = 1) :
    Duplicates w₀ (src :: front.map Kpair.dst) q.dst (rest.map Kpair.dst) (front ++ q :: rest) := by
  obtain ⟨last, hrest⟩ := hd.rest
  have hrun : Returns (addLoop src (front ++ q :: rest)) (fun _ w' => ∃ w copies,
      Joined w₀ w (src :: front.map Kpair.dst) q (w₀.ports q.dst .input).keys copies ∧
      w.Built w' (w.portsOf .output (rest.map Kpair.src)) (w.portsOf .input (rest.map Kpair.dst)) ∧
      w'.next = w.next) w₀ := by
    unfold addLoop
    rw [List.foldlM_append]
    refine (conts_returns hd.front hl rfl).bind fun s₁ w₁ ⟨hg, hstack, hhead, hbuilt, hnext, hl₁⟩ => ?_
    rw [List.foldlM_cons, step_dupJoin hg hstack hd.split hd.join, hhead, bind_assoc]
    refine (inlineDupJoin_returns hd hl hclone hfits hbuilt hnext hl₁).bind
      fun r w₂ ⟨hr, copies, hjoined⟩ => ?_
    rw [pure_bind]
    have hl₂ := hjoined.loose hd hl
    rw [← List.append_nil rest] at hl₂
    have hrest₂ : Conts w₂ q.dst rest last :=
      hrest.built hjoined.built fun p hp => hl.drop.lt p hp
    exact (conts_returns hrest₂ hl₂ hr).conseq fun s' w' ⟨_, _, _, hbuilt', hnext', _⟩ =>
      ⟨w₂, copies, hjoined, hbuilt', hnext'⟩
  obtain ⟨s, w', hrun, w, copies, hjoined, hb, hnext⟩ := hrun
  have hmade := hjoined.made.mono hb hnext
  have hbuilt := hjoined.built.trans hb
  rw [← hjoined.made.portsOf hb, ← hjoined.made.entries hb, ← hb.portsOf, ← hb.portsOf] at hbuilt
  rotate_left
  · intro k hk
    obtain ⟨p, hp, rfl⟩ := List.mem_map.mp hk
    exact (hl.drop.lt p hp).2.trans_le hjoined.built.next
  · intro k hk
    obtain ⟨p, hp, rfl⟩ := List.mem_map.mp hk
    exact (hl.drop.lt p hp).1.trans_le hjoined.built.next
  have hdrop : (q.dst :: rest.map Kpair.dst).dropLast = rest.map Kpair.src := by
    rw [hrest.kernels, List.dropLast_concat]
  rw [← hdrop] at hbuilt
  obtain ⟨r, hadd⟩ : ∃ r, (addAssign (front ++ q :: rest)).run w₀ = .ok r w' := by
    rw [addAssign_front hd.front]
    exact ⟨_, run_bind_of_ok hrun⟩
  refine ⟨r, w', copies, hadd, hjoined.count, hmade, hbuilt, fun c hc s key hkey => ?_⟩
  obtain ⟨cs, hcs, hc⟩ := List.mem_flatten.mp hc
  cases s with
  | output =>
      refine hbuilt.ne_none (.inl (List.mem_append_left _ (List.mem_flatMap.mpr ⟨cs, hcs, ?_⟩)))
      exact World.mem_portsOf.mpr ⟨hc, rfl, hkey⟩
  | input =>
      refine hbuilt.ne_none (.inr (List.mem_append_left _ ?_))
      obtain ⟨c₀, cs', hlike, -, rfl⟩ := List.forall₂_cons_left_iff.mp (hmade.like cs hcs)
      have hzip := List.forall₂_iff_zip.mpr ⟨hjoined.count, fun hab => hab⟩
      obtain ⟨key', -, hmem⟩ := exists_of_forall₂_left hzip hcs
      refine List.mem_flatMap.mpr ⟨_, hmem, List.mem_append_left _ ?_⟩
      rcases List.mem_cons.mp hc with rfl | hc
      · rw [hlike.ports, hd.source] at hkey
        cases hkey
      · exact World.mem_portsOf.mpr ⟨hc, rfl, hkey⟩

/-- **How many kernels are made** in a run that returns, for a chain of three kernels or more. -/
theorem next_of_run (hlong : 2 ≤ front.length) {r : KernelPair}
    (hrun : (addAssign (front ++ q :: rest)).run w₀ = .ok r w') :
    w'.next = w₀.next + ((w₀.ports q.dst .input).count - 1) * 2 := by
  obtain ⟨last, hrest⟩ := hd.rest
  rw [addAssign_front hd.front] at hrun
  obtain ⟨s, w₃, hrun, hend⟩ := run_bind_ok.mp hrun
  cases hend
  have hq : q.dst < w₀.next := (hl.lt q (List.mem_append_right _ List.mem_cons_self)).2
  unfold addLoop at hrun
  rw [List.foldlM_append] at hrun
  obtain ⟨s₁, w₁, hrun₁, hrun⟩ := run_bind_ok.mp hrun
  obtain ⟨hg, hstack, hhead, hbuilt, hnext, -⟩ := (conts_returns hd.front hl rfl).ok hrun₁
  rw [List.foldlM_cons, step_dupJoin hg hstack hd.split hd.join, hhead, bind_assoc] at hrun
  obtain ⟨r, w₂, hrun₂, hrun⟩ := run_bind_ok.mp hrun
  have hsome : (Option.or none front.head?).isSome := by
    obtain ⟨p, front, rfl⟩ := List.exists_cons_of_length_pos (Nat.zero_lt_two.trans_le hlong)
    rfl
  obtain ⟨hr, hnext₂⟩ := makes_inlineDupJoin hsome hrun₂
  rw [pure_bind] at hrun
  have hnext₃ := ((makes_conts hrest hr).ok hrun).2
  rw [hnext₃, hnext₂, hbuilt.ports hq, hnext]
  rfl

/-- **Which lists of pairs are duplicated into a join**: those with one kernel in front of it or two, and
all where the join has one port. -/
theorem chain_duplicates_iff (hclone : 1 < (w₀.ports q.dst .input).count →
      ∀ k ∈ src :: front.map Kpair.dst, (w₀.kernel k).cloneable = true) :
    Duplicates w₀ (src :: front.map Kpair.dst) q.dst (rest.map Kpair.dst) (front ++ q :: rest) ↔
      front.length ≤ 1 ∨ (w₀.ports q.dst .input).count = 1 := by
  constructor
  · rintro ⟨r, w', copies, hrun, hcount, hmade, -, -⟩
    by_contra hnot
    obtain ⟨hlong, hmany⟩ := not_or.mp hnot
    have hnext := next_of_run hd hl (Nat.not_le.mp hlong) hrun
    have hle := hmade.length_le
    have hpos := hd.pos
    rw [hcount, hnext, List.length_cons, List.length_map, Nat.add_sub_cancel_left] at hle
    have hthree : (w₀.ports q.dst .input).count - 1 = 0 ∨ front.length + 1 ≤ 2 := by
      rcases Nat.eq_zero_or_pos ((w₀.ports q.dst .input).count - 1) with hzero | hpos
      · exact .inl hzero
      · exact .inr (Nat.le_of_mul_le_mul_left hle hpos)
    omega
  · exact duplicates_of_fits hd hl hclone

end Join

end RaftLib.Graph
