/-
# `RaftLib.Graph.NestedSplit` -- which nested splits and joins are built as they are written

A chain whose splits and joins are nested (`Nested`) stands for a graph in which each operand is there
once for every path through the splits it is inside of (`Laid`). `operator +=` gets the kernels right
and the groups nearly so: after a join it puts the joined kernels in groups of as many as the split just
closed had ports, where the next join needs groups of the enclosing one. `GroupsFit` follows the size of the
groups through the chain, and decides.
-/
import Mathlib.Algebra.BigOperators.Group.List.Basic
import RaftLib.Graph.Layers

namespace RaftLib.Graph

open RaftLib.Logic.Program

/-! ## Chains -/

/-- One port, which the name finds. -/
def PortMap.Sole (m : PortMap) (name : PortKey) : Prop := ∃ key, m.keys = [key] ∧ m.Resolves name key

/-- Ports whose keys find them. -/
def PortMap.Named (m : PortMap) : Prop := ∀ key ∈ m.keys, m.Resolves key key

/-- Splits and joins are nested: `stack` has the number of output ports of each split that is open,
the innermost first, and a join has as many input ports as the split that it closes has output ports. -/
inductive Nested (w : World) : List Nat → KernelId → List Kpair → Prop
  | done {k : KernelId} : Nested w [] k []
  | cont {stack : List Nat} {p : Kpair} {chain : List Kpair} (hs : p.splitTo = false)
      (hj : p.joinFrom = false) (hout : (w.ports p.src .output).Sole p.srcName)
      (hin : (w.ports p.dst .input).Sole p.dstName) (rest : Nested w stack p.dst chain) :
      Nested w stack p.src (p :: chain)
  | split {stack : List Nat} {p : Kpair} {chain : List Kpair} (hs : p.splitTo = true)
      (hj : p.joinFrom = false) (hcount : p.srcOutCount = (w.ports p.src .output).count)
      (hpos : 0 < p.srcOutCount) (hout : (w.ports p.src .output).Named)
      (hin : (w.ports p.dst .input).Sole p.dstName)
      (rest : Nested w (p.srcOutCount :: stack) p.dst chain) : Nested w stack p.src (p :: chain)
  | join {n : Nat} {stack : List Nat} {p : Kpair} {chain : List Kpair} (hs : p.splitTo = false)
      (hj : p.joinFrom = true) (hout : (w.ports p.src .output).Sole p.srcName)
      (hcount : (w.ports p.dst .input).count = n) (hpos : 0 < n) (hin : (w.ports p.dst .input).Named)
      (rest : Nested w stack p.dst chain) : Nested w (n :: stack) p.src (p :: chain)

/-- The splits that are open behind the pair. -/
def Kpair.after (p : Kpair) (stack : List Nat) : List Nat :=
  if p.splitTo then p.srcOutCount :: stack else if p.joinFrom then stack.tail else stack

/-- The operands with more than one path through the splits they are inside of have classes that can be
cloned. -/
def World.Clones (w : World) : List Nat → List Kpair → Prop
  | _, [] => True
  | stack, p :: chain =>
      (1 < (p.after stack).prod → (w.kernel p.dst).cloneable = true) ∧ w.Clones (p.after stack) chain

/-- The operands of the chain are different kernels, with one type where they are linked, which can be
cloned where that is needed, and are not linked yet. -/
structure Buildable (w : World) (src : KernelId) (chain : List Kpair) : Prop where
  apart : (src :: chain.map Kpair.dst).Nodup
  lt : ∀ k ∈ src :: chain.map Kpair.dst, k < w.next
  cloneable : w.Clones [] chain
  type : ∀ p ∈ chain, ∀ a ∈ (w.ports p.src .output).keys, ∀ b ∈ (w.ports p.dst .input).keys,
    (w.info ⟨p.src, .output, a⟩).type = (w.info ⟨p.dst, .input, b⟩).type
  free : ∀ k ∈ src :: chain.map Kpair.dst, ∀ s key, w.other ⟨k, s, key⟩ = none

/-! ## What a chain stands for -/

/-- `copies` are the kernels for the operands of the chain behind the kernels `cs`, for each operand
itself and copies of it, as many as there are paths through the open splits; `as` are the output ports
along the chain and `bs` the input ports that they belong to, in order. -/
inductive Laid (w₀ w : World) : List Nat → List KernelId → List Kpair → List KernelId →
    List PortRef → List PortRef → Prop
  | nil (stack : List Nat) (cs : List KernelId) : Laid w₀ w stack cs [] [] [] []
  | cons {stack : List Nat} {cs ds : List KernelId} {p : Kpair} {chain : List Kpair}
      {copies : List KernelId} {as bs : List PortRef} (count : ds.length = (p.after stack).prod)
      (first : ds.head? = some p.dst) (like : ∀ c ∈ ds, w₀.Like w p.dst c)
      (rest : Laid w₀ w (p.after stack) ds chain copies as bs) :
      Laid w₀ w stack cs (p :: chain) (ds ++ copies)
        (ends .output (w₀.ports p.src .output).keys cs ++ as)
        (ends .input (w₀.ports p.dst .input).keys ds ++ bs)

/-- **`operator +=` builds what the chain stands for**: it returns, with the stack of splits and the list
of groups as they were; the kernels are those of the chain, each once, and no other ones were made; and
exactly the ports along the chain were connected, each with the one it belongs to. -/
def Realizes (w : World) (src : KernelId) (chain : List Kpair) : Prop :=
  ∃ s w' copies as bs, (addLoop src chain).run w = .ok s w' ∧
    (∃ r, (addAssign chain).run w = .ok r w') ∧
    s.splitOutEdges = [] ∧ s.groups.length = 1 ∧ Laid w w' [] [src] chain copies as bs ∧
    (src :: copies).Nodup ∧ (∀ k, w.next ≤ k → k < w'.next → k ∈ copies) ∧ w.Built w' as bs

/-! ## When the groups fit -/

/-- How many kernels a group has behind the pair, the last group apart. -/
def Kpair.batch (p : Kpair) (last : Nat) (stack : List Nat) : Nat :=
  if p.splitTo then p.srcOutCount else if p.joinFrom then stack.headD 0 else last

/-- Where the pair joins, the groups are of the split's size, or there is one group alone and it has
that many. -/
def Kpair.Fits (p : Kpair) (last : Nat) (stack : List Nat) : Prop :=
  p.joinFrom = true → last = stack.headD 0 ∨ stack.headD 0 ≤ last ∧ stack.tail.prod = 1

/-- All joins of the chain fit. -/
def GroupsFit : Nat → List Nat → List Kpair → Prop
  | _, _, [] => True
  | last, stack, p :: chain => p.Fits last stack ∧ GroupsFit (p.batch last stack) (p.after stack) chain

/-! ### Groups by their sizes -/

section Batched

variable {gs gs' : Groups} {m n : Nat}

theorem Batched.ne_nil (h : Batched m gs) : gs ≠ [] := by
  obtain ⟨T, t, rfl, -⟩ := h
  simp

theorem Batched.nonempty (h : Batched m gs) : ∀ g ∈ gs, g ≠ [] := by
  obtain ⟨T, t, rfl, hT, ht, hle⟩ := h
  rintro g hg rfl
  rcases List.mem_append.mp hg with hg | hg
  · rw [← hT [] hg] at hle
    exact ht (List.length_eq_zero_iff.mp (Nat.le_zero.mp hle))
  · exact ht (List.mem_singleton.mp hg).symm

/-- Only the sizes matter. -/
theorem Batched.of_lengths (h : Batched m gs) (hlengths : gs'.map List.length = gs.map List.length) :
    Batched m gs' := by
  obtain ⟨T, t, rfl, hT, ht, hle⟩ := h
  rw [List.map_append] at hlengths
  obtain ⟨T', t', rfl, hT', ht'⟩ := List.map_eq_append_iff.mp hlengths
  obtain ⟨t', rfl, hlast⟩ := List.map_eq_singleton_iff.mp ht'
  refine ⟨T', t', rfl, fun g hg => ?_, ?_, hlast ▸ hle⟩
  · have hmem : g.length ∈ T.map List.length := hT' ▸ List.mem_map_of_mem hg
    obtain ⟨g', hg', heq⟩ := List.mem_map.mp hmem
    rw [← heq, hT g' hg']
  · rintro rfl
    exact ht (List.length_eq_zero_iff.mp hlast.symm)

/-- Groups that are all full. -/
theorem batched_of_full (hne : gs ≠ []) (hm : 0 < m) (h : ∀ g ∈ gs, g.length = m) : Batched m gs := by
  obtain ⟨T, t, rfl⟩ := (List.eq_nil_or_concat gs).resolve_left hne
  have ht : t.length = m := h t (by simp)
  refine ⟨T, t, by simp, fun g hg => h g (by simp [hg]), ?_, ht.le⟩
  rintro rfl
  rw [← ht] at hm
  cases hm

theorem length_flatten_of_full (h : ∀ g ∈ gs, g.length = m) : gs.flatten.length = gs.length * m := by
  induction gs with
  | nil => simp
  | cons g gs ih =>
      rw [List.flatten_cons, List.length_append, h g List.mem_cons_self,
        ih fun g' hg' => h g' (List.mem_cons_of_mem g hg'), List.length_cons, Nat.succ_mul, Nat.add_comm]

/-- One group alone, or a first one that is full. -/
theorem Batched.cases (h : Batched m gs) :
    (∃ t, gs = [t] ∧ t ≠ [] ∧ t.length ≤ m) ∨ ∃ g T t, gs = g :: (T ++ [t]) ∧ g.length = m ∧
      (∀ g ∈ T, g.length = m) ∧ t ≠ [] ∧ t.length ≤ m := by
  obtain ⟨T, t, rfl, hT, ht, hle⟩ := h
  cases T with
  | nil => exact .inl ⟨t, rfl, ht, hle⟩
  | cons g T =>
      exact .inr ⟨g, T, t, rfl, hT g List.mem_cons_self, fun g' hg' => hT g' (List.mem_cons_of_mem g hg'),
        ht, hle⟩

variable {k : Nat} (h : Batched m gs) (hcount : gs.flatten.length = n * k) (hn : 0 < n)
include h hcount hn

/-- **The first group decides** whether kernels in groups of `m` fit a join of groups of `n`. -/
theorem Batched.fits_iff : m = n ∨ n ≤ m ∧ k = 1 ↔ (gs.headD []).length = n := by
  rcases h.cases with ⟨t, rfl, ht, hle⟩ | ⟨g, T, t, rfl, hg, hT, ht, -⟩
  · have hlength : t.length = n * k := by simpa using hcount
    show _ ↔ t.length = n
    constructor
    · rintro (rfl | ⟨-, rfl⟩)
      · have hpos := List.length_pos_of_ne_nil ht
        rw [hlength] at hpos hle
        have hone : k ≤ 1 := Nat.le_of_mul_le_mul_left (by rwa [Nat.mul_one]) hn
        have hk := Nat.pos_of_mul_pos_left hpos
        rw [hlength, Nat.le_antisymm hone hk, Nat.mul_one]
      · rw [hlength, Nat.mul_one]
    · intro hfirst
      refine .inr ⟨hfirst ▸ hle, ?_⟩
      rw [hfirst] at hlength
      exact Nat.eq_of_mul_eq_mul_left hn (by rw [Nat.mul_one]; exact hlength.symm)
  · show _ ↔ g.length = n
    rw [hg]
    refine or_iff_left ?_
    rintro ⟨hle, rfl⟩
    have hpos := List.length_pos_of_ne_nil ht
    simp only [List.flatten_cons, List.flatten_append, List.flatten_nil, List.append_nil,
      List.length_append, Nat.mul_one] at hcount
    omega

/-- Then all groups are of that size. -/
theorem Batched.full (hfirst : (gs.headD []).length = n) : ∀ g ∈ gs, g.length = n := by
  rcases h.cases with ⟨t, rfl, -, -⟩ | ⟨g, T, t, rfl, hg, hT, ht, hle⟩
  · intro g hg
    rw [List.mem_singleton.mp hg]
    exact hfirst
  · obtain rfl : m = n := hg.symm.trans hfirst
    -- the last group makes the total a multiple
    have hlast : t.length = m := by
      have hpos := List.length_pos_of_ne_nil ht
      rw [List.flatten_cons, List.flatten_append, List.flatten_singleton, List.length_append,
        List.length_append, hg, length_flatten_of_full hT] at hcount
      have hsum : m ∣ (m + T.length * m) + t.length := ⟨k, by rw [← hcount, Nat.add_assoc]⟩
      have hfull : m ∣ m + T.length * m :=
        ⟨T.length + 1, by rw [Nat.mul_succ, Nat.mul_comm, Nat.add_comm]⟩
      have hdvd : m ∣ t.length := (Nat.dvd_add_right hfull).mp hsum
      exact Nat.le_antisymm hle (Nat.le_of_dvd hpos hdvd)
    intro g' hg'
    rcases List.mem_cons.mp hg' with rfl | hg'
    · exact hg
    · rcases List.mem_append.mp hg' with hg' | hg'
      · exact hT g' hg'
      · rw [List.mem_singleton.mp hg', hlast]

end Batched

/-! ## Along the chain -/

section Chain

variable {w₀ w w' : World} {stack stack' : List Nat} {last last' : Nat} {k : KernelId} {p : Kpair}
variable {chain : List Kpair} {cs ds : List KernelId} {s s' : AddState}

theorem nodup_layer {d next : Nat} (h : d < next) (m : Nat) : (layer d next m).Nodup := by
  cases m with
  | zero => exact List.nodup_nil
  | succ m =>
      refine List.nodup_cons.mpr ⟨fun hmem => ?_, List.nodup_range'⟩
      exact absurd (List.mem_range'_1.mp hmem).1 (Nat.not_le.mpr h)

/-- All copies that were made are in the layer. -/
theorem mem_layer_of {d next m k : Nat} (hle : next ≤ k) (hlt : k < next + (m - 1)) :
    k ∈ layer d next m := by
  cases m with
  | zero => omega
  | succ m => exact List.mem_cons_of_mem d (List.mem_range'_1.mpr ⟨hle, hlt⟩)

theorem Nested.rest (h : Nested w₀ stack k (p :: chain)) : Nested w₀ (p.after stack) p.dst chain := by
  cases h with
  | cont hs hj _ _ rest => simpa [Kpair.after, hs, hj] using rest
  | split hs _ _ _ _ _ rest => simpa [Kpair.after, hs] using rest
  | join hs hj _ _ _ _ rest => simpa [Kpair.after, hs, hj] using rest

theorem Nested.src_eq (h : Nested w₀ stack k (p :: chain)) : p.src = k := by
  cases h <;> rfl

theorem Nested.closed (h : Nested w₀ stack k []) : stack = [] := by
  cases h
  rfl

/-- The source of a pair is the destination of the one before. -/
theorem Nested.src_mem (h : Nested w₀ stack k chain) :
    ∀ q ∈ chain, q.src = k ∨ ∃ p ∈ chain, q.src = p.dst := by
  induction chain generalizing stack k with
  | nil => simp
  | cons p chain ih =>
      intro q hq
      rcases List.mem_cons.mp hq with rfl | hq
      · exact .inl h.src_eq
      · rcases ih h.rest q hq with heq | ⟨p', hp', heq⟩
        · exact .inr ⟨p, List.mem_cons_self, heq⟩
        · exact .inr ⟨p', List.mem_cons_of_mem p hp', heq⟩

/-- The operands from `k` on are different, and from before. -/
structure Operands (w₀ : World) (k : KernelId) (chain : List Kpair) : Prop where
  apart : (k :: chain.map Kpair.dst).Nodup
  lt : ∀ p ∈ chain, p.dst < w₀.next

theorem Operands.tail (h : Operands w₀ k (p :: chain)) : Operands w₀ p.dst chain :=
  ⟨(List.nodup_cons.mp h.apart).2, fun q hq => h.lt q (List.mem_cons_of_mem p hq)⟩

/-- Before a pair of the chain: `cs` are the kernels for its source, in the groups that the splits and
joins so far have left, and the operands that come are not linked yet. -/
structure Standing (w₀ w : World) (stack : List Nat) (last : Nat) (k : KernelId) (chain : List Kpair)
    (cs : List KernelId) (s : AddState) : Prop where
  next : w₀.next ≤ w.next
  offers : w₀.Offers w k cs
  fresh : ∀ c ∈ cs, c = k ∨ w₀.next ≤ c
  count : cs.length = stack.prod
  groups : s.groups.flatten = cs
  batched : Batched last s.groups
  edges : s.splitOutEdges = stack
  ops : s.stack = List.replicate stack.length .split
  awaits : ∀ q ∈ chain, w₀.Awaits w q.dst
  unlinked : ∀ q ∈ chain, ∀ key, w.other ⟨q.dst, .output, key⟩ = none

/-- An operand that comes later is none of the kernels so far. -/
theorem Standing.not_mem (h : Standing w₀ w stack last k chain cs s) (hop : Operands w₀ k chain)
    {q : Kpair} (hq : q ∈ chain) : q.dst ∉ cs := by
  intro hmem
  rcases h.fresh _ hmem with heq | hle
  · exact (List.nodup_cons.mp hop.apart).1 (heq ▸ List.mem_map_of_mem hq)
  · exact absurd (hop.lt q hq) (Nat.not_lt.mpr hle)

/-- **Moving on.** The layer that a routine has filled is what the next pair starts from. -/
theorem Standing.advance (h : Standing w₀ w stack last k (p :: chain) cs s)
    (hop : Operands w₀ k (p :: chain)) {keys keys' : List PortKey}
    (hfill : w₀.Filling w p.dst (ends .output keys cs) (ends .input keys' ds) ds w')
    (hcount : ds.length = stack'.prod) (hgroups : s'.groups.flatten = ds)
    (hbatched : Batched last' s'.groups) (hedges : s'.splitOutEdges = stack')
    (hops : s'.stack = List.replicate stack'.length .split) :
    Standing w₀ w' stack' last' p.dst chain ds s' := by
  have hlt : p.dst < w₀.next := hop.lt p List.mem_cons_self
  have hds : ∀ c ∈ ds, c = p.dst ∨ w.next ≤ c := by
    intro c hc
    rw [hfill.copies] at hc
    exact (mem_layer hc).imp_right And.left
  have hne : ds ≠ [] := by
    obtain ⟨T, t, hT, -, ht, -⟩ := hbatched
    rw [← hgroups, hT]
    simp [ht]
  have hnot : ∀ c ∈ ds, c ∉ cs := by
    intro c hc hmem
    rcases hds c hc with rfl | hle
    · exact h.not_mem hop List.mem_cons_self hmem
    · exact absurd (h.offers.like c hmem).lt (Nat.not_lt.mpr hle)
  -- an operand that comes later has nothing to do with what was linked
  have hlater : ∀ q ∈ chain, ∀ side key, w'.other ⟨q.dst, side, key⟩ = w.other ⟨q.dst, side, key⟩ := by
    intro q hq side key
    have hqlt := (h.awaits q (List.mem_cons_of_mem p hq)).like.lt
    refine hfill.built.off _ hqlt (fun hmem => ?_) fun hmem => ?_
    · exact h.not_mem hop (List.mem_cons_of_mem p hq) (mem_ends.mp hmem).1
    · rcases hds _ (mem_ends.mp hmem).1 with heq | hle
      · exact (List.nodup_cons.mp hop.tail.apart).1 (heq ▸ List.mem_map_of_mem hq)
      · exact absurd hqlt (Nat.not_lt.mpr hle)
  refine ⟨h.next.trans hfill.built.next, ⟨hfill.alike, fun c hc key => ?_, ?_, ?_⟩, fun c hc => ?_, hcount,
    hgroups, hbatched, hedges, hops, fun q hq => ?_, fun q hq key => ?_⟩
  · refine hfill.built.other_eq_none (hfill.alike c hc).lt (fun hold => ?_) (fun hmem => ?_) fun hmem => ?_
    · rcases hds c hc with rfl | hle
      · exact h.unlinked p List.mem_cons_self key
      · exact absurd hold (Nat.not_lt.mpr hle)
    · exact hnot c hc (mem_ends.mp hmem).1
    · cases (mem_ends.mp hmem).2.1
  · rw [hfill.copies]
    exact nodup_layer (hlt.trans_le h.next) _
  · obtain ⟨m, hm⟩ := Nat.exists_eq_succ_of_ne_zero (mt List.length_eq_zero_iff.mp hne)
    rw [hfill.copies, hm]
    rfl
  · exact (hds c hc).imp_right h.next.trans
  · have hq' := h.awaits q (List.mem_cons_of_mem p hq)
    exact ⟨hq'.like.mono hfill.built, fun key => (hlater q hq _ key).trans (hq'.free key)⟩
  · exact (hlater q hq _ key).trans (h.unlinked q (List.mem_cons_of_mem p hq) key)

/-- What one step of the builder does when its groups fit. -/
theorem step_returns (h : Standing w₀ w stack last k (p :: chain) cs s)
    (hop : Operands w₀ k (p :: chain)) (hn : Nested w₀ stack k (p :: chain))
    (htype : ∀ a ∈ (w₀.ports p.src .output).keys, ∀ b ∈ (w₀.ports p.dst .input).keys,
      (w₀.info ⟨p.src, .output, a⟩).type = (w₀.info ⟨p.dst, .input, b⟩).type)
    (hclone : 1 < (p.after stack).prod → (w₀.kernel p.dst).cloneable = true) (hfit : p.Fits last stack) : Returns (s.step p) (fun s' w' => ∃ ds,
      w₀.Filling w p.dst (ends .output (w₀.ports p.src .output).keys cs)
        (ends .input (w₀.ports p.dst .input).keys ds) ds w' ∧
      Standing w₀ w' (p.after stack) (p.batch last stack) p.dst chain ds s') w := by
  have hd := h.awaits p List.mem_cons_self
  have ho := h.offers
  have hgroups := h.groups
  have hcount := h.count
  unfold AddState.step
  cases hn with
  | cont hs hj hout hin rest =>
      obtain ⟨a, ha, hra⟩ := hout
      obtain ⟨b, hb, hrb⟩ := hin
      have hlink : nextLinkType p = pure .cont := by simp [nextLinkType, hs, hj]
      rw [hlink, pure_bind, ha, hb]
      simp only [Kpair.after, Kpair.batch, hs, hj, Bool.false_eq_true, if_false] at hclone ⊢
      rw [← hcount, ← hgroups] at hclone
      refine (inlineCont_returns (hgroups ▸ ho) hd hclone hra hrb (htype a (by simp [ha]) b (by simp [hb]))
        h.batched.nonempty).bind fun l w' ⟨hlengths, hfill⟩ => returns_pure ⟨l.tempGroups.flatten, ?_, ?_⟩
      · rwa [hgroups] at hfill
      · rw [hgroups] at hfill
        refine h.advance hop hfill ?_ rfl (h.batched.of_lengths hlengths) h.edges h.ops
        rw [← hcount, ← hgroups, List.length_flatten, List.length_flatten, hlengths]
  | split hs hj hedges hpos hout hin rest =>
      obtain ⟨b, hb, hrb⟩ := hin
      have hlink : nextLinkType p = pure .split := by simp [nextLinkType, hs, hj]
      rw [hlink, pure_bind, hb]
      simp only [Kpair.after, Kpair.batch, hs, if_true] at hclone ⊢
      rw [List.prod_cons, Nat.mul_comm, ← hcount, ← hgroups, hedges] at hclone
      refine (inlineSplit_returns (hgroups ▸ ho) hd hrb hout (fun a ha => htype a ha b (by simp [hb]))
        (hedges ▸ hpos) hclone s.splitOutEdges).bind fun r w' ⟨hstack, hfull, hlength, hfill⟩ =>
          returns_pure ⟨r.2.tempGroups.flatten, ?_, ?_⟩
      · rwa [hgroups] at hfill
      · rw [hgroups] at hfill hlength
        have hne : r.2.tempGroups ≠ [] := by
          intro hnil
          rw [hnil] at hlength
          have hfirst := ho.first
          rw [List.length_eq_zero_iff.mp hlength.symm] at hfirst
          cases hfirst
        rw [← hedges] at hfull
        refine h.advance hop hfill ?_ rfl (batched_of_full hne hpos hfull) ?_ ?_
        · rw [length_flatten_of_full hfull, hlength, hcount, List.prod_cons, Nat.mul_comm]
        · show r.1 = _
          rw [hstack, h.edges]
        · show Op.split :: s.stack = _
          rw [h.ops]
          rfl
  | @join n stack _ _ hs hj hout hports hpos hin rest =>
      obtain ⟨a, ha, hra⟩ := hout
      have hlink : nextLinkType p = pure .join := by simp [nextLinkType, hs, hj]
      have hpop : s.stack = .split :: List.replicate stack.length .split := h.ops
      have hflat : s.groups.flatten.length = n * stack.prod := by
        rw [hgroups, hcount, List.prod_cons]
      have hfirst := (h.batched.fits_iff hflat hpos).mp (hfit hj)
      have hfull := h.batched.full hflat hpos hfirst
      have hlength : s.groups.length = stack.prod := by
        rw [length_flatten_of_full hfull, Nat.mul_comm] at hflat
        exact Nat.eq_of_mul_eq_mul_left hpos hflat
      rw [hlink, pure_bind, ha]
      simp only [hpop, h.edges, Kpair.after, Kpair.batch, hs, hj, Bool.false_eq_true, if_false, if_true,
        List.tail_cons] at hclone ⊢
      rw [← hlength] at hclone
      refine (inlineJoin_returns (hgroups ▸ ho) hd hra hin (fun b hb => htype a (by simp [ha]) b hb)
        h.batched.ne_nil hpos hclone stack (by rwa [hports])).bind
          fun r w' ⟨hstack, hbatched, hcopies, hfill⟩ => returns_pure ⟨r.2.tempGroups.flatten, ?_, ?_⟩
      · rwa [hgroups] at hfill
      · rw [hgroups] at hfill
        exact h.advance hop hfill (hcopies.trans hlength) rfl hbatched hstack rfl

/-- What the rest of the chain has built, from `w` on, behind the kernels `cs`. -/
structure Finished (w₀ w : World) (stack : List Nat) (cs : List KernelId) (chain : List Kpair)
    (copies : List KernelId) (as bs : List PortRef) (s : AddState) (w' : World) : Prop where
  laid : Laid w₀ w' stack cs chain copies as bs
  built : w.Built w' as bs
  nodup : copies.Nodup
  known : ∀ c ∈ copies, (∃ q ∈ chain, c = q.dst) ∨ w.next ≤ c
  made : ∀ k, w.next ≤ k → k < w'.next → k ∈ copies
  edges : s.splitOutEdges = []
  groups : s.groups.length = 1

/-- **If all joins fit**, the builder gets through, and has built what the chain stands for. -/
theorem chain_returns (h : Standing w₀ w stack last k chain cs s) (hop : Operands w₀ k chain)
    (hn : Nested w₀ stack k chain)
    (htype : ∀ p ∈ chain, ∀ a ∈ (w₀.ports p.src .output).keys, ∀ b ∈ (w₀.ports p.dst .input).keys,
      (w₀.info ⟨p.src, .output, a⟩).type = (w₀.info ⟨p.dst, .input, b⟩).type)
    (hclone : w₀.Clones stack chain) (hfit : GroupsFit last stack chain) : Returns (chain.foldlM AddState.step s)
      (fun s' w' => ∃ copies as bs, Finished w₀ w stack cs chain copies as bs s' w') w := by
  induction chain generalizing w stack last k cs s with
  | nil =>
      obtain rfl := hn.closed
      refine returns_pure ⟨[], [], [], .nil [] cs, .refl w, List.nodup_nil, by simp,
        fun k hle hlt => absurd hlt (Nat.not_lt.mpr hle), h.edges, ?_⟩
      have hone : s.groups.flatten.length = 1 := by
        rw [h.groups, h.count]
        rfl
      rcases h.batched.cases with ⟨t, ht, -⟩ | ⟨g, T, t, hgs, hg, -, ht, hle⟩
      · rw [ht]
        rfl
      · have hpos := List.length_pos_of_ne_nil ht
        simp only [hgs, List.flatten_cons, List.flatten_append, List.length_append, List.flatten_nil,
          List.append_nil] at hone
        omega
  | cons p chain ih =>
      rw [List.foldlM_cons]
      refine (step_returns h hop hn (htype p List.mem_cons_self) hclone.1 hfit.1).bind
        fun s₁ w₁ ⟨ds, hfill, hstand⟩ => ?_
      refine (ih hstand hop.tail hn.rest (fun q hq => htype q (List.mem_cons_of_mem p hq)) hclone.2
        hfit.2).conseq fun s' w' ⟨copies, as, bs, hfin⟩ => ⟨ds ++ copies, _, _, ?_, hfill.built.trans hfin.built, ?_,
          fun c hc => ?_, fun j hle hlt => ?_, hfin.edges, hfin.groups⟩
      · exact .cons hstand.count hstand.offers.first (fun c hc => (hfill.alike c hc).mono hfin.built)
          hfin.laid
      · refine List.nodup_append.mpr ⟨hstand.offers.nodup, hfin.nodup, fun c hc c' hc' heq => ?_⟩
        subst heq
        rcases hfin.known c hc' with ⟨q, hq, rfl⟩ | hle
        · exact hstand.not_mem hop.tail hq hc
        · exact absurd (hfill.alike c hc).lt (Nat.not_lt.mpr hle)
      · rcases List.mem_append.mp hc with hc | hc
        · rw [hfill.copies] at hc
          rcases mem_layer hc with rfl | ⟨hle, -⟩
          · exact .inl ⟨p, List.mem_cons_self, rfl⟩
          · exact .inr hle
        · rcases hfin.known c hc with ⟨q, hq, rfl⟩ | hle
          · exact .inl ⟨q, List.mem_cons_of_mem p hq, rfl⟩
          · exact .inr (hfill.built.next.trans hle)
      · by_cases hlt₁ : j < w₁.next
        · refine List.mem_append_left _ ?_
          rw [hfill.next] at hlt₁
          rw [hfill.copies]
          exact mem_layer_of hle hlt₁
        · exact List.mem_append_right _ (hfin.made j (Nat.not_lt.mp hlt₁) hlt)

end Chain

/-! ## A kernel that is left out -/

/-- The ports of `c` are as they were. -/
structure Spares (c : KernelId) (w w' : World) : Prop where
  next : w.next ≤ w'.next
  kernel : w'.kernel c = w.kernel c
  other : ∀ s key, w'.other ⟨c, s, key⟩ = w.other ⟨c, s, key⟩

section Spares

variable {w w' : World} {c : KernelId}

theorem spares_refl (w : World) : Spares c w w := ⟨Nat.le_refl _, rfl, fun _ _ => rfl⟩

theorem spares_trans (w w' w'' : World) (h : Spares c w w') (h' : Spares c w' w'') : Spares c w w'' :=
  ⟨h.next.trans h'.next, h'.kernel.trans h.kernel, fun s key => (h'.other s key).trans (h.other s key)⟩

/-- A write that changes no end of a port of `c`. -/
theorem spares_of_sameEnds (hsame : w.SameEnds w') (hk : w'.kernel = w.kernel) : Spares c w w' :=
  ⟨hsame.next.ge, by rw [hk], fun _ _ => hsame.other _⟩

/-- A call on other kernels leaves the ports of `c` alone, whichever way it ends. -/
theorem link_spares {a b : KernelId} (ha : a ≠ c) (hb : b ≠ c) (t : Order) (aPort bPort : PortKey)
    (buffer : Nat) : Along (Spares c) (link t a aPort b bPort buffer) (fun _ _ => True) w := by
  apply along_link spares_trans
  · intro rs
    exact spares_of_sameEnds
      ((World.sameEnds_withKernels a b).trans (World.sameEnds_sized _ buffer rs))
      (World.sized_kernel _ buffer rs)
  · intro ra rb w' hra hrb
    obtain ⟨rfl, -⟩ := World.found_spec hra
    obtain ⟨rfl, -⟩ := World.found_spec hrb
    refine ⟨Nat.le_refl _, rfl, fun s key => World.linked_other_of_ne ?_ ?_⟩
    · rintro rfl
      exact ha rfl
    · rintro rfl
      exact hb rfl

/-- The builder leaves the ports of `c` alone as long as it does not get hold of `c`. -/
theorem spares_discipline (c : KernelId) : Discipline (Spares c) fun k w => k ≠ c ∧ c < w.next where
  refl := spares_refl
  trans := spares_trans
  mono h hs := ⟨h.1, h.2.trans_le hs.next⟩
  link ha hb := link_spares ha.1 hb.1
  clone {k w} hk := by
    refine clone_along (spares_refl w) ⟨⟨Nat.le_succ _, World.withClone_kernel_of_ne w k hk.2.ne,
      fun s key => ?_⟩, hk.2.ne', Nat.lt_succ_of_lt hk.2⟩
    rw [World.other, World.withClone_info_of_ne w k hk.2.ne, World.other]

end Spares

section Chain

variable {w₀ w w' : World} {stack : List Nat} {last n : Nat} {k c : KernelId} {p : Kpair}
variable {chain : List Kpair} {cs : List KernelId} {s : AddState}

/-- A discipline is kept along the rest of a chain; as no join there finds the stack empty, the first
pair of the list does not matter. -/
theorem rest_along {R : World → World → Prop} {K : KernelId → World → Prop} (D : Discipline R K)
    (hn : Nested w₀ stack k chain) (hops : s.stack = List.replicate stack.length .split)
    (hg : Every K s.groups.flatten w) (hc : ∀ p ∈ chain, p.Valid K w) :
    Along R (chain.foldlM AddState.step s) (fun _ _ => True) w := by
  induction hn generalizing s w with
  | done => exact along_pure D.refl trivial
  | @cont _ p chain hs hj _ _ _ ih =>
      have hlink : nextLinkType p = pure .cont := by simp [nextLinkType, hs, hj]
      rw [List.foldlM_cons]
      refine Along.bind (Q := fun s' w' => s'.stack = s.stack ∧ Every K s'.groups.flatten w') D.trans ?_
        fun s' w' hR ⟨hst, hg'⟩ => ih (hst.trans hops) hg' fun q hq =>
          D.pair (hc q (List.mem_cons_of_mem p hq)) hR
      unfold AddState.step
      rw [hlink, pure_bind]
      exact (D.inlineCont_along hg (hc p List.mem_cons_self)).bind D.trans
        fun l w' _ hl => along_pure D.refl ⟨rfl, hl.2⟩
  | @split _ p chain hs hj _ _ _ _ _ ih =>
      have hlink : nextLinkType p = pure .split := by simp [nextLinkType, hs, hj]
      rw [List.foldlM_cons]
      refine Along.bind (Q := fun s' w' => s'.stack = .split :: s.stack ∧ Every K s'.groups.flatten w')
        D.trans ?_ fun s' w' hR ⟨hst, hg'⟩ => ih (by rw [hst, hops]; rfl) hg' fun q hq =>
          D.pair (hc q (List.mem_cons_of_mem p hq)) hR
      unfold AddState.step
      rw [hlink, pure_bind]
      exact (D.inlineSplit_along _ hg (hc p List.mem_cons_self)).bind D.trans
        fun r w' _ hl => along_pure D.refl ⟨rfl, hl.2⟩
  | @join _ stack p chain hs hj _ _ _ _ _ ih =>
      have hlink : nextLinkType p = pure .join := by simp [nextLinkType, hs, hj]
      have hpop : s.stack = .split :: List.replicate stack.length .split := hops
      rw [List.foldlM_cons]
      refine Along.bind (Q := fun s' w' => s'.stack = List.replicate stack.length .split ∧
        Every K s'.groups.flatten w') D.trans ?_ fun s' w' hR ⟨hst, hg'⟩ => ih hst hg' fun q hq =>
          D.pair (hc q (List.mem_cons_of_mem p hq)) hR
      unfold AddState.step
      rw [hlink, pure_bind]
      simp only [hpop]
      exact (D.inlineJoin_along _ hg (hc p List.mem_cons_self)).bind D.trans
        fun r w' _ hl => along_pure D.refl ⟨rfl, hl.2⟩

/-! ### A join that does not fit -/

/-- A group that is too small for the ports moves the iterator past its end, if nothing else happens
before. -/
theorem joinFunc_short {keys : List PortKey} {group : List KernelId} {q q' : Kpair}
    (h : group.length < keys.length) : (joinFunc keys group q).run w ≠ .ok q' w' := by
  induction keys generalizing group q w with
  | nil => cases h
  | cons key keys ih =>
      cases group with
      | nil => exact nofun
      | cons kernel it =>
          intro hrun
          unfold joinFunc at hrun
          obtain ⟨_, w₁, -, hrest⟩ := run_bind_ok.mp hrun
          exact ih (Nat.lt_of_succ_lt_succ h) hrest

/-- Of a group that is too large, the ports take the first kernels. -/
theorem joinFunc_take (keys : List PortKey) (group : List KernelId) (q : Kpair) :
    joinFunc keys group q = joinFunc keys (group.take keys.length) q := by
  induction keys generalizing group q with
  | nil => rfl
  | cons key keys ih =>
      cases group with
      | nil => rfl
      | cons kernel it =>
          exact congrArg (fun rest => joink { q with src := kernel, dstName := key, hasDstName := true } >>=
            fun _ => rest) (ih it { q with src := kernel, dstName := key, hasDstName := true })

/-- The first group is joined in the destination itself. -/
theorem joinGroup_first (hn : 0 < n) (group : List KernelId) :
    (joinGroup n (0, { next := p }) group).run w =
    (joinFunc (w.ports p.dst .input).keys group p >>= fun next =>
      pure (n - 1, ({ tempGroups := [[p.dst]], next := next } : Locals))).run w := by
  have hdec : decrement n = n - 1 := if_neg hn.ne'
  rw [← hdec]
  rfl

theorem joinGroup_take (hn : 0 < n) (hports : (w.ports p.dst .input).keys.length = n)
    (group : List KernelId) : (joinGroup n (0, { next := p }) group).run w =
      (joinGroup n (0, { next := p }) (group.take n)).run w := by
  rw [joinGroup_first hn, joinGroup_first hn, joinFunc_take, hports]

/-- A first group that is too large: a kernel of it that is not the first one is passed over. -/
theorem exists_passed_over {g : List KernelId} {gs : Groups} (hcs : (g :: gs).flatten = cs)
    (hnodup : cs.Nodup) (hfirst : cs.head? = some k) (hn : 0 < n) (hlt : n < g.length) :
    ∃ c ∈ cs, c ≠ k ∧ c ∉ g.take n ∧ c ∉ gs.flatten := by
  obtain ⟨c, rest, hdrop⟩ := List.exists_cons_of_length_pos (l := g.drop n) (by
    rw [List.length_drop]
    omega)
  have hg : g = g.take n ++ c :: rest := by rw [← hdrop, List.take_append_drop]
  rw [← hcs, List.flatten_cons, hg, List.append_assoc, List.cons_append] at hnodup hfirst
  obtain ⟨-, hnodup', hapart⟩ := List.nodup_append.mp hnodup
  have hout : c ∉ g.take n := fun hmem => hapart c hmem c List.mem_cons_self rfl
  refine ⟨c, ?_, ?_, hout, fun hmem => ?_⟩
  · rw [← hcs, List.flatten_cons, hg]
    simp
  · rintro rfl
    cases htake : g.take n with
    | nil =>
        have hlength := congrArg List.length htake
        rw [List.length_take] at hlength
        simp only [List.length_nil] at hlength
        omega
    | cons d ds =>
        rw [htake] at hfirst
        obtain rfl : d = c := Option.some_inj.mp hfirst
        exact hout (by simp [htake])
  · exact (List.nodup_cons.mp hnodup').1 (List.mem_append_right _ hmem)

/-- The ends of the pairs are operands, not copies. -/
theorem Operands.valid (hop : Operands w₀ k (p :: chain)) (hn : Nested w₀ stack k (p :: chain))
    (hck : c ≠ k) (hle : w₀.next ≤ c) (hlt : c < w.next) {q : Kpair} (hq : q ∈ p :: chain) :
    q.Valid (fun k w => k ≠ c ∧ c < w.next) w := by
  refine ⟨⟨?_, hlt⟩, ⟨((hop.lt q hq).trans_le hle).ne, hlt⟩⟩
  rcases hn.src_mem q hq with heq | ⟨q', hq', heq⟩
  · rw [heq]
    exact hck.symm
  · rw [heq]
    exact ((hop.lt q' hq').trans_le hle).ne

section Misfit

variable {ops : List Op} {g : List KernelId} {gs : Groups} (hlink : nextLinkType p = pure .join)
  (hops : s.stack = .split :: ops) (hedges : s.splitOutEdges = n :: stack) (hgs : s.groups = g :: gs)
  (hn : 0 < n) (hkeys : (w.ports p.dst .input).keys.length = n)

include hlink hops hedges hgs hn hkeys

/-- A join whose first group is too small does not get through. -/
theorem step_small (hlt : g.length < n) {s' : AddState} : (s.step p).run w ≠ .ok s' w' := by
  intro hstep
  unfold AddState.step inlineJoin at hstep
  rw [hlink, pure_bind] at hstep
  simp only [hops, hedges, hgs, List.foldlM_cons] at hstep
  obtain ⟨_, w₁, hjoin, -⟩ := run_bind_ok.mp hstep
  obtain ⟨_, w₂, hfold, -⟩ := run_bind_ok.mp hjoin
  obtain ⟨_, w₃, hgroup, -⟩ := run_bind_ok.mp hfold
  rw [joinGroup_first hn] at hgroup
  obtain ⟨_, w₄, hfunc, -⟩ := run_bind_ok.mp hgroup
  exact joinFunc_short (hkeys ▸ hlt) hfunc

/-- A join that passes a kernel over in its first group leaves the ports of that kernel alone. -/
theorem step_large (hp : p.Valid (fun k w => k ≠ c ∧ c < w.next) w) (htake : c ∉ g.take n)
    (hout : c ∉ gs.flatten) :
    Along (Spares c) (s.step p) (fun s' w' => s'.stack = ops ∧
      Every (fun k w => k ≠ c ∧ c < w.next) s'.groups.flatten w') w := by
  have D := spares_discipline c
  have hlt : c < w.next := hp.1.2
  have hgroup : Along (Spares c) (joinGroup n (0, { next := p }) g)
      (fun r w' => r.2.Valid (fun k w => k ≠ c ∧ c < w.next) w') w := by
    unfold Along
    rw [joinGroup_take hn hkeys]
    refine D.joinGroup_along n ⟨hp, fun _ hk => nomatch hk⟩ fun d hd => ⟨?_, hlt⟩
    rintro rfl
    exact htake hd
  have hjoin : Along (Spares c) (inlineJoin (n :: stack) (g :: gs) p)
      (fun r w' => r.2.Valid (fun k w => k ≠ c ∧ c < w.next) w') w := by
    unfold inlineJoin
    refine Along.bind (Q := fun s w' => s.2.Valid (fun k w => k ≠ c ∧ c < w.next) w') D.trans ?_
      fun s w' _ hs => along_pure D.refl hs
    rw [List.foldlM_cons]
    refine hgroup.bind D.trans fun s₁ w₁ hR hs₁ => ?_
    refine D.loop (J := fun w => c < w.next) (fun _ _ hlt hR => hlt.trans_le hR.next)
      (fun s w hs hlt group hmem => D.joinGroup_along n hs fun d hd => ⟨fun heq => ?_, hlt⟩) hs₁
      (hlt.trans_le hR.next)
    exact hout (List.mem_flatten.mpr ⟨group, hmem, heq ▸ hd⟩)
  unfold AddState.step
  rw [hlink, pure_bind]
  simp only [hops, hedges, hgs]
  exact hjoin.bind D.trans fun r w' _ hr => along_pure D.refl ⟨rfl, hr.2⟩

end Misfit

/-- **Where a join does not fit**, a run that goes on leaves a copy out. -/
theorem misfit_spares (h : Standing w₀ w stack last k (p :: chain) cs s)
    (hn : Nested w₀ stack k (p :: chain)) (hop : Operands w₀ k (p :: chain))
    (hfit : ¬p.Fits last stack) {s' : AddState}
    (hrun : ((p :: chain).foldlM AddState.step s).run w = .ok s' w') :
    ∃ c ∈ cs, w₀.next ≤ c ∧ Spares c w w' := by
  have hvalid {c : KernelId} := hop.valid (w := w) (c := c) hn
  cases hn with
  | cont hs hj _ _ _ => simp [Kpair.Fits, hj] at hfit
  | split hs hj _ _ _ _ _ => simp [Kpair.Fits, hj] at hfit
  | @join n stack _ _ hs hj hout hports hpos hin rest =>
      have hflat : s.groups.flatten.length = n * stack.prod := by
        rw [h.groups, h.count, List.prod_cons]
      have hfirst : (s.groups.headD []).length ≠ n := fun hfirst =>
        hfit fun _ => (h.batched.fits_iff hflat hpos).mpr hfirst
      obtain ⟨g, gs, hgs⟩ := List.exists_cons_of_ne_nil h.batched.ne_nil
      have hkeys : (w.ports p.dst .input).keys.length = n := by
        rw [(h.awaits p List.mem_cons_self).like.ports]
        exact hports
      have hlink : nextLinkType p = pure .join := by simp [nextLinkType, hs, hj]
      rw [hgs] at hfirst
      rw [List.foldlM_cons] at hrun
      rcases Nat.lt_or_gt_of_ne hfirst with hsmall | hlarge
      · obtain ⟨s₁, w₁, hstep, -⟩ := run_bind_ok.mp hrun
        exact absurd hstep (step_small hlink h.ops h.edges hgs hpos hkeys hsmall)
      · have hcs : (g :: gs).flatten = cs := by rw [← hgs, h.groups]
        obtain ⟨c, hc, hck, htake, hout⟩ :=
          exists_passed_over hcs h.offers.nodup h.offers.first hpos hlarge
        have hle : w₀.next ≤ c := (h.fresh c hc).resolve_left hck
        have hvalid {q : Kpair} (hq : q ∈ p :: chain) := hvalid hck hle (h.offers.like c hc).lt hq
        have D := spares_discipline c
        have hall := (step_large hlink h.ops h.edges hgs hpos hkeys (hvalid List.mem_cons_self) htake
          hout).bind D.trans fun s₁ w₁ hR ⟨hst, hg⟩ => rest_along D rest hst hg fun q hq =>
            D.pair (hvalid (List.mem_cons_of_mem p hq)) hR
        exact ⟨c, hc, hle, (hall.ok hrun).1⟩

/-- **If a join does not fit**, a run that gets through leaves an output port of a copy unlinked. -/
theorem chain_leaves_out (h : Standing w₀ w stack last k chain cs s) (hop : Operands w₀ k chain)
    (hn : Nested w₀ stack k chain)
    (htype : ∀ p ∈ chain, ∀ a ∈ (w₀.ports p.src .output).keys, ∀ b ∈ (w₀.ports p.dst .input).keys,
      (w₀.info ⟨p.src, .output, a⟩).type = (w₀.info ⟨p.dst, .input, b⟩).type)
    (hclone : w₀.Clones stack chain) (hfit : ¬GroupsFit last stack chain) {s' : AddState}
    (hrun : (chain.foldlM AddState.step s).run w = .ok s' w') :
    ∃ c key, w₀.next ≤ c ∧ c < w'.next ∧ key ∈ (w'.ports c .output).keys ∧
      w'.other ⟨c, .output, key⟩ = none := by
  induction chain generalizing w stack last k cs s with
  | nil => exact absurd trivial hfit
  | cons p chain ih =>
      by_cases hp : p.Fits last stack
      · rw [List.foldlM_cons] at hrun
        obtain ⟨s₁, w₁, hstep, hrest⟩ := run_bind_ok.mp hrun
        obtain ⟨ds, -, hstand⟩ :=
          (step_returns h hop hn (htype p List.mem_cons_self) hclone.1 hp).ok hstep
        refine ih hstand hop.tail hn.rest (fun q hq => htype q (List.mem_cons_of_mem p hq)) hclone.2
          (fun hfit' => ?_) hrest
        exact hfit ⟨hp, hfit'⟩
      · obtain ⟨c, hc, hle, hspares⟩ := misfit_spares h hn hop hp hrun
        have hlike := h.offers.like c hc
        obtain ⟨key, hkey⟩ : ∃ key, key ∈ (w₀.ports k .output).keys := by
          cases hn with
          | cont _ _ hout _ _ => exact ⟨_, hout.choose_spec.2.mem⟩
          | split _ _ hcount hpos _ _ _ =>
              exact List.exists_mem_of_length_pos (Nat.lt_of_lt_of_eq hpos hcount)
          | join _ _ hout _ _ _ _ => exact ⟨_, hout.choose_spec.2.mem⟩
        refine ⟨c, key, hle, hlike.lt.trans_le hspares.next, ?_, ?_⟩
        · have hports : w'.ports c .output = w.ports c .output := by
            rw [World.ports, hspares.kernel, World.ports]
          rw [hports, hlike.ports]
          exact hkey
        · rw [hspares.other, h.offers.free c hc]

/-- What a chain stands for leaves no such port. -/
theorem Laid.linked {copies : List KernelId} {as bs : List PortRef}
    (h : Laid w₀ w' stack cs chain copies as bs) (hn : Nested w₀ stack k chain)
    (hop : Operands w₀ k chain) (hc : c ∈ copies) (hle : w₀.next ≤ c) {key : PortKey}
    (hkey : key ∈ (w'.ports c .output).keys) : ⟨c, .output, key⟩ ∈ as := by
  induction h generalizing k with
  | nil => cases hc
  | @cons stack cs ds p chain copies as bs count first like rest ih =>
      rcases List.mem_append.mp hc with hds | hcopies
      · cases rest with
        | nil =>
            -- the last operand is there once
            rw [hn.rest.closed] at count
            obtain ⟨d, rfl⟩ := List.length_eq_one_iff.mp count
            obtain rfl : d = p.dst := Option.some_inj.mp first
            obtain rfl := List.mem_singleton.mp hds
            exact absurd (hop.lt p List.mem_cons_self) (Nat.not_lt.mpr hle)
        | @cons _ _ _ q chain _ _ _ _ _ _ _ =>
            refine List.mem_append_right _ (List.mem_append_left _ (mem_ends.mpr ⟨hds, rfl, ?_⟩))
            rw [hn.rest.src_eq, ← (like c hds).ports]
            exact hkey
      · exact List.mem_append_right _ (ih hn.rest hop.tail hcopies)

end Chain

/-! ## The whole chain -/

/-- Before the first pair there is the source, in a group of its own. -/
theorem Buildable.standing {w : World} {src : KernelId} {chain : List Kpair}
    (hb : Buildable w src chain) :
    Standing w w [] 1 src chain [src] { groups := [[src]] } where
  next := Nat.le_refl _
  offers :=
    { like := fun c hc => by
        rw [List.mem_singleton.mp hc]
        exact ⟨hb.lt src List.mem_cons_self, fun _ => rfl, fun _ _ => rfl, rfl⟩
      free := fun c hc key => hb.free c (List.mem_singleton.mp hc ▸ List.mem_cons_self) _ key
      nodup := List.nodup_singleton src
      first := rfl }
  fresh c hc := .inl (List.mem_singleton.mp hc)
  count := rfl
  groups := rfl
  batched := ⟨[], [src], rfl, by simp, by simp, Nat.le_refl _⟩
  edges := rfl
  ops := rfl
  awaits q hq :=
    have hmem := List.mem_cons_of_mem src (List.mem_map_of_mem hq)
    ⟨⟨hb.lt _ hmem, fun _ => rfl, fun _ _ => rfl, rfl⟩, fun key => hb.free _ hmem _ key⟩
  unlinked q hq key := hb.free _ (List.mem_cons_of_mem src (List.mem_map_of_mem hq)) _ key

/-- **`operator +=` builds the graph that a nested chain stands for** exactly if every join finds its
groups of the size of the split that it closes. -/
theorem nested_realizes_iff {w : World} {src : KernelId} {chain : List Kpair} (hne : chain ≠ [])
    (hn : Nested w [] src chain) (hb : Buildable w src chain) :
    Realizes w src chain ↔ GroupsFit 1 [] chain := by
  have hop : Operands w src chain :=
    ⟨hb.apart, fun p hp => hb.lt _ (List.mem_cons_of_mem src (List.mem_map_of_mem hp))⟩
  constructor
  · rintro ⟨s, w', copies, as, bs, hrun, -, -, -, hlaid, -, hmade, hbuilt⟩
    by_contra hfit
    obtain ⟨c, key, hle, hlt, hkey, hfree⟩ := chain_leaves_out hb.standing hop hn hb.type hb.cloneable hfit hrun
    have hlinked := hlaid.linked hn hop (hmade c hle hlt) hle hkey
    exact hbuilt.ne_none (.inl hlinked) hfree
  · intro hfit
    obtain ⟨s, w', hrun, copies, as, bs, hfin⟩ := chain_returns hb.standing hop hn hb.type hb.cloneable hfit
    refine ⟨s, w', copies, as, bs, hrun, ?_, hfin.edges, hfin.groups, hfin.laid, ?_, hfin.made, hfin.built⟩
    · obtain ⟨p, chain, rfl⟩ := List.exists_cons_of_ne_nil hne
      obtain rfl := hn.src_eq
      unfold addAssign
      exact ⟨_, run_bind_of_ok hrun⟩
    · refine List.nodup_cons.mpr ⟨fun hmem => ?_, hfin.nodup⟩
      rcases hfin.known src hmem with ⟨q, hq, heq⟩ | hle
      · exact (List.nodup_cons.mp hb.apart).1 (heq ▸ List.mem_map_of_mem hq)
      · exact absurd (hb.lt src List.mem_cons_self) (Nat.not_lt.mpr hle)

/-- Kernel `0` splits to `1`, which splits to `2`; `3` joins with `inner` input ports, `4` with two. The
last one is outside of all splits, and its class has no `CLONE()`. -/
def twoLevels (inner : PortMap) : World where
  kernel := fun
    | 0 => { className := "a", input := .empty, output := twoPorts }
    | 1 => { className := "b", input := .one "in", output := inner }
    | 2 => { className := "c", input := .one "in", output := .one "out" }
    | 3 => { className := "d", input := inner, output := .one "out" }
    | _ => { className := "e", input := twoPorts, output := .empty, cloneable := false }
  info := fun _ => { type := "int" }
  next := 5

/-- `a <= b <= c >= d >= e`. -/
def twoLevelChain (inner : PortMap) : List Kpair :=
  [{ head := 0, src := 0, dst := 1, splitTo := true, srcOutCount := 2 },
    { head := 0, src := 1, dst := 2, splitTo := true, srcOutCount := inner.count },
    { head := 0, src := 2, dst := 3, joinFrom := true },
    { head := 0, src := 3, dst := 4, joinFrom := true }]

theorem named_twoPorts : twoPorts.Named := by
  intro key hkey
  refine .inl ⟨rfl, ?_, hkey⟩
  rintro rfl
  revert hkey
  decide

theorem nested_twoLevels {inner : PortMap} (hpos : 0 < inner.count) (hnamed : inner.Named) :
    Nested (twoLevels inner) [] 0 (twoLevelChain inner) := by
  have hone (key : PortKey) : (PortMap.one key).Sole nullPortValue := ⟨key, rfl, .inr ⟨rfl, rfl⟩⟩
  refine .split (p := { head := 0, src := 0, dst := 1, splitTo := true, srcOutCount := 2 }) rfl rfl rfl
    Nat.two_pos named_twoPorts (hone "in") ?_
  refine .split (p := { head := 0, src := 1, dst := 2, splitTo := true, srcOutCount := inner.count }) rfl
    rfl rfl hpos hnamed (hone "in") ?_
  refine .join (p := { head := 0, src := 2, dst := 3, joinFrom := true }) rfl rfl (hone "out") rfl hpos
    hnamed ?_
  exact .join (p := { head := 0, src := 3, dst := 4, joinFrom := true }) rfl rfl (hone "out") rfl
    Nat.two_pos named_twoPorts .done

theorem buildable_twoLevels (inner : PortMap) :
    Buildable (twoLevels inner) 0 (twoLevelChain inner) where
  apart := by
    show [0, 1, 2, 3, 4].Nodup
    decide
  lt := by
    show ∀ k ∈ [0, 1, 2, 3, 4], k < 5
    decide
  cloneable := ⟨fun _ => rfl, fun _ => rfl, fun _ => rfl, fun h => absurd h (Nat.lt_irrefl 1), trivial⟩
  type _ _ _ _ _ _ := rfl
  free _ _ _ _ := rfl

/-- Two splits of the same size. -/
theorem nested_realizes_iff_two : Realizes (twoLevels twoPorts) 0 (twoLevelChain twoPorts) := by
  refine (nested_realizes_iff (by simp [twoLevelChain])
    (nested_twoLevels (show 0 < twoPorts.count from Nat.two_pos) named_twoPorts)
    (buildable_twoLevels twoPorts)).mpr ?_
  exact ⟨nofun, nofun, fun _ => .inl rfl, fun _ => .inl rfl, trivial⟩

theorem named_one {key : PortKey} (hkey : key ≠ nullPortValue) : (PortMap.one key).Named := by
  intro key' hmem
  obtain rfl := List.mem_singleton.mp hmem
  exact .inl ⟨rfl, hkey, hmem⟩

/-- With one port in the inner split, the joined kernels are put in groups of one, and the second join
looks for two in the first. -/
theorem nested_breaks : Nested (twoLevels (.one "0")) [] 0 (twoLevelChain (.one "0")) ∧
    Buildable (twoLevels (.one "0")) 0 (twoLevelChain (.one "0")) ∧
    ¬Realizes (twoLevels (.one "0")) 0 (twoLevelChain (.one "0")) := by
  refine ⟨nested_twoLevels Nat.one_pos (named_one (by decide)), buildable_twoLevels _, ?_⟩
  rintro ⟨s, w', _, _, _, hrun, -⟩
  have hthrows : (match (addLoop 0 (twoLevelChain (.one "0"))).run (twoLevels (.one "0")) with
      | .ok _ _ => false
      | .error e _ => decide (e = .pastEnd)) = true := by
    decide +kernel
  rw [hrun] at hthrows
  cases hthrows

end RaftLib.Graph
