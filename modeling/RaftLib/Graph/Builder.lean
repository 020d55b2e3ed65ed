/-
# `RaftLib.Graph.Builder` -- what the chain builder keeps

`operator +=` changes the map through `link` and `clone` alone. A relation between states that those two
keep, for kernels of some kind, is so kept by the whole builder, whichever way it ends: each routine is
gone through once, for an arbitrary `Discipline`, and a property of the map is one instance of it.
-/
import RaftLib.Graph.Map

namespace RaftLib.Graph

open RaftLib.Logic.Program

/-- A relation that `link` and `clone` keep as long as they are called on kernels of the kind `K`; the
copies are of that kind too. -/
structure Discipline (R : World → World → Prop) (K : KernelId → World → Prop) : Prop where
  refl : ∀ w, R w w
  trans : ∀ w w' w'', R w w' → R w' w'' → R w w''
  mono : ∀ {k w w'}, K k w → R w w' → K k w'
  link : ∀ {a b w}, K a w → K b w → ∀ t aPort bPort buffer,
    Along R (link t a aPort b bPort buffer) (fun _ _ => True) w
  clone : ∀ {k w}, K k w → Along R (clone k) K w

/-! ## The kernels in the builder's hands -/

section Kinds

variable (K : KernelId → World → Prop)

/-- All kernels of the list are of the kind `K`. -/
def Every (ks : List KernelId) (w : World) : Prop := ∀ k ∈ ks, K k w

/-- The ends of the pair are. -/
def Kpair.Valid (p : Kpair) (w : World) : Prop := K p.src w ∧ K p.dst w

/-- The local variables of the loops hold such kernels. -/
def Locals.Valid (l : Locals) (w : World) : Prop := l.next.Valid K w ∧ Every K l.tempGroups.flatten w

/-- The same for `inline_dup_join`. -/
structure DupLocals.Valid (l : DupLocals) (w : World) : Prop where
  gp : Every K l.gp w
  next : l.next.Valid K w
  head : ∀ p, l.head = some p → p.Valid K w

/-- The same for the loop over the chain. -/
structure AddState.Valid (s : AddState) (w : World) : Prop where
  groups : Every K s.groups.flatten w
  head : ∀ p, s.head = some p → p.Valid K w

end Kinds

namespace Groups

variable {gs : Groups} {k j : KernelId}

theorem flatten_pushEmpty : gs.pushEmpty.flatten = gs.flatten := by simp [pushEmpty]

theorem mem_emplaceFirst (h : j ∈ (gs.emplaceFirst k).flatten) : j ∈ gs.flatten ∨ j = k := by
  cases gs with
  | nil => exact .inl h
  | cons g gs =>
      simp only [emplaceFirst, List.flatten_cons, List.mem_append, List.mem_singleton] at h ⊢
      tauto

theorem mem_emplaceBack (h : j ∈ (gs.emplaceBack k).flatten) : j ∈ gs.flatten ∨ j = k := by
  simp only [emplaceBack, List.flatten_append, List.flatten_singleton, List.mem_append,
    List.mem_singleton] at h
  rcases h with h | h | h
  · obtain ⟨g, hg, hj⟩ := List.mem_flatten.mp h
    exact .inl (List.mem_flatten.mpr ⟨g, List.dropLast_subset _ hg, hj⟩)
  · cases hg : gs.getLast? with
    | none =>
        rw [List.getLastD_eq_getLast?, hg] at h
        cases h
    | some g =>
        rw [List.getLastD_eq_getLast?, hg] at h
        exact .inl (List.mem_flatten.mpr ⟨g, List.mem_of_getLast? hg, h⟩)
  · exact .inr h

end Groups

section Kinds

variable {K : KernelId → World → Prop} {w : World} {l : Locals} {gs : Groups} {k : KernelId}

theorem Locals.Valid.pushEmpty (h : l.Valid K w) :
    Locals.Valid K { l with tempGroups := l.tempGroups.pushEmpty } w := by
  refine ⟨h.1, ?_⟩
  rw [Groups.flatten_pushEmpty]
  exact h.2

theorem every_emplaceBack (h : Every K gs.flatten w) (hk : K k w) :
    Every K (gs.emplaceBack k).flatten w := fun j hj =>
  (Groups.mem_emplaceBack hj).elim (h j) fun e => e ▸ hk

theorem every_emplaceFirst (h : Every K gs.flatten w) (hk : K k w) :
    Every K (gs.emplaceFirst k).flatten w := fun j hj =>
  (Groups.mem_emplaceFirst hj).elim (h j) fun e => e ▸ hk

theorem AddState.Valid.finish {s : AddState} (hl : l.Valid K w)
    (hh : ∀ p, s.head = some p → p.Valid K w) : (s.finish l).Valid K w := by
  refine ⟨hl.2, fun p hp => ?_⟩
  cases hs : s.head with
  | none =>
      obtain rfl : l.next = p := by simpa [AddState.finish, hs] using hp
      exact hl.1
  | some q =>
      obtain rfl : q = p := by simpa [AddState.finish, hs] using hp
      exact hh q hs

end Kinds

/-! ## The routines -/

namespace Discipline

variable {R : World → World → Prop} {K : KernelId → World → Prop} (D : Discipline R K)
variable {w w' : World} {l : Locals} {next : Kpair} {groups : Groups} {group ks : List KernelId}

include D

theorem every (h : Every K ks w) (hR : R w w') : Every K ks w' := fun k hk => D.mono (h k hk) hR

theorem pair (h : next.Valid K w) (hR : R w w') : next.Valid K w' := ⟨D.mono h.1 hR, D.mono h.2 hR⟩

/-- A loop over a list, beside what is known of the state all along. -/
theorem loop {α β : Type} {f : β → α → Prog β} {xs : List α} {I : β → World → Prop}
    {J : World → Prop} (hJ : ∀ w w', J w → R w w' → J w')
    (hf : ∀ b w, I b w → J w → ∀ x ∈ xs, Along R (f b x) I w) {b : β} {w : World}
    (hb : I b w) (hw : J w) : Along R (xs.foldlM f b) I w := by
  refine (Along.foldlM (I := fun b w => I b w ∧ J w) D.refl D.trans (fun b w h x hx => ?_)
    ⟨hb, hw⟩).conseq fun _ _ _ h => h.1
  exact (hf b w h.1 h.2 x hx).conseq fun b' w' hR hI => ⟨hI, hJ w w' h.2 hR⟩

theorem get_along : Along R (get : Prog World) (fun v w' => v = w ∧ w' = w) w := ⟨D.refl w, rfl, rfl⟩

theorem joink_along (h : next.Valid K w) : Along R (joink next) (fun _ _ => True) w :=
  (D.link h.1 h.2 _ _ _ _).bind D.trans fun _ _ _ _ => along_pure D.refl trivial

theorem cloneIf_along (fresh : Bool) {k : KernelId} (hk : K k w) :
    Along R (cloneIf fresh k) K w := by
  unfold cloneIf
  split
  · exact D.clone hk
  · exact along_pure D.refl hk

theorem contKernel_along {kernel : KernelId} (hl : l.Valid K w) (hk : K kernel w) :
    Along R (contKernel l kernel) (Locals.Valid K) w := by
  unfold contKernel
  split
  · refine (D.joink_along hl.1).bind D.trans fun _ w' hR _ => ?_
    exact along_pure D.refl ⟨D.pair hl.1 hR, every_emplaceFirst (D.every hl.2 hR) (D.pair hl.1 hR).2⟩
  · refine (D.clone hl.1.2).bind D.trans fun c w₁ hR₁ hc => ?_
    have hvalid : Kpair.Valid K { l.next with src := kernel, dst := c } w₁ := ⟨D.mono hk hR₁, hc⟩
    refine (D.joink_along hvalid).bind D.trans fun _ w₂ hR₂ _ => ?_
    refine along_pure D.refl ⟨D.pair hvalid hR₂, ?_⟩
    exact every_emplaceBack (D.every (D.every hl.2 hR₁) hR₂) (D.pair hvalid hR₂).2

theorem inlineCont_along (hg : Every K groups.flatten w) (hn : next.Valid K w) :
    Along R (inlineCont groups next) (Locals.Valid K) w := by
  refine D.loop (fun _ _ => D.every) (fun l w hl hw group hgroup => ?_) ⟨hn, fun _ hk => nomatch hk⟩ hg
  refine D.loop (J := Every K group) (fun _ _ => D.every) (fun l w hl hw k hk => ?_)
    hl.pushEmpty fun k hk => hw k (List.mem_flatten.mpr ⟨group, hgroup, hk⟩)
  exact D.contKernel_along hl (hw k hk)

theorem splitPort_along {kernel : KernelId} (fresh : Bool) (hl : l.Valid K w) (hk : K kernel w)
    (name : PortKey) : Along R (splitPort kernel fresh l name) (Locals.Valid K) w := by
  unfold splitPort
  refine (D.cloneIf_along fresh hl.1.2).bind D.trans fun c w₁ hR₁ hc => ?_
  have hvalid : Kpair.Valid K { l.next with
      src := kernel, srcName := name, hasSrcName := true, dst := c } w₁ := ⟨D.mono hk hR₁, hc⟩
  refine (D.joink_along hvalid).bind D.trans fun _ w₂ hR₂ _ => ?_
  refine along_pure D.refl ⟨D.pair hvalid hR₂, ?_⟩
  exact every_emplaceBack (D.every (D.every hl.2 hR₁) hR₂) (D.pair hvalid hR₂).2

theorem splitKernel_along {kernel : KernelId} (hl : l.Valid K w) (hk : K kernel w) :
    Along R (splitKernel l kernel) (Locals.Valid K) w := by
  have hports : ∀ (keys : List PortKey) (l : Locals) (w : World), l.Valid K w → K kernel w →
      Along R (keys.foldlM (splitPort kernel true) l) (Locals.Valid K) w :=
    fun keys l w hl hk => D.loop (J := fun w => K kernel w) (fun _ _ => D.mono)
      (fun l w hl hk name _ => D.splitPort_along true hl hk name) hl hk
  unfold splitKernel
  refine D.get_along.bind D.trans fun v w₁ _ ⟨hv, hw⟩ => ?_
  subst hv hw
  dsimp only
  split
  · split
    · exact along_pure D.refl hl.pushEmpty
    · refine (D.splitPort_along false hl.pushEmpty hk _).bind D.trans
        fun l' w' hR hl' => hports _ l' w' hl' (D.mono hk hR)
  · exact hports _ _ _ hl.pushEmpty hk

theorem inlineSplit_along (edges : List Nat) (hg : Every K groups.flatten w) (hn : next.Valid K w) :
    Along R (inlineSplit edges groups next) (fun r w' => r.2.Valid K w') w := by
  unfold inlineSplit
  refine Along.bind (Q := Locals.Valid K) D.trans ?_ fun l w' _ hl => along_pure D.refl hl
  refine D.loop (fun _ _ => D.every) (fun l w hl hw group hgroup => ?_) ⟨hn, fun _ hk => nomatch hk⟩ hg
  refine D.loop (J := Every K group) (fun _ _ => D.every) (fun l w hl hw k hk => ?_)
    hl fun k hk => hw k (List.mem_flatten.mpr ⟨group, hgroup, hk⟩)
  exact D.splitKernel_along hl (hw k hk)

theorem joinFunc_along (keys : List PortKey) (hg : Every K group w) (hn : next.Valid K w) :
    Along R (joinFunc keys group next) (Kpair.Valid K) w := by
  induction keys generalizing group next w with
  | nil => exact along_pure D.refl hn
  | cons key keys ih =>
      cases group with
      | nil => exact along_throw D.refl _
      | cons kernel it =>
          have hvalid : Kpair.Valid K { next with src := kernel, dstName := key, hasDstName := true } w :=
            ⟨hg kernel List.mem_cons_self, hn.2⟩
          refine (D.joink_along hvalid).bind D.trans fun _ w' hR _ => ?_
          exact ih (fun k hk => D.mono (hg k (List.mem_cons_of_mem _ hk)) hR) (D.pair hvalid hR)

theorem joinGroup_along (top : Nat) {s : Nat × Locals} (hs : s.2.Valid K w) (hg : Every K group w) :
    Along R (joinGroup top s group) (fun r w' => r.2.Valid K w') w := by
  have hbatch : Every K (newBatch top s.1 s.2.tempGroups).2.flatten w := by
    unfold newBatch
    split
    · exact hs.pushEmpty.2
    · exact hs.2
  unfold joinGroup
  refine (D.cloneIf_along _ hs.1.2).bind D.trans fun c w₁ hR₁ hc => ?_
  refine D.get_along.bind D.trans fun v w₂ hR₂ hv => ?_
  obtain ⟨-, rfl⟩ := hv
  have hvalid : Kpair.Valid K { s.2.next with dst := c } w₂ := ⟨D.mono hs.1.1 hR₁, hc⟩
  refine (D.joinFunc_along _ (D.every hg hR₁) hvalid).bind D.trans fun n w₃ hR₃ hn => ?_
  refine along_pure D.refl ⟨hn, ?_⟩
  exact every_emplaceBack (D.every (D.every hbatch hR₁) hR₃) (D.mono hc hR₃)

theorem inlineJoin_along (edges : List Nat) (hg : Every K groups.flatten w) (hn : next.Valid K w) :
    Along R (inlineJoin edges groups next) (fun r w' => r.2.Valid K w') w := by
  cases edges with
  | nil => exact along_throw D.refl _
  | cons top rest =>
      unfold inlineJoin
      refine Along.bind (Q := fun s w' => s.2.Valid K w') D.trans ?_ fun s w' _ hs =>
        along_pure D.refl hs
      refine D.loop (J := Every K groups.flatten) (fun _ _ => D.every)
        (fun s w hs hw group hgroup => ?_) ⟨hn, fun _ hk => nomatch hk⟩ hg
      exact D.joinGroup_along top hs fun k hk => hw k (List.mem_flatten.mpr ⟨group, hgroup, hk⟩)

theorem dupPort_along {l : DupLocals} (hl : l.Valid K w) (name : PortKey) :
    Along R (dupPort l name) (DupLocals.Valid K) w := by
  have hgp : ∀ {w' : World} {k : KernelId}, R w w' → K k w' → Every K (l.gp ++ [k]) w' :=
    fun hR hk j hj =>
      (List.mem_append.mp hj).elim (D.every hl.gp hR j) fun hj => List.mem_singleton.mp hj ▸ hk
  unfold dupPort
  cases hh : l.head with
  | some headNext =>
      have hvalid := hl.head headNext hh
      refine (D.clone hvalid.1).bind D.trans fun src w₁ hR₁ hsrc => ?_
      refine (D.clone (D.mono hvalid.2 hR₁)).bind D.trans fun dst w₂ hR₂ hdst => ?_
      have hhead : Kpair.Valid K { headNext with src := src, dst := dst } w₂ := ⟨D.mono hsrc hR₂, hdst⟩
      refine (D.joink_along hhead).bind D.trans fun _ w₃ hR₃ _ => ?_
      have hR := D.trans _ _ _ (D.trans _ _ _ hR₁ hR₂) hR₃
      have hnext : Kpair.Valid K { l.next with dstName := name, hasDstName := true, src := dst } w₃ :=
        ⟨D.mono hdst hR₃, D.mono hl.next.2 hR⟩
      refine (D.joink_along hnext).bind D.trans fun _ w₄ hR₄ _ => ?_
      refine along_pure D.refl ⟨?_, D.pair hnext hR₄, fun p hp => ?_⟩
      · exact hgp (D.trans _ _ _ hR hR₄) (D.mono (D.pair hhead hR₃).1 hR₄)
      · exact Option.some_inj.mp hp ▸ D.pair (D.pair hhead hR₃) hR₄
  | none =>
      refine (D.clone hl.next.1).bind D.trans fun src w₁ hR₁ hsrc => ?_
      have hnext : Kpair.Valid K { l.next with src := src, dstName := name, hasDstName := true } w₁ :=
        ⟨hsrc, D.mono hl.next.2 hR₁⟩
      refine (D.joink_along hnext).bind D.trans fun _ w₂ hR₂ _ => ?_
      refine along_pure D.refl ⟨?_, D.pair hnext hR₂, fun p hp => nomatch hp⟩
      exact hgp (D.trans _ _ _ hR₁ hR₂) (D.mono hsrc hR₂)

theorem inlineDupJoin_along {head : Option Kpair} (hg : Every K groups.flatten w)
    (hn : next.Valid K w) (hh : ∀ p, head = some p → p.Valid K w) :
    Along R (inlineDupJoin groups next head)
      (fun r w' => Every K r.1.flatten w' ∧ r.2.1.Valid K w' ∧ ∀ p, r.2.2 = some p → p.Valid K w') w := by
  unfold inlineDupJoin
  split
  · next k =>
      refine D.get_along.bind D.trans fun v w₁ _ hv => ?_
      obtain ⟨rfl, rfl⟩ := hv
      split
      · exact along_throw D.refl _
      · next begin' keys _ =>
          have hvalid : Kpair.Valid K { next with dstName := begin', hasDstName := true } w₁ := hn
          refine (D.joink_along hvalid).bind D.trans fun _ w₂ hR₂ _ => ?_
          have hk : K k w₁ := hg k (by simp)
          refine Along.bind (Q := fun l w' => l.Valid K w' ∧ K next.dst w') D.trans ?_
            fun l w₃ _ hl => along_pure D.refl ⟨?_, ⟨hl.1.next, ?_⟩, hl.1.head⟩
          · have hlocals : DupLocals.Valid K
                { gp := [k], next := { next with dstName := begin', hasDstName := true }, head := head }
                w₂ :=
              ⟨fun j hj => List.mem_singleton.mp hj ▸ D.mono hk hR₂, D.pair hvalid hR₂,
                fun p hp => D.pair (hh p hp) hR₂⟩
            refine (Along.foldlM (I := DupLocals.Valid K) D.refl D.trans
              (fun l w hl name _ => D.dupPort_along hl name) hlocals).conseq fun l w' hR hl => ⟨hl, ?_⟩
            exact D.mono (D.mono hn.2 hR₂) hR
          · simpa using hl.1.gp
          · intro j hj
            rw [show j = next.dst by simpa using hj]
            exact hl.2
  · exact along_throw D.refl _

/-! ## The loop over the chain -/

theorem nextLinkType_along : Along R (nextLinkType next) (fun _ w' => w' = w) w := by
  unfold nextLinkType
  split
  · exact along_pure D.refl rfl
  · exact along_pure D.refl rfl
  · exact along_pure D.refl rfl
  · exact along_throw D.refl _

/-- **A step of the builder.** -/
theorem step_along {s : AddState} (hs : s.Valid K w) (hn : next.Valid K w) :
    Along R (s.step next) (AddState.Valid K) w := by
  unfold AddState.step
  refine D.nextLinkType_along.bind D.trans fun op w₁ _ hw => ?_
  subst hw
  have hh : ∀ {w'}, R w₁ w' → ∀ p, s.head = some p → p.Valid K w' :=
    fun hR p hp => D.pair (hs.head p hp) hR
  cases op with
  | cont =>
      refine (D.inlineCont_along hs.groups hn).bind D.trans fun l w₂ hR₂ hl => ?_
      exact along_pure D.refl (.finish hl (hh hR₂))
  | split =>
      refine (D.inlineSplit_along _ hs.groups hn).bind D.trans fun r w₂ hR₂ hl => ?_
      exact along_pure D.refl (.finish hl (hh hR₂))
  | join =>
      dsimp only
      split
      · refine (D.inlineDupJoin_along hs.groups hn hs.head).bind D.trans fun r w₂ hR₂ hr => ?_
        exact along_pure D.refl (.finish hr.2.1 hr.2.2)
      · refine (D.inlineJoin_along _ hs.groups hn).bind D.trans fun r w₂ hR₂ hl => ?_
        exact along_pure D.refl (.finish hl (hh hR₂))
      · exact along_throw D.refl _

/-- **`operator +=` keeps a discipline**, whichever way it ends. -/
theorem addAssign_along {chain : List Kpair} (hc : ∀ p ∈ chain, p.Valid K w) :
    Along R (addAssign chain) (fun _ _ => True) w := by
  cases chain with
  | nil => exact along_throw D.refl _
  | cons next chain =>
      unfold addAssign addLoop
      refine Along.bind (Q := AddState.Valid K) D.trans ?_ fun s w' _ _ => along_pure D.refl trivial
      refine D.loop (J := fun w => ∀ p ∈ next :: chain, p.Valid K w)
        (fun _ _ h hR p hp => D.pair (h p hp) hR) (fun s w hs hw p hp => D.step_along hs (hw p hp))
        ⟨fun k hk => ?_, fun p hp => nomatch hp⟩ hc
      rw [show k = next.src by simpa using hk]
      exact (hc next List.mem_cons_self).1

end Discipline

end RaftLib.Graph
