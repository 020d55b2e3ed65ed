/-
# `RaftLib.Graph.Ends` -- the kernels that `operator +=` returns

The kernels of a chain and their copies lie in layers, one for each place in the chain, and all
connections lead from one layer to the next (`Layered`). `operator +=` returns the groups from before its
first operator as the source, and those it has at the end as the destination. These are the first layer
and the last one, unless a join that duplicates stands further back, where the source is noted again
from the kernel in front of it, or a split of kernels without output ports has left no group to go on
from.
-/
import RaftLib.Graph.DupJoin

namespace RaftLib.Graph

open RaftLib.Logic.Program

/-! ## Calls that return -/

section Calls

variable {w w' : World} {k : KernelId}

/-- A link makes one connection, and no kernel. -/
theorem link_returned {t : Order} {a b : KernelId} {aPort bPort : PortKey} {buffer : Nat} {r : KernelPair}
    (h : (link t a aPort b bPort buffer).run w = .ok r w') :
    w'.kernel = w.kernel ∧ w'.next = w.next ∧ ∀ p q, p.side = .output → w'.other p = some q →
      w.other p = some q ∨ p.kernel = a ∧ q.kernel = b := by
  rcases link_run (w := w) t a aPort b bPort buffer with ⟨e, hrun⟩ | ⟨ra, rb, hra, hrb, -, -, -, hrun⟩
  · rw [hrun] at h
    exact nomatch h
  · rw [hrun] at h
    injection h with _ hw
    subst hw
    obtain ⟨rfl, hsa, -⟩ := World.found_spec hra
    obtain ⟨rfl, hsb, -⟩ := World.found_spec hrb
    let w₁ := w.withKernels ra.kernel rb.kernel
    have hsame : w.SameEnds (w₁.sized buffer [ra, rb]) :=
      (World.sameEnds_withKernels _ _).trans (World.sameEnds_sized w₁ buffer [ra, rb])
    refine ⟨World.sized_kernel w₁ buffer [ra, rb], hsame.next, fun p q hp ho => ?_⟩
    by_cases hpa : p = ra
    · subst hpa
      rw [World.linked_other_src hsa hsb] at ho
      obtain rfl := Option.some_inj.mp ho
      exact Or.inr ⟨rfl, rfl⟩
    · have hpb : p ≠ rb := by
        rintro rfl
        rw [hsb] at hp
        exact nomatch hp
      rw [World.linked_other_of_ne hpa hpb, hsame.other] at ho
      exact Or.inl ho

theorem joink_returned {n : Kpair} {u : PUnit} (h : (joink n).run w = .ok u w') :
    w'.kernel = w.kernel ∧ w'.next = w.next ∧ ∀ p q, p.side = .output → w'.other p = some q →
      w.other p = some q ∨ p.kernel = n.src ∧ q.kernel = n.dst := by
  unfold joink at h
  obtain ⟨_, m, hlink, hret⟩ := run_bind_ok.mp h
  injection hret with _ hm
  subst hm
  exact link_returned hlink

theorem clone_returned {c : KernelId} (h : (clone k).run w = .ok c w') :
    c = w.next ∧ w' = w.withClone k := by
  rcases clone_run (w := w) k with ⟨-, hrun⟩ | ⟨-, e, hrun⟩
  · rw [hrun] at h
    injection h with hc hw
    exact ⟨hc.symm, hw.symm⟩
  · rw [hrun] at h
    exact nomatch h

end Calls

/-! ## A layer behind another -/

theorem Kernel.copied_copied (k : Kernel) : k.copied.copied = k.copied := rfl

/-- The operand `d` of the chain, or one of the copies from `lo` to `hi`. -/
def OneOf (d lo hi k : Nat) : Prop := k = d ∨ lo ≤ k ∧ k < hi

theorem OneOf.succ {d lo hi k : Nat} (h : OneOf d lo hi k) : OneOf d lo (hi + 1) k :=
  h.imp_right fun hk => ⟨hk.1, Nat.lt_succ_of_lt hk.2⟩

/-- From `w₀` to `w` copies of `d` were made, and connections along `edge`, which depends on the number of
kernels there are. -/
structure Lays (w₀ w : World) (d : KernelId) (edge : Nat → KernelId → KernelId → Prop) : Prop where
  next : w₀.next ≤ w.next
  kernel : ∀ k, k < w₀.next → w.kernel k = w₀.kernel k
  copy : ∀ k, w₀.next ≤ k → k < w.next → w.kernel k = (w₀.kernel d).copied
  edges : ∀ p q, p.side = .output → w.other p = some q →
    w₀.other p = some q ∨ edge w.next p.kernel q.kernel

section Lays

variable {w₀ w w' : World} {d k : KernelId} {edge : Nat → KernelId → KernelId → Prop} {n : Kpair}

theorem Lays.refl (w : World) (d : KernelId) (edge : Nat → KernelId → KernelId → Prop) :
    Lays w w d edge :=
  ⟨Nat.le_refl _, fun _ _ => rfl, fun _ hle hlt => absurd hlt (Nat.not_lt.mpr hle),
    fun _ _ _ ho => Or.inl ho⟩

theorem Lays.joink {u : PUnit} (h : Lays w₀ w d edge) (hrun : (joink n).run w = .ok u w')
    (hedge : edge w.next n.src n.dst) : Lays w₀ w' d edge ∧ w'.next = w.next := by
  obtain ⟨hkernel, hnext, hlinked⟩ := joink_returned hrun
  refine ⟨⟨hnext ▸ h.next, fun k hk => ?_, fun k hle hlt => ?_, fun p q hp ho => ?_⟩, hnext⟩
  · rw [hkernel]
    exact h.kernel k hk
  · rw [hkernel]
    exact h.copy k hle (hnext ▸ hlt)
  · rw [hnext]
    rcases hlinked p q hp ho with ho | ⟨ha, hb⟩
    · exact h.edges p q hp ho
    · rw [ha, hb]
      exact Or.inr hedge

theorem Lays.clone {c : KernelId} (h : Lays w₀ w d edge) (hd : d < w₀.next)
    (hmono : ∀ m a b, edge m a b → edge (m + 1) a b) (hk : OneOf d w₀.next w.next k)
    (hrun : (clone k).run w = .ok c w') : Lays w₀ w' d edge ∧ c = w.next ∧ w'.next = w.next + 1 := by
  obtain ⟨rfl, rfl⟩ := clone_returned hrun
  refine ⟨⟨Nat.le_succ_of_le h.next, fun j hj => ?_, fun j hle hlt => ?_, fun p q hp ho => ?_⟩, rfl, rfl⟩
  · rw [World.withClone_kernel_of_ne w k (hj.trans_le h.next).ne, h.kernel j hj]
  · by_cases hj : j = w.next
    · subst hj
      rw [World.withClone_kernel_self]
      rcases hk with rfl | ⟨hle', hlt'⟩
      · rw [h.kernel k hd]
      · rw [h.copy k hle' hlt', Kernel.copied_copied]
    · rw [World.withClone_kernel_of_ne w k hj]
      exact h.copy j hle (Nat.lt_of_le_of_ne (Nat.le_of_lt_succ hlt) hj)
  · by_cases hj : p.kernel = w.next
    · rw [World.other, World.withClone_info_self w k hj] at ho
      cases ho
    · rw [World.other, World.withClone_info_of_ne w k hj] at ho
      exact (h.edges p q hp ho).imp_right (hmono _ _ _)

end Lays

/-! ### Groups -/

namespace Groups

variable {gs : Groups} {k : KernelId}

theorem flatten_emplaceBack : (gs.emplaceBack k).flatten = gs.flatten ++ [k] := by
  rcases List.eq_nil_or_concat gs with rfl | ⟨T, t, rfl⟩
  · rfl
  · rw [List.concat_eq_append, emplaceBack_concat]
    simp

theorem flatten_emplaceFirst (hne : gs ≠ []) (h : gs.flatten = []) :
    (gs.emplaceFirst k).flatten = [k] := by
  cases gs with
  | nil => exact absurd rfl hne
  | cons g gs =>
      obtain ⟨rfl, hgs⟩ := List.append_eq_nil_iff.mp h
      show [] ++ [k] ++ gs.flatten = [k]
      rw [hgs]
      rfl

/-- A first group that is not empty stays so. -/
theorem firstEmpty_pushEmpty (h : gs.firstEmpty = false) : gs.pushEmpty.firstEmpty = false := by
  cases gs with
  | nil => exact nomatch h
  | cons g gs => exact h

theorem firstEmpty_emplaceBack (h : gs.firstEmpty = false) : (gs.emplaceBack k).firstEmpty = false := by
  cases gs with
  | nil => exact nomatch h
  | cons g gs =>
      cases gs with
      | nil => simp [emplaceBack, firstEmpty]
      | cons g' gs => exact h

theorem firstEmpty_emplaceFirst (hne : gs ≠ []) : (gs.emplaceFirst k).firstEmpty = false := by
  cases gs with
  | nil => exact absurd rfl hne
  | cons g gs => simp [emplaceFirst, firstEmpty]

theorem firstEmpty_of_flatten (h : gs.flatten = []) : gs.firstEmpty = true := by
  cases gs with
  | nil => rfl
  | cons g gs =>
      obtain ⟨rfl, -⟩ := List.append_eq_nil_iff.mp h
      rfl

theorem pushEmpty_ne_nil : gs.pushEmpty ≠ [] := by
  simp [pushEmpty]

theorem emplaceBack_ne_nil : gs.emplaceBack k ≠ [] := by
  simp [emplaceBack]

end Groups

/-- The connections between the kernels `cs` and the layer of `p.dst`. -/
def Forward (w₀ : World) (p : Kpair) (cs : List KernelId) (m : Nat) (a b : KernelId) : Prop :=
  (a = p.src ∨ a ∈ cs) ∧ OneOf p.dst w₀.next m b

/-- The groups and the pair at hand while the layer of `p.dst` is laid behind the kernels `cs`. -/
structure Laying (w₀ w : World) (p : Kpair) (cs : List KernelId) (gs : Groups) (n : Kpair) : Prop where
  lays : Lays w₀ w p.dst (Forward w₀ p cs)
  src : n.src = p.src ∨ n.src ∈ cs
  dst : OneOf p.dst w₀.next w.next n.dst
  flat : gs.flatten = [] ∧ w.next = w₀.next ∧ n.dst = p.dst ∨
    gs.firstEmpty = false ∧ gs.flatten = p.dst :: List.range' w₀.next (w.next - w₀.next)

section Laying

variable {w₀ w w' : World} {p n n' : Kpair} {cs : List KernelId} {gs gs' : Groups} {c : KernelId}

theorem Laying.start (w : World) (p : Kpair) (cs : List KernelId) : Laying w w p cs [] p :=
  ⟨.refl w _ _, Or.inl rfl, Or.inl rfl, Or.inl ⟨rfl, rfl, rfl⟩⟩

theorem Laying.pushEmpty (h : Laying w₀ w p cs gs n) : Laying w₀ w p cs gs.pushEmpty n := by
  refine ⟨h.lays, h.src, h.dst, ?_⟩
  rw [Groups.flatten_pushEmpty]
  exact h.flat.imp_right fun hf => ⟨Groups.firstEmpty_pushEmpty hf.1, hf.2⟩

/-- The operand itself is put into the first group, -/
theorem Laying.put (h : Laying w₀ w p cs gs n) (hempty : gs.flatten = []) (hfirst : gs'.firstEmpty = false)
    (hgs : gs'.flatten = [n.dst]) : Laying w₀ w p cs gs' n := by
  obtain ⟨-, hnext, hn⟩ | ⟨-, hfull⟩ := h.flat
  · refine ⟨h.lays, h.src, h.dst, Or.inr ⟨hfirst, ?_⟩⟩
    rw [hgs, hn, hnext, Nat.sub_self]
    rfl
  · rw [hempty] at hfull
    exact nomatch hfull

variable (n') in
/-- or a copy of it is made and put into the last group, -/
theorem Laying.clone (h : Laying w₀ w p cs gs n) (hp : p.dst < w₀.next) (hfull : gs.firstEmpty = false)
    (hrun : (clone n.dst).run w = .ok c w') (hsrc : n'.src = p.src ∨ n'.src ∈ cs) (hdst : n'.dst = c) :
    Laying w₀ w' p cs (gs.emplaceBack c) n' := by
  obtain ⟨hlays, rfl, hnext⟩ := h.lays.clone hp (fun _ _ _ he => ⟨he.1, he.2.succ⟩) h.dst hrun
  obtain ⟨hflat, -⟩ | ⟨-, hflat⟩ := h.flat
  · rw [Groups.firstEmpty_of_flatten hflat] at hfull
    exact nomatch hfull
  · refine ⟨hlays, hsrc, Or.inr ⟨hdst ▸ h.lays.next, hdst ▸ hnext ▸ Nat.lt_succ_self _⟩,
      Or.inr ⟨Groups.firstEmpty_emplaceBack hfull, ?_⟩⟩
    have hcount : w'.next - w₀.next = w.next - w₀.next + 1 := by
      rw [hnext]
      exact Nat.succ_sub h.lays.next
    have hlast : w₀.next + (w.next - w₀.next) = w.next := Nat.add_sub_cancel' h.lays.next
    rw [Groups.flatten_emplaceBack, hflat, hcount, List.range'_1_concat, List.cons_append, hlast]

variable (n') in
/-- and it is linked. -/
theorem Laying.joink {u : PUnit} (h : Laying w₀ w p cs gs n) (hsrc : n'.src = p.src ∨ n'.src ∈ cs)
    (hdst : n'.dst = n.dst) (hrun : (joink n').run w = .ok u w') :
    Laying w₀ w' p cs gs n' ∧ w'.next = w.next := by
  obtain ⟨hlays, hnext⟩ := h.lays.joink hrun ⟨hsrc, hdst ▸ h.dst⟩
  refine ⟨⟨hlays, hsrc, ?_, ?_⟩, hnext⟩
  · rw [hdst, hnext]
    exact h.dst
  · rw [hnext, hdst]
    exact h.flat

/-! ### The routines -/

/-- What is known after a routine that has gone through the kernels `cs`: if there were any, the layer is
the operand and its copies. -/
structure Spread (w₀ w : World) (p : Kpair) (cs : List KernelId) (gs : Groups) : Prop where
  lays : Lays w₀ w p.dst (Forward w₀ p cs)
  flat : gs.flatten = p.dst :: List.range' w₀.next (w.next - w₀.next)

theorem Laying.spread (h : Laying w₀ w p cs gs n) (hfull : gs.firstEmpty = false) :
    Spread w₀ w p cs gs := by
  refine ⟨h.lays, ?_⟩
  obtain ⟨hflat, -⟩ | ⟨-, hflat⟩ := h.flat
  · rw [Groups.firstEmpty_of_flatten hflat] at hfull
    exact nomatch hfull
  · exact hflat

variable {l l' : Locals} {kernel : KernelId} {groups : Groups}

theorem contKernel_lays (hp : p.dst < w₀.next) (h : Laying w₀ w p cs l.tempGroups l.next)
    (hne : l.tempGroups ≠ []) (hk : kernel ∈ cs) (hrun : (contKernel l kernel).run w = .ok l' w') :
    Laying w₀ w' p cs l'.tempGroups l'.next ∧ l'.tempGroups ≠ [] ∧
      l'.tempGroups.firstEmpty = false := by
  unfold contKernel at hrun
  split at hrun
  · rename_i hfirst
    obtain ⟨_, m, hjoin, hret⟩ := run_bind_ok.mp hrun
    injection hret with hl hm
    subst hl hm
    have hflat : l.tempGroups.flatten = [] := by
      obtain ⟨hflat, -⟩ | ⟨hfull, -⟩ := h.flat
      · exact hflat
      · rw [hfull] at hfirst
        exact nomatch hfirst
    have hopen := Groups.firstEmpty_emplaceFirst (k := l.next.dst) hne
    have hput := h.put hflat hopen (Groups.flatten_emplaceFirst hne hflat)
    refine ⟨(hput.joink _ h.src rfl hjoin).1, ?_, hopen⟩
    intro hnil
    rw [show l.tempGroups.emplaceFirst l.next.dst = [] from hnil] at hopen
    exact nomatch hopen
  · rename_i hfirst
    obtain ⟨c, m, hclone, hrun⟩ := run_bind_ok.mp hrun
    obtain ⟨_, m', hjoin, hret⟩ := run_bind_ok.mp hrun
    injection hret with hl hm
    subst hl hm
    have hfull : l.tempGroups.firstEmpty = false := Bool.eq_false_iff.mpr hfirst
    have hcloned := h.clone { l.next with src := kernel, dst := c } hp hfull hclone
      (Or.inr hk) rfl
    exact ⟨(hcloned.joink _ (Or.inr hk) rfl hjoin).1, Groups.emplaceBack_ne_nil,
      Groups.firstEmpty_emplaceBack hfull⟩

theorem inlineCont_spread (hp : p.dst < w₀.next) (hne : groups.flatten ≠ [])
    (hrun : (inlineCont groups p).run w₀ = .ok l' w') : Spread w₀ w' p groups.flatten l'.tempGroups := by
  have h : Laying w₀ w' p groups.flatten l'.tempGroups l'.next ∧
      (groups.flatten ≠ [] → l'.tempGroups.firstEmpty = false) := by
    refine run_foldlM_ok (I := fun done l w => Laying w₀ w p groups.flatten l.tempGroups l.next ∧
      (done.flatten ≠ [] → l.tempGroups.firstEmpty = false)) ?_ ⟨.start w₀ p _, fun h => absurd rfl h⟩ hrun
    intro done group rest l l' w w' hgroups ⟨hl, hdone⟩ hrun
    -- within the group
    have hin : Laying w₀ w' p groups.flatten l'.tempGroups l'.next ∧ l'.tempGroups ≠ [] ∧
        ((done ++ [group]).flatten ≠ [] → l'.tempGroups.firstEmpty = false) := by
      have hstep := run_foldlM_ok (I := fun part l w => Laying w₀ w p groups.flatten l.tempGroups l.next ∧
        l.tempGroups ≠ [] ∧ (done.flatten ++ part ≠ [] → l.tempGroups.firstEmpty = false)) ?_
        ⟨hl.pushEmpty, Groups.pushEmpty_ne_nil, fun h => Groups.firstEmpty_pushEmpty
          (hdone (by rwa [List.append_nil] at h))⟩ hrun
      · simpa using hstep
      · intro part k more l l' w w' hgroup ⟨hl, hne, _⟩ hrun
        have hk : k ∈ groups.flatten := by
          rw [hgroups, hgroup]
          simp
        obtain ⟨hl', hne', hfull⟩ := contKernel_lays hp hl hne hk hrun
        exact ⟨hl', hne', fun _ => hfull⟩
    exact ⟨hin.1, hin.2.2⟩
  exact h.1.spread (h.2 hne)

/-- A loop over groups without kernels. -/
theorem inlineCont_hollow (hflat : groups.flatten = []) (l : Locals) :
    groups.foldlM (fun l group => group.foldlM contKernel { l with tempGroups := l.tempGroups.pushEmpty })
      l = (pure { l with tempGroups := l.tempGroups ++ groups.map fun _ => [] } : Prog Locals) := by
  induction groups generalizing l with
  | nil => simp
  | cons g gs ih =>
      obtain ⟨rfl, hgs⟩ := List.append_eq_nil_iff.mp hflat
      rw [List.foldlM_cons, List.foldlM_nil, pure_bind, ih hgs]
      simp [Groups.pushEmpty]

theorem splitPort_lays {fresh : Bool} {name : PortKey} (hp : p.dst < w₀.next)
    (h : Laying w₀ w p cs l.tempGroups l.next) (hk : kernel ∈ cs)
    (hfresh : fresh = true ∧ l.tempGroups.firstEmpty = false ∨ fresh = false ∧ l.tempGroups = [[]])
    (hrun : (splitPort kernel fresh l name).run w = .ok l' w') :
    Laying w₀ w' p cs l'.tempGroups l'.next ∧ l'.tempGroups.firstEmpty = false := by
  unfold splitPort at hrun
  obtain ⟨c, m, hclone, hrun⟩ := run_bind_ok.mp hrun
  obtain ⟨_, m', hjoin, hret⟩ := run_bind_ok.mp hrun
  injection hret with hl hm
  subst hl hm
  obtain ⟨rfl, hfull⟩ | ⟨rfl, hgs⟩ := hfresh
  · have hcloned := h.clone { l.next with
      src := kernel, srcName := name, hasSrcName := true, dst := c } hp hfull hclone (Or.inr hk) rfl
    exact ⟨(hcloned.joink _ (Or.inr hk) rfl hjoin).1, Groups.firstEmpty_emplaceBack hfull⟩
  · injection hclone with hc hm
    subst hc hm
    have hflat : l.tempGroups.flatten = [] := by rw [hgs]; rfl
    have hopen : (l.tempGroups.emplaceBack l.next.dst).firstEmpty = false := by rw [hgs]; rfl
    have hput : Laying w₀ w p cs (l.tempGroups.emplaceBack l.next.dst) l.next := h.put hflat hopen (by
      rw [Groups.flatten_emplaceBack, hflat, List.nil_append])
    have hlinked := hput.joink { l.next with
      src := kernel, srcName := name, hasSrcName := true, dst := l.next.dst } (Or.inr hk) rfl hjoin
    exact ⟨hlinked.1, hopen⟩

theorem splitPorts_lays {keys : List PortKey} (hp : p.dst < w₀.next)
    (h : Laying w₀ w p cs l.tempGroups l.next) (hk : kernel ∈ cs) (hfull : l.tempGroups.firstEmpty = false)
    (hrun : (keys.foldlM (splitPort kernel true) l).run w = .ok l' w') :
    Laying w₀ w' p cs l'.tempGroups l'.next ∧ l'.tempGroups.firstEmpty = false := by
  refine run_foldlM_ok (I := fun _ l w => Laying w₀ w p cs l.tempGroups l.next ∧
    l.tempGroups.firstEmpty = false) ?_ ⟨h, hfull⟩ hrun
  intro _ name _ l l' w w' _ ⟨hl, hfull⟩ hrun
  exact splitPort_lays hp hl hk (Or.inl ⟨rfl, hfull⟩) hrun

/-- A kernel with output ports puts a kernel into its group. -/
theorem splitKernel_lays (hp : p.dst < w₀.next) (h : Laying w₀ w p cs l.tempGroups l.next)
    (hk : kernel ∈ cs) (hports : (w.ports kernel .output).keys ≠ [])
    (hgs : l.tempGroups = [] ∨ l.tempGroups.firstEmpty = false)
    (hrun : (splitKernel l kernel).run w = .ok l' w') :
    Laying w₀ w' p cs l'.tempGroups l'.next ∧ l'.tempGroups.firstEmpty = false := by
  have hpush := h.pushEmpty
  unfold splitKernel at hrun
  rw [run_bind_of_ok (EStateM.run_get ..)] at hrun
  rcases hgs with hnil | hfull
  · have hone : l.tempGroups.pushEmpty = [[]] := by rw [hnil]; rfl
    simp only [hone] at hrun hpush
    cases hkeys : (w.ports kernel .output).keys with
    | nil => exact absurd hkeys hports
    | cons begin' keys =>
        simp only [hkeys] at hrun
        obtain ⟨l₁, w₁, hfirst, hrest⟩ := run_bind_ok.mp
          (show (splitPort kernel false { l with tempGroups := [[]] } begin' >>= fun l =>
            keys.foldlM (splitPort kernel true) l).run w = .ok l' w' from hrun)
        obtain ⟨hl, hfull⟩ := splitPort_lays (l := { l with tempGroups := [[]] }) hp hpush hk
          (Or.inr ⟨rfl, rfl⟩) hfirst
        exact splitPorts_lays hp hl hk hfull hrest
  · have hopen := Groups.firstEmpty_pushEmpty hfull
    simp only [hopen] at hrun
    exact splitPorts_lays hp hpush hk hopen hrun

/-- A kernel without any puts nothing there. -/
theorem splitKernel_hollow {w : World} (hports : (w.ports kernel .output).keys = []) (l : Locals) :
    (splitKernel l kernel).run w = .ok { l with tempGroups := l.tempGroups.pushEmpty } w := by
  unfold splitKernel
  rw [run_bind_of_ok (EStateM.run_get ..)]
  simp only [hports]
  split <;> rfl

theorem inlineSplit_spread {edges : List Nat} {r : List Nat × Locals} (hp : p.dst < w₀.next)
    (hne : groups.flatten ≠ []) (hlt : ∀ k ∈ groups.flatten, k < w₀.next)
    (hports : ∀ k ∈ groups.flatten, (w₀.ports k .output).keys ≠ [])
    (hrun : (inlineSplit edges groups p).run w₀ = .ok r w') :
    Spread w₀ w' p groups.flatten r.2.tempGroups := by
  unfold inlineSplit at hrun
  obtain ⟨l, m, hloop, hret⟩ := run_bind_ok.mp hrun
  injection hret with hr hm
  subst hr hm
  rw [← foldlM_flatten] at hloop
  have h : Laying w₀ m p groups.flatten l.tempGroups l.next ∧
      (groups.flatten = [] ∧ l.tempGroups = [] ∨ l.tempGroups.firstEmpty = false) := by
    refine run_foldlM_ok (I := fun done l w => Laying w₀ w p groups.flatten l.tempGroups l.next ∧
      (done = [] ∧ l.tempGroups = [] ∨ l.tempGroups.firstEmpty = false)) ?_
      ⟨.start w₀ p _, Or.inl ⟨rfl, rfl⟩⟩ hloop
    intro done k rest l l' w w' hlist ⟨hl, hgs⟩ hrun
    have hk : k ∈ groups.flatten := by
      rw [hlist]
      simp
    have hports' : (w.ports k .output).keys ≠ [] := by
      rw [World.ports, hl.lays.kernel k (hlt k hk)]
      exact hports k hk
    obtain ⟨hl', hfull⟩ := splitKernel_lays hp hl hk hports' (hgs.imp_left And.right) hrun
    exact ⟨hl', Or.inr hfull⟩
  exact h.1.spread (h.2.resolve_left fun hnil => hne hnil.1)

theorem inlineSplit_hollow {edges : List Nat} {r : List Nat × Locals}
    (hports : ∀ k ∈ groups.flatten, (w₀.ports k .output).keys = [])
    (hrun : (inlineSplit edges groups p).run w₀ = .ok r w') :
    w' = w₀ ∧ r.2.tempGroups.flatten = [] ∧ r.2.tempGroups.length = groups.flatten.length := by
  unfold inlineSplit at hrun
  obtain ⟨l, m, hloop, hret⟩ := run_bind_ok.mp hrun
  injection hret with hr hm
  subst hr hm
  rw [← foldlM_flatten] at hloop
  refine run_foldlM_ok (I := fun done l w => w = w₀ ∧ l.tempGroups.flatten = [] ∧
    l.tempGroups.length = done.length) ?_ ⟨rfl, rfl, rfl⟩ hloop
  rintro done k rest l l' w w' hlist ⟨rfl, hflat, hlen⟩ hrun
  have hk : k ∈ groups.flatten := by
    rw [hlist]
    simp
  rw [splitKernel_hollow (hports k hk)] at hrun
  injection hrun with hl hw
  subst hl hw
  refine ⟨rfl, ?_, ?_⟩
  · rw [Groups.flatten_pushEmpty, hflat]
  · simp [Groups.pushEmpty, hlen]

theorem joinFunc_lays {keys : List PortKey} {group : List KernelId} {n n' : Kpair}
    (h : Laying w₀ w p cs gs n) (hgroup : ∀ k ∈ group, k ∈ cs)
    (hrun : (joinFunc keys group n).run w = .ok n' w') : Laying w₀ w' p cs gs n' := by
  induction keys generalizing group n w with
  | nil =>
      injection hrun with hn hw
      subst hn hw
      exact h
  | cons key keys ih =>
      cases group with
      | nil => exact nomatch hrun
      | cons kernel it =>
          unfold joinFunc at hrun
          obtain ⟨_, m, hjoin, hrest⟩ := run_bind_ok.mp hrun
          have hk : kernel ∈ cs := hgroup kernel List.mem_cons_self
          obtain ⟨h', -⟩ := h.joink { n with src := kernel, dstName := key, hasDstName := true }
            (Or.inr hk) rfl hjoin
          exact ih h' (fun k hk => hgroup k (List.mem_cons_of_mem _ hk)) hrest

theorem newBatch_lays {top count : Nat} (h : Laying w₀ w p cs gs n) :
    Laying w₀ w p cs (newBatch top count gs).2 n := by
  unfold newBatch
  split
  · exact h.pushEmpty
  · exact h

/-- Each group is joined in a kernel of its own. -/
theorem joinGroup_lays {top : Nat} {s s' : Nat × Locals} {group : List KernelId} (hp : p.dst < w₀.next)
    (h : Laying w₀ w p cs s.2.tempGroups s.2.next) (hgroup : ∀ k ∈ group, k ∈ cs)
    (hgs : s.2.tempGroups = [] ∨ s.2.tempGroups.firstEmpty = false)
    (hrun : (joinGroup top s group).run w = .ok s' w') :
    Laying w₀ w' p cs s'.2.tempGroups s'.2.next ∧ s'.2.tempGroups.firstEmpty = false := by
  have hbatch : Laying w₀ w p cs (newBatch top s.1 s.2.tempGroups).2 s.2.next := newBatch_lays h
  unfold joinGroup at hrun
  obtain ⟨c, m, hclone, hrun⟩ := run_bind_ok.mp hrun
  rw [run_bind_of_ok (EStateM.run_get ..)] at hrun
  obtain ⟨n, m', hjoin, hret⟩ := run_bind_ok.mp hrun
  injection hret with hs hm
  subst hs hm
  -- the kernel is in its group before it is linked
  suffices hput : Laying w₀ m p cs ((newBatch top s.1 s.2.tempGroups).2.emplaceBack c)
      { s.2.next with dst := c } ∧
      ((newBatch top s.1 s.2.tempGroups).2.emplaceBack c).firstEmpty = false from
    ⟨joinFunc_lays hput.1 hgroup hjoin, hput.2⟩
  rcases hgs with hnil | hfull
  · have hempty : (newBatch top s.1 s.2.tempGroups).2 = [[]] ∨
        (newBatch top s.1 s.2.tempGroups).2 = [] := by
      rw [hnil]
      unfold newBatch
      split
      · exact Or.inl rfl
      · exact Or.inr rfl
    have hflat : (newBatch top s.1 s.2.tempGroups).2.flatten = [] := by
      rcases hempty with he | he <;> rw [he] <;> rfl
    rw [Groups.firstEmpty_of_flatten hflat] at hclone
    injection hclone with hc hm
    subst hc hm
    have hopen : ((newBatch top s.1 s.2.tempGroups).2.emplaceBack s.2.next.dst).firstEmpty = false := by
      rcases hempty with he | he <;> rw [he] <;> rfl
    exact ⟨hbatch.put hflat hopen (by rw [Groups.flatten_emplaceBack, hflat, List.nil_append]), hopen⟩
  · have hopen : (newBatch top s.1 s.2.tempGroups).2.firstEmpty = false := by
      unfold newBatch
      split
      · exact Groups.firstEmpty_pushEmpty hfull
      · exact hfull
    rw [hopen] at hclone
    exact ⟨hbatch.clone _ hp hopen hclone h.src rfl, Groups.firstEmpty_emplaceBack hopen⟩

theorem inlineJoin_spread {edges : List Nat} {r : List Nat × Locals} (hp : p.dst < w₀.next)
    (hne : groups ≠ []) (hrun : (inlineJoin edges groups p).run w₀ = .ok r w') :
    Spread w₀ w' p groups.flatten r.2.tempGroups := by
  cases edges with
  | nil => exact nomatch hrun
  | cons top edges =>
      unfold inlineJoin at hrun
      obtain ⟨s, m, hloop, hret⟩ := run_bind_ok.mp hrun
      injection hret with hr hm
      subst hr hm
      have h : Laying w₀ m p groups.flatten s.2.tempGroups s.2.next ∧
          (groups = [] ∧ s.2.tempGroups = [] ∨ s.2.tempGroups.firstEmpty = false) := by
        refine run_foldlM_ok (I := fun done s w => Laying w₀ w p groups.flatten s.2.tempGroups s.2.next ∧
          (done = [] ∧ s.2.tempGroups = [] ∨ s.2.tempGroups.firstEmpty = false)) ?_
          ⟨.start w₀ p _, Or.inl ⟨rfl, rfl⟩⟩ hloop
        intro done group rest s s' w w' hlist ⟨hl, hgs⟩ hrun
        have hgroup : ∀ k ∈ group, k ∈ groups.flatten := fun k hk =>
          List.mem_flatten.mpr ⟨group, hlist ▸ by simp, hk⟩
        obtain ⟨hl', hfull⟩ := joinGroup_lays hp hl hgroup (hgs.imp_left And.right) hrun
        exact ⟨hl', Or.inr hfull⟩
      exact h.1.spread (h.2.resolve_left fun hnil => hne hnil.1)

theorem inlineJoin_gone {edges : List Nat} {r : List Nat × Locals}
    (hrun : (inlineJoin edges [] p).run w₀ = .ok r w') : w' = w₀ ∧ r.2.tempGroups = [] := by
  cases edges with
  | nil => exact nomatch hrun
  | cons top edges =>
      injection hrun with hr hm
      subst hr hm
      exact ⟨rfl, rfl⟩

end Laying

section Duplicating

variable {w₀ w w' : World} {p : Kpair} {l l' : DupLocals} {groups : Groups} {head : Option Kpair}
variable {r : Groups × Locals × Option Kpair}

theorem dupPort_gp {name : PortKey} (hrun : (dupPort l name).run w = .ok l' w') :
    ∃ c, l'.gp = l.gp ++ [c] := by
  unfold dupPort at hrun
  split at hrun
  · obtain ⟨src, _, -, hrun⟩ := run_bind_ok.mp hrun
    obtain ⟨dst, _, -, hrun⟩ := run_bind_ok.mp hrun
    obtain ⟨_, _, -, hrun⟩ := run_bind_ok.mp hrun
    obtain ⟨_, _, -, hret⟩ := run_bind_ok.mp hrun
    injection hret with hl _
    subst hl
    exact ⟨src, rfl⟩
  · obtain ⟨src, _, -, hrun⟩ := run_bind_ok.mp hrun
    obtain ⟨_, _, -, hret⟩ := run_bind_ok.mp hrun
    injection hret with hl _
    subst hl
    exact ⟨src, rfl⟩

/-- The groups of a join that duplicates: the group in front of it keeps its kernel as the first one. -/
theorem inlineDupJoin_groups (hrun : (inlineDupJoin groups p head).run w = .ok r w') :
    ∃ k cs, groups = [[k]] ∧ r.1 = [k :: cs] ∧ r.2.1.tempGroups = [[p.dst]] := by
  unfold inlineDupJoin at hrun
  split at hrun
  · rename_i k
    rw [run_bind_of_ok (EStateM.run_get ..)] at hrun
    split at hrun
    · exact nomatch hrun
    · rename_i begin' keys _
      obtain ⟨_, m, -, hrun⟩ := run_bind_ok.mp hrun
      obtain ⟨l, m', hloop, hret⟩ := run_bind_ok.mp hrun
      injection hret with hr hm
      subst hr hm
      obtain ⟨cs, hgp⟩ : ∃ cs, l.gp = k :: cs := by
        refine run_foldlM_ok (I := fun _ l _ => ∃ cs, l.gp = k :: cs) ?_ ⟨[], rfl⟩ hloop
        rintro _ name _ l l' w w' _ ⟨cs, hgp⟩ hrun
        obtain ⟨c, hc⟩ := dupPort_gp hrun
        exact ⟨cs ++ [c], by rw [hc, hgp, List.cons_append]⟩
      exact ⟨k, cs, rfl, by rw [hgp], rfl⟩
  · exact nomatch hrun

/-- The connections between the copies of the first kernel and the kernel that joins them. -/
def Inward (w₀ : World) (p : Kpair) (m : Nat) (a b : KernelId) : Prop :=
  OneOf p.src w₀.next m a ∧ b = p.dst

/-- The copies of the first kernel that a join at the front of the chain makes. -/
structure Fanning (w₀ w : World) (p : Kpair) (l : DupLocals) : Prop where
  lays : Lays w₀ w p.src (Inward w₀ p)
  src : OneOf p.src w₀.next w.next l.next.src
  dst : l.next.dst = p.dst
  head : l.head = none
  gp : l.gp = p.src :: List.range' w₀.next (w.next - w₀.next)

theorem Fanning.dupPort {name : PortKey} (h : Fanning w₀ w p l) (hp : p.src < w₀.next)
    (hrun : (dupPort l name).run w = .ok l' w') : Fanning w₀ w' p l' := by
  unfold Graph.dupPort at hrun
  rw [h.head] at hrun
  obtain ⟨c, m, hclone, hrun⟩ := run_bind_ok.mp hrun
  obtain ⟨_, m', hjoin, hret⟩ := run_bind_ok.mp hrun
  injection hret with hl hm
  subst hl hm
  obtain ⟨hlays, rfl, hnext⟩ := h.lays.clone hp (fun _ _ _ he => ⟨he.1.succ, he.2⟩) h.src hclone
  have hc : OneOf p.src w₀.next m.next w.next := Or.inr ⟨h.lays.next, hnext ▸ Nat.lt_succ_self _⟩
  obtain ⟨hlays', hnext'⟩ := hlays.joink hjoin ⟨hc, h.dst⟩
  have hcount : m'.next - w₀.next = w.next - w₀.next + 1 := by
    rw [hnext', hnext]
    exact Nat.succ_sub h.lays.next
  have hlast : w₀.next + (w.next - w₀.next) = w.next := Nat.add_sub_cancel' h.lays.next
  refine ⟨hlays', hnext' ▸ hc, h.dst, rfl, ?_⟩
  rw [h.gp, hcount, List.range'_1_concat, List.cons_append, hlast]

/-- A join at the front duplicates the first kernel. -/
theorem inlineDupJoin_front (hp : p.src < w₀.next)
    (hrun : (inlineDupJoin [[p.src]] p none).run w₀ = .ok r w') :
    Lays w₀ w' p.src (Inward w₀ p) ∧ r.1 = [p.src :: List.range' w₀.next (w'.next - w₀.next)] ∧
      r.2.1.tempGroups = [[p.dst]] := by
  unfold inlineDupJoin at hrun
  rw [run_bind_of_ok (EStateM.run_get ..)] at hrun
  split at hrun
  · exact nomatch hrun
  · rename_i begin' keys _
    obtain ⟨_, m, hjoin, hrun⟩ := run_bind_ok.mp hrun
    obtain ⟨l, m', hloop, hret⟩ := run_bind_ok.mp hrun
    injection hret with hr hm
    subst hr hm
    obtain ⟨hlays, hnext⟩ := (Lays.refl w₀ p.src (Inward w₀ p)).joink hjoin ⟨Or.inl rfl, rfl⟩
    have hstart : Fanning w₀ m p
        { gp := [p.src], next := { p with dstName := begin', hasDstName := true }, head := none } := by
      refine ⟨hlays, Or.inl rfl, rfl, rfl, ?_⟩
      rw [hnext, Nat.sub_self]
      rfl
    have h : Fanning w₀ m' p l := run_foldlM_ok (I := fun _ l w => Fanning w₀ w p l)
      (fun _ _ _ _ _ _ _ _ h hrun => h.dupPort hp hrun) hstart hloop
    exact ⟨h.lays, by rw [h.gp], rfl⟩

end Duplicating

/-! ## Layers -/

/-- The kernel at the place `i` of the chain `ks`, or a copy made since `w₀` that `place` puts there. -/
def OnLayer (w₀ w : World) (ks : List KernelId) (place : KernelId → Nat) (i : Nat) (k : KernelId) : Prop :=
  ks[i]? = some k ∨ w₀.next ≤ k ∧ k < w.next ∧ place k = i

/-- Each kernel made since `w₀` is a copy of the kernel at its place in the chain, and each connection
made since then leads from one layer to the next. -/
structure Layered (w₀ w : World) (ks : List KernelId) (place : KernelId → Nat) : Prop where
  copy : ∀ k, w₀.next ≤ k → k < w.next →
    ∃ o, ks[place k]? = some o ∧ w.kernel k = (w₀.kernel o).copied
  edges : ∀ p q, p.side = .output → w.other p = some q → w₀.other p = some q ∨
    ∃ i, OnLayer w₀ w ks place i p.kernel ∧ OnLayer w₀ w ks place (i + 1) q.kernel

/-- The kernels of a layer, each once, and no others. -/
def Lists (w₀ w : World) (ks : List KernelId) (place : KernelId → Nat) (i : Nat) (l : List KernelId) :
    Prop := l.Nodup ∧ ∀ k, k ∈ l ↔ OnLayer w₀ w ks place i k

/-- The kernels of a layer are on no other one. -/
def Apart (w₀ w : World) (ks : List KernelId) (place : KernelId → Nat) (i : Nat) (l : List KernelId) :
    Prop := ∀ k ∈ l, ∀ j, OnLayer w₀ w ks place j k → j = i

/-- The kernels of a chain, each at its place. -/
def operands (src : KernelId) (chain : List Kpair) : List KernelId := src :: chain.map Kpair.dst

/-- The pair that is returned has the first layer of what was built for its source, and the last one for
its destination, with no kernel of another layer in either. -/
def NamesEnds (w₀ w : World) (src : KernelId) (chain : List Kpair) (r : KernelPair) : Prop :=
  ∃ place, Layered w₀ w (operands src chain) place ∧
    (Lists w₀ w (operands src chain) place 0 r.source ∧
      Apart w₀ w (operands src chain) place 0 r.source) ∧
    Lists w₀ w (operands src chain) place chain.length r.destination ∧
      Apart w₀ w (operands src chain) place chain.length r.destination

/-- The kernel at the place `i` stands in the chain only there. -/
def Once (ks : List KernelId) (i : Nat) : Prop := ∀ j < ks.length, ks[j]? = ks[i]? → j = i

instance (ks : List KernelId) (i : Nat) : Decidable (Once ks i) :=
  inferInstanceAs (Decidable (∀ j < ks.length, _))

/-- A list of pairs each of which starts where the one before it ends. -/
def Consecutive : KernelId → List Kpair → Prop
  | _, [] => True
  | k, p :: chain => p.src = k ∧ Consecutive p.dst chain

/-- Each join finds a split open, of which there are `depth` in front. -/
def Closes : Nat → List Kpair → Prop
  | _, [] => True
  | depth, p :: chain =>
      if p.splitTo then Closes (depth + 1) chain
      else if p.joinFrom then 0 < depth ∧ Closes (depth - 1) chain
      else Closes depth chain

instance decidableCloses : (depth : Nat) → (chain : List Kpair) → Decidable (Closes depth chain)
  | _, [] => .isTrue trivial
  | depth, p :: chain =>
      have := decidableCloses (depth + 1) chain
      have := decidableCloses (depth - 1) chain
      have := decidableCloses depth chain
      inferInstanceAs (Decidable (if p.splitTo then _ else if p.joinFrom then _ ∧ _ else _))

/-- What the builder goes on from: groups with kernels, empty groups, or no groups. -/
inductive Phase where
  | full | hollow | gone
  deriving DecidableEq, Repr

def Groups.phase (gs : Groups) : Phase :=
  if gs.flatten ≠ [] then .full else if gs ≠ [] then .hollow else .gone

/-- A split of kernels without output ports leaves empty groups. A join fills them again; another split
leaves none. -/
def Kpair.phase (w : World) (p : Kpair) : Phase → Phase
  | .full => if p.splitTo = true ∧ (w.ports p.src .output).keys = [] then .hollow else .full
  | .hollow => if p.splitTo then .gone else if p.joinFrom then .full else .hollow
  | .gone => .gone

/-- The chain ends with groups that hold kernels. -/
def Alive (w : World) (chain : List Kpair) : Prop :=
  chain.foldl (fun phase p => p.phase w phase) .full = .full

instance (w : World) (chain : List Kpair) : Decidable (Alive w chain) := inferInstanceAs (Decidable (_ = _))

/-! ### One layer more -/

section Extend

variable {w₀ w w' : World} {ks cs l : List KernelId} {place : KernelId → Nat} {i j : Nat} {p : Kpair}
variable {k : KernelId}

/-- The kernels from `m` on are put at the place `i`. -/
def placeFrom (m i : Nat) (place : KernelId → Nat) (k : KernelId) : Nat := if m ≤ k then i else place k

/-- The earlier layers are not touched. -/
theorem OnLayer.extend (h : OnLayer w₀ w ks place j k) (hnext : w.next ≤ w'.next) :
    OnLayer w₀ w' ks (placeFrom w.next (i + 1) place) j k := by
  refine h.imp_right fun ⟨hge, hlt, hplace⟩ => ⟨hge, hlt.trans_le hnext, ?_⟩
  rw [placeFrom, if_neg (Nat.not_le.mpr hlt), hplace]

theorem onLayer_extend (hnext : w.next ≤ w'.next) (hj : j ≤ i) :
    OnLayer w₀ w' ks (placeFrom w.next (i + 1) place) j k ↔ OnLayer w₀ w ks place j k := by
  refine ⟨fun h => h.imp_right fun ⟨hge, _, hplace⟩ => ?_, fun h => h.extend hnext⟩
  unfold placeFrom at hplace
  split at hplace
  · omega
  · rename_i hlt
    exact ⟨hge, Nat.lt_of_not_le hlt, hplace⟩

/-- The new layer has the operand and all that is new. -/
theorem onLayer_new (hle : ∀ k, w₀.next ≤ k → k < w.next → place k ≤ i) (hnext : w₀.next ≤ w.next)
    (hp : ks[i + 1]? = some p.dst) :
    OnLayer w₀ w' ks (placeFrom w.next (i + 1) place) (i + 1) k ↔ OneOf p.dst w.next w'.next k := by
  unfold OnLayer placeFrom OneOf
  rw [hp, Option.some_inj, eq_comm]
  refine or_congr_right ⟨fun h => ?_, fun h => ?_⟩
  · obtain ⟨hge, hlt, hplace⟩ := h
    split at hplace
    · rename_i hge'
      exact ⟨hge', hlt⟩
    · rename_i hlt'
      have := hle k hge (Nat.lt_of_not_le hlt')
      omega
  · rw [if_pos h.1]
    exact ⟨hnext.trans h.1, h.2, rfl⟩

theorem Layered.extend (h : Layered w₀ w ks place) (hle : ∀ k, w₀.next ≤ k → k < w.next → place k ≤ i)
    (hnext : w₀.next ≤ w.next) (hkernel : ∀ k, k < w₀.next → w.kernel k = w₀.kernel k)
    (hsrc : ks[i]? = some p.src) (hdst : ks[i + 1]? = some p.dst) (hp : p.dst < w₀.next)
    (hcs : ∀ c ∈ cs, OnLayer w₀ w ks place i c) (hlays : Lays w w' p.dst (Forward w p cs)) :
    Layered w₀ w' ks (placeFrom w.next (i + 1) place) := by
  refine ⟨fun k hge hlt => ?_, fun a b ha ho => ?_⟩
  · unfold placeFrom
    split
    · rename_i hnew
      exact ⟨p.dst, hdst, by rw [hlays.copy k hnew hlt, hkernel _ hp]⟩
    · rename_i hold
      obtain ⟨o, ho, hcopy⟩ := h.copy k hge (Nat.lt_of_not_le hold)
      exact ⟨o, ho, by rw [hlays.kernel k (Nat.lt_of_not_le hold), hcopy]⟩
  · rcases hlays.edges a b ha ho with ho | ⟨hfrom, hto⟩
    · refine (h.edges a b ha ho).imp_right ?_
      rintro ⟨j, hj, hj'⟩
      exact ⟨j, hj.extend hlays.next, hj'.extend hlays.next⟩
    · refine Or.inr ⟨i, OnLayer.extend ?_ hlays.next, (onLayer_new hle hnext hdst).mpr hto⟩
      rcases hfrom with he | hc
      · rw [he]
        exact Or.inl hsrc
      · exact hcs _ hc

theorem Lists.extend (h : Lists w₀ w ks place j l) (hnext : w.next ≤ w'.next) (hj : j ≤ i) :
    Lists w₀ w' ks (placeFrom w.next (i + 1) place) j l :=
  ⟨h.1, fun k => (h.2 k).trans (onLayer_extend hnext hj).symm⟩

theorem nodup_oneOf {d lo n : Nat} (h : d < lo) : (d :: List.range' lo n).Nodup :=
  List.nodup_cons.mpr ⟨fun hmem => absurd (List.mem_range'_1.mp hmem).1 (Nat.not_le.mpr h),
    List.nodup_range'⟩

theorem mem_oneOf {d lo hi k : Nat} (h : lo ≤ hi) :
    k ∈ d :: List.range' lo (hi - lo) ↔ OneOf d lo hi k := by
  rw [List.mem_cons, List.mem_range'_1, Nat.add_sub_cancel' h]
  rfl

theorem lists_new (hle : ∀ k, w₀.next ≤ k → k < w.next → place k ≤ i) (hnext : w₀.next ≤ w.next)
    (hnext' : w.next ≤ w'.next) (hp : ks[i + 1]? = some p.dst) (hlt : p.dst < w₀.next) :
    Lists w₀ w' ks (placeFrom w.next (i + 1) place) (i + 1)
      (p.dst :: List.range' w.next (w'.next - w.next)) :=
  ⟨nodup_oneOf (hlt.trans_le hnext), fun _ => (mem_oneOf hnext').trans (onLayer_new hle hnext hp).symm⟩

end Extend

/-! ## The steps of the loop -/

theorem nextLinkType_returned {p : Kpair} {op : Op} {w w' : World}
    (h : (nextLinkType p).run w = .ok op w') : w' = w ∧
      (p.splitTo = false ∧ p.joinFrom = false ∧ op = .cont ∨
        p.splitTo = true ∧ p.joinFrom = false ∧ op = .split ∨
        p.splitTo = false ∧ p.joinFrom = true ∧ op = .join) := by
  unfold nextLinkType at h
  split at h
  · rename_i hs hj
    injection h with ho hw
    exact ⟨hw.symm, Or.inr (Or.inl ⟨hs, hj, ho.symm⟩)⟩
  · rename_i hs hj
    injection h with ho hw
    exact ⟨hw.symm, Or.inr (Or.inr ⟨hs, hj, ho.symm⟩)⟩
  · rename_i hs hj
    injection h with ho hw
    exact ⟨hw.symm, Or.inl ⟨hs, hj, ho.symm⟩⟩
  · exact nomatch h

/-- The open splits behind a pair. -/
def Kpair.depth (p : Kpair) (depth : Nat) : Nat :=
  if p.splitTo then depth + 1 else if p.joinFrom then depth - 1 else depth

/-- What a step does other than a join that duplicates. -/
structure Plain (w w' : World) (p : Kpair) (s s' : AddState) : Prop where
  lays : Lays w w' p.dst (Forward w p s.groups.flatten)
  flat : s'.groups.flatten = [] ∨ s'.groups.flatten = p.dst :: List.range' w.next (w'.next - w.next)
  phase : s'.groups.phase = p.phase w s.groups.phase
  depth : s'.stack.length = p.depth s.stack.length
  ret : s'.retKernelPair = if s.initialized then s.retKernelPair
    else { s.retKernelPair with source := s.retKernelPair.source ++ s.groups.flatten }
  initialized : s'.initialized = true

section Steps

variable {w₀ w w' : World} {s s' : AddState} {p : Kpair} {l : Locals} {gs : Groups}

theorem phase_full (h : gs.flatten ≠ []) : gs.phase = .full := if_pos h

theorem phase_hollow (h : gs.flatten = []) (hne : gs ≠ []) : gs.phase = .hollow := by
  rw [Groups.phase, if_neg (not_not.mpr h), if_pos hne]

theorem phase_gone : Groups.phase [] = .gone := rfl

theorem Spread.ne_nil {cs : List KernelId} (h : Spread w w' p cs gs) : gs.flatten ≠ [] := by
  rw [h.flat]
  exact List.cons_ne_nil _ _

/-- `>>` -/
theorem cont_plain (hs : p.splitTo = false) (hj : p.joinFrom = false) (hp : p.dst < w.next)
    (hrun : (inlineCont s.groups p).run w = .ok l w') : Plain w w' p s (s.finish l) := by
  have hdepth : (s.finish l).stack.length = p.depth s.stack.length := by
    simp [Kpair.depth, hs, hj, AddState.finish]
  by_cases hflat : s.groups.flatten = []
  · unfold inlineCont at hrun
    rw [inlineCont_hollow hflat] at hrun
    injection hrun with hl hw
    subst hl hw
    have hflat' : (s.groups.map fun _ => ([] : List KernelId)).flatten = [] := by simp
    refine ⟨.refl w _ _, Or.inl ?_, ?_, hdepth, rfl, rfl⟩
    · exact hflat'
    · show Groups.phase (s.groups.map fun _ => []) = _
      by_cases hne : s.groups = []
      · rw [hne]
        rfl
      · rw [phase_hollow hflat hne, phase_hollow hflat' (by simpa using hne), Kpair.phase, hs, hj]
        rfl
  · have h := inlineCont_spread hp hflat hrun
    refine ⟨h.lays, Or.inr h.flat, ?_, hdepth, rfl, rfl⟩
    show Groups.phase l.tempGroups = _
    rw [phase_full h.ne_nil, phase_full hflat, Kpair.phase, hs]
    rfl

/-- `<=`, where the kernels in front have the same output ports. -/
theorem split_plain {r : List Nat × Locals} (hs : p.splitTo = true) (hp : p.dst < w.next)
    (hlt : ∀ k ∈ s.groups.flatten, k < w.next)
    (hports : ∀ k ∈ s.groups.flatten, (w.ports k .output).keys = (w.ports p.src .output).keys)
    (hrun : (inlineSplit s.splitOutEdges s.groups p).run w = .ok r w') :
    Plain w w' p s (AddState.finish { s with stack := .split :: s.stack, splitOutEdges := r.1 } r.2) := by
  have hdepth : (Op.split :: s.stack).length = p.depth s.stack.length := by
    simp [Kpair.depth, hs]
  by_cases hflat : s.groups.flatten = []
  · -- no kernel in front
    obtain ⟨rfl, hflat', hlen⟩ := inlineSplit_hollow (fun k hk => by rw [hflat] at hk; exact nomatch hk) hrun
    have hnil : r.2.tempGroups = [] := List.eq_nil_of_length_eq_zero (by rw [hlen, hflat]; rfl)
    refine ⟨.refl _ _ _, Or.inl hflat', ?_, hdepth, rfl, rfl⟩
    show Groups.phase r.2.tempGroups = _
    rw [hnil, phase_gone]
    by_cases hne : s.groups = []
    · rw [hne]
      rfl
    · rw [phase_hollow hflat hne, Kpair.phase, hs]
      rfl
  · by_cases hkeys : (w.ports p.src .output).keys = []
    · obtain ⟨rfl, hflat', hlen⟩ := inlineSplit_hollow (fun k hk => (hports k hk).trans hkeys) hrun
      have hne : r.2.tempGroups ≠ [] := by
        intro hnil
        rw [hnil] at hlen
        exact hflat (List.eq_nil_of_length_eq_zero hlen.symm)
      refine ⟨.refl _ _ _, Or.inl hflat', ?_, hdepth, rfl, rfl⟩
      show Groups.phase r.2.tempGroups = _
      rw [phase_hollow hflat' hne, phase_full hflat, Kpair.phase, if_pos ⟨hs, hkeys⟩]
    · have h := inlineSplit_spread hp hflat hlt (fun k hk => hports k hk ▸ hkeys) hrun
      refine ⟨h.lays, Or.inr h.flat, ?_, hdepth, rfl, rfl⟩
      show Groups.phase r.2.tempGroups = _
      rw [phase_full h.ne_nil, phase_full hflat, Kpair.phase, if_neg fun h => hkeys h.2]

/-- `>=`, with a split open. -/
theorem join_plain {stack : List Op} {r : List Nat × Locals} (hs : p.splitTo = false)
    (hj : p.joinFrom = true) (hp : p.dst < w.next) (hstack : s.stack = .split :: stack)
    (hrun : (inlineJoin s.splitOutEdges s.groups p).run w = .ok r w') :
    Plain w w' p s (AddState.finish { s with stack := stack, splitOutEdges := r.1 } r.2) := by
  have hdepth : stack.length = p.depth s.stack.length := by
    simp [Kpair.depth, hs, hj, hstack]
  by_cases hne : s.groups = []
  · rw [hne] at hrun
    obtain ⟨rfl, hnil⟩ := inlineJoin_gone hrun
    refine ⟨.refl _ _ _, Or.inl ?_, ?_, hdepth, rfl, rfl⟩
    · show r.2.tempGroups.flatten = []
      rw [hnil]
      rfl
    · show Groups.phase r.2.tempGroups = _
      rw [hnil, hne]
      rfl
  · have h := inlineJoin_spread hp hne hrun
    refine ⟨h.lays, Or.inr h.flat, ?_, hdepth, rfl, rfl⟩
    show Groups.phase r.2.tempGroups = _
    rw [phase_full h.ne_nil]
    by_cases hflat : s.groups.flatten = []
    · rw [phase_hollow hflat hne, Kpair.phase, hs, hj]
      rfl
    · rw [phase_full hflat, Kpair.phase, hs]
      rfl

/-- **A step that does not duplicate.** -/
theorem step_plain (hp : p.dst < w.next) (hlt : ∀ k ∈ s.groups.flatten, k < w.next)
    (hports : ∀ k ∈ s.groups.flatten, (w.ports k .output).keys = (w.ports p.src .output).keys)
    (hopen : p.splitTo = true ∨ p.joinFrom = false ∨ s.stack ≠ [])
    (hrun : (s.step p).run w = .ok s' w') : Plain w w' p s s' := by
  unfold AddState.step at hrun
  obtain ⟨op, m, hop, hrun⟩ := run_bind_ok.mp hrun
  obtain ⟨rfl, ⟨hs, hj, rfl⟩ | ⟨hs, hj, rfl⟩ | ⟨hs, hj, rfl⟩⟩ := nextLinkType_returned hop
  · obtain ⟨l, m', hl, hret⟩ := run_bind_ok.mp hrun
    injection hret with hs' hw
    subst hs' hw
    exact cont_plain hs hj hp hl
  · obtain ⟨r, m', hr, hret⟩ := run_bind_ok.mp hrun
    injection hret with hs' hw
    subst hs' hw
    exact split_plain hs hp hlt hports hr
  · dsimp only at hrun
    split at hrun
    · rename_i hstack
      rw [hs, hj] at hopen
      simp [hstack] at hopen
    · rename_i stack hstack
      obtain ⟨r, m', hr, hret⟩ := run_bind_ok.mp hrun
      injection hret with hs' hw
      subst hs' hw
      exact join_plain hs hj hp hstack hr
    · exact nomatch hrun

/-- **A step that duplicates.** -/
theorem step_duplicates (hs : p.splitTo = false) (hj : p.joinFrom = true) (hstack : s.stack = [])
    (hrun : (s.step p).run w = .ok s' w') :
    ∃ r, (inlineDupJoin s.groups p s.head).run w = .ok r w' ∧ s'.groups = r.2.1.tempGroups ∧
      s'.stack = [] ∧ s'.initialized = true ∧
      s'.retKernelPair = { s.retKernelPair with source := r.1.flatten } := by
  unfold AddState.step at hrun
  obtain ⟨op, m, hop, hrun⟩ := run_bind_ok.mp hrun
  obtain ⟨rfl, ⟨-, hj', -⟩ | ⟨hs', -, -⟩ | ⟨-, -, rfl⟩⟩ := nextLinkType_returned hop
  · rw [hj] at hj'
    exact nomatch hj'
  · rw [hs] at hs'
    exact nomatch hs'
  · simp only [hstack] at hrun
    obtain ⟨r, m', hr, hret⟩ := run_bind_ok.mp hrun
    injection hret with hs' hw
    subst hs' hw
    exact ⟨r, hr, rfl, rfl, rfl, rfl⟩

end Steps

/-! ## The loop over the chain -/

/-- The builder at the place `i` of the chain `ks`: what is built lies in layers up to there, and the groups
hold the last of them, if they hold anything. -/
structure Carried (w₀ w : World) (ks : List KernelId) (place : KernelId → Nat) (i : Nat) (gs : Groups) :
    Prop where
  layered : Layered w₀ w ks place
  next : w₀.next ≤ w.next
  kernel : ∀ k, k < w₀.next → w.kernel k = w₀.kernel k
  le : ∀ k, w₀.next ≤ k → k < w.next → place k ≤ i
  groups : gs.flatten = [] ∨ Lists w₀ w ks place i gs.flatten

section Chain

variable {w₀ w w' : World} {ks : List KernelId} {place : KernelId → Nat} {i : Nat} {p : Kpair}
variable {s s' : AddState} {chain : List Kpair}

/-- All kernels of the groups have the ports of their operand. -/
theorem Carried.ports (h : Carried w₀ w ks place i s.groups) (hsrc : ks[i]? = some p.src)
    (hp : p.src < w₀.next) {k : KernelId} (hk : k ∈ s.groups.flatten) :
    k < w.next ∧ w.ports k .output = w₀.ports p.src .output := by
  rcases h.groups with hnil | hlists
  · rw [hnil] at hk
    exact nomatch hk
  · rcases (hlists.2 k).mp hk with he | ⟨hge, hlt, hplace⟩
    · obtain rfl := Option.some_inj.mp (hsrc.symm.trans he)
      exact ⟨hp.trans_le h.next, by rw [World.ports, h.kernel _ hp]; rfl⟩
    · refine ⟨hlt, ?_⟩
      obtain ⟨o, ho, hcopy⟩ := h.layered.copy k hge hlt
      rw [hplace] at ho
      obtain rfl := Option.some_inj.mp (hsrc.symm.trans ho)
      rw [World.ports, hcopy]
      rfl

/-- One step further; the layers that there are stay as they are. -/
theorem Carried.step (h : Carried w₀ w ks place i s.groups) (hsrc : ks[i]? = some p.src)
    (hdst : ks[i + 1]? = some p.dst) (hp : p.dst < w₀.next) (hplain : Plain w w' p s s') :
    Carried w₀ w' ks (placeFrom w.next (i + 1) place) (i + 1) s'.groups := by
  have hnext := hplain.lays.next
  refine ⟨?_, h.next.trans hnext, fun k hk => ?_, fun k hge hlt => ?_, ?_⟩
  · by_cases hflat : s.groups.flatten = []
    · refine h.layered.extend h.le h.next h.kernel hsrc hdst hp (fun c hc => ?_) hplain.lays
      rw [hflat] at hc
      exact nomatch hc
    · have hlists := h.groups.resolve_left hflat
      exact h.layered.extend h.le h.next h.kernel hsrc hdst hp (fun c hc => (hlists.2 c).mp hc) hplain.lays
  · rw [hplain.lays.kernel k (hk.trans_le h.next), h.kernel k hk]
  · unfold placeFrom
    split
    · exact Nat.le_refl _
    · rename_i hold
      exact Nat.le_succ_of_le (h.le k hge (Nat.lt_of_not_le hold))
  · refine hplain.flat.imp_right fun hflat => ?_
    rw [hflat]
    exact lists_new h.le h.next hnext hdst hp

theorem Kpair.phase_congr {p : Kpair} {w w' : World} (h : w'.ports p.src .output = w.ports p.src .output)
    (phase : Phase) : p.phase w' phase = p.phase w phase := by
  cases phase with
  | full => rw [Kpair.phase, Kpair.phase, h]
  | hollow => rfl
  | gone => rfl

theorem closes_cons {p : Kpair} {depth : Nat} {chain : List Kpair} : Closes depth (p :: chain) ↔
    (p.splitTo = true ∨ p.joinFrom = false ∨ 0 < depth) ∧ Closes (p.depth depth) chain := by
  unfold Kpair.depth
  rw [Closes]
  split
  · rename_i hs
    simp [hs]
  · rename_i hs
    split
    · rename_i hj
      simp [hs, hj]
    · rename_i hj
      simp [hj]

theorem places_next {ks : List KernelId} {i k : Nat} {p : Kpair} {chain : List Kpair}
    (h : ks.drop i = k :: (p :: chain).map Kpair.dst) :
    ks[i]? = some k ∧ ks[i + 1]? = some p.dst ∧ ks.drop (i + 1) = p.dst :: chain.map Kpair.dst := by
  have hdrop : ks.drop (i + 1) = p.dst :: chain.map Kpair.dst := by
    rw [← List.drop_drop, h]
    rfl
  refine ⟨?_, ?_, hdrop⟩
  · rw [← Nat.add_zero i, ← List.getElem?_drop, h]
    rfl
  · rw [← Nat.add_zero (i + 1), ← List.getElem?_drop, hdrop]
    rfl

/-- **A chain whose joins all close splits.** -/
theorem Carried.run {k : KernelId} (hcons : Consecutive k chain)
    (hks : ks.drop i = k :: chain.map Kpair.dst) (hlt : ∀ k ∈ ks, k < w₀.next)
    (hcloses : Closes s.stack.length chain) (h : Carried w₀ w ks place i s.groups)
    (hinit : s.initialized = true) (hrun : (chain.foldlM AddState.step s).run w = .ok s' w') :
    ∃ place', Carried w₀ w' ks place' (i + chain.length) s'.groups ∧
      s'.groups.phase = chain.foldl (fun phase p => p.phase w₀ phase) s.groups.phase ∧
      s'.retKernelPair = s.retKernelPair ∧
      ∀ l, Lists w₀ w ks place 0 l → Lists w₀ w' ks place' 0 l := by
  induction chain generalizing k i s w place with
  | nil =>
      injection hrun with hs hw
      subst hs hw
      exact ⟨place, h, rfl, rfl, fun _ hl => hl⟩
  | cons p chain ih =>
      obtain ⟨rfl, hrest⟩ := hcons
      obtain ⟨hsrc, hdst, hdrop⟩ := places_next hks
      have hp : p.dst < w₀.next := hlt _ (List.mem_of_getElem? hdst)
      have hsrcLt : p.src < w₀.next := hlt _ (List.mem_of_getElem? hsrc)
      obtain ⟨hopen, hcloses'⟩ := closes_cons.mp hcloses
      rw [List.foldlM_cons] at hrun
      obtain ⟨s₁, w₁, hstep, hrun⟩ := run_bind_ok.mp hrun
      have hport : w.ports p.src .output = w₀.ports p.src .output := by
        rw [World.ports, h.kernel _ hsrcLt]
        rfl
      have hplain : Plain w w₁ p s s₁ := step_plain (hp.trans_le h.next)
        (fun k hk => (h.ports hsrc hsrcLt hk).1)
        (fun k hk => by rw [(h.ports hsrc hsrcLt hk).2, hport])
        (hopen.imp_right fun h => h.imp_right fun h => List.ne_nil_of_length_pos h) hstep
      obtain ⟨place', hcarried, hphase, hret, hlists⟩ := ih hrest hdrop (hplain.depth ▸ hcloses')
        (h.step hsrc hdst hp hplain) hplain.initialized hrun
      refine ⟨place', ?_, ?_, ?_, fun l hl => hlists l (hl.extend hplain.lays.next (Nat.zero_le i))⟩
      · rw [List.length_cons, Nat.add_comm chain.length 1, ← Nat.add_assoc]
        exact hcarried
      · rw [hphase, hplain.phase, Kpair.phase_congr hport]
        rfl
      · rw [hret, hplain.ret, if_pos hinit]

end Chain

/-! ### A join that duplicates further back -/

/-- The groups start with the operand `k`, if they hold anything. -/
structure Led (w₀ w : World) (k : KernelId) (s : AddState) : Prop where
  valid : s.Valid (fun k w => k < w.next) w
  grows : w₀.Grows w
  groups : s.groups.flatten = [] ∨
    ∃ cs, s.groups.flatten = k :: cs ∧ ∀ c ∈ cs, w.ports c .output = w₀.ports k .output

/-- A kernel that was there before is a source, and it is not the first one. -/
def Misnamed (w₀ : World) (first : KernelId) (s : AddState) : Prop :=
  ∃ k ∈ s.retKernelPair.source, k ≠ first ∧ k < w₀.next

section Led

variable {w₀ w w' : World} {first k : KernelId} {p : Kpair} {s s' : AddState} {chain : List Kpair}

/-- A join with no split open. -/
def Kpair.Duplicates (p : Kpair) (s : AddState) : Prop :=
  p.splitTo = false ∧ p.joinFrom = true ∧ s.stack = []

theorem Led.plain (h : Led w₀ w p.src s) (hsrc : p.src < w₀.next) (hdst : p.dst < w₀.next)
    (hdup : ¬p.Duplicates s) (hrun : (s.step p).run w = .ok s' w') : Plain w w' p s s' := by
  have hport := h.grows.ports p.src hsrc .output
  refine step_plain (hdst.trans_le h.grows.next) (fun k hk => h.valid.groups k hk) (fun k hk => ?_) ?_ hrun
  · rcases h.groups with hnil | ⟨cs, hflat, hports⟩
    · rw [hnil] at hk
      exact nomatch hk
    · rw [hflat] at hk
      rcases List.mem_cons.mp hk with rfl | hk
      · rfl
      · rw [hports k hk, hport]
  · by_contra hopen
    simp only [not_or, Bool.not_eq_true, Bool.not_eq_false, not_not] at hopen
    exact hdup hopen

/-- A join that duplicates names the kernel in front of it. -/
theorem Led.duplicates (h : Led w₀ w p.src s) (hdup : p.Duplicates s)
    (hrun : (s.step p).run w = .ok s' w') : s'.groups = [[p.dst]] ∧ s'.stack = [] ∧
      s'.initialized = true ∧ p.src ∈ s'.retKernelPair.source := by
  obtain ⟨hs, hj, hstack⟩ := hdup
  obtain ⟨r, hr, hgroups, hstack', hinit, hret⟩ := step_duplicates hs hj hstack hrun
  obtain ⟨j, cs, hone, hfirst, htemp⟩ := inlineDupJoin_groups hr
  have hj : j = p.src := by
    rcases h.groups with hnil | ⟨cs', hflat, -⟩
    · rw [hone] at hnil
      exact nomatch hnil
    · rw [hone] at hflat
      exact (List.cons.inj hflat).1
  refine ⟨hgroups.trans htemp, hstack', hinit, ?_⟩
  rw [hret, hfirst, hj]
  exact List.mem_cons_self

theorem Led.step (h : Led w₀ w p.src s) (hsrc : p.src < w₀.next) (hdst : p.dst < w₀.next)
    (hrun : (s.step p).run w = .ok s' w') : Led w₀ w' p.dst s' ∧ s'.initialized = true ∧
      s'.stack.length = p.depth s.stack.length := by
  have hnext := h.grows.next
  obtain ⟨hevolves, hvalid⟩ := (evolves_discipline.step_along h.valid
    ⟨hsrc.trans_le hnext, hdst.trans_le hnext⟩).ok hrun
  have hgrows : w₀.Grows w' := h.grows.trans hevolves.1
  by_cases hdup : p.Duplicates s
  · obtain ⟨hgroups, hstack, hinit, -⟩ := h.duplicates hdup hrun
    refine ⟨⟨hvalid, hgrows, Or.inr ⟨[], by rw [hgroups]; rfl, fun c hc => nomatch hc⟩⟩, hinit, ?_⟩
    rw [hstack, hdup.2.2, Kpair.depth, hdup.1, hdup.2.1]
    rfl
  · have hplain := h.plain hsrc hdst hdup hrun
    refine ⟨⟨hvalid, hgrows, hplain.flat.imp_right fun hflat => ⟨_, hflat, fun c hc => ?_⟩⟩,
      hplain.initialized, hplain.depth⟩
    obtain ⟨hge, hlt⟩ := List.mem_range'_1.mp hc
    rw [Nat.add_sub_cancel' hplain.lays.next] at hlt
    rw [World.ports, hplain.lays.copy c hge hlt]
    exact h.grows.ports p.dst hdst .output

theorem Led.run (hcons : Consecutive k chain) (hk : k < w₀.next) (hfirst : k ≠ first)
    (hlt : ∀ q ∈ chain, q.dst < w₀.next) (hback : ∀ q ∈ chain, q.dst ≠ first) (h : Led w₀ w k s)
    (hinit : s.initialized = true) (hbad : Misnamed w₀ first s ∨ ¬Closes s.stack.length chain)
    (hrun : (chain.foldlM AddState.step s).run w = .ok s' w') : Misnamed w₀ first s' := by
  induction chain generalizing k s w with
  | nil =>
      injection hrun with hs hw
      subst hs hw
      exact hbad.resolve_right fun h => h trivial
  | cons p chain ih =>
      obtain ⟨rfl, hrest⟩ := hcons
      obtain ⟨hdst, hlt'⟩ := List.forall_mem_cons.mp hlt
      obtain ⟨hdstNe, hback'⟩ := List.forall_mem_cons.mp hback
      rw [List.foldlM_cons] at hrun
      obtain ⟨s₁, w₁, hstep, hrun⟩ := run_bind_ok.mp hrun
      obtain ⟨hled, hinit₁, hdepth⟩ := h.step hk hdst hstep
      refine ih hrest hdst hdstNe hlt' hback' hled hinit₁ ?_ hrun
      by_cases hdup : p.Duplicates s
      · obtain ⟨-, -, -, hmem⟩ := h.duplicates hdup hstep
        exact Or.inl ⟨p.src, hmem, hfirst, hk⟩
      · have hplain := h.plain hk hdst hdup hstep
        refine hbad.imp (fun ⟨j, hj, hne⟩ => ⟨j, ?_, hne⟩) fun hcloses hrest => hcloses ?_
        · rw [hplain.ret, if_pos hinit]
          exact hj
        · refine closes_cons.mpr ⟨?_, hdepth ▸ hrest⟩
          by_contra hopen
          simp only [not_or, Bool.not_eq_true, Bool.not_eq_false, not_lt, Nat.le_zero,
            List.length_eq_zero_iff] at hopen
          exact hdup hopen

end Led

/-! ## The whole chain -/

section Whole

variable {w w' : World} {p : Kpair} {rest : List Kpair} {s s' : AddState} {r : KernelPair}

/-- The builder at the front of the chain. -/
theorem carried_start (w : World) (src : KernelId) (ks : List KernelId) :
    Carried w w (src :: ks) (fun _ => 0) 0 [[src]] := by
  have hnone : ∀ {q : Prop} (k : KernelId), w.next ≤ k → k < w.next → q := fun k hge hlt =>
    absurd hlt (Nat.not_lt.mpr hge)
  refine ⟨⟨fun k hge hlt => hnone k hge hlt, fun _ _ _ ho => Or.inl ho⟩, Nat.le_refl _, fun _ _ => rfl,
    fun k hge hlt => hnone k hge hlt, Or.inr ⟨List.nodup_singleton src, fun k => ?_⟩⟩
  show k ∈ [src] ↔ some src = some k ∨ _
  rw [List.mem_singleton, Option.some_inj, eq_comm]
  exact ⟨Or.inl, fun h => h.resolve_right fun ⟨hge, hlt, _⟩ => hnone k hge hlt⟩

theorem led_start (hsrc : p.src < w.next) : Led w w p.src { groups := [[p.src]] } := by
  refine ⟨⟨fun k hk => ?_, fun q hq => nomatch hq⟩, .refl w, Or.inr ⟨[], rfl, fun c hc => nomatch hc⟩⟩
  rw [show k = p.src by simpa using hk]
  exact hsrc

/-- The first operator, if it is not a join, -/
theorem first_plain {ks : List KernelId} (hdst : p.dst < w.next)
    (hplain : Plain w w' p { groups := [[p.src]] } s) :
    ∃ place, Carried w w' (p.src :: p.dst :: ks) place 1 s.groups ∧
      s.groups.phase = p.phase w .full ∧ s.retKernelPair.destination = [] ∧
      Lists w w' (p.src :: p.dst :: ks) place 0 s.retKernelPair.source := by
  have hstart := carried_start w p.src (p.dst :: ks)
  refine ⟨_, hstart.step (s := { groups := [[p.src]] }) rfl rfl hdst hplain, hplain.phase, ?_, ?_⟩
  · rw [hplain.ret]
    rfl
  · rw [hplain.ret]
    exact Lists.extend (hstart.groups.resolve_left (List.cons_ne_nil _ _)) hplain.lays.next (Nat.le_refl 0)

/-- and if it is one. -/
theorem first_duplicates {ks : List KernelId} (hsrc : p.src < w.next) (hs : p.splitTo = false)
    (hj : p.joinFrom = true) (hrun : (AddState.step { groups := [[p.src]] } p).run w = .ok s w') :
    ∃ place, Carried w w' (p.src :: p.dst :: ks) place 1 s.groups ∧
      s.groups.phase = p.phase w .full ∧ s.retKernelPair.destination = [] ∧
      Lists w w' (p.src :: p.dst :: ks) place 0 s.retKernelPair.source := by
  obtain ⟨r, hr, hgroups, -, -, hret⟩ := step_duplicates hs hj rfl hrun
  obtain ⟨hlays, hgp, htemp⟩ := inlineDupJoin_front hsrc hr
  -- all copies are put at the front
  have hzero : ∀ k, OneOf p.src w.next w'.next k →
      OnLayer w w' (p.src :: p.dst :: ks) (fun _ => 0) 0 k := fun k hk =>
    hk.imp (fun he => congrArg some he.symm) fun hk => ⟨hk.1, hk.2, rfl⟩
  refine ⟨fun _ => 0, ⟨⟨fun k hge hlt => ⟨p.src, rfl, hlays.copy k hge hlt⟩, fun a b ha ho => ?_⟩,
    hlays.next, hlays.kernel, fun _ _ _ => Nat.zero_le 1, Or.inr ?_⟩, ?_, ?_, ?_⟩
  · refine (hlays.edges a b ha ho).imp_right fun ⟨hfrom, hto⟩ => ⟨0, hzero _ hfrom, Or.inl ?_⟩
    rw [hto]
    rfl
  · rw [hgroups, htemp]
    refine ⟨List.nodup_singleton _, fun k => ?_⟩
    show k ∈ [p.dst] ↔ some p.dst = some k ∨ w.next ≤ k ∧ k < w'.next ∧ 0 = 1
    simp [eq_comm]
  · have hne : ([[p.dst]] : Groups).flatten ≠ [] := List.cons_ne_nil _ _
    rw [hgroups, htemp, phase_full hne, Kpair.phase, hs]
    rfl
  · rw [hret]
  · have hsource : s.retKernelPair.source = p.src :: List.range' w.next (w'.next - w.next) := by
      rw [hret, hgp]
      exact List.append_nil _
    rw [hsource]
    refine ⟨nodup_oneOf hsrc, fun k => (mem_oneOf hlays.next).trans ⟨hzero k, fun h => ?_⟩⟩
    exact h.imp (fun he => (Option.some_inj.mp he).symm) fun h => ⟨h.1, h.2.1⟩

/-- The first operator. -/
theorem first_carried (ks : List KernelId) (hsrc : p.src < w.next) (hdst : p.dst < w.next)
    (hrun : (AddState.step { groups := [[p.src]] } p).run w = .ok s w') :
    ∃ place, Carried w w' (p.src :: p.dst :: ks) place 1 s.groups ∧
      s.groups.phase = p.phase w .full ∧ s.retKernelPair.destination = [] ∧
      Lists w w' (p.src :: p.dst :: ks) place 0 s.retKernelPair.source := by
  by_cases hdup : p.Duplicates { groups := [[p.src]] }
  · exact first_duplicates hsrc hdup.1 hdup.2.1 hrun
  · exact first_plain hdst ((led_start hsrc).plain hsrc hdst hdup hrun)

theorem operands_lt {w : World} {src : KernelId} {chain : List Kpair} (hsrc : src < w.next)
    (hlt : ∀ q ∈ chain, q.dst < w.next) : ∀ k ∈ operands src chain, k < w.next := by
  intro k hk
  rcases List.mem_cons.mp hk with rfl | hk
  · exact hsrc
  · obtain ⟨q, hq, rfl⟩ := List.mem_map.mp hk
    exact hlt q hq

/-- The first kernel stands there once if the chain does not come back to it. -/
theorem once_zero_iff {src : KernelId} {chain : List Kpair} :
    Once (operands src chain) 0 ↔ ∀ q ∈ chain, q.dst ≠ src := by
  constructor
  · intro honce q hq heq
    obtain ⟨j, hj, hget⟩ := List.mem_iff_getElem.mp hq
    refine absurd (honce (j + 1) (by simpa [operands] using hj) ?_) (Nat.succ_ne_zero j)
    simp [operands, List.getElem?_eq_getElem hj, hget, heq]
  · intro hback j hj hget
    cases j with
    | zero => rfl
    | succ j =>
        have hmem : src ∈ chain.map Kpair.dst := List.mem_of_getElem? hget
        obtain ⟨q, hq, heq⟩ := List.mem_map.mp hmem
        exact absurd heq (hback q hq)

/-- Where the chain does not come back to its first kernel, the two lists are right exactly if no join
behind the first operator duplicates and there is something left to name. -/
theorem lists_ends_iff {w w' : World} {p : Kpair} {rest : List Kpair} {r : KernelPair}
    (hcons : Consecutive p.src (p :: rest)) (hsrc : p.src < w.next)
    (hlt : ∀ q ∈ p :: rest, q.dst < w.next) (hback : ∀ q ∈ p :: rest, q.dst ≠ p.src)
    (hrun : (addAssign (p :: rest)).run w = .ok r w') :
    (∃ place, Layered w w' (operands p.src (p :: rest)) place ∧
      Lists w w' (operands p.src (p :: rest)) place 0 r.source ∧
      Lists w w' (operands p.src (p :: rest)) place (p :: rest).length r.destination) ↔
      Closes (p.depth 0) rest ∧ Alive w (p :: rest) := by
  obtain ⟨hdst, hltRest⟩ := List.forall_mem_cons.mp hlt
  obtain ⟨hdstNe, hbackRest⟩ := List.forall_mem_cons.mp hback
  unfold addAssign at hrun
  obtain ⟨s, m, hloop, hret⟩ := run_bind_ok.mp hrun
  injection hret with hr hm
  subst hr hm
  unfold addLoop at hloop
  rw [List.foldlM_cons] at hloop
  obtain ⟨s₁, w₁, hstep, hloop⟩ := run_bind_ok.mp hloop
  obtain ⟨hled, hinit, hdepth⟩ := (led_start hsrc).step hsrc hdst hstep
  by_cases hcloses : Closes (p.depth 0) rest
  · obtain ⟨place, hcarried, hphase, hdest, hsource⟩ :=
      first_carried (rest.map Kpair.dst) hsrc hdst hstep
    obtain ⟨place', hcarried', hphase', hret, hlists⟩ := hcarried.run hcons.2 rfl (operands_lt hsrc hlt)
      (hdepth ▸ hcloses) hinit hloop
    have halive : Alive w (p :: rest) ↔ s.groups.phase = .full := by
      rw [hphase', hphase]
      rfl
    have hdestination : s.retKernelPair.destination ++ s.groups.flatten = s.groups.flatten := by
      rw [hret, hdest, List.nil_append]
    rw [and_iff_right hcloses, halive]
    by_cases hflat : s.groups.flatten = []
    · -- nothing is left to name
      refine iff_of_false ?_ ?_
      · rintro ⟨place, -, -, hlast⟩
        show False
        obtain ⟨k, hk⟩ : ∃ k, (operands p.src (p :: rest))[(p :: rest).length]? = some k :=
          ⟨_, List.getElem?_eq_getElem (by simp [operands])⟩
        have hmem := (hlast.2 k).mpr (Or.inl hk)
        rw [show _ ++ _ = [] from hdestination.trans hflat] at hmem
        exact nomatch hmem
      · intro hfull
        unfold Groups.phase at hfull
        rw [if_neg (not_not.mpr hflat)] at hfull
        split at hfull <;> exact nomatch hfull
    · refine iff_of_true ⟨place', hcarried'.layered, ?_, ?_⟩ (phase_full hflat)
      · show Lists _ _ _ _ _ s.retKernelPair.source
        rw [hret]
        exact hlists _ hsource
      · show Lists _ _ _ _ _ (s.retKernelPair.destination ++ s.groups.flatten)
        rw [hdestination, List.length_cons, Nat.add_comm]
        exact hcarried'.groups.resolve_left hflat
  · -- a kernel in front of a join has been taken for a source
    obtain ⟨k, hk, hne, hold⟩ := hled.run hcons.2 hdst hdstNe hltRest hbackRest hinit
      (Or.inr (hdepth ▸ hcloses)) hloop
    refine iff_of_false ?_ fun h => hcloses h.1
    rintro ⟨place, -, hfirst, -⟩
    rcases (hfirst.2 k).mp hk with he | ⟨hge, -⟩
    · exact hne (Option.some_inj.mp he).symm
    · exact absurd hold (Nat.not_lt.mpr hge)

/-- Copies are on one layer only, so a layer stands apart when its operand does. -/
theorem apart_iff {w₀ w : World} {ks l : List KernelId} {place : KernelId → Nat} {i : Nat}
    (hlt : ∀ k ∈ ks, k < w₀.next) (hi : i < ks.length) (h : Lists w₀ w ks place i l) :
    Apart w₀ w ks place i l ↔ Once ks i := by
  have hget : ks[i]? = some ks[i] := List.getElem?_eq_getElem hi
  constructor
  · intro hapart j _ hj
    exact hapart ks[i] ((h.2 _).mpr (Or.inl hget)) j (Or.inl (hj.trans hget))
  · intro honce k hk j hj
    rcases (h.2 k).mp hk with he | ⟨hge, -, hplace⟩
    · rcases hj with he' | ⟨hge, -⟩
      · exact honce j (List.getElem?_eq_some_iff.mp he').1 (he'.trans he.symm)
      · exact absurd (hlt k (List.mem_of_getElem? he)) (Nat.not_lt.mpr hge)
    · rcases hj with he' | ⟨-, -, hplace'⟩
      · exact absurd (hlt k (List.mem_of_getElem? he')) (Nat.not_lt.mpr hge)
      · exact hplace'.symm.trans hplace

/-- **The ends that `operator +=` returns are the ends of what it built exactly if no kernel stands in front
of a join that duplicates but the first one, no split of kernels without output ports is left standing,
and neither the first kernel nor the last one stands in the chain twice.** The pairs follow one another,
over kernels that there are; and `operator +=` has accepted them. -/
theorem names_ends_iff {w w' : World} {p : Kpair} {rest : List Kpair} {r : KernelPair}
    (hcons : Consecutive p.src (p :: rest)) (hsrc : p.src < w.next)
    (hlt : ∀ q ∈ p :: rest, q.dst < w.next) (hrun : (addAssign (p :: rest)).run w = .ok r w') :
    NamesEnds w w' p.src (p :: rest) r ↔ (Closes (p.depth 0) rest ∧ Alive w (p :: rest)) ∧
      Once (operands p.src (p :: rest)) 0 ∧
      Once (operands p.src (p :: rest)) (p :: rest).length := by
  have hltAll := operands_lt hsrc hlt
  have hlength : (operands p.src (p :: rest)).length = (p :: rest).length + 1 := by simp [operands]
  have hzero : 0 < (operands p.src (p :: rest)).length := by omega
  have hlast : (p :: rest).length < (operands p.src (p :: rest)).length := by omega
  constructor
  · rintro ⟨place, hlayered, ⟨hfirst, hapart⟩, hdest, hapart'⟩
    have honce := (apart_iff hltAll hzero hfirst).mp hapart
    exact ⟨(lists_ends_iff hcons hsrc hlt (once_zero_iff.mp honce) hrun).mp
      ⟨place, hlayered, hfirst, hdest⟩, honce, (apart_iff hltAll hlast hdest).mp hapart'⟩
  · rintro ⟨hends, honce, honce'⟩
    obtain ⟨place, hlayered, hfirst, hdest⟩ :=
      (lists_ends_iff hcons hsrc hlt (once_zero_iff.mp honce) hrun).mpr hends
    exact ⟨place, hlayered, ⟨hfirst, (apart_iff hltAll hzero hfirst).mpr honce⟩, hdest,
      (apart_iff hltAll hlast hdest).mpr honce'⟩

end Whole

/-- Kernel `0` is a source, `1` and `2` have one port on each side, and `3` has two input ports. -/
def fanIn : World where
  kernel := fun
    | 0 => { className := "a", input := .empty, output := .one "out" }
    | 1 => { className := "b", input := .one "in", output := .one "out" }
    | 2 => { className := "c", input := .one "in", output := .one "out" }
    | _ => { className := "d", input := twoPorts, output := .empty }
  info := fun _ => { type := "int" }
  next := 4

/-- `a >> b`. -/
def shortFront : List Kpair := [{ head := 0, src := 0, dst := 1 }]

/-- `>= d`, from the kernel at the end. -/
def toJoin (k : KernelId) : Kpair := { head := 0, src := k, dst := 3, joinFrom := true }

/-- A source with a join behind it: it is there twice. -/
theorem names_ends_iff_front :
    ∃ r w', (addAssign [toJoin 0]).run fanIn = .ok r w' ∧ NamesEnds fanIn w' 0 [toJoin 0] r := by
  obtain ⟨r, w', hrun⟩ : ∃ r w', (addAssign [toJoin 0]).run fanIn = .ok r w' := ⟨_, _, rfl⟩
  have hcons : Consecutive 0 [toJoin 0] := ⟨rfl, trivial⟩
  exact ⟨r, w', hrun, (names_ends_iff hcons (by decide) (by decide) hrun).mpr
    ⟨⟨trivial, by decide⟩, by decide, by decide⟩⟩

/-- **With one kernel more, the source that is returned has the second kernel** in the place of the
first. -/
theorem dupJoin_misnames :
    ∃ r w', (addAssign (shortFront ++ [toJoin 1])).run fanIn = .ok r w' ∧ r.source = [1, 4] ∧
      ¬NamesEnds fanIn w' 0 (shortFront ++ [toJoin 1]) r := by
  obtain ⟨r, w', hrun, hsource⟩ : ∃ r w', (addAssign (shortFront ++ [toJoin 1])).run fanIn = .ok r w' ∧
      r.source = [1, 4] := ⟨_, _, rfl, rfl⟩
  refine ⟨r, w', hrun, hsource, ?_⟩
  rintro ⟨place, -, ⟨hlists, -⟩, -⟩
  have hmem : 1 ∈ r.source := hsource ▸ List.mem_cons_self
  rcases (hlists.2 1).mp hmem with h | ⟨h, -⟩
  · exact absurd h (by decide)
  · exact absurd h (by decide)

end RaftLib.Graph
