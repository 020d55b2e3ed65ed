/-
# `RaftLib.Graph.Layers` -- what one operator of a chain builds

The three routines of the builder that take a layer of kernels, the copies of one operand, to the layer
of the next: `inline_cont`, `inline_split` and `inline_join`. Each takes the next operand itself and
as many copies of it as are needed, and runs through the output ports of the one layer and the input
ports of the other side by side. `World.Built` says which connections are new, and that nothing else
is.
-/
import RaftLib.Graph.Matching

namespace RaftLib.Graph

open RaftLib.Logic.Program

/-! ## Connections made -/

/-- The ports of a list of kernels that have the same ports, in order. -/
def ends (s : Side) (keys : List PortKey) (ks : List KernelId) : List PortRef :=
  ks.flatMap fun k => keys.map fun key => ⟨k, s, key⟩

section Ends

variable {s : Side} {keys : List PortKey} {ks : List KernelId} {k : KernelId} {r : PortRef}

theorem mem_ends : r ∈ ends s keys ks ↔ r.kernel ∈ ks ∧ r.side = s ∧ r.key ∈ keys := by
  unfold ends
  simp only [List.mem_flatMap, List.mem_map]
  constructor
  · rintro ⟨k, hk, key, hkey, rfl⟩
    exact ⟨hk, rfl, hkey⟩
  · rintro ⟨hk, rfl, hkey⟩
    exact ⟨r.kernel, hk, r.key, hkey, rfl⟩

@[simp] theorem ends_nil : ends s keys [] = [] := rfl

theorem ends_append (ks' : List KernelId) : ends s keys (ks ++ ks') = ends s keys ks ++ ends s keys ks' :=
  List.flatMap_append

theorem ends_singleton : ends s keys [k] = keys.map fun key => ⟨k, s, key⟩ := by
  simp [ends]

end Ends

theorem exists_of_forall₂_left {α β : Type} {R : α → β → Prop} {l : List α} {m : List β}
    (h : List.Forall₂ R l m) {x : α} (hx : x ∈ l) : ∃ y ∈ m, R x y := by
  induction h with
  | nil => cases hx
  | cons hab _ ih =>
      rcases List.mem_cons.mp hx with rfl | hx
      · exact ⟨_, List.mem_cons_self, hab⟩
      · obtain ⟨y, hy, hR⟩ := ih hx
        exact ⟨y, List.mem_cons_of_mem _ hy, hR⟩

namespace World

/-- The two ports are the ends of one connection. -/
def Linked (w : World) (a b : PortRef) : Prop := w.other a = some b ∧ w.other b = some a

/-- From `w` to `w'` the ports `as` were connected with the ports `bs`, one by one, and nothing else
was; kernels may have been added. -/
structure Built (w w' : World) (as bs : List PortRef) : Prop where
  next : w.next ≤ w'.next
  kernel : ∀ k, k < w.next → w'.kernel k = w.kernel k
  type : ∀ r, r.kernel < w.next → (w'.info r).type = (w.info r).type
  linked : List.Forall₂ w'.Linked as bs
  bound : ∀ r, r ∈ as ∨ r ∈ bs → r.kernel < w'.next
  free : ∀ r, r ∈ as ∨ r ∈ bs → r.kernel < w.next → w.other r = none
  off : ∀ r, r.kernel < w.next → r ∉ as → r ∉ bs → w'.other r = w.other r
  fresh : ∀ r, w.next ≤ r.kernel → r.kernel < w'.next → r ∉ as → r ∉ bs → w'.other r = none

variable {w w' w'' : World} {as bs cs ds : List PortRef} {a b r : PortRef}

theorem Built.refl (w : World) : w.Built w [] [] where
  next := Nat.le_refl _
  kernel _ _ := rfl
  type _ _ := rfl
  linked := .nil
  bound := by simp
  free := by simp
  off _ _ _ _ := rfl
  fresh _ h h' := absurd h' (Nat.not_lt.mpr h)

theorem Built.ports (h : w.Built w' as bs) {k : KernelId} (hk : k < w.next) (s : Side) :
    w'.ports k s = w.ports k s := by
  rw [World.ports, h.kernel k hk, World.ports]

/-- A port that has been connected is so. -/
theorem Built.ne_none (h : w.Built w' as bs) (hr : r ∈ as ∨ r ∈ bs) : w'.other r ≠ none := by
  rcases hr with hr | hr
  · obtain ⟨b, -, hb⟩ := exists_of_forall₂_left h.linked hr
    rw [hb.1]
    exact Option.some_ne_none b
  · obtain ⟨a, -, ha⟩ := exists_of_forall₂_left h.linked.flip hr
    rw [ha.2]
    exact Option.some_ne_none a

/-- A port that is free, and not one of those connected, is free still. -/
theorem Built.other_eq_none (h : w.Built w' as bs) (hlt : r.kernel < w'.next)
    (hfree : r.kernel < w.next → w.other r = none) (ha : r ∉ as) (hb : r ∉ bs) :
    w'.other r = none := by
  by_cases hr : r.kernel < w.next
  · rw [h.off r hr ha hb]
    exact hfree hr
  · exact h.fresh r (Nat.not_lt.mp hr) hlt ha hb

theorem Built.trans (h : w.Built w' as bs) (h' : w'.Built w'' cs ds) :
    w.Built w'' (as ++ cs) (bs ++ ds) := by
  -- what has been connected is not connected again
  have hold : ∀ r, r ∈ as ∨ r ∈ bs → w''.other r = w'.other r := by
    intro r hr
    have hlt := h.bound r hr
    exact h'.off r hlt (fun hc => h.ne_none hr (h'.free r (.inl hc) hlt))
      fun hd => h.ne_none hr (h'.free r (.inr hd) hlt)
  refine ⟨h.next.trans h'.next, fun k hk => ?_, fun r hr => ?_, ?_, fun r hr => ?_, fun r hr hlt => ?_,
    fun r hlt ha hb => ?_, fun r hlt hlt' ha hb => ?_⟩
  · rw [h'.kernel k (hk.trans_le h.next), h.kernel k hk]
  · rw [h'.type r (hr.trans_le h.next), h.type r hr]
  · refine List.rel_append ?_ h'.linked
    have hmem := List.forall₂_iff_zip.mp h.linked
    refine List.forall₂_iff_zip.mpr ⟨hmem.1, fun hab => ?_⟩
    obtain ⟨hl, hr⟩ := hmem.2 hab
    refine ⟨(hold _ (.inl (List.of_mem_zip hab).1)).trans hl, ?_⟩
    exact (hold _ (.inr (List.of_mem_zip hab).2)).trans hr
  · simp only [List.mem_append] at hr
    by_cases hr' : r ∈ as ∨ r ∈ bs
    · exact (h.bound r hr').trans_le h'.next
    · exact h'.bound r (by tauto)
  · simp only [List.mem_append] at hr
    by_cases hr' : r ∈ as ∨ r ∈ bs
    · exact h.free r hr' hlt
    · rw [← h.off r hlt (fun ha => hr' (.inl ha)) fun hb => hr' (.inr hb)]
      exact h'.free r (by tauto) (hlt.trans_le h.next)
  · simp only [List.mem_append, not_or] at ha hb
    rw [h'.off r (hlt.trans_le h.next) ha.2 hb.2, h.off r hlt ha.1 hb.1]
  · simp only [List.mem_append, not_or] at ha hb
    exact h'.other_eq_none hlt' (fun hr => h.fresh r hlt hr ha.1 hb.1) ha.2 hb.2

end World

/-! ## The two calls -/

/-- The name finds the port. -/
def PortMap.Resolves (m : PortMap) (port key : PortKey) : Prop :=
  (port = key ∧ port ≠ nullPortValue ∧ key ∈ m.keys) ∨ (port = nullPortValue ∧ m.keys = [key])

theorem PortMap.Resolves.mem {m : PortMap} {port key : PortKey} (h : m.Resolves port key) :
    key ∈ m.keys := by
  rcases h with ⟨-, -, h⟩ | ⟨-, h⟩
  · exact h
  · rw [h]
    exact List.mem_singleton_self key

section Calls

variable {w w₀ : World} {a b : PortRef} {as bs : List PortRef}

theorem PortMap.Resolves.found {k : KernelId} {side : Side} {port key : PortKey}
    (h : (w.ports k side).Resolves port key) : w.found k side port = some ⟨k, side, key⟩ := by
  unfold World.found
  rcases h with ⟨rfl, hne, hmem⟩ | ⟨rfl, hkeys⟩
  · rw [if_neg hne, if_pos hmem]
  · rw [if_pos rfl, hkeys]

/-- **A call on two free ports of one type** connects them and does no more. -/
theorem link_of_resolves {aPort bPort : PortKey} (hsa : a.side = .output) (hsb : b.side = .input)
    (ha : (w.ports a.kernel .output).Resolves aPort a.key)
    (hb : (w.ports b.kernel .input).Resolves bPort b.key) (hla : a.kernel < w.next)
    (hlb : b.kernel < w.next) (hfa : w.other a = none) (hfb : w.other b = none)
    (htype : (w.info a).type = (w.info b).type) (t : Order) (buffer : Nat) :
    Returns (link t a.kernel aPort b.kernel bPort buffer)
      (fun _ w' => w.Built w' [a] [b] ∧ w'.next = w.next ∧ w'.kernel = w.kernel) w := by
  have hab : a ≠ b := World.ports_ne hsa hsb
  let w₁ := w.withKernels a.kernel b.kernel
  have hsame : w.SameEnds (w₁.sized buffer [a, b]) :=
    (World.sameEnds_withKernels _ _).trans (World.sameEnds_sized w₁ buffer [a, b])
  have hea : w.found a.kernel .output aPort = some a := ha.found.trans (by rw [← hsa])
  have heb : w.found b.kernel .input bPort = some b := hb.found.trans (by rw [← hsb])
  refine ⟨{ source := [a.kernel], destination := [b.kernel] }, (w₁.sized buffer [a, b]).linked t a b,
    link_ok hea heb htype hfa hfb, ?_, rfl, rfl⟩
  have hlinked : ((w₁.sized buffer [a, b]).linked t a b).Linked a b :=
    ⟨World.linked_other_src hsa hsb, World.linked_other_dst hsa hsb⟩
  refine ⟨Nat.le_refl _, fun _ _ => rfl, fun r _ => ?_, .cons hlinked .nil, ?_, ?_,
    fun r _ hra hrb => ?_, fun r h h' => absurd h' (Nat.not_lt.mpr h)⟩
  · rw [← hsame.type r]
    by_cases hra : r = a
    · rw [hra, World.linked_info_src hab]
    · by_cases hrb : r = b
      · rw [hrb, World.linked_info_dst]
      · rw [World.linked_info_of_ne hra hrb]
  · rintro r (hr | hr)
    · exact List.mem_singleton.mp hr ▸ hla
    · exact List.mem_singleton.mp hr ▸ hlb
  · rintro r (hr | hr) -
    · exact List.mem_singleton.mp hr ▸ hfa
    · exact List.mem_singleton.mp hr ▸ hfb
  · rw [List.mem_singleton] at hra hrb
    rw [World.linked_other_of_ne hra hrb, hsame.other]

/-- A copy, made later, of the kernel `d`, or that kernel itself. -/
structure World.Like (w₀ w : World) (d c : KernelId) : Prop where
  lt : c < w.next
  ports : ∀ s, w.ports c s = w₀.ports d s
  type : ∀ s key, (w.info ⟨c, s, key⟩).type = (w₀.info ⟨d, s, key⟩).type
  cloneable : (w.kernel c).cloneable = (w₀.kernel d).cloneable

theorem World.Like.mono {w' : World} {d c : KernelId} (h : w₀.Like w d c) (hb : w.Built w' as bs) :
    w₀.Like w' d c where
  lt := h.lt.trans_le hb.next
  ports s := (hb.ports h.lt s).trans (h.ports s)
  type s key := (hb.type ⟨c, s, key⟩ h.lt).trans (h.type s key)
  cloneable := by rw [hb.kernel c h.lt, h.cloneable]

theorem World.built_withClone (k : KernelId) : w.Built (w.withClone k) [] [] where
  next := Nat.le_succ _
  kernel j hj := withClone_kernel_of_ne w k hj.ne
  type r hr := by rw [withClone_info_of_ne w k hr.ne]
  linked := .nil
  bound := by simp
  free := by simp
  off r hr _ _ := by rw [other, withClone_info_of_ne w k hr.ne, other]
  fresh r h h' _ _ := by
    have hr : r.kernel = w.next := Nat.le_antisymm (Nat.lt_succ_iff.mp h') h
    rw [other, withClone_info_self w k hr]
    rfl

theorem World.Like.withClone {d c : KernelId} (h : w₀.Like w d c) :
    w₀.Like (w.withClone c) d w.next where
  lt := Nat.lt_succ_self _
  ports s := (withClone_ports_self w c s).trans (h.ports s)
  type s key := by
    rw [withClone_info_self w c rfl]
    exact h.type s key
  cloneable := by
    rw [withClone_kernel_self]
    exact h.cloneable

end Calls

/-! ## A layer being filled -/

/-- The kernel `d` and the copies of it that are made next, `m` kernels in all. -/
def layer (d next : KernelId) : Nat → List KernelId
  | 0 => []
  | m + 1 => d :: List.range' next m

theorem mem_layer {d next m k : Nat} (h : k ∈ layer d next m) :
    k = d ∨ next ≤ k ∧ k < next + (m - 1) := by
  cases m with
  | zero => cases h
  | succ m =>
      rcases List.mem_cons.mp h with rfl | h
      · exact .inl rfl
      · simpa using Or.inr (List.mem_range'_1.mp h)

theorem layer_succ (d next m : Nat) : layer d next (m + 2) = layer d next (m + 1) ++ [next + m] := by
  simp only [layer, List.range'_1_concat, List.cons_append]

/-- Kernel `d` waits for its copies to be linked: it is there as it was, and its input ports are free. -/
structure World.Awaits (w₀ w : World) (d : KernelId) : Prop where
  like : w₀.Like w d d
  free : ∀ key, w.other ⟨d, .input, key⟩ = none

/-- Since `w`, the kernels `ds` have been taken up, `d` and copies of it, and output ports `as` have been
connected with input ports `bs` of them. -/
structure World.Filling (w₀ w : World) (d : KernelId) (as bs : List PortRef) (ds : List KernelId)
    (w' : World) : Prop where
  built : w.Built w' as bs
  copies : ds = layer d w.next ds.length
  next : w'.next = w.next + (ds.length - 1)
  alike : ∀ c ∈ ds, w₀.Like w' d c
  outputs : ∀ r ∈ as, r.side = .output
  inputs : ∀ r ∈ bs, r.side = .input ∧ r.kernel ∈ ds

section Filling

variable {w₀ w w' : World} {d k c : KernelId} {as bs : List PortRef} {ds ks : List KernelId}
variable {a b : PortKey}

theorem World.Filling.start (w₀ w : World) (d : KernelId) : w₀.Filling w d [] [] [] w :=
  ⟨.refl w, rfl, rfl, by simp, by simp, by simp⟩

/-- An input port of a copy is free as long as it has not been connected. -/
theorem World.Filling.free (h : w₀.Filling w d as bs ds w') (hd : w₀.Awaits w d) (hc : c ∈ ds)
    {key : PortKey} (hb : ⟨c, .input, key⟩ ∉ bs) : w'.other ⟨c, .input, key⟩ = none := by
  refine h.built.other_eq_none (h.alike c hc).lt (fun hlt => ?_) (fun ha => ?_) hb
  · rw [h.copies] at hc
    rcases mem_layer hc with rfl | ⟨hle, -⟩
    · exact hd.free key
    · exact absurd hlt (Nat.not_lt.mpr hle)
  · cases h.outputs _ ha

/-- **Taking up one more kernel**: `d` itself if it is the first one, else a copy of the last. -/
theorem World.Filling.take (h : w₀.Filling w d as bs ds w') (hd : w₀.Awaits w d)
    (hclone : ds ≠ [] → (w₀.kernel d).cloneable = true) (hk : k = ds.getLastD d) : Returns (cloneIf (!ds.isEmpty) k)
      (fun c w'' => w₀.Filling w d as bs (ds ++ [c]) w'' ∧ c ∉ ds) w' := by
  cases hds : ds with
  | nil =>
      subst hds
      obtain rfl : k = d := hk
      have hbs : ∀ r ∈ bs, False := fun r hr => nomatch (h.inputs r hr).2
      refine returns_pure ⟨⟨h.built, rfl, h.next, fun c hc => ?_, h.outputs, fun r hr =>
        (hbs r hr).elim⟩, List.not_mem_nil⟩
      rw [show c = k by simpa using hc]
      exact hd.like.mono h.built
  | cons c₀ cs =>
      rw [← hds]
      have hne : ds ≠ [] := by simp [hds]
      obtain ⟨m, hm⟩ : ∃ m, ds.length = m + 1 := ⟨cs.length, by simp [hds]⟩
      have hlast : k ∈ ds := by
        rw [hk, List.getLastD_eq_getLast?, List.getLast?_eq_getLast_of_ne_nil hne]
        exact List.getLast_mem hne
      have hlike := h.alike k hlast
      have hclone : (w'.kernel k).cloneable = true := hlike.cloneable.trans (hclone hne)
      have hnext : w'.next = w.next + m := by rw [h.next, hm]; rfl
      have hbuilt : w.Built (w'.withClone k) as bs := by
        simpa using h.built.trans (World.built_withClone k)
      refine ⟨w'.next, w'.withClone k, ?_, ⟨hbuilt, ?_, ?_, fun c hc => ?_, h.outputs, fun r hr => ?_⟩,
        fun hc => Nat.lt_irrefl _ (h.alike _ hc).lt⟩
      · simp [cloneIf, hds, clone_ok hclone]
      · rw [List.length_append, hm, hnext]
        exact (congrArg (· ++ [w.next + m]) (h.copies.trans (by rw [hm]))).trans
          (layer_succ d w.next m).symm
      · rw [World.withClone_next, hnext, List.length_append, hm]
        rfl
      · rcases List.mem_append.mp hc with hc | hc
        · exact (h.alike c hc).mono (World.built_withClone k)
        · rw [List.mem_singleton.mp hc]
          exact hlike.withClone
      · exact ⟨(h.inputs r hr).1, List.mem_append_left _ (h.inputs r hr).2⟩

/-- **Connecting** a free output port of a copy of `k` with a free port of a kernel taken up. -/
theorem World.Filling.connect (h : w₀.Filling w d as bs ds w') (hd : w₀.Awaits w d) {n : Kpair}
    (hsrc : w₀.Like w k n.src) (hfree : w.other ⟨n.src, .output, a⟩ = none)
    (ha : (w₀.ports k .output).Resolves n.srcName a) (hdst : n.dst ∈ ds)
    (hb : (w₀.ports d .input).Resolves n.dstName b)
    (htype : (w₀.info ⟨k, .output, a⟩).type = (w₀.info ⟨d, .input, b⟩).type)
    (hna : ⟨n.src, .output, a⟩ ∉ as) (hnb : ⟨n.dst, .input, b⟩ ∉ bs) :
    Returns (joink n) (fun _ w'' => w₀.Filling w d (as ++ [⟨n.src, .output, a⟩])
      (bs ++ [⟨n.dst, .input, b⟩]) ds w'') w' := by
  have hsrc' := hsrc.mono h.built
  have hdst' := h.alike n.dst hdst
  have hfa : w'.other ⟨n.src, .output, a⟩ = none :=
    h.built.other_eq_none hsrc'.lt (fun _ => hfree) hna fun hr => nomatch (h.inputs _ hr).1
  have hlink := link_of_resolves (w := w') (a := ⟨n.src, .output, a⟩) (b := ⟨n.dst, .input, b⟩) rfl rfl
    (by rw [hsrc'.ports]; exact ha) (by rw [hdst'.ports]; exact hb) hsrc'.lt hdst'.lt hfa
    (h.free hd hdst hnb) (by rw [hsrc'.type, hdst'.type, htype])
    (if n.outOfOrder then .out else .in) n.bufferSize
  unfold joink
  refine hlink.bind fun _ w'' ⟨hbuilt, hnext, _⟩ => returns_pure ⟨h.built.trans hbuilt, h.copies,
    hnext.trans h.next, fun c hc => (h.alike c hc).mono hbuilt, fun r hr => ?_, fun r hr => ?_⟩
  · rcases List.mem_append.mp hr with hr | hr
    · exact h.outputs r hr
    · rw [List.mem_singleton.mp hr]
  · rcases List.mem_append.mp hr with hr | hr
    · exact h.inputs r hr
    · rw [List.mem_singleton.mp hr]
      exact ⟨rfl, hdst⟩

/-- A new link to the kernel taken up last, which has one input port. -/
theorem World.Filling.connect_last (h : w₀.Filling w d as (ends .input [b] ds) (ds ++ [c]) w')
    (hd : w₀.Awaits w d) {n : Kpair} (hdst : n.dst = c) (hsrc : w₀.Like w k n.src)
    (hfree : w.other ⟨n.src, .output, a⟩ = none) (ha : (w₀.ports k .output).Resolves n.srcName a)
    (hb : (w₀.ports d .input).Resolves n.dstName b)
    (htype : (w₀.info ⟨k, .output, a⟩).type = (w₀.info ⟨d, .input, b⟩).type)
    (hna : ⟨n.src, .output, a⟩ ∉ as) (hnb : c ∉ ds) :
    Returns (joink n) (fun _ w'' => w₀.Filling w d (as ++ [⟨n.src, .output, a⟩])
      (ends .input [b] (ds ++ [c])) (ds ++ [c]) w'') w' := by
  subst hdst
  rw [ends_append, ends_singleton]
  exact h.connect hd hsrc hfree ha (by simp) hb htype hna fun hmem => hnb (mem_ends.mp hmem).1

end Filling

/-! ## The groups being filled -/

namespace Groups

variable {T : Groups} {t : List KernelId} {k : KernelId}

theorem emplaceBack_concat (T : Groups) (t : List KernelId) (k : KernelId) :
    emplaceBack (T ++ [t]) k = T ++ [t ++ [k]] := by
  simp [emplaceBack]

/-- Where no group but the last may be empty, the first one is empty only if nothing has been put
anywhere. -/
theorem firstEmpty_concat (hT : ∀ g ∈ T, g ≠ []) :
    firstEmpty (T ++ [t]) = (T.flatten ++ t).isEmpty := by
  cases T with
  | nil => rfl
  | cons g T =>
      have hg : g ≠ [] := hT g List.mem_cons_self
      obtain ⟨x, g, rfl⟩ := List.exists_cons_of_ne_nil hg
      rfl

/-- Then the first group is the last one. -/
theorem emplaceFirst_concat (h : T.flatten ++ t = []) (hT : ∀ g ∈ T, g ≠ []) (k : KernelId) :
    emplaceFirst (T ++ [t]) k = T ++ [t ++ [k]] := by
  cases T with
  | nil => rfl
  | cons g T =>
      have hg : g ≠ [] := hT g List.mem_cons_self
      simp [hg] at h

end Groups

/-! ## `inline_cont` -/

/-- The kernels `cs` offer their output ports to the pair at hand: they are `k` and copies of it, and
these ports are free. -/
structure World.Offers (w₀ w : World) (k : KernelId) (cs : List KernelId) : Prop where
  like : ∀ c ∈ cs, w₀.Like w k c
  free : ∀ c ∈ cs, ∀ key, w.other ⟨c, .output, key⟩ = none
  nodup : cs.Nodup
  first : cs.head? = some k

section Routines

variable {w₀ w w' : World} {p : Kpair} {groups : Groups} {a b : PortKey}

/-- Where `inline_cont` is when it has been through `done`: the groups before the last are those of the
groups gone through, and `t` is being filled. -/
structure ContState (w₀ w : World) (p : Kpair) (a b : PortKey) (T : Groups) (t : List KernelId)
    (done : List KernelId) (l : Locals) (w' : World) : Prop where
  groups : l.tempGroups = T ++ [t]
  nonempty : ∀ g ∈ T, g ≠ []
  count : (T.flatten ++ t).length = done.length
  filling : w₀.Filling w p.dst (ends .output [a] done) (ends .input [b] (T.flatten ++ t))
    (T.flatten ++ t) w'
  dst : l.next.dst = (T.flatten ++ t).getLastD p.dst
  srcName : l.next.srcName = p.srcName
  dstName : l.next.dstName = p.dstName
  src : done = [] → l.next.src = p.src

variable (ho : w₀.Offers w p.src groups.flatten) (hd : w₀.Awaits w p.dst)
  (hclone : 1 < groups.flatten.length → (w₀.kernel p.dst).cloneable = true)
  (ha : (w₀.ports p.src .output).Resolves p.srcName a)
  (hb : (w₀.ports p.dst .input).Resolves p.dstName b)
  (htype : (w₀.info ⟨p.src, .output, a⟩).type = (w₀.info ⟨p.dst, .input, b⟩).type)
include ho hd hclone ha hb htype

theorem contKernel_returns {T : Groups} {t done rest : List KernelId} {c : KernelId} {l : Locals}
    (hrest : groups.flatten = done ++ c :: rest) (h : ContState w₀ w p a b T t done l w') :
    Returns (contKernel l c) (fun l' w'' => ∃ x, ContState w₀ w p a b T (t ++ [x]) (done ++ [c]) l' w'')
      w' := by
  have hc : c ∈ groups.flatten := by rw [hrest]; simp
  have hnew : c ∉ done := by
    have hnodup := ho.nodup
    rw [hrest, List.nodup_append] at hnodup
    exact fun hmem => hnodup.2.2 c hmem c List.mem_cons_self rfl
  have hempty := Groups.firstEmpty_concat (t := t) h.nonempty
  have hmore : T.flatten ++ t ≠ [] → (w₀.kernel p.dst).cloneable = true := by
    intro hds
    have hpos := List.length_pos_of_ne_nil hds
    refine hclone ?_
    rw [hrest, List.length_append, List.length_cons, ← h.count]
    omega
  unfold contKernel
  rw [h.groups]
  by_cases hds : T.flatten ++ t = []
  · -- the first kernel of all is the source of the pair, and its destination is the operand
    rw [if_pos (by rw [hempty, hds]; rfl)]
    obtain rfl : done = [] := List.length_eq_zero_iff.mp (by rw [← h.count, hds]; rfl)
    obtain rfl : c = l.next.src := by
      have hfirst := ho.first
      rw [hrest] at hfirst
      exact (Option.some_inj.mp hfirst).trans (h.src rfl).symm
    have htake := (h.filling.take hd hmore h.dst).ok (t := w') (a := l.next.dst) (by rw [hds]; rfl)
    refine (htake.1.connect_last hd rfl (ho.like _ hc) (ho.free _ hc a) (h.srcName ▸ ha)
      (h.dstName ▸ hb) htype (fun hmem => nomatch hmem) htake.2).bind fun _ w'' hfill =>
        returns_pure ⟨l.next.dst, ?_, h.nonempty, ?_, ?_, ?_, h.srcName, h.dstName,
          fun hnil => nomatch hnil⟩
    · exact Groups.emplaceFirst_concat hds h.nonempty _
    · rw [← List.append_assoc, hds]
      rfl
    · rw [← List.append_assoc]
      exact hfill
    · rw [← List.append_assoc, List.getLastD_concat]
  · -- any other one gets a copy
    rw [if_neg (by rw [hempty]; simpa using hds)]
    have htake := h.filling.take hd hmore h.dst
    rw [show (T.flatten ++ t).isEmpty = false by simpa using hds] at htake
    refine htake.bind fun x w₁ ⟨hfill, hx⟩ => ?_
    refine (hfill.connect_last (n := { l.next with src := c, dst := x }) hd rfl (ho.like c hc)
      (ho.free c hc a) (h.srcName ▸ ha) (h.dstName ▸ hb) htype
      (fun hmem => hnew (mem_ends.mp hmem).1) hx).bind fun _ w₂ hfill' =>
        returns_pure ⟨x, Groups.emplaceBack_concat T t x, h.nonempty, ?_, ?_, ?_, h.srcName, h.dstName,
          fun hnil => ?_⟩
    · rw [← List.append_assoc, List.length_append, h.count, List.length_append]
      rfl
    · rw [← List.append_assoc, ends_append, ends_singleton]
      exact hfill'
    · rw [← List.append_assoc, List.getLastD_concat]
    · simp at hnil

/-- **`inline_cont`** links every kernel of the groups to a copy of the destination, and groups the
copies in the same way. -/
theorem inlineCont_returns (hne : ∀ g ∈ groups, g ≠ []) :
    Returns (inlineCont groups p) (fun l w' => l.tempGroups.map List.length = groups.map List.length ∧
      w₀.Filling w p.dst (ends .output [a] groups.flatten) (ends .input [b] l.tempGroups.flatten)
        l.tempGroups.flatten w') w := by
  have hstart : ContState w₀ w p a b [] [] [] { tempGroups := [[]], next := p } w :=
    ⟨rfl, by simp, rfl, .start w₀ w p.dst, rfl, rfl, rfl, fun _ => rfl⟩
  have hloop := Returns.foldlM (l := groups) (s := w) (b := { next := p })
    (f := fun l group => group.foldlM contKernel { l with tempGroups := l.tempGroups.pushEmpty })
    (I := fun G l w' => l.tempGroups.map List.length = G.map List.length ∧
      ContState w₀ w p a b l.tempGroups [] G.flatten { l with tempGroups := l.tempGroups.pushEmpty } w')
    (fun G group rest hgroups l w₁ ⟨hlengths, hl⟩ => ?_) ⟨rfl, hstart⟩
  · refine hloop.conseq fun l w' ⟨hlengths, hl⟩ => ⟨hlengths, ?_⟩
    have hfill := hl.filling
    rwa [List.append_nil] at hfill
  · have hgroup : group ≠ [] := hne group (by rw [hgroups]; simp)
    refine (Returns.foldlM (I := fun g l' w' => ∃ t, t.length = g.length ∧
      ContState w₀ w p a b l.tempGroups t (G.flatten ++ g) l' w')
      (fun g c more hmore l' w₂ ⟨t, ht, hl'⟩ => ?_) ⟨[], rfl, by rwa [List.append_nil]⟩).conseq
        fun l' w' ⟨t, ht, hl'⟩ => ?_
    · have hrest : groups.flatten = (G.flatten ++ g) ++ c :: (more ++ rest.flatten) := by
        rw [hgroups, hmore]
        simp
      refine (contKernel_returns ho hd hclone ha hb htype hrest hl').conseq fun l'' w' ⟨x, hl''⟩ =>
        ⟨t ++ [x], ?_, ?_⟩
      · rw [List.length_append, List.length_append, ht]
        rfl
      · rwa [List.append_assoc] at hl''
    · have hT : l'.tempGroups = l.tempGroups ++ [t] := hl'.groups
      refine ⟨by simp [hT, hlengths, ht], ⟨by simp [Groups.pushEmpty], fun g hg => ?_, ?_, ?_, ?_,
        hl'.srcName, hl'.dstName, fun hnil => ?_⟩⟩
      · rw [hT] at hg
        rcases List.mem_append.mp hg with hg | hg
        · exact hl'.nonempty g hg
        · rw [List.mem_singleton.mp hg]
          rintro rfl
          exact hgroup (List.length_eq_zero_iff.mp ht.symm)
      · simpa [hT] using hl'.count
      · simpa [hT] using hl'.filling
      · simpa [hT] using hl'.dst
      · simp [hgroup] at hnil

end Routines

/-! ## `inline_split` -/

section Routines

variable {w₀ w w' : World} {p : Kpair} {groups : Groups} {b : PortKey} {as : List PortRef}
variable {T : Groups} {t : List KernelId} {l : Locals} {c : KernelId}

/-- Where `inline_split` is when the output ports `as` have been connected: the groups before the last
are full, and `t` is being filled. -/
structure SplitState (w₀ w : World) (p : Kpair) (b : PortKey) (as : List PortRef) (T : Groups)
    (t : List KernelId) (l : Locals) (w' : World) : Prop where
  groups : l.tempGroups = T ++ [t]
  filling : w₀.Filling w p.dst as (ends .input [b] (T.flatten ++ t)) (T.flatten ++ t) w'
  dst : l.next.dst = (T.flatten ++ t).getLastD p.dst
  dstName : l.next.dstName = p.dstName

variable (ho : w₀.Offers w p.src groups.flatten) (hd : w₀.Awaits w p.dst)
  (hb : (w₀.ports p.dst .input).Resolves p.dstName b)
  (ha : ∀ a ∈ (w₀.ports p.src .output).keys, (w₀.ports p.src .output).Resolves a a)
  (htype : ∀ a ∈ (w₀.ports p.src .output).keys,
    (w₀.info ⟨p.src, .output, a⟩).type = (w₀.info ⟨p.dst, .input, b⟩).type)
include ho hd hb ha htype

/-- One output port gets a kernel of its own. -/
theorem splitPort_returns (h : SplitState w₀ w p b as T t l w')
    (hclone : T.flatten ++ t ≠ [] → (w₀.kernel p.dst).cloneable = true) (hc : c ∈ groups.flatten)
    {key : PortKey} (hkey : key ∈ (w₀.ports p.src .output).keys) (hnew : ⟨c, .output, key⟩ ∉ as)
    {fresh : Bool} (hfresh : fresh = !(T.flatten ++ t).isEmpty) :
    Returns (splitPort c fresh l key) (fun l' w'' => ∃ x,
      SplitState w₀ w p b (as ++ [⟨c, .output, key⟩]) T (t ++ [x]) l' w'') w' := by
  subst hfresh
  unfold splitPort
  refine (h.filling.take hd hclone h.dst).bind fun x w₁ ⟨hfill, hx⟩ => ?_
  refine (hfill.connect_last (n := { l.next with
    src := c, srcName := key, hasSrcName := true, dst := x }) hd rfl (ho.like c hc) (ho.free c hc key)
      (ha key hkey) (h.dstName ▸ hb) (htype key hkey) hnew hx).bind fun _ w₂ hfill' =>
        returns_pure ⟨x, ?_, ?_, ?_, h.dstName⟩
  · show Groups.emplaceBack l.tempGroups x = _
    rw [h.groups, Groups.emplaceBack_concat]
  · rw [← List.append_assoc]
    exact hfill'
  · rw [← List.append_assoc, List.getLastD_concat]

/-- The loop over ports when a kernel has been taken up already. -/
theorem splitPorts_returns {keys : List PortKey} (h : SplitState w₀ w p b as T t l w')
    (hclone : keys ≠ [] → (w₀.kernel p.dst).cloneable = true) (hc : c ∈ groups.flatten)
    (hsub : keys ⊆ (w₀.ports p.src .output).keys) (hnodup : keys.Nodup)
    (hnew : ∀ key ∈ keys, ⟨c, .output, key⟩ ∉ as) (hne : T.flatten ++ t ≠ []) :
    Returns (keys.foldlM (splitPort c true) l) (fun l' w'' => ∃ t', t'.length = t.length + keys.length ∧
      SplitState w₀ w p b (as ++ ends .output keys [c]) T t' l' w'') w' := by
  induction keys generalizing as t l w' with
  | nil => exact returns_pure ⟨t, rfl, by simpa [ends_singleton] using h⟩
  | cons key keys ih =>
      obtain ⟨hkey, hnodup'⟩ := List.nodup_cons.mp hnodup
      obtain ⟨hmem, hsub'⟩ := List.cons_subset.mp hsub
      rw [List.foldlM_cons]
      have hcopy := hclone (List.cons_ne_nil key keys)
      refine (splitPort_returns ho hd hb ha htype h (fun _ => hcopy) hc hmem (hnew key List.mem_cons_self)
        (by simpa using hne)).bind fun l₁ w₁ ⟨x, h₁⟩ => ?_
      refine (ih h₁ (fun _ => hcopy) hsub' hnodup' (fun key' hkey' hmem' => ?_) (by simp)).conseq
        fun l₂ w₂ ⟨t', ht', h₂⟩ => ⟨t', ?_, ?_⟩
      · rcases List.mem_append.mp hmem' with hmem' | hmem'
        · exact hnew key' (List.mem_cons_of_mem _ hkey') hmem'
        · obtain rfl : key' = key := by simpa using hmem'
          exact hkey hkey'
      · simp only [List.length_append, List.length_cons, List.length_nil] at ht' ⊢
        omega
      · rw [ends_singleton] at h₂ ⊢
        simpa using h₂

/-- One kernel gets a group of its own, with a kernel for each output port. -/
theorem splitKernel_returns (h : SplitState w₀ w p b as l.tempGroups []
      { l with tempGroups := l.tempGroups.pushEmpty } w')
    (hT : ∀ g ∈ l.tempGroups, g.length = (w₀.ports p.src .output).count)
    (hpos : 0 < (w₀.ports p.src .output).count)
    (hclone : 1 < (l.tempGroups.length + 1) * (w₀.ports p.src .output).count →
      (w₀.kernel p.dst).cloneable = true) (hc : c ∈ groups.flatten)
    (hnew : ∀ key, ⟨c, .output, key⟩ ∉ as) :
    Returns (splitKernel l c) (fun l' w'' => ∃ t, t.length = (w₀.ports p.src .output).count ∧
      SplitState w₀ w p b (as ++ ends .output (w₀.ports p.src .output).keys [c]) l.tempGroups t l' w'')
      w' := by
  have hports : (w'.ports c .output).keys = (w₀.ports p.src .output).keys := by
    rw [((ho.like c hc).mono h.filling.built).ports]
  have hnonempty : ∀ g ∈ l.tempGroups, g ≠ [] := by
    rintro g hg rfl
    rw [← hT [] hg] at hpos
    exact Nat.lt_irrefl _ hpos
  have hempty : l.tempGroups.pushEmpty.firstEmpty = (l.tempGroups.flatten ++ []).isEmpty :=
    Groups.firstEmpty_concat hnonempty
  have hnodup := (w₀.ports p.src .output).nodup
  unfold splitKernel
  refine returns_get.bind fun v w₁ hv => ?_
  obtain ⟨rfl, rfl⟩ := hv
  simp only [hports, hempty]
  split
  · next hnil =>
      -- the first port of the first kernel is linked to the destination itself
      have hds : l.tempGroups.flatten ++ [] = [] := List.isEmpty_iff.mp hnil
      cases hkeys : (w₀.ports p.src .output).keys with
      | nil =>
          rw [PortMap.count, hkeys] at hpos
          cases hpos
      | cons key keys =>
          rw [hkeys] at hnodup
          obtain ⟨hkey, hnodup'⟩ := List.nodup_cons.mp hnodup
          have hmore : keys ≠ [] → (w₀.kernel p.dst).cloneable = true := by
            intro hne
            have hlength := List.length_pos_of_ne_nil hne
            refine hclone (Nat.lt_of_lt_of_le ?_ (Nat.le_mul_of_pos_left _ (Nat.succ_pos _)))
            rw [PortMap.count, hkeys, List.length_cons]
            omega
          refine (splitPort_returns ho hd hb ha htype h (fun hne => absurd hds hne) hc (by simp [hkeys])
            (hnew key) (by rw [hds]; rfl)).bind fun l₁ w₁ ⟨x, h₁⟩ => ?_
          refine (splitPorts_returns ho hd hb ha htype h₁ hmore hc (by simp [hkeys]) hnodup'
            (fun key' hkey' hmem => ?_) (by simp)).conseq fun l₂ w₂ ⟨t, ht, h₂⟩ => ⟨t, ?_, ?_⟩
          · rcases List.mem_append.mp hmem with hmem | hmem
            · exact hnew key' hmem
            · obtain rfl : key' = key := by simpa using hmem
              exact hkey hkey'
          · rw [ht, PortMap.count, hkeys]
            simp [Nat.add_comm]
          · simpa [ends_singleton] using h₂
  · next hds =>
      have hgroups : 0 < l.tempGroups.length := by
        refine List.length_pos_of_ne_nil fun hnil => hds ?_
        rw [hnil]
        rfl
      have hmore : 1 < (l.tempGroups.length + 1) * (w₀.ports p.src .output).count :=
        Nat.lt_of_lt_of_le (Nat.succ_lt_succ hgroups) (Nat.le_mul_of_pos_right _ hpos)
      refine (splitPorts_returns ho hd hb ha htype h (fun _ => hclone hmore) hc (fun _ hkey => hkey) hnodup
        (fun key _ => hnew key) (by simpa using hds)).conseq fun l₂ w₂ ⟨t, ht, h₂⟩ => ⟨t, ?_, h₂⟩
      rw [ht]
      exact Nat.zero_add _

/-- **`inline_split`** links every output port of the kernels to a copy of the destination; the copies
for the ports of one kernel are one group. -/
theorem inlineSplit_returns (hpos : 0 < (w₀.ports p.src .output).count)
    (hclone : 1 < groups.flatten.length * (w₀.ports p.src .output).count →
      (w₀.kernel p.dst).cloneable = true) (edges : List Nat) :
    Returns (inlineSplit edges groups p) (fun r w' => r.1 = p.srcOutCount :: edges ∧
      (∀ g ∈ r.2.tempGroups, g.length = (w₀.ports p.src .output).count) ∧
      r.2.tempGroups.length = groups.flatten.length ∧
      w₀.Filling w p.dst (ends .output (w₀.ports p.src .output).keys groups.flatten)
        (ends .input [b] r.2.tempGroups.flatten) r.2.tempGroups.flatten w') w := by
  have hstart : SplitState w₀ w p b [] [] [] { tempGroups := [[]], next := p } w :=
    ⟨rfl, .start w₀ w p.dst, rfl, rfl⟩
  have hflat : groups.foldlM (fun l group => group.foldlM splitKernel l) { next := p } =
      groups.flatten.foldlM splitKernel { next := p } := (foldlM_flatten ..).symm
  have hloop := Returns.foldlM (l := groups.flatten) (s := w) (b := { next := p }) (f := splitKernel)
    (I := fun done l w' => (∀ g ∈ l.tempGroups, g.length = (w₀.ports p.src .output).count) ∧
      l.tempGroups.length = done.length ∧
      SplitState w₀ w p b (ends .output (w₀.ports p.src .output).keys done) l.tempGroups []
        { l with tempGroups := l.tempGroups.pushEmpty } w')
    (fun done c rest hgroups l w₁ ⟨hcounts, hlength, hl⟩ => ?_) ⟨by simp, rfl, hstart⟩
  · unfold inlineSplit
    rw [hflat]
    refine hloop.bind fun l w' ⟨hcounts, hlength, hl⟩ => returns_pure ⟨rfl, hcounts, hlength, ?_⟩
    have hfill := hl.filling
    rwa [List.append_nil] at hfill
  · have hc : c ∈ groups.flatten := by rw [hgroups]; simp
    have hnew : c ∉ done := by
      have hnodup := ho.nodup
      rw [hgroups, List.nodup_append] at hnodup
      exact fun hmem => hnodup.2.2 c hmem c List.mem_cons_self rfl
    have hmore : (l.tempGroups.length + 1) * (w₀.ports p.src .output).count ≤
        groups.flatten.length * (w₀.ports p.src .output).count := by
      refine Nat.mul_le_mul_right _ ?_
      rw [hlength, hgroups, List.length_append, List.length_cons]
      omega
    refine (splitKernel_returns ho hd hb ha htype hl hcounts hpos (fun hlt => hclone (hlt.trans_le hmore))
      hc fun key hmem => hnew (mem_ends.mp hmem).1).conseq fun l' w' ⟨t, ht, hl'⟩ => ?_
    have hT : l'.tempGroups = l.tempGroups ++ [t] := hl'.groups
    refine ⟨fun g hg => ?_, by simp [hT, hlength], ⟨rfl, ?_, ?_, hl'.dstName⟩⟩
    · rw [hT] at hg
      rcases List.mem_append.mp hg with hg | hg
      · exact hcounts g hg
      · rw [List.mem_singleton.mp hg, ht]
    · rw [ends_append]
      simpa [hT] using hl'.filling
    · simpa [hT] using hl'.dst

end Routines

/-! ## `inline_join` -/

/-- In groups of `m`, but for the last one, which may be shorter. -/
def Batched (m : Nat) (gs : Groups) : Prop :=
  ∃ T t, gs = T ++ [t] ∧ (∀ g ∈ T, g.length = m) ∧ t ≠ [] ∧ t.length ≤ m

section Routines

variable {w₀ w w' : World} {p n : Kpair} {groups : Groups} {a : PortKey} {as bs : List PortRef}
variable {ds group : List KernelId} {top : Nat} {s : Nat × Locals}

/-- Where `inline_join` is when it has joined the kernels `done`: it has taken up as many kernels as
groups, in groups of `top`, and `s.1` tells how many more the last one takes. -/
structure JoinState (w₀ w : World) (p : Kpair) (a : PortKey) (top : Nat) (done : Groups)
    (s : Nat × Locals) (w' : World) : Prop where
  groups : s.2.tempGroups = [] ∧ s.1 = 0 ∨ ∃ T t, s.2.tempGroups = T ++ [t] ∧
    (∀ g ∈ T, g.length = top) ∧ t ≠ [] ∧ t.length + s.1 = top
  count : s.2.tempGroups.flatten.length = done.length
  filling : w₀.Filling w p.dst (ends .output [a] done.flatten)
    (ends .input (w₀.ports p.dst .input).keys s.2.tempGroups.flatten) s.2.tempGroups.flatten w'
  dst : s.2.next.dst = s.2.tempGroups.flatten.getLastD p.dst
  srcName : s.2.next.srcName = p.srcName

/-- A new group is opened where the last one is full. -/
theorem JoinState.newBatch (h : JoinState w₀ w p a top groups s w') (htop : 0 < top) :
    ∃ T t, (newBatch top s.1 s.2.tempGroups).2 = T ++ [t] ∧ (∀ g ∈ T, g.length = top) ∧
      t.length + (newBatch top s.1 s.2.tempGroups).1 = top ∧
      0 < (newBatch top s.1 s.2.tempGroups).1 ∧ T.flatten ++ t = s.2.tempGroups.flatten := by
  unfold Graph.newBatch
  rcases h.groups with ⟨hnil, hzero⟩ | ⟨T, t, hgroups, hT, ht, hcount⟩
  · rw [if_pos hzero, hnil]
    exact ⟨[], [], rfl, by simp, Nat.zero_add top, htop, rfl⟩
  · split
    · next hzero =>
        refine ⟨T ++ [t], [], by rw [hgroups]; rfl, fun g hg => ?_, Nat.zero_add top, htop, by
          simp [hgroups]⟩
        rcases List.mem_append.mp hg with hg | hg
        · exact hT g hg
        · rw [List.mem_singleton.mp hg, ← hcount, hzero]
          rfl
    · next hne => exact ⟨T, t, hgroups, hT, hcount, Nat.pos_of_ne_zero hne, by simp [hgroups]⟩

variable (ho : w₀.Offers w p.src groups.flatten) (hd : w₀.Awaits w p.dst)
  (ha : (w₀.ports p.src .output).Resolves p.srcName a)
  (hb : ∀ b ∈ (w₀.ports p.dst .input).keys, (w₀.ports p.dst .input).Resolves b b)
  (htype : ∀ b ∈ (w₀.ports p.dst .input).keys,
    (w₀.info ⟨p.src, .output, a⟩).type = (w₀.info ⟨p.dst, .input, b⟩).type)
include ho hd ha hb htype

/-- The ports of one kernel take the kernels of one group. -/
theorem joinFunc_returns {keys : List PortKey} (h : w₀.Filling w p.dst as bs ds w')
    (hlength : group.length = keys.length) (hdst : n.dst ∈ ds) (hname : n.srcName = p.srcName)
    (hgroup : group ⊆ groups.flatten) (hnodup : group.Nodup)
    (hnewa : ∀ c ∈ group, ⟨c, .output, a⟩ ∉ as) (hkeys : keys ⊆ (w₀.ports p.dst .input).keys)
    (hnodup' : keys.Nodup) (hnewb : ∀ key ∈ keys, ⟨n.dst, .input, key⟩ ∉ bs) :
    Returns (joinFunc keys group n) (fun n' w'' => n'.dst = n.dst ∧ n'.srcName = n.srcName ∧
      w₀.Filling w p.dst (as ++ ends .output [a] group) (bs ++ ends .input keys [n.dst]) ds w'') w' := by
  induction keys generalizing group n as bs w' with
  | nil =>
      obtain rfl : group = [] := List.length_eq_zero_iff.mp hlength
      exact returns_pure ⟨rfl, rfl, by simpa [ends_singleton] using h⟩
  | cons key keys ih =>
      cases group with
      | nil => cases hlength
      | cons c group =>
          obtain ⟨hc, hgroup'⟩ := List.cons_subset.mp hgroup
          obtain ⟨hkey, hkeys'⟩ := List.cons_subset.mp hkeys
          obtain ⟨hcnew, hnodupg⟩ := List.nodup_cons.mp hnodup
          obtain ⟨hkeynew, hnodupk⟩ := List.nodup_cons.mp hnodup'
          unfold joinFunc
          refine (h.connect (n := { n with src := c, dstName := key, hasDstName := true }) hd
            (ho.like c hc) (ho.free c hc a) (hname ▸ ha) hdst (hb key hkey) (htype key hkey)
            (hnewa c List.mem_cons_self) (hnewb key List.mem_cons_self)).bind fun _ w₁ h₁ => ?_
          refine (ih (n := { n with src := c, dstName := key, hasDstName := true }) h₁
            (Nat.succ.inj hlength) hdst hname hgroup' hnodupg (fun c' hc' hmem => ?_) hkeys' hnodupk
            fun key' hkey' hmem => ?_).conseq fun n' w₂ ⟨hn, hs, h₂⟩ => ⟨hn, hs, ?_⟩
          · rcases List.mem_append.mp hmem with hmem | hmem
            · exact hnewa c' (List.mem_cons_of_mem _ hc') hmem
            · obtain rfl : c' = c := by simpa using hmem
              exact hcnew hc'
          · rcases List.mem_append.mp hmem with hmem | hmem
            · exact hnewb key' (List.mem_cons_of_mem _ hkey') hmem
            · obtain rfl : key' = key := by simpa using hmem
              exact hkeynew hkey'
          · simpa [ends] using h₂

/-- The kernels of one group are joined. -/
theorem joinGroup_returns {done rest : Groups} (hgroups : groups = done ++ group :: rest)
    (hclone : 1 < groups.length → (w₀.kernel p.dst).cloneable = true)
    (h : JoinState w₀ w p a top done s w') (htop : 0 < top)
    (hlength : group.length = (w₀.ports p.dst .input).count) :
    Returns (joinGroup top s group) (JoinState w₀ w p a top (done ++ [group])) w' := by
  obtain ⟨T, t, hbatch, hT, hcount, hpos, hflat⟩ := h.newBatch htop
  have hnonempty : ∀ g ∈ T, g ≠ [] := by
    rintro g hg rfl
    rw [← hT [] hg] at htop
    exact Nat.lt_irrefl _ htop
  have hgroup : group ⊆ groups.flatten := fun c hc =>
    List.mem_flatten.mpr ⟨group, by rw [hgroups]; simp, hc⟩
  have hnodup := ho.nodup
  rw [hgroups, List.flatten_append, List.nodup_append, List.flatten_cons, List.nodup_append] at hnodup
  have hempty : (newBatch top s.1 s.2.tempGroups).2.firstEmpty = s.2.tempGroups.flatten.isEmpty := by
    rw [hbatch, Groups.firstEmpty_concat hnonempty, hflat]
  have hput (x : KernelId) : (Groups.emplaceBack (newBatch top s.1 s.2.tempGroups).2 x).flatten =
      s.2.tempGroups.flatten ++ [x] := by
    rw [hbatch, Groups.emplaceBack_concat, ← hflat]
    simp
  have hmore : s.2.tempGroups.flatten ≠ [] → (w₀.kernel p.dst).cloneable = true := by
    intro hds
    have hpos := List.length_pos_of_ne_nil hds
    rw [h.count] at hpos
    refine hclone ?_
    rw [hgroups, List.length_append, List.length_cons]
    omega
  unfold joinGroup
  simp only [hempty]
  refine (h.filling.take hd hmore h.dst).bind fun x w₁ ⟨hfill, hx⟩ => ?_
  refine returns_get.bind fun v w₂ hv => ?_
  obtain ⟨rfl, rfl⟩ := hv
  have hlike := hfill.alike x (by simp)
  rw [hlike.ports]
  refine (joinFunc_returns (n := { s.2.next with dst := x }) ho hd ha hb htype hfill hlength (by simp)
    h.srcName hgroup hnodup.2.1.1 (fun c hc hmem => ?_) (fun _ hkey => hkey)
    (w₀.ports p.dst .input).nodup fun key _ hmem => hx (mem_ends.mp hmem).1).bind
      fun n' w₃ ⟨hdst, hname, hfill'⟩ => returns_pure ⟨.inr ⟨T, t ++ [x], ?_, hT, by simp, ?_⟩, ?_, ?_,
        ?_, hname.trans h.srcName⟩
  · exact hnodup.2.2 c (mem_ends.mp hmem).1 c (List.mem_append_left _ hc) rfl
  · show Groups.emplaceBack _ x = _
    rw [hbatch, Groups.emplaceBack_concat]
  · show (t ++ [x]).length + decrement _ = top
    rw [decrement, if_neg hpos.ne', List.length_append, List.length_singleton]
    omega
  · show (Groups.emplaceBack _ x).flatten.length = _
    rw [hput, List.length_append, h.count, List.length_append]
    rfl
  · show w₀.Filling w p.dst _ (ends .input _ (Groups.emplaceBack _ x).flatten)
      (Groups.emplaceBack _ x).flatten w₃
    rw [hput, List.flatten_append, List.flatten_singleton, ends_append, ends_append]
    exact hfill'
  · show n'.dst = (Groups.emplaceBack _ x).flatten.getLastD p.dst
    rw [hput, List.getLastD_concat]
    exact hdst

/-- **`inline_join`** joins the kernels of each group in a copy of the destination. The copies are put
in groups of as many as the split that is closed had ports. -/
theorem inlineJoin_returns (hne : groups ≠ []) (htop : 0 < top)
    (hclone : 1 < groups.length → (w₀.kernel p.dst).cloneable = true) (edges : List Nat)
    (hlength : ∀ g ∈ groups, g.length = (w₀.ports p.dst .input).count) :
    Returns (inlineJoin (top :: edges) groups p) (fun r w' => r.1 = edges ∧
      Batched top r.2.tempGroups ∧ r.2.tempGroups.flatten.length = groups.length ∧
      w₀.Filling w p.dst (ends .output [a] groups.flatten)
        (ends .input (w₀.ports p.dst .input).keys r.2.tempGroups.flatten) r.2.tempGroups.flatten w')
      w := by
  have hstart : JoinState w₀ w p a top [] (0, { next := p }) w :=
    ⟨.inl ⟨rfl, rfl⟩, rfl, .start w₀ w p.dst, rfl, rfl⟩
  have hloop := Returns.foldlM (l := groups) (f := joinGroup top) (I := JoinState w₀ w p a top)
    (fun done group rest hgroups s w₁ hs => joinGroup_returns ho hd ha hb htype hgroups hclone hs htop
      (hlength group (by rw [hgroups]; simp))) hstart
  unfold inlineJoin
  refine hloop.bind fun s w' hs => returns_pure ⟨rfl, ?_, hs.count, hs.filling⟩
  rcases hs.groups with ⟨hnil, -⟩ | ⟨T, t, hT, hcounts, ht, hcount⟩
  · have hcounts := hs.count
    rw [hnil] at hcounts
    exact absurd (List.length_eq_zero_iff.mp hcounts.symm) hne
  · exact ⟨T, t, hT, hcounts, ht, by omega⟩

end Routines

end RaftLib.Graph
