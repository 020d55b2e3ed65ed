/-
# `RaftLib.Graph.Matching` -- the two ends of a connection agree

The invariant of a map under construction: what a port records as its other end records that port, has
its type and its order flag, and the kernels of a connection are in the keepers they belong in
(`World.Matched`). A call may end by an exception anywhere, so the invariant is carried along every
program, on both ways out, together with what a call never undoes (`World.Grows`): no kernel changes
its ports, and no connection is pointed somewhere else.

Inside `link` there is one point where the invariant does not hold, between `join` and `set_order`;
neither can throw there, so the two are taken as one write (`World.linked`).
-/
import RaftLib.Graph.Builder
import RaftLib.Logic.Steps

namespace RaftLib.Graph

open RaftLib.Logic.Program
open RaftLib.Logic.Steps

/-! ## Connections -/

def Side.opposite : Side → Side
  | .input => .output
  | .output => .input

namespace World

/-- There is such a port. -/
def IsPort (w : World) (r : PortRef) : Prop :=
  r.kernel < w.next ∧ r.key ∈ (w.ports r.kernel r.side).keys

/-- The port that `r` records as its other end. -/
def other (w : World) (r : PortRef) : Option PortRef :=
  (w.info r).otherKernel.map fun k => ⟨k, r.side.opposite, (w.info r).otherName⟩

theorem other_eq_none {w : World} {r : PortRef} : w.other r = none ↔ (w.info r).otherKernel = none := by
  simp [other]

theorem other_side {w : World} {r r' : PortRef} (h : w.other r = some r') :
    r'.side = r.side.opposite := by
  obtain ⟨k, -, rfl⟩ := Option.map_eq_some_iff.mp h
  rfl

/-- The invariant of a map under construction. -/
structure Matched (w : World) : Prop where
  symm : ∀ r r', w.IsPort r → w.other r = some r' → w.IsPort r' ∧ w.other r' = some r
  type : ∀ r r', w.IsPort r → w.other r = some r' → (w.info r').type = (w.info r).type
  order : ∀ r r', w.IsPort r → w.other r = some r' → (w.info r').outOfOrder = (w.info r).outOfOrder
  all : ∀ r r', w.IsPort r → w.other r = some r' → r.kernel ∈ w.allKernels
  source : ∀ k ∈ w.sourceKernels, k < w.next ∧ (w.ports k .input).hasPorts = false
  dst : ∀ k ∈ w.dstKernels, k < w.next ∧ (w.ports k .output).hasPorts = false
  sourceOf : ∀ r r', w.IsPort r → w.other r = some r' → r.side = .output →
    (w.ports r.kernel .input).hasPorts = false → r.kernel ∈ w.sourceKernels
  dstOf : ∀ r r', w.IsPort r → w.other r = some r' → r.side = .input →
    (w.ports r.kernel .output).hasPorts = false → r.kernel ∈ w.dstKernels

/-- A connected port is not a free one. -/
theorem ne_of_other {w : World} {a r r' : PortRef} (ho : w.other r = some r') (ha : w.other a = none) :
    r ≠ a := by
  rintro rfl
  rw [ho] at ha
  cases ha

/-- Nor does a connection end at a free port. -/
theorem Matched.ne_of_free {w : World} {a r r' : PortRef} (h : w.Matched) (hr : w.IsPort r)
    (ho : w.other r = some r') (ha : w.other a = none) : r' ≠ a :=
  ne_of_other (h.symm r r' hr ho).2 ha

/-- What no call undoes. -/
structure Grows (w w' : World) : Prop where
  next : w.next ≤ w'.next
  ports : ∀ k, k < w.next → ∀ s, w'.ports k s = w.ports k s
  other : ∀ r r', r.kernel < w.next → w.other r = some r' → w'.other r = some r'

theorem Grows.refl (w : World) : w.Grows w := ⟨Nat.le_refl _, fun _ _ _ => rfl, fun _ _ _ h => h⟩

theorem Grows.trans {w w' w'' : World} (h : w.Grows w') (h' : w'.Grows w'') : w.Grows w'' :=
  ⟨h.next.trans h'.next,
    fun k hk s => (h'.ports k (hk.trans_le h.next) s).trans (h.ports k hk s),
    fun r r' hr ho => h'.other r r' (hr.trans_le h.next) (h.other r r' hr ho)⟩

/-- What every call does: it undoes nothing, and keeps a matched map matched. -/
def Evolves (w w' : World) : Prop := w.Grows w' ∧ (w.Matched → w'.Matched)

theorem Evolves.refl (w : World) : w.Evolves w := ⟨.refl w, id⟩

theorem Evolves.trans (w w' w'' : World) (h : w.Evolves w') (h' : w'.Evolves w'') : w.Evolves w'' :=
  ⟨h.1.trans h'.1, h'.2 ∘ h.2⟩

/-! ## The writes of `link` -/

variable {w : World}

/-- Two states in which the ports record the same. -/
structure SameEnds (w w' : World) : Prop where
  next : w'.next = w.next
  ports : w'.ports = w.ports
  other : ∀ r, w'.other r = w.other r
  type : ∀ r, (w'.info r).type = (w.info r).type
  order : ∀ r, (w'.info r).outOfOrder = (w.info r).outOfOrder

theorem SameEnds.trans {w' w'' : World} (h : w.SameEnds w') (h' : w'.SameEnds w'') : w.SameEnds w'' :=
  ⟨h'.next.trans h.next, h'.ports.trans h.ports, fun r => (h'.other r).trans (h.other r),
    fun r => (h'.type r).trans (h.type r), fun r => (h'.order r).trans (h.order r)⟩

theorem SameEnds.grows {w' : World} (h : w.SameEnds w') : w.Grows w' :=
  ⟨h.next.ge, fun k _ s => by rw [h.ports], fun r r' _ ho => (h.other r).trans ho⟩

theorem SameEnds.isPort {w' : World} (h : w.SameEnds w') {r : PortRef} : w'.IsPort r ↔ w.IsPort r := by
  rw [IsPort, IsPort, h.next, h.ports]

/-- A map stays matched while the keepers take in kernels that belong there. -/
theorem SameEnds.matched {w' : World} (h : w.SameEnds w') (hm : w.Matched)
    (hall : w.allKernels ⊆ w'.allKernels) (hsource : w.sourceKernels ⊆ w'.sourceKernels)
    (hdst : w.dstKernels ⊆ w'.dstKernels)
    (hs : ∀ k ∈ w'.sourceKernels, k < w.next ∧ (w.ports k .input).hasPorts = false)
    (hd : ∀ k ∈ w'.dstKernels, k < w.next ∧ (w.ports k .output).hasPorts = false) : w'.Matched := by
  have hback : ∀ r r', w'.IsPort r → w'.other r = some r' → w.IsPort r ∧ w.other r = some r' :=
    fun r r' hr ho => ⟨h.isPort.mp hr, (h.other r).symm.trans ho⟩
  refine ⟨fun r r' hr ho => ?_, fun r r' hr ho => ?_, fun r r' hr ho => ?_, fun r r' hr ho => ?_,
    fun k hk => ?_, fun k hk => ?_, fun r r' hr ho hside hp => ?_, fun r r' hr ho hside hp => ?_⟩
  · obtain ⟨hr, ho⟩ := hback r r' hr ho
    rw [h.isPort, h.other]
    exact hm.symm r r' hr ho
  · obtain ⟨hr, ho⟩ := hback r r' hr ho
    rw [h.type, h.type]
    exact hm.type r r' hr ho
  · obtain ⟨hr, ho⟩ := hback r r' hr ho
    rw [h.order, h.order]
    exact hm.order r r' hr ho
  · obtain ⟨hr, ho⟩ := hback r r' hr ho
    exact hall (hm.all r r' hr ho)
  · rw [h.next, h.ports]
    exact hs k hk
  · rw [h.next, h.ports]
    exact hd k hk
  · obtain ⟨hr, ho⟩ := hback r r' hr ho
    rw [h.ports] at hp
    exact hsource (hm.sourceOf r r' hr ho hside hp)
  · obtain ⟨hr, ho⟩ := hback r r' hr ho
    rw [h.ports] at hp
    exact hdst (hm.dstOf r r' hr ho hside hp)

/-- The keepers have the two kernels of a link. -/
structure Known (w : World) (a b : KernelId) : Prop where
  src : a ∈ w.allKernels
  dst : b ∈ w.allKernels
  source : (w.ports a .input).hasPorts = false → a ∈ w.sourceKernels
  sink : (w.ports b .output).hasPorts = false → b ∈ w.dstKernels

theorem sameEnds_withKernels (a b : KernelId) : w.SameEnds (w.withKernels a b) :=
  ⟨rfl, rfl, fun _ => rfl, fun _ => rfl, fun _ => rfl⟩

theorem known_withKernels (a b : KernelId) : (w.withKernels a b).Known a b := by
  refine ⟨by simp [withKernels], by simp [withKernels], fun h => ?_, fun h => ?_⟩
  · have h' : (w.ports a .input).hasPorts = false := h
    simp [withKernels, h']
  · have h' : (w.ports b .output).hasPorts = false := h
    simp [withKernels, h']

/-- No kernel is lost from a keeper. -/
structure KeepsKernels (w w' : World) : Prop where
  source : w.sourceKernels ⊆ w'.sourceKernels
  dst : w.dstKernels ⊆ w'.dstKernels
  all : w.allKernels ⊆ w'.allKernels
  internallyCreated : w.internallyCreatedKernels ⊆ w'.internallyCreatedKernels

theorem keepsKernels_withKernels (a b : KernelId) : w.KeepsKernels (w.withKernels a b) := by
  have hif {s : Finset KernelId} (c : Bool) (k : KernelId) : s ⊆ if c then insert k s else s := by
    split
    · exact Finset.subset_insert k s
    · exact Finset.Subset.refl s
  exact ⟨hif _ a, hif _ b, (Finset.subset_insert a _).trans (Finset.subset_insert b _),
    (hif _ a).trans (hif _ b)⟩

theorem evolves_withKernels {a b : KernelId} (ha : a < w.next) (hb : b < w.next) :
    w.Evolves (w.withKernels a b) := by
  have hkeeps := keepsKernels_withKernels (w := w) a b
  refine ⟨(sameEnds_withKernels a b).grows, fun hm => (sameEnds_withKernels a b).matched hm hkeeps.all
    hkeeps.source hkeeps.dst (fun k hk => ?_) (fun k hk => ?_)⟩
  · simp only [withKernels] at hk
    split at hk
    · next h =>
        rcases Finset.mem_insert.mp hk with rfl | hk
        · exact ⟨ha, by simpa using h⟩
        · exact hm.source k hk
    · exact hm.source k hk
  · simp only [withKernels] at hk
    split at hk
    · next h =>
        rcases Finset.mem_insert.mp hk with rfl | hk
        · exact ⟨hb, by simpa using h⟩
        · exact hm.dst k hk
    · exact hm.dst k hk

/-- The map with a buffer size written to the ports. -/
def sized (w : World) (buffer : Nat) (rs : List PortRef) : World :=
  rs.foldl (fun w r => w.setInfo r { w.info r with fixedBufferSize := buffer }) w

section Sized

variable (w : World) (buffer : Nat) (rs : List PortRef)

@[simp] theorem sized_kernel : (w.sized buffer rs).kernel = w.kernel := by
  induction rs generalizing w with
  | nil => rfl
  | cons r rs ih => exact ih _

@[simp] theorem sized_next : (w.sized buffer rs).next = w.next := by
  induction rs generalizing w with
  | nil => rfl
  | cons r rs ih => exact ih _

/-- The keepers are left as they are. -/
theorem sized_keepers : (w.sized buffer rs).sourceKernels = w.sourceKernels ∧
    (w.sized buffer rs).dstKernels = w.dstKernels ∧ (w.sized buffer rs).allKernels = w.allKernels ∧
    (w.sized buffer rs).internallyCreatedKernels = w.internallyCreatedKernels := by
  induction rs generalizing w with
  | nil => exact ⟨rfl, rfl, rfl, rfl⟩
  | cons r rs ih => exact ih _

theorem sized_info (q : PortRef) : (w.sized buffer rs).info q =
    if q ∈ rs then { w.info q with fixedBufferSize := buffer } else w.info q := by
  induction rs generalizing w with
  | nil => rfl
  | cons r rs ih =>
      show ((w.setInfo r { w.info r with fixedBufferSize := buffer }).sized buffer rs).info q = _
      rw [ih]
      by_cases hqr : q = r
      · subst hqr
        simp
      · rw [setInfo_info_of_ne _ _ _ hqr]
        simp [hqr]

theorem sameEnds_sized : w.SameEnds (w.sized buffer rs) := by
  refine ⟨sized_next .., ?_, fun q => ?_, fun q => ?_, fun q => ?_⟩
  · funext k s
    rw [ports, sized_kernel]
    rfl
  · rw [other, sized_info]
    split <;> rfl
  · rw [sized_info]
    split <;> rfl
  · rw [sized_info]
    split <;> rfl

theorem evolves_sized : w.Evolves (w.sized buffer rs) := by
  obtain ⟨hsource, hdst, hall, -⟩ := sized_keepers w buffer rs
  refine ⟨(sameEnds_sized w buffer rs).grows, fun hm => (sameEnds_sized w buffer rs).matched hm
    hall.ge hsource.ge hdst.ge (fun k hk => hm.source k (hsource ▸ hk)) fun k hk => hm.dst k (hdst ▸ hk)⟩

theorem Known.sized {a b : KernelId} (h : w.Known a b) : (w.sized buffer rs).Known a b := by
  obtain ⟨hsource, hdst, hall, -⟩ := sized_keepers w buffer rs
  have hports := (sameEnds_sized w buffer rs).ports
  refine ⟨hall ▸ h.src, hall ▸ h.dst, fun hp => ?_, fun hp => ?_⟩
  · rw [hports] at hp
    exact hsource ▸ h.source hp
  · rw [hports] at hp
    exact hdst ▸ h.sink hp

end Sized

/-- `join` and `set_order` together. -/
def linked (w : World) (t : Order) (a b : PortRef) : World :=
  (w.setInfo a { w.info a with
    otherKernel := some b.kernel, otherName := b.key, outOfOrder := decide (t = .out) }).setInfo b
    { w.info b with otherKernel := some a.kernel, otherName := a.key, outOfOrder := decide (t = .out) }

section Linked

variable {t : Order} {a b : PortRef}

theorem linked_info_src (hne : a ≠ b) : (w.linked t a b).info a = { w.info a with
    otherKernel := some b.kernel, otherName := b.key, outOfOrder := decide (t = .out) } := by
  rw [linked, setInfo_info_of_ne _ _ _ hne, setInfo_info_self]

theorem linked_info_dst : (w.linked t a b).info b = { w.info b with
    otherKernel := some a.kernel, otherName := a.key, outOfOrder := decide (t = .out) } := by
  rw [linked, setInfo_info_self]

theorem linked_info_of_ne {r : PortRef} (ha : r ≠ a) (hb : r ≠ b) :
    (w.linked t a b).info r = w.info r := by
  rw [linked, setInfo_info_of_ne _ _ _ hb, setInfo_info_of_ne _ _ _ ha]

theorem linked_other_of_ne {r : PortRef} (ha : r ≠ a) (hb : r ≠ b) :
    (w.linked t a b).other r = w.other r := by
  rw [other, linked_info_of_ne ha hb, other]

variable (hsa : a.side = .output) (hsb : b.side = .input)
include hsa hsb

theorem ports_ne : a ≠ b := by
  rintro rfl
  rw [hsa] at hsb
  cases hsb

theorem linked_other_src : (w.linked t a b).other a = some b := by
  rw [other, linked_info_src (ports_ne hsa hsb)]
  cases b
  cases hsb
  simp [hsa, Side.opposite]

theorem linked_other_dst : (w.linked t a b).other b = some a := by
  rw [other, linked_info_dst]
  cases a
  cases hsa
  simp [hsb, Side.opposite]

/-- A connection of the new state is the new one, from either end, or an old one. -/
theorem linked_cases {r r' : PortRef} (ho : (w.linked t a b).other r = some r') :
    (r = a ∧ r' = b) ∨ (r = b ∧ r' = a) ∨ (r ≠ a ∧ r ≠ b ∧ w.other r = some r') := by
  by_cases hra : r = a
  · rw [hra, linked_other_src hsa hsb] at ho
    exact .inl ⟨hra, (Option.some_inj.mp ho).symm⟩
  · by_cases hrb : r = b
    · rw [hrb, linked_other_dst hsa hsb] at ho
      exact .inr (.inl ⟨hrb, (Option.some_inj.mp ho).symm⟩)
    · rw [linked_other_of_ne hra hrb] at ho
      exact .inr (.inr ⟨hra, hrb, ho⟩)

/-- **A connection between two free ports** of one type keeps a map matched. -/
theorem evolves_linked (ha : w.IsPort a) (hb : w.IsPort b) (hfa : w.other a = none)
    (hfb : w.other b = none) (htype : (w.info a).type = (w.info b).type)
    (hknown : w.Known a.kernel b.kernel) : w.Evolves (w.linked t a b) := by
  have hab := ports_ne hsa hsb
  refine ⟨⟨Nat.le_refl _, fun _ _ _ => rfl, fun r r' _ ho => ?_⟩, fun hm => ?_⟩
  · rw [linked_other_of_ne (ne_of_other ho hfa) (ne_of_other ho hfb), ho]
  have hfree {r r' : PortRef} (hr : w.IsPort r) (ho : w.other r = some r') : r' ≠ a ∧ r' ≠ b :=
    ⟨hm.ne_of_free hr ho hfa, hm.ne_of_free hr ho hfb⟩
  refine ⟨fun r r' hr ho => ?_, fun r r' hr ho => ?_, fun r r' hr ho => ?_, fun r r' hr ho => ?_,
    hm.source, hm.dst, fun r r' hr ho hside hp => ?_, fun r r' hr ho hside hp => ?_⟩
  · rcases linked_cases hsa hsb ho with ⟨rfl, rfl⟩ | ⟨rfl, rfl⟩ | ⟨hra, hrb, ho⟩
    · exact ⟨hb, linked_other_dst hsa hsb⟩
    · exact ⟨ha, linked_other_src hsa hsb⟩
    · obtain ⟨hra', hrb'⟩ := hfree hr ho
      rw [linked_other_of_ne hra' hrb']
      exact hm.symm r r' hr ho
  · rcases linked_cases hsa hsb ho with ⟨rfl, rfl⟩ | ⟨rfl, rfl⟩ | ⟨hra, hrb, ho⟩
    · rw [linked_info_dst, linked_info_src hab]
      exact htype.symm
    · rw [linked_info_dst, linked_info_src hab]
      exact htype
    · obtain ⟨hra', hrb'⟩ := hfree hr ho
      rw [linked_info_of_ne hra' hrb', linked_info_of_ne hra hrb]
      exact hm.type r r' hr ho
  · rcases linked_cases hsa hsb ho with ⟨rfl, rfl⟩ | ⟨rfl, rfl⟩ | ⟨hra, hrb, ho⟩
    · rw [linked_info_dst, linked_info_src hab]
    · rw [linked_info_dst, linked_info_src hab]
    · obtain ⟨hra', hrb'⟩ := hfree hr ho
      rw [linked_info_of_ne hra' hrb', linked_info_of_ne hra hrb]
      exact hm.order r r' hr ho
  · rcases linked_cases hsa hsb ho with ⟨rfl, rfl⟩ | ⟨rfl, rfl⟩ | ⟨-, -, ho⟩
    · exact hknown.src
    · exact hknown.dst
    · exact hm.all r r' hr ho
  · rcases linked_cases hsa hsb ho with ⟨rfl, rfl⟩ | ⟨rfl, rfl⟩ | ⟨-, -, ho⟩
    · exact hknown.source hp
    · rw [hsb] at hside
      cases hside
    · exact hm.sourceOf r r' hr ho hside hp
  · rcases linked_cases hsa hsb ho with ⟨rfl, rfl⟩ | ⟨rfl, rfl⟩ | ⟨-, -, ho⟩
    · rw [hsa] at hside
      cases hside
    · exact hknown.sink hp
    · exact hm.dstOf r r' hr ho hside hp

end Linked

/-! ## The write of `clone` -/

theorem evolves_withClone (k : KernelId) : w.Evolves (w.withClone k) := by
  have hfresh : ∀ r : PortRef, r.kernel = w.next → (w.withClone k).other r = none := fun r hr => by
    rw [other, withClone_info_self w k hr]
    rfl
  have hold : ∀ r : PortRef, r.kernel ≠ w.next → (w.withClone k).other r = w.other r := fun r hr => by
    rw [other, withClone_info_of_ne w k hr, other]
  have hback : ∀ r r', (w.withClone k).IsPort r → (w.withClone k).other r = some r' →
      r.kernel ≠ w.next ∧ w.IsPort r ∧ w.other r = some r' := by
    intro r r' hr ho
    by_cases hk : r.kernel = w.next
    · rw [hfresh r hk] at ho
      cases ho
    · refine ⟨hk, ⟨Nat.lt_of_le_of_ne (Nat.lt_succ_iff.mp hr.1) hk, ?_⟩, hold r hk ▸ ho⟩
      exact withClone_ports_of_ne w k hk r.side ▸ hr.2
  refine ⟨⟨Nat.le_succ _, fun j hj s => withClone_ports_of_ne w k hj.ne s,
    fun r r' hr ho => (hold r hr.ne).trans ho⟩, fun hm => ?_⟩
  refine ⟨fun r r' hr ho => ?_, fun r r' hr ho => ?_, fun r r' hr ho => ?_, fun r r' hr ho => ?_,
    fun j hj => ?_, fun j hj => ?_, fun r r' hr ho hside hp => ?_, fun r r' hr ho hside hp => ?_⟩
  · obtain ⟨-, hr, ho⟩ := hback r r' hr ho
    obtain ⟨hr', ho'⟩ := hm.symm r r' hr ho
    have hk' := hr'.1.ne
    refine ⟨⟨Nat.lt_succ_of_lt hr'.1, ?_⟩, (hold r' hk').trans ho'⟩
    rw [withClone_ports_of_ne w k hk']
    exact hr'.2
  · obtain ⟨hk, hr, ho⟩ := hback r r' hr ho
    rw [withClone_info_of_ne w k hk, withClone_info_of_ne w k (hm.symm r r' hr ho).1.1.ne]
    exact hm.type r r' hr ho
  · obtain ⟨hk, hr, ho⟩ := hback r r' hr ho
    rw [withClone_info_of_ne w k hk, withClone_info_of_ne w k (hm.symm r r' hr ho).1.1.ne]
    exact hm.order r r' hr ho
  · obtain ⟨-, hr, ho⟩ := hback r r' hr ho
    exact hm.all r r' hr ho
  · obtain ⟨hlt, hp⟩ := hm.source j hj
    rw [withClone_ports_of_ne w k hlt.ne]
    exact ⟨Nat.lt_succ_of_lt hlt, hp⟩
  · obtain ⟨hlt, hp⟩ := hm.dst j hj
    rw [withClone_ports_of_ne w k hlt.ne]
    exact ⟨Nat.lt_succ_of_lt hlt, hp⟩
  · obtain ⟨hk, hr, ho⟩ := hback r r' hr ho
    rw [withClone_ports_of_ne w k hk] at hp
    exact hm.sourceOf r r' hr ho hside hp
  · obtain ⟨hk, hr, ho⟩ := hback r r' hr ho
    rw [withClone_ports_of_ne w k hk] at hp
    exact hm.dstOf r r' hr ho hside hp

/-! ## The calls -/

/-- The port that `link` finds on a kernel: the one of that name, or the only one. -/
def found (w : World) (k : KernelId) (s : Side) (port : PortKey) : Option PortRef :=
  if port = nullPortValue then
    match (w.ports k s).keys with
    | [key] => some ⟨k, s, key⟩
    | _ => none
  else if port ∈ (w.ports k s).keys then some ⟨k, s, port⟩ else none

/-- The ports that `link` finds; without the first it does not look for the second. -/
def foundPorts (w : World) (a : KernelId) (aPort : PortKey) (b : KernelId) (bPort : PortKey) :
    List PortRef :=
  match w.found a .output aPort with
  | some ra => ra :: (w.found b .input bPort).toList
  | none => []

/-- A port that is found is there. -/
theorem found_spec {k : KernelId} {s : Side} {port : PortKey} {r : PortRef} (h : w.found k s port = some r) :
    r.kernel = k ∧ r.side = s ∧ r.key ∈ (w.ports k s).keys := by
  unfold found at h
  split at h
  · split at h
    · next key hkeys =>
        obtain rfl := Option.some_inj.mp h
        exact ⟨rfl, rfl, by rw [hkeys]; exact List.mem_singleton_self _⟩
    · cases h
  · split at h
    · next hmem =>
        obtain rfl := Option.some_inj.mp h
        exact ⟨rfl, rfl, hmem⟩
    · cases h

end World


section Calls

variable {w : World}

/-- `getPortInfo` finds the one port there is, and writes nothing. -/
theorem getPortInfo_run (k : KernelId) (s : Side) :
    (∃ key, (w.ports k s).keys = [key] ∧ (getPortInfo k s).run w = .ok ⟨k, s, key⟩ w) ∨
      ∃ e, (getPortInfo k s).run w = .error e w := by
  cases hkeys : (w.ports k s).keys with
  | nil => exact .inr ⟨_, by simp [getPortInfo, hkeys]; rfl⟩
  | cons key keys =>
      cases keys with
      | nil => exact .inl ⟨key, rfl, by simp [getPortInfo, hkeys]⟩
      | cons _ _ => exact .inr ⟨_, by simp [getPortInfo, hkeys]; rfl⟩

/-- A port that is found is returned, and nothing is written on the way. -/
theorem discover_found {k : KernelId} {s : Side} {port : PortKey} {r : PortRef} (src : Bool)
    (h : w.found k s port = some r) : (discover src k s port).run w = .ok r w := by
  unfold World.found at h
  unfold discover
  by_cases hnull : port = nullPortValue
  · rw [if_pos hnull] at h ⊢
    split at h
    · next key hkeys =>
        obtain rfl := Option.some_inj.mp h
        refine run_tryCatch_of_ok ?_
        simp [getPortInfo, hkeys]
    · cases h
  · rw [if_neg hnull] at h ⊢
    by_cases hmem : port ∈ (w.ports k s).keys
    · rw [if_pos hmem] at h
      obtain rfl := Option.some_inj.mp h
      simp [getPortInfoFor, hmem]
    · rw [if_neg hmem] at h
      cases h

/-- A port that is not found throws, and nothing is written either. -/
theorem discover_not_found {k : KernelId} {s : Side} {port : PortKey} (src : Bool)
    (h : w.found k s port = none) : ∃ e, (discover src k s port).run w = .error e w := by
  unfold World.found at h
  unfold discover
  by_cases hnull : port = nullPortValue
  · rw [if_pos hnull] at h ⊢
    rcases getPortInfo_run (w := w) k s with ⟨key, hkeys, -⟩ | ⟨e, hrun⟩
    · rw [hkeys] at h
      cases h
    · rw [run_tryCatch_of_error hrun]
      unfold portNotFound
      cases e with
      | ambiguousPortAssignment what => cases src <;> exact ⟨_, rfl⟩
      | _ => exact ⟨_, rfl⟩
  · rw [if_neg hnull] at h ⊢
    by_cases hmem : port ∈ (w.ports k s).keys
    · rw [if_pos hmem] at h
      cases h
    · exact ⟨_, by simp [getPortInfoFor, hmem]; rfl⟩

/-- What `join` and `set_order` come to. -/
theorem setOrder_joined {t : Order} {a b : PortRef} (hne : a ≠ b) :
    (setOrder t a b).run (w.joined a b) = .ok ⟨⟩ (w.linked t a b) := by
  show EStateM.Result.ok PUnit.unit _ = _
  simp only [World.joined, World.linked, World.setInfo_info_self, World.setInfo_info_of_ne _ _ _ hne,
    World.setInfo_info_of_ne _ _ _ hne.symm, World.setInfo_comm _ _ _ hne.symm,
    World.setInfo_setInfo]

/-- `join` writes exactly if both ports are free and of one type. -/
theorem join_run (a b : PortRef) :
    (¬((w.info a).type = (w.info b).type ∧ w.other a = none ∧ w.other b = none) ∧
      ∃ e, (join a b).run w = .error e w) ∨
    ((w.info a).type = (w.info b).type ∧ w.other a = none ∧ w.other b = none) ∧
      (join a b).run w = .ok ⟨⟩ (w.joined a b) := by
  simp only [World.other_eq_none]
  by_cases htype : (w.info a).type = (w.info b).type
  · by_cases ha : (w.info a).otherKernel = none
    · by_cases hb : (w.info b).otherKernel = none
      · exact .inr ⟨⟨htype, ha, hb⟩, by simp [join, htype, ha, hb]⟩
      · refine .inl ⟨fun h => hb h.2.2, .portDoubleInitialize "port double initialized with: ", ?_⟩
        simp [join, htype, ha, hb]
    · refine .inl ⟨fun h => ha h.2.1, .portDoubleInitialize "port double initialized with: ", ?_⟩
      simp [join, htype, ha]
  · exact .inl ⟨fun h => htype h.1, by simp [join, htype]⟩

/-- On two ports that are found, `link` comes to `join` with the kernels entered and the sizes written. -/
theorem link_found {t : Order} {a b : KernelId} {aPort bPort : PortKey} {buffer : Nat} {ra rb : PortRef}
    (ha : w.found a .output aPort = some ra) (hb : w.found b .input bPort = some rb) :
    (link t a aPort b bPort buffer).run w = (join ra rb >>= fun _ => setOrder t ra rb >>= fun _ =>
      pure { source := [a], destination := [b] }).run ((w.withKernels a b).sized buffer [ra, rb]) := by
  have hupdate : (updateKernels a b).run w = .ok ⟨⟩ (w.withKernels a b) := rfl
  have hsize : (setFixedBufferSize ra buffer).run (w.withKernels a b) =
    .ok ⟨⟩ ((w.withKernels a b).sized buffer [ra]) := rfl
  have hsize' : (setFixedBufferSize rb buffer).run ((w.withKernels a b).sized buffer [ra]) =
    .ok ⟨⟩ ((w.withKernels a b).sized buffer [ra, rb]) := rfl
  unfold link
  rw [run_bind_of_ok hupdate, run_bind_of_ok (discover_found (w := w.withKernels a b) true ha),
    run_bind_of_ok hsize,
    run_bind_of_ok (discover_found (w := (w.withKernels a b).sized buffer [ra]) false hb),
    run_bind_of_ok hsize']

/-- If they are free and of one type, they are connected. -/
theorem link_ok {t : Order} {a b : KernelId} {aPort bPort : PortKey} {buffer : Nat} {ra rb : PortRef}
    (ha : w.found a .output aPort = some ra) (hb : w.found b .input bPort = some rb)
    (htype : (w.info ra).type = (w.info rb).type) (hfa : w.other ra = none) (hfb : w.other rb = none) :
    (link t a aPort b bPort buffer).run w = .ok { source := [a], destination := [b] }
      (((w.withKernels a b).sized buffer [ra, rb]).linked t ra rb) := by
  let w₂ := (w.withKernels a b).sized buffer [ra, rb]
  have hsame : w.SameEnds w₂ :=
    (World.sameEnds_withKernels a b).trans (World.sameEnds_sized (w.withKernels a b) buffer [ra, rb])
  have hset : (setOrder t ra rb).run (w₂.joined ra rb) = .ok ⟨⟩ (w₂.linked t ra rb) :=
    setOrder_joined (World.ports_ne (World.found_spec ha).2.1 (World.found_spec hb).2.1)
  rw [link_found ha hb]
  rcases join_run (w := w₂) ra rb with ⟨hnot, -⟩ | ⟨-, hrun⟩
  · refine absurd ⟨?_, ?_, ?_⟩ hnot
    · rw [hsame.type, hsame.type, htype]
    · rw [hsame.other, hfa]
    · rw [hsame.other, hfb]
  · rw [run_bind_of_ok hrun, run_bind_of_ok hset]
    rfl

/-- **What a call of `link` does.** The kernels are entered, the buffer size is written to each port as it
is found, and the two ports are connected; the call throws at a port that is not found, and where `join`
does, with what has been written by then. -/
theorem link_run (t : Order) (a : KernelId) (aPort : PortKey) (b : KernelId) (bPort : PortKey)
    (buffer : Nat) :
    (∃ e, (link t a aPort b bPort buffer).run w =
      .error e ((w.withKernels a b).sized buffer (w.foundPorts a aPort b bPort))) ∨
    ∃ ra rb, w.found a .output aPort = some ra ∧ w.found b .input bPort = some rb ∧
      (w.info ra).type = (w.info rb).type ∧ w.other ra = none ∧ w.other rb = none ∧
      (link t a aPort b bPort buffer).run w = .ok { source := [a], destination := [b] }
        (((w.withKernels a b).sized buffer [ra, rb]).linked t ra rb) := by
  have hupdate : (updateKernels a b).run w = .ok ⟨⟩ (w.withKernels a b) := rfl
  unfold World.foundPorts
  cases ha : w.found a .output aPort with
  | none =>
      obtain ⟨e, hrun⟩ := discover_not_found (w := w.withKernels a b) true ha
      refine .inl ⟨e, ?_⟩
      unfold link
      rw [run_bind_of_ok hupdate]
      exact run_bind_of_error hrun
  | some ra =>
      cases hb : w.found b .input bPort with
      | none =>
          obtain ⟨e, hrun⟩ := discover_not_found (w := (w.withKernels a b).sized buffer [ra]) false hb
          have hsize : (setFixedBufferSize ra buffer).run (w.withKernels a b) =
            .ok ⟨⟩ ((w.withKernels a b).sized buffer [ra]) := rfl
          refine .inl ⟨e, ?_⟩
          unfold link
          rw [run_bind_of_ok hupdate, run_bind_of_ok (discover_found (w := w.withKernels a b) true ha),
            run_bind_of_ok hsize]
          exact run_bind_of_error hrun
      | some rb =>
          rcases join_run (w := (w.withKernels a b).sized buffer [ra, rb]) ra rb with
            ⟨-, e, hrun⟩ | ⟨⟨htype, hfa, hfb⟩, -⟩
          · rw [link_found ha hb]
            exact .inl ⟨e, run_bind_of_error hrun⟩
          · have hsame := (World.sameEnds_withKernels (w := w) a b).trans
              (World.sameEnds_sized (w.withKernels a b) buffer [ra, rb])
            rw [hsame.type, hsame.type] at htype
            rw [hsame.other] at hfa hfb
            exact .inr ⟨ra, rb, rfl, rfl, htype, hfa, hfb, link_ok ha hb htype hfa hfb⟩

/-- What holds along the writes of `link` holds along `link`, whichever way it ends. -/
theorem along_link {R : World → World → Prop} {t : Order} {a b : KernelId} {aPort bPort : PortKey}
    {buffer : Nat} (htrans : ∀ w w' w'', R w w' → R w' w'' → R w w'')
    (hsized : ∀ rs, R w ((w.withKernels a b).sized buffer rs))
    (hlinked : ∀ ra rb w', w.found a .output aPort = some ra → w.found b .input bPort = some rb →
      R w' (w'.linked t ra rb)) :
    Along R (link t a aPort b bPort buffer) (fun _ _ => True) w := by
  rcases link_run (w := w) t a aPort b bPort buffer with ⟨e, hrun⟩ | ⟨ra, rb, hra, hrb, -, -, -, hrun⟩
  · rw [Along, hrun]
    exact hsized _
  · rw [Along, hrun]
    exact ⟨htrans _ _ _ (hsized [ra, rb]) (hlinked ra rb _ hra hrb), trivial⟩

/-- **`link` keeps a map matched**, whichever way it ends. -/
theorem link_along {a b : KernelId} (ha : a < w.next) (hb : b < w.next) (t : Order)
    (aPort bPort : PortKey) (buffer : Nat) :
    Along World.Evolves (link t a aPort b bPort buffer) (fun _ _ => True) w := by
  have hentered := World.evolves_withKernels ha hb
  rcases link_run (w := w) t a aPort b bPort buffer with
    ⟨e, hrun⟩ | ⟨ra, rb, hra, hrb, htype, hfa, hfb, hrun⟩
  · rw [Along, hrun]
    exact .trans _ _ _ hentered (World.evolves_sized ..)
  · rw [Along, hrun]
    obtain ⟨rfl, hsa, hka⟩ := World.found_spec hra
    obtain ⟨rfl, hsb, hkb⟩ := World.found_spec hrb
    let w₁ := w.withKernels ra.kernel rb.kernel
    have hsame : w.SameEnds (w₁.sized buffer [ra, rb]) :=
      (World.sameEnds_withKernels _ _).trans (World.sameEnds_sized w₁ buffer [ra, rb])
    refine ⟨.trans _ _ _ hentered (.trans _ _ _ (World.evolves_sized w₁ buffer [ra, rb])
      (World.evolves_linked hsa hsb ?_ ?_ ?_ ?_ ?_ ?_)), trivial⟩
    · exact hsame.isPort.mpr ⟨ha, hsa ▸ hka⟩
    · exact hsame.isPort.mpr ⟨hb, hsb ▸ hkb⟩
    · rw [hsame.other, hfa]
    · rw [hsame.other, hfb]
    · rw [hsame.type, hsame.type, htype]
    · exact (World.known_withKernels ra.kernel rb.kernel).sized w₁ buffer [ra, rb]

/-- `clone` makes a copy of a kernel that has overridden it. -/
theorem clone_run (k : KernelId) :
    (w.kernel k).cloneable = true ∧ (clone k).run w = .ok w.next (w.withClone k) ∨
      (w.kernel k).cloneable = false ∧ ∃ e, (clone k).run w = .error e w := by
  unfold clone
  cases hc : (w.kernel k).cloneable with
  | true => exact .inl ⟨rfl, by simp [hc]⟩
  | false => exact .inr ⟨rfl, _, by simp [hc]; rfl⟩

theorem clone_ok {k : KernelId} (h : (w.kernel k).cloneable = true) :
    (clone k).run w = .ok w.next (w.withClone k) := by
  rcases clone_run (w := w) k with ⟨-, hrun⟩ | ⟨hnot, -⟩
  · exact hrun
  · rw [h] at hnot
    cases hnot

/-- What the copy keeps, the call keeps. -/
theorem clone_along {R : World → World → Prop} {Q : KernelId → World → Prop} {k : KernelId} (hrefl : R w w)
    (h : R w (w.withClone k) ∧ Q w.next (w.withClone k)) : Along R (clone k) Q w := by
  rcases clone_run (w := w) k with ⟨-, hrun⟩ | ⟨-, e, hrun⟩
  · rw [Along, hrun]
    exact h
  · rw [Along, hrun]
    exact hrefl

end Calls

/-- The chain builder keeps it too, on kernels that exist. -/
theorem evolves_discipline : Discipline World.Evolves fun k w => k < w.next where
  refl := World.Evolves.refl
  trans := World.Evolves.trans
  mono h he := h.trans_le he.1.next
  link ha hb := link_along ha hb
  clone {k w} _ := clone_along (.refl w) ⟨World.evolves_withClone k, Nat.lt_succ_self _⟩

/-! ## Sequences of calls -/

/-- What a program calls on its map. -/
inductive Call where
  | link (t : Order) (a : KernelId) (aPort : PortKey) (b : KernelId) (bPort : PortKey) (buffer : Nat)
  | addAssign (chain : List Kpair)

namespace Call

def run : Call → Prog KernelPair
  | link t a aPort b bPort buffer => Graph.link t a aPort b bPort buffer
  | addAssign chain => Graph.addAssign chain

/-- The kernels that are passed exist. -/
def Valid : Call → World → Prop
  | link _ a _ b _ _, w => a < w.next ∧ b < w.next
  | addAssign chain, w => ∀ p ∈ chain, p.src < w.next ∧ p.dst < w.next

end Call

/-- The program can catch it and go on. -/
def Err.Caught : Err → Prop
  | .assertion | .pastEnd => False
  | _ => True

/-- A call, and the state after its return or after its exception has been caught. -/
def Calls (w : World) (c : Call) (w' : World) : Prop :=
  c.Valid w ∧ ((∃ pair, c.run.run w = .ok pair w') ∨ ∃ e, e.Caught ∧ c.run.run w = .error e w')

namespace Discipline

variable {R : World → World → Prop} {K : KernelId → World → Prop} {w w' : World}

/-- What the builder keeps for all kernels of the map, a call keeps, -/
theorem of_calls {c : Call} (D : Discipline R K) (hK : ∀ k w, k < w.next → K k w)
    (h : Calls w c w') : R w w' := by
  obtain ⟨hvalid, hrun⟩ := h
  have halong : Along R c.run (fun _ _ => True) w := by
    cases c with
    | link t a aPort b bPort buffer =>
        exact D.link (hK a w hvalid.1) (hK b w hvalid.2) t aPort bPort buffer
    | addAssign chain =>
        exact D.addAssign_along fun p hp => ⟨hK _ w (hvalid p hp).1, hK _ w (hvalid p hp).2⟩
  rcases hrun with ⟨pair, hrun⟩ | ⟨e, -, hrun⟩
  · exact (halong.ok hrun).1
  · exact halong.error hrun

/-- and so do calls one after another. -/
theorem of_run {cs : List Call} (D : Discipline R K) (hK : ∀ k w, k < w.next → K k w)
    (h : Run Calls w cs w') : R w w' := by
  refine h.invariant (I := fun v => R w v) (fun s c t hs hc => ?_) (D.refl w)
  exact D.trans _ _ _ hs (D.of_calls hK hc)

end Discipline

theorem evolves_of_run {w w' : World} {cs : List Call} (h : Run Calls w cs w') : w.Evolves w' :=
  evolves_discipline.of_run (fun _ _ hk => hk) h

namespace World

/-- A new map, over kernels of which none is connected. -/
structure Unlinked (w : World) : Prop where
  free : ∀ r, w.IsPort r → w.other r = none
  source : w.sourceKernels = ∅
  dst : w.dstKernels = ∅

theorem Unlinked.matched {w : World} (h : w.Unlinked) : w.Matched := by
  have hfree : ∀ {r r'}, w.IsPort r → w.other r ≠ some r' := fun hr ho => by
    rw [h.free _ hr] at ho
    cases ho
  refine ⟨fun _ _ hr ho => absurd ho (hfree hr), fun _ _ hr ho => absurd ho (hfree hr),
    fun _ _ hr ho => absurd ho (hfree hr), fun _ _ hr ho => absurd ho (hfree hr), fun k hk => ?_,
    fun k hk => ?_, fun _ _ hr ho => absurd ho (hfree hr), fun _ _ hr ho => absurd ho (hfree hr)⟩
  · rw [h.source] at hk
    exact absurd hk (Finset.notMem_empty k)
  · rw [h.dst] at hk
    exact absurd hk (Finset.notMem_empty k)

theorem IsPort.hasPorts {w : World} {r : PortRef} (h : w.IsPort r) :
    (w.ports r.kernel r.side).hasPorts = true :=
  decide_eq_true (List.length_pos_of_mem h.2)

/-- A kernel of a connection is a source kernel exactly if it has no input port. -/
theorem Matched.source_iff {w : World} (h : w.Matched) {r r' : PortRef} (hr : w.IsPort r)
    (ho : w.other r = some r') :
    r.kernel ∈ w.sourceKernels ↔ (w.ports r.kernel .input).hasPorts = false := by
  refine ⟨fun hk => (h.source _ hk).2, fun hp => ?_⟩
  cases hside : r.side with
  | output => exact h.sourceOf r r' hr ho hside hp
  | input =>
      have := hr.hasPorts
      rw [hside, hp] at this
      cases this

theorem Matched.dst_iff {w : World} (h : w.Matched) {r r' : PortRef} (hr : w.IsPort r)
    (ho : w.other r = some r') :
    r.kernel ∈ w.dstKernels ↔ (w.ports r.kernel .output).hasPorts = false := by
  refine ⟨fun hk => (h.dst _ hk).2, fun hp => ?_⟩
  cases hside : r.side with
  | input => exact h.dstOf r r' hr ho hside hp
  | output =>
      have := hr.hasPorts
      rw [hside, hp] at this
      cases this

end World

/-- **Ports are matched in every state between calls**, whether the calls returned or threw: the two
ends of a connection record each other; no port is the other end of two; a connection is never pointed
somewhere else by later calls; its ends have one type and one order flag; and its kernels are kept,
among the sources and the destinations exactly where they have no ports on that side. -/
theorem matching_kept {w₀ w : World} {cs : List Call} (h₀ : w₀.Unlinked) (hrun : Run Calls w₀ cs w) :
    (∀ r r', w.IsPort r → w.IsPort r' → (w.other r = some r' ↔ w.other r' = some r)) ∧
      (∀ r r', w.IsPort r → w.other r = some r' → w.IsPort r' ∧ r'.side = r.side.opposite) ∧
      (∀ r₁ r₂ r', w.IsPort r₁ → w.IsPort r₂ → w.other r₁ = some r' → w.other r₂ = some r' → r₁ = r₂) ∧
      (∀ ds w', Run Calls w ds w' → ∀ r r', w.IsPort r → w.other r = some r' →
        w'.other r = some r') ∧
      ∀ r r', w.IsPort r → w.other r = some r' →
        (w.info r').type = (w.info r).type ∧ (w.info r').outOfOrder = (w.info r).outOfOrder ∧
          r.kernel ∈ w.allKernels ∧
          (r.kernel ∈ w.sourceKernels ↔ (w.ports r.kernel .input).hasPorts = false) ∧
          (r.kernel ∈ w.dstKernels ↔ (w.ports r.kernel .output).hasPorts = false) := by
  have hm : w.Matched := (evolves_of_run hrun).2 h₀.matched
  refine ⟨fun r r' hr hr' => ⟨fun ho => (hm.symm r r' hr ho).2, fun ho => (hm.symm r' r hr' ho).2⟩,
    fun r r' hr ho => ⟨(hm.symm r r' hr ho).1, World.other_side ho⟩,
    fun r₁ r₂ r' h₁ h₂ ho₁ ho₂ => ?_, fun ds w' hlater r r' hr ho => ?_, fun r r' hr ho => ?_⟩
  · have hback₁ := (hm.symm r₁ r' h₁ ho₁).2
    have hback₂ := (hm.symm r₂ r' h₂ ho₂).2
    exact Option.some_inj.mp (hback₁.symm.trans hback₂)
  · exact (evolves_of_run hlater).1.other r r' hr.1 ho
  · exact ⟨hm.type r r' hr ho, hm.order r r' hr ho, hm.all r r' hr ho, hm.source_iff hr ho,
      hm.dst_iff hr ho⟩

/-- Two kernels, `0` with an output port and `1` with an input port. -/
def twoKernels : World where
  kernel := fun k =>
    if k = 0 then { className := "gen", input := .empty, output := .one "out" }
    else { className := "print", input := .one "in", output := .empty }
  info := fun _ => { type := "int" }
  next := 2

theorem twoKernels_unlinked : twoKernels.Unlinked := ⟨fun _ _ => rfl, rfl, rfl⟩

/-- The first call connects them, the second throws. -/
theorem matching_kept_twice :
    ∃ w, Run Calls twoKernels [.link .in 0 "out" 1 nullPortValue 0, .link .out 0 nullPortValue 1 "in" 8] w ∧
      w.other ⟨0, .output, "out"⟩ = some ⟨1, .input, "in"⟩ ∧
      (w.info ⟨1, .input, "in"⟩).type = (w.info ⟨0, .output, "out"⟩).type ∧
      (0 ∈ w.sourceKernels ↔ (w.ports 0 .input).hasPorts = false) := by
  obtain ⟨w, hrun, hport, hother⟩ : ∃ w, Run Calls twoKernels
      [.link .in 0 "out" 1 nullPortValue 0, .link .out 0 nullPortValue 1 "in" 8] w ∧
      w.IsPort ⟨0, .output, "out"⟩ ∧ w.other ⟨0, .output, "out"⟩ = some ⟨1, .input, "in"⟩ := by
    refine ⟨_, .cons ⟨⟨by decide, by decide⟩, .inl ⟨_, rfl⟩⟩ (.single ⟨⟨by decide, by decide⟩,
      .inr ⟨.portDoubleInitialize _, trivial, rfl⟩⟩), ?_, ?_⟩
    · exact ⟨by decide, by decide⟩
    · rfl
  have hkept := (matching_kept twoKernels_unlinked hrun).2.2.2.2 _ _ hport hother
  exact ⟨w, hrun, hother, hkept.1, hkept.2.2.2.1⟩

/-! ## A link that throws -/

namespace World

/-- A state is known by its parts. -/
theorem eq_iff {w w' : World} : w' = w ↔ w'.kernel = w.kernel ∧ w'.info = w.info ∧ w'.next = w.next ∧
    w'.sourceKernels = w.sourceKernels ∧ w'.dstKernels = w.dstKernels ∧ w'.allKernels = w.allKernels ∧
    w'.internallyCreatedKernels = w.internallyCreatedKernels := by
  cases w
  cases w'
  simp

end World

/-- **Where a link throws, this much of it has been done**: the kernels are entered, and the buffer size
is written to the ports that were found. -/
theorem link_error {w w' : World} {t : Order} {a b : KernelId} {aPort bPort : PortKey} {buffer : Nat}
    {e : Err} (h : (link t a aPort b bPort buffer).run w = .error e w') :
    w' = (w.withKernels a b).sized buffer (w.foundPorts a aPort b bPort) := by
  rcases link_run (w := w) t a aPort b bPort buffer with ⟨e', hrun⟩ | ⟨ra, rb, -, -, -, -, -, hrun⟩
  · rw [hrun] at h
    exact (EStateM.Result.error.inj h).2.symm
  · rw [hrun] at h
    cases h

/-- **What a link that throws leaves behind.** No connection, type, order flag or other record of a port
is touched but the buffer size of the ports that it found; the keepers, that of the kernels to delete
included, have the two kernels where they belong, and have lost none. So the state is the one before
exactly if the kernels were entered and the sizes written already. -/
theorem link_throws {w w' : World} {t : Order} {a b : KernelId} {aPort bPort : PortKey} {buffer : Nat}
    {e : Err} (h : (link t a aPort b bPort buffer).run w = .error e w') :
    (w'.kernel = w.kernel ∧ w'.next = w.next ∧ ∀ r, w'.info r =
        if r ∈ w.foundPorts a aPort b bPort then { w.info r with fixedBufferSize := buffer }
        else w.info r) ∧
      (w'.sourceKernels = (w.withKernels a b).sourceKernels ∧
        w'.dstKernels = (w.withKernels a b).dstKernels ∧ w'.allKernels = insert b (insert a w.allKernels) ∧
        w'.internallyCreatedKernels = (w.withKernels a b).internallyCreatedKernels ∧
        w.KeepsKernels w') ∧
      (w' = w ↔ w.withKernels a b = w ∧
        ∀ r ∈ w.foundPorts a aPort b bPort, (w.info r).fixedBufferSize = buffer) := by
  obtain rfl := link_error h
  obtain ⟨hsource, hdst, hall, hinternal⟩ :=
    World.sized_keepers (w.withKernels a b) buffer (w.foundPorts a aPort b bPort)
  have hinfo := World.sized_info (w.withKernels a b) buffer (w.foundPorts a aPort b bPort)
  have hkeeps := World.keepsKernels_withKernels (w := w) a b
  refine ⟨⟨World.sized_kernel .., World.sized_next .., hinfo⟩, ⟨hsource, hdst, hall, hinternal,
    hsource ▸ hkeeps.source, hdst ▸ hkeeps.dst, hall ▸ hkeeps.all, hinternal ▸ hkeeps.internallyCreated⟩,
    ?_⟩
  rw [World.eq_iff, World.eq_iff, hsource, hdst, hall, hinternal]
  constructor
  · rintro ⟨-, hsame, -, hkeepers⟩
    refine ⟨⟨rfl, rfl, rfl, hkeepers⟩, fun r hr => ?_⟩
    have hr' := congrFun hsame r
    rw [hinfo, if_pos hr] at hr'
    exact (congrArg PortInfo.fixedBufferSize hr').symm
  · rintro ⟨⟨-, -, -, hkeepers⟩, hsizes⟩
    refine ⟨World.sized_kernel .., funext fun r => ?_, World.sized_next .., hkeepers⟩
    rw [hinfo]
    split
    · next hr => rw [← hsizes r hr]; rfl
    · rfl

/-- A port that is not there: the other kernel is in the keepers after all. -/
theorem link_throws_missing : ∃ e w', (link .in 0 "none" 1 "in" 8).run twoKernels = .error e w' ∧
    w'.allKernels = {1, 0} ∧ w'.internallyCreatedKernels = ∅ := by
  obtain ⟨e, w', h⟩ : ∃ e w', (link .in 0 "none" 1 "in" 8).run twoKernels = .error e w' :=
    ⟨_, _, rfl⟩
  have hkept := (link_throws h).2.1.2.2
  exact ⟨e, w', h, hkept.1, hkept.2.1⟩

/-- A link that is made twice, the second time with another buffer size, throws and changes the size of
the connection that was there; one with a wrong name enters its kernels. -/
theorem link_changes_state :
    (∃ w₁ e w₂, (∃ pair, (link .in 0 "out" 1 "in" 4).run twoKernels = .ok pair w₁) ∧
      (link .in 0 "out" 1 "in" 8).run w₁ = .error e w₂ ∧
      (w₁.info ⟨0, .output, "out"⟩).fixedBufferSize = 4 ∧
      (w₂.info ⟨0, .output, "out"⟩).fixedBufferSize = 8) ∧
    ∃ e w₂, (link .in 0 "none" 1 "in" 8).run twoKernels = .error e w₂ ∧
      0 ∉ twoKernels.allKernels ∧ 0 ∈ w₂.allKernels :=
  ⟨⟨_, _, _, ⟨_, rfl⟩, rfl, rfl, rfl⟩, _, _, rfl, by decide, by decide +kernel⟩

end RaftLib.Graph
