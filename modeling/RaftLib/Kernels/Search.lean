/-
# `RaftLib.Kernels.Search` -- looking for a term in the chunks of a file

`search::run` (`search.tcc`) over `chunk_iterator` (`chunkiterator.tcc`), behind a `filereader` whose
overlap is the length of the term, as in the programs of the repository that search.

`location` has the start of the chunk in it already, and `run` adds the start once more; and the bytes
of the overlap are searched in both chunks. So the matches are right exactly as long as all of them
are found in the first chunk, and only there (`search_exact_iff`).
-/
import RaftLib.Kernels.FileReader
import Mathlib.Data.List.Perm.Basic

namespace RaftLib.Kernels

/-- `match_t`. -/
abbrev Match := Nat × Nat

namespace Filechunk

variable {size : Nat}

/-- `chunk_iterator::location`, at index `it`. -/
def location (c : Filechunk size) (it : Nat) : Nat := it + c.startPosition

/-- The term stands at index `i` of the chunk. -/
def Stands (c : Filechunk size) (term : List UInt8) (i : Nat) : Prop :=
  (c.contents.drop i).take term.length = term

instance (c : Filechunk size) (term : List UInt8) : DecidablePred (c.Stands term) :=
  fun _ => inferInstanceAs (Decidable (_ = _))

/-- `std::search( it, chunk.end(), term.begin(), term.end() )`: the first index from `it` on at which
the term stands, or the end. -/
def stdSearch (c : Filechunk size) (term : List UInt8) (it : Nat) : Nat :=
  ((List.range' it (c.length - it)).find? fun i => c.Stands term i).getD c.length

/-- The loop of `search::run`, from the iterator `it`; it goes round at most `fuel` times. -/
def searchLoop (c : Filechunk size) (term : List UInt8) : Nat → Nat → List Match
  | 0, _ => []
  | fuel + 1, it =>
      let it := c.stdSearch term it
      if it ≠ c.length then
        let loc := c.location it + c.startPosition
        (loc, loc + term.length) :: searchLoop c term fuel (it + 1)
      else []

/-- `search::run` on a chunk: what it pushes. -/
def search (c : Filechunk size) (term : List UInt8) : List Match :=
  c.searchLoop term (c.length + 1) 0

/-- What the loop finds from `it` on: every index at which the term stands, in order. -/
theorem searchLoop_eq (c : Filechunk size) (term : List UInt8) {fuel it : Nat}
    (hfuel : c.length - it < fuel) :
    c.searchLoop term fuel it =
      ((List.range' it (c.length - it)).filter fun i => c.Stands term i).map fun i =>
        (c.location i + c.startPosition, c.location i + c.startPosition + term.length) := by
  induction fuel generalizing it with
  | zero => exact absurd hfuel (Nat.not_lt_zero _)
  | succ fuel ih =>
      unfold searchLoop stdSearch
      cases hfind : (List.range' it (c.length - it)).find? fun i => c.Stands term i with
      | none =>
          have hnone : (List.range' it (c.length - it)).filter (fun i => c.Stands term i) = [] := by
            rw [List.filter_eq_nil_iff]
            exact List.find?_eq_none.mp hfind
          simp [hnone]
      | some i =>
          obtain ⟨hi, before, later, hsplit, hbefore⟩ := List.find?_eq_some_iff_append.mp hfind
          -- `i` is the first of the indices left, and those behind it come next
          obtain ⟨k, hk, rfl, hrest⟩ := List.range'_eq_append_iff.mp hsplit
          rw [Nat.mul_one] at hrest
          have hn : c.length - it - k = c.length - it - k - 1 + 1 := by
            have : 0 < c.length - it - k := by
              by_contra hz
              rw [Nat.eq_zero_of_not_pos hz] at hrest
              cases hrest
            omega
          rw [hn, List.range'_succ, List.cons.injEq] at hrest
          obtain ⟨rfl, rfl⟩ := hrest
          have hskip : (List.range' it k).filter (fun i => c.Stands term i) = [] := by
            rw [List.filter_eq_nil_iff]
            intro j hj
            simpa using hbefore j hj
          have hne : it + k ≠ c.length := by omega
          have hlater : c.length - it - k - 1 = c.length - (it + k + 1) := by omega
          rw [hsplit, List.filter_append, hskip, List.nil_append, List.filter_cons, if_pos hi,
            List.map_cons, hlater, ← ih (by omega)]
          simp [hne]

theorem search_eq (c : Filechunk size) (term : List UInt8) :
    c.search term = ((List.range c.length).filter fun i => c.Stands term i).map fun i =>
      (c.location i + c.startPosition, c.location i + c.startPosition + term.length) := by
  rw [search, c.searchLoop_eq term (by omega), Nat.sub_zero, List.range_eq_range']

end Filechunk

/-! ## Occurrences -/

/-- The term occurs in the file at position `p`. -/
def Occurs (bytes term : List UInt8) (p : Nat) : Prop := (bytes.drop p).take term.length = term

instance (bytes term : List UInt8) : DecidablePred (Occurs bytes term) :=
  fun _ => inferInstanceAs (Decidable (_ = _))

/-- All occurrences, in order, with their ends. -/
def occurrences (bytes term : List UInt8) : List Match :=
  ((List.range bytes.length).filter fun p => Occurs bytes term p).map fun p => (p, p + term.length)

section Occurs

variable {bytes term : List UInt8} {p : Nat}

theorem Occurs.le (h : Occurs bytes term p) (hterm : 0 < term.length) : p + term.length ≤ bytes.length := by
  have hlen := congrArg List.length h
  rw [List.length_take, List.length_drop] at hlen
  omega

theorem mem_occurrences (hterm : 0 < term.length) {x : Match} :
    x ∈ occurrences bytes term ↔ Occurs bytes term x.1 ∧ x.2 = x.1 + term.length := by
  unfold occurrences
  simp only [List.mem_map, List.mem_filter, List.mem_range, decide_eq_true_eq]
  constructor
  · rintro ⟨p, ⟨-, hp⟩, rfl⟩
    exact ⟨hp, rfl⟩
  · rintro ⟨hp, hx⟩
    exact ⟨x.1, ⟨by have := hp.le hterm; omega, hp⟩, by rw [← hx]⟩

theorem nodup_occurrences : (occurrences bytes term).Nodup :=
  (List.nodup_range.filter _).map fun _ _ h => congrArg Prod.fst h

end Occurs

/-! ## One chunk -/

open FileReader

section Chunk

variable {size : Nat} {bytes term : List UInt8} {off k : Nat} {c : Filechunk size}

/-- In a chunk of the file the term stands where it occurs, as far as it ends in the chunk. -/
theorem FileReader.IsChunk.stands_iff (h : IsChunk bytes off k c) (hterm : 0 < term.length) {i : Nat} :
    c.Stands term i ↔ Occurs bytes term (c.startPosition + i) ∧
      c.startPosition + i + term.length ≤ endAt size off bytes.length k := by
  have htake : (c.contents.drop i).take term.length =
      (bytes.drop (c.startPosition + i)).take (min term.length (c.length - i)) := by
    rw [h.contents, List.drop_take, List.take_take, List.drop_drop]
  unfold Filechunk.Stands Occurs
  rw [htake, ← h.stop]
  constructor
  · intro heq
    have hlen := congrArg List.length heq
    rw [List.length_take, List.length_drop] at hlen
    rw [Nat.min_eq_left (by omega)] at heq
    exact ⟨heq, by omega⟩
  · rintro ⟨heq, hle⟩
    rw [Nat.min_eq_left (by omega)]
    exact heq

/-- What a search reports of a chunk: the occurrences in it, further on by the chunk's start. -/
theorem FileReader.IsChunk.mem_search (h : IsChunk bytes off k c) (hterm : 0 < term.length) {x : Match} :
    x ∈ c.search term ↔ ∃ p, Occurs bytes term p ∧ startAt size off bytes.length k ≤ p ∧
      p + term.length ≤ endAt size off bytes.length k ∧
      x = (p + startAt size off bytes.length k, p + startAt size off bytes.length k + term.length) := by
  rw [c.search_eq]
  simp only [List.mem_map, List.mem_filter, List.mem_range, decide_eq_true_eq, Filechunk.location,
    h.stands_iff hterm, h.start]
  have hstop := h.stop
  rw [h.start] at hstop
  constructor
  · rintro ⟨i, ⟨-, hp, hle⟩, rfl⟩
    refine ⟨_, hp, Nat.le_add_right _ _, hle, ?_⟩
    rw [Nat.add_comm i]
  · rintro ⟨p, hp, hstart, hle, rfl⟩
    refine ⟨p - startAt size off bytes.length k, ⟨by omega, ?_, by omega⟩, ?_⟩
    · rwa [Nat.add_sub_cancel' hstart]
    · rw [Nat.sub_add_cancel hstart]

end Chunk

/-! ## The whole pipeline -/

/-- What the example programs count on: however the chunks are dealt out to the search
kernels, the matches that they report together are the occurrences in the file, each once. -/
def FindsAll (size : Nat) (bytes term : List UInt8) (ports : Nat) : Prop :=
  ∀ spaces : List (Space size), (∀ space ∈ spaces, space.length = ports) →
    ((make bytes term.length ports).runs spaces).2.2 = .stop →
    ∀ kernels : List (List (Filechunk size)),
      kernels.flatten.Perm (((make bytes term.length ports).runs spaces).1.map Prod.fst) →
      (kernels.flatMap fun chunks => chunks.flatMap fun c => c.search term).Perm (occurrences bytes term)

section Pipeline

variable {size : Nat} {bytes term : List UInt8} {ports : Nat} {sent : List (Filechunk size × RaftLib.Queue.RaftSignal)}

/-- Where the second chunk starts. -/
theorem startAt_one : startAt size term.length bytes.length 1 =
    min (size - 1) bytes.length - term.length := by
  unfold startAt
  omega

theorem nodup_search (c : Filechunk size) : (c.search term).Nodup := by
  rw [c.search_eq]
  refine (List.nodup_range.filter _).map fun i j h => ?_
  have := congrArg Prod.fst h
  simp only [Filechunk.location] at this
  omega

/-- If all occurrences start before the second chunk does, the report of the first chunk is right, -/
theorem search_first {c : Filechunk size} (h : IsChunk bytes term.length 0 c) (hterm : 0 < term.length)
    (hall : ∀ p, Occurs bytes term p → p < startAt size term.length bytes.length 1) :
    (c.search term).Perm (occurrences bytes term) := by
  refine (List.perm_ext_iff_of_nodup (nodup_search c) nodup_occurrences).mpr fun x => ?_
  rw [h.mem_search hterm, mem_occurrences hterm, startAt_zero]
  constructor
  · rintro ⟨p, hp, -, -, rfl⟩
    exact ⟨hp, rfl⟩
  · rintro ⟨hp, hx⟩
    refine ⟨x.1, hp, Nat.zero_le _, ?_, Prod.ext rfl hx⟩
    have hlt := hall _ hp
    rw [startAt_one] at hlt
    rw [endAt, startAt_zero]
    omega

/-- and nothing is reported of the others. -/
theorem search_later {c : Filechunk size} {k : Nat} (h : IsChunk bytes term.length (k + 1) c)
    (hterm : 0 < term.length)
    (hall : ∀ p, Occurs bytes term p → p < startAt size term.length bytes.length 1) :
    c.search term = [] := by
  refine List.eq_nil_iff_forall_not_mem.mpr fun x hx => ?_
  obtain ⟨p, hp, hstart, -, -⟩ := (h.mem_search hterm).mp hx
  have hmono : startAt size term.length bytes.length 1 ≤ startAt size term.length bytes.length (k + 1) :=
    startAt_mono (Nat.succ_le_succ (Nat.zero_le k))
  have := hall p hp
  omega

/-- Up to the end of the file the chunks start one step apart. -/
theorem startAt_eq_mul {i : Nat} (hi : i * (size - 1 - term.length) + term.length ≤ bytes.length) :
    startAt size term.length bytes.length i = i * (size - 1 - term.length) := by
  unfold startAt
  omega

/-! ### Reports that are right together -/

variable {n : Nat} (hterm : 0 < term.length) (hsent : Chunks bytes term.length 0 (n + 1) sent)
variable (hperm : (sent.flatMap fun s => s.1.search term).Perm (occurrences bytes term))
include hterm hsent hperm

/-- What a chunk makes of an occurrence in it is one, -/
theorem reported_occurs {k q : Nat} (hk : k ≤ n) (hq : Occurs bytes term q)
    (hstart : startAt size term.length bytes.length k ≤ q)
    (hend : q + term.length ≤ endAt size term.length bytes.length k) :
    Occurs bytes term (q + startAt size term.length bytes.length k) := by
  have hlt : k < sent.length := by
    have := hsent.length
    omega
  have hchunk := hsent.isChunk hlt
  rw [Nat.zero_add] at hchunk
  have hmem := (hchunk.mem_search hterm).mpr ⟨q, hq, hstart, hend, rfl⟩
  exact ((mem_occurrences hterm).mp (hperm.mem_iff.mp
    (List.mem_flatMap.mpr ⟨_, List.getElem_mem hlt, hmem⟩))).1

/-- and each occurrence is what some chunk makes of one. -/
theorem occurs_reported {q : Nat} (hq : Occurs bytes term q) : ∃ k ≤ n, ∃ q', Occurs bytes term q' ∧
    startAt size term.length bytes.length k ≤ q' ∧
    q' + term.length ≤ endAt size term.length bytes.length k ∧
    q = q' + startAt size term.length bytes.length k := by
  have hmem : (q, q + term.length) ∈ occurrences bytes term := (mem_occurrences hterm).mpr ⟨hq, rfl⟩
  obtain ⟨s, hs, hx⟩ := List.mem_flatMap.mp (hperm.mem_iff.mpr hmem)
  obtain ⟨k, hk, rfl⟩ := List.mem_iff_getElem.mp hs
  have hchunk := hsent.isChunk hk
  rw [Nat.zero_add] at hchunk
  obtain ⟨q', hq', hstart, hend, heq⟩ := (hchunk.mem_search hterm).mp hx
  exact ⟨k, by have := hsent.length; omega, q', hq', hstart, hend, congrArg Prod.fst heq⟩

/-- Where two chunks begin the file, the first of them alone does not report the term in front twice. -/
theorem not_occurs_both (hn : 1 ≤ n) (hzero : startAt size term.length bytes.length 1 = 0)
    (hend : ∀ k, startAt size term.length bytes.length k = 0 →
      term.length ≤ endAt size term.length bytes.length k) : ¬Occurs bytes term 0 := by
  intro hq
  have hlen : 1 < sent.length := by
    have := hsent.length
    omega
  have hlen' : 0 < sent.length := by omega
  have hnodup := (List.nodup_flatMap.mp (hperm.nodup_iff.mpr nodup_occurrences)).2
  have hdisjoint := List.pairwise_iff_getElem.mp hnodup 0 1 hlen' hlen Nat.zero_lt_one
  have h₀ := (hsent.isChunk hlen').mem_search hterm (x := (0, term.length))
  have h₁ := (hsent.isChunk hlen).mem_search hterm (x := (0, term.length))
  rw [Nat.zero_add, startAt_zero] at h₀
  rw [Nat.zero_add, hzero] at h₁
  refine hdisjoint (h₀.mpr ⟨0, hq, Nat.le_refl 0, ?_, by simp⟩) (h₁.mpr ⟨0, hq, Nat.le_refl 0, ?_, by simp⟩)
  · rw [Nat.zero_add]
    exact hend 0 startAt_zero
  · rw [Nat.zero_add]
    exact hend 1 hzero

variable (hsize : term.length < size - 1)
include hsize

/-- If an occurrence does not start before the second chunk, one starts where that chunk does: the first
of them is reported by the first chunk. -/
theorem occurs_startAt_one {p : Nat} (hp : Occurs bytes term p)
    (hge : startAt size term.length bytes.length 1 ≤ p) :
    Occurs bytes term (startAt size term.length bytes.length 1) := by
  have hex : ∃ q, Occurs bytes term q ∧ startAt size term.length bytes.length 1 ≤ q := ⟨p, hp, hge⟩
  obtain ⟨q, ⟨hq, hqs⟩, hmin⟩ : ∃ q,
      (Occurs bytes term q ∧ startAt size term.length bytes.length 1 ≤ q) ∧
        ∀ q', Occurs bytes term q' → startAt size term.length bytes.length 1 ≤ q' → q ≤ q' :=
    ⟨Nat.find hex, Nat.find_spec hex, fun q' h h' => Nat.find_min' hex ⟨h, h'⟩⟩
  obtain ⟨k, hk, q', hq', hstart, hend, heq⟩ := occurs_reported hterm hsent hperm hq
  have hqle := hq.le hterm
  have hs1 : startAt size term.length bytes.length 1 = min (size - 1) bytes.length - term.length :=
    startAt_one
  have hone : q = startAt size term.length bytes.length 1 := by
    cases k with
    | zero =>
        rw [endAt, startAt_zero] at hend
        rw [startAt_zero] at heq
        omega
    | succ k =>
        have hmono : startAt size term.length bytes.length 1 ≤
            startAt size term.length bytes.length (k + 1) := startAt_mono (Nat.succ_le_succ (Nat.zero_le k))
        have := hmin q' hq' (hmono.trans hstart)
        omega
  rwa [hone] at hq

/-- An occurrence a few steps into the file is reported again by the chunk that starts there, or by the
one in front of it, and that is further on by that chunk's start. -/
theorem occurs_step {i j : Nat} (hi : i ≤ n) (hij : i ≤ j) (hji : j ≤ i + 1)
    (hj : Occurs bytes term (j * (size - 1 - term.length))) :
    Occurs bytes term ((j + i) * (size - 1 - term.length)) := by
  have hle := hj.le hterm
  have hmul := Nat.mul_le_mul_right (size - 1 - term.length) hij
  have hmul' := Nat.mul_le_mul_right (size - 1 - term.length) hji
  rw [Nat.add_mul, Nat.one_mul] at hmul'
  have hi' : startAt size term.length bytes.length i = i * (size - 1 - term.length) :=
    startAt_eq_mul (by omega)
  have := reported_occurs hterm hsent hperm hi hj (by omega) (by unfold endAt; omega)
  rwa [hi', ← Nat.add_mul] at this

/-- So the term occurs at every step, twice as far as there are chunks. -/
theorem occurs_steps (hbig : size - 1 < bytes.length)
    (hq : Occurs bytes term (startAt size term.length bytes.length 1)) {j : Nat} (hj : 1 ≤ j)
    (hjn : j ≤ 2 * n) : Occurs bytes term (j * (size - 1 - term.length)) := by
  induction j using Nat.strong_induction_on with
  | _ j ih =>
      rcases Nat.even_or_odd' j with ⟨i, rfl | rfl⟩
      · have := occurs_step hterm hsent hperm hsize (i := i) (by omega) le_rfl (by omega)
          (ih i (by omega) (by omega) (by omega))
        rwa [← Nat.two_mul] at this
      · rcases Nat.eq_zero_or_pos i with rfl | hi
        · rw [startAt_eq_mul (by omega)] at hq
          exact hq
        · have := occurs_step hterm hsent hperm hsize (i := i) (by omega) (Nat.le_succ i) le_rfl
            (ih (i + 1) (by omega) (by omega) (by omega))
          rwa [show i + 1 + i = 2 * i + 1 by omega] at this

/-- **If the reports of all chunks are right together**, no occurrence is left to the second chunk. -/
theorem occurs_lt_of_perm (hlength : term.length ≤ bytes.length)
    (hn : n = planned size bytes.length term.length) {p : Nat} (hp : Occurs bytes term p) :
    p < startAt size term.length bytes.length 1 := by
  by_contra hge
  have hq := occurs_startAt_one hterm hsent hperm hsize hp (Nat.not_lt.mp hge)
  have hplan : bytes.length ≤ (size - term.length) * n := by
    have hd : (size - 1) - (term.length - 1) = size - term.length := by omega
    rw [hn, planned, if_pos (by omega), hd]
    exact (ceilDiv_le_iff_le_mul (by omega)).mp le_rfl
  have hpos : 1 ≤ n := by
    by_contra hz
    rw [show n = 0 by omega, Nat.mul_zero] at hplan
    omega
  have hs1 : startAt size term.length bytes.length 1 = min (size - 1) bytes.length - term.length :=
    startAt_one
  by_cases hbig : size - 1 < bytes.length
  · -- there is an occurrence behind the end of the file
    have hlast := (occurs_steps hterm hsent hperm hsize hbig hq (j := 2 * n) (by omega) le_rfl).le hterm
    have hn1 : n ≤ n * (size - 1 - term.length) := Nat.le_mul_of_pos_right n (by omega)
    rw [show size - term.length = size - 1 - term.length + 1 by omega, Nat.add_mul, Nat.one_mul,
      Nat.mul_comm _ n] at hplan
    rw [Nat.mul_assoc, Nat.two_mul] at hlast
    omega
  · -- the file is in the first chunk: the second one is its overlap, and reports it again or wrongly
    have hend : startAt size term.length bytes.length 1 + term.length ≤
        endAt size term.length bytes.length 1 := by
      unfold endAt
      omega
    have hagain := (reported_occurs hterm hsent hperm hpos hq le_rfl hend).le hterm
    have hzero : startAt size term.length bytes.length 1 = 0 := by omega
    refine not_occurs_both hterm hsent hperm hpos hzero (fun k hk => ?_) (hzero ▸ hq)
    rw [endAt, hk]
    omega

end Pipeline

/-- **The pipeline finds every occurrence once, and nothing else, exactly if all occurrences start in
the first chunk before its overlap with the second.** -/
theorem search_exact_iff {size : Nat} {bytes term : List UInt8} {ports : Nat} (hterm : 0 < term.length)
    (hsize : term.length < size - 1) (hlength : term.length ≤ bytes.length) (hports : 1 ≤ ports) :
    FindsAll size bytes term ports ↔
      ∀ p, Occurs bytes term p → p < min (size - 1) bytes.length - term.length := by
  rw [← startAt_one]
  have hspec := fun spaces : List (Space size) => runs_spec hsize hlength spaces
    (before_make : Before bytes term.length ports 0 (make bytes term.length ports)) (Nat.zero_le _)
  constructor
  · intro h p hp
    let spaces : Nat → Space size := fun _ => List.replicate ports (some fun _ => 0)
    obtain ⟨m, hstop : ((make bytes term.length ports).runs ((List.range m).map spaces)).2.2 = .stop⟩ :=
      exists_stop hsize hlength spaces fun n =>
        ⟨n, le_rfl, fun _ => 0, List.mem_replicate.mpr ⟨by omega, rfl⟩⟩
    obtain ⟨n, hsent, hended⟩ := hspec ((List.range m).map spaces)
    have hn := hended.2.2.mp hstop
    rw [Nat.zero_add] at hn
    subst hn
    refine occurs_lt_of_perm hterm hsent ?_ hsize hlength rfl hp
    have := h _ (fun space hspace => ?_) hstop
      [((make bytes term.length ports).runs ((List.range m).map spaces)).1.map Prod.fst] (by simp)
    · simpa [List.flatMap_map] using this
    · obtain ⟨i, -, rfl⟩ := List.mem_map.mp hspace
      exact List.length_replicate
  · intro hall spaces _ hstop kernels hperm
    obtain ⟨n, hsent, hended⟩ := hspec spaces
    have hn := hended.2.2.mp hstop
    rw [Nat.zero_add] at hn
    subst hn
    have hflat : (kernels.flatMap fun chunks => chunks.flatMap fun c => c.search term) =
        kernels.flatten.flatMap fun c => c.search term := by
      simp only [List.flatMap, List.map_flatten, List.flatten_flatten, List.map_map]
      rfl
    rw [hflat]
    refine (hperm.flatMap_right _).trans ?_
    cases hruns : ((make bytes term.length ports : FileReader size).runs spaces).1 with
    | nil =>
        have := hsent.length
        rw [hruns] at this
        cases this
    | cons s rest =>
        rw [hruns] at hsent
        -- the first chunk has them all, the others have none
        have hrest : (rest.map Prod.fst).flatMap (fun c => c.search term) = [] := by
          rw [List.flatMap_eq_nil_iff]
          intro c hc
          obtain ⟨s', hs', rfl⟩ := List.mem_map.mp hc
          obtain ⟨i, hi, rfl⟩ := List.mem_iff_getElem.mp hs'
          have hchunk := hsent.isChunk (i := i + 1) (Nat.succ_lt_succ hi)
          rw [Nat.zero_add] at hchunk
          exact search_later hchunk hterm hall
        rw [List.map_cons, List.flatMap_cons, hrest, List.append_nil]
        exact search_first (hsent.isChunk (i := 0) (Nat.zero_lt_succ _)) hterm hall

/-- A file of six bytes with the term `[7]` in front, in chunks of four. -/
theorem search_exact_front : FindsAll 5 [7, 0, 0, 0, 0, 0] [7] 2 :=
  (search_exact_iff (by decide) (by decide) (by decide) (by decide)).mpr fun p hp => by
    have hsmall : ∀ p < 6, Occurs [7, 0, 0, 0, 0, 0] [7] p → p < 3 := by decide
    exact hsmall p (hp.le (by decide)) hp

/-- The term in the second chunk: it occurs at 5, and is reported at 8. -/
theorem search_shifts_matches : ¬FindsAll 5 [0, 0, 0, 0, 0, 7] [7] 1 := by
  intro h
  have hperm := h (List.replicate 4 [some fun _ => 0]) (by decide) (by decide)
    [((FileReader.make [0, 0, 0, 0, 0, 7] 1 1 : FileReader 5).runs (List.replicate 4 [some fun _ => 0])).1.map
      Prod.fst] (by simp)
  have hmem := hperm.mem_iff (a := (5, 6))
  revert hmem
  decide

/-! ## One chunk by itself -/

/-- The loop again, with no answer where the fuel runs out. -/
def Filechunk.searchLoop? {size : Nat} (c : Filechunk size) (term : List UInt8) : Nat → Nat → Option (List Match)
  | 0, _ => none
  | fuel + 1, it =>
      let it := c.stdSearch term it
      if it ≠ c.length then
        let loc := c.location it + c.startPosition
        (searchLoop? c term fuel (it + 1)).map ((loc, loc + term.length) :: ·)
      else some []

/-- The term equals the bytes of the buffer from index `i` on, and these are bytes of the chunk. -/
def Filechunk.Matches {size : Nat} (c : Filechunk size) (term : List UInt8) (i : Nat) : Prop :=
  i + term.length ≤ c.length ∧ (((List.finRange size).map c.buffer).drop i).take term.length = term

instance {size : Nat} (c : Filechunk size) (term : List UInt8) : DecidablePred (c.Matches term) :=
  fun _ => inferInstanceAs (Decidable (_ ∧ _))

/-- The loop ends, and what it has found is where the matches are, in ascending order and each once. -/
def FindsMatches {size : Nat} (c : Filechunk size) (term : List UInt8) : Prop :=
  ∃ enough found, (∀ fuel ≥ enough, c.searchLoop? term fuel 0 = some found) ∧
    (found.map Prod.fst).Pairwise (· < ·) ∧
    ∀ x, x ∈ found ↔ ∃ i, c.Matches term i ∧
      x = (c.startPosition + i, c.startPosition + i + term.length)

namespace Filechunk

variable {size : Nat} (c : Filechunk size) (term : List UInt8)

theorem stdSearch_le (it : Nat) : c.stdSearch term it ≤ c.length := by
  unfold stdSearch
  cases hfind : (List.range' it (c.length - it)).find? fun i => c.Stands term i with
  | none => exact Nat.le_refl _
  | some i =>
      have hmem := List.mem_range'_1.mp (List.mem_of_find?_eq_some hfind)
      show i ≤ c.length
      omega

theorem le_stdSearch {it : Nat} (hit : it ≤ c.length) : it ≤ c.stdSearch term it := by
  unfold stdSearch
  cases hfind : (List.range' it (c.length - it)).find? fun i => c.Stands term i with
  | none => exact hit
  | some i => exact (List.mem_range'_1.mp (List.mem_of_find?_eq_some hfind)).1

/-- **The loop ends**: each search starts behind the last match. -/
theorem searchLoop?_eq {fuel it : Nat} (hit : it ≤ c.length) (hfuel : c.length - it < fuel) :
    c.searchLoop? term fuel it = some (c.searchLoop term fuel it) := by
  induction fuel generalizing it with
  | zero => exact absurd hfuel (Nat.not_lt_zero _)
  | succ fuel ih =>
      have hle := c.stdSearch_le term it
      have hge := c.le_stdSearch term hit
      unfold searchLoop? searchLoop
      by_cases hend : c.stdSearch term it = c.length
      · simp only [hend, ne_eq, not_true_eq_false, if_false]
      · simp only [hend, ne_eq, not_false_eq_true, if_true]
        rw [ih (by omega) (by omega)]
        rfl

variable {c term}

theorem stands_iff_matches (hterm : 0 < term.length) {i : Nat} :
    c.Stands term i ↔ c.Matches term i := by
  unfold Stands Matches contents
  rw [List.drop_take, List.take_take]
  constructor
  · intro h
    have hlength := congrArg List.length h
    rw [List.length_take] at hlength
    have hfits : i + term.length ≤ c.length := by omega
    rw [Nat.min_eq_left (by omega)] at h
    exact ⟨hfits, h⟩
  · rintro ⟨hfits, h⟩
    rwa [Nat.min_eq_left (by omega)]

/-- What the loop finds: the matches, each twice as far from the chunk as the chunk is from the start. -/
theorem mem_searchLoop (hterm : 0 < term.length) {fuel : Nat}
    (hfuel : c.length < fuel) {x : Match} : x ∈ c.searchLoop term fuel 0 ↔ ∃ i, c.Matches term i ∧
      x = (i + c.startPosition + c.startPosition, i + c.startPosition + c.startPosition + term.length) := by
  rw [c.searchLoop_eq term hfuel]
  simp only [List.mem_map, List.mem_filter, decide_eq_true_eq, List.mem_range'_1, location,
    stands_iff_matches hterm]
  constructor
  · rintro ⟨i, ⟨-, hi⟩, rfl⟩
    exact ⟨i, hi, rfl⟩
  · rintro ⟨i, hi, rfl⟩
    have hfits := hi.1
    exact ⟨i, ⟨⟨Nat.zero_le i, by omega⟩, hi⟩, rfl⟩

theorem searchLoop_ascending {fuel : Nat} (hfuel : c.length < fuel) :
    ((c.searchLoop term fuel 0).map Prod.fst).Pairwise (· < ·) := by
  rw [c.searchLoop_eq term hfuel, List.map_map, List.pairwise_map]
  refine ((List.pairwise_lt_range' (s := 0) (n := c.length - 0)).filter _).imp fun {i j} hij => ?_
  show i + c.startPosition + c.startPosition < j + c.startPosition + c.startPosition
  omega

end Filechunk

/-- **The places found are right exactly if the chunk is at the start of the file**, or has no match. -/
theorem findsMatches_iff {size : Nat} {c : Filechunk size} {term : List UInt8} (hterm : 0 < term.length) :
    FindsMatches c term ↔ c.startPosition = 0 ∨ ∀ i, ¬c.Matches term i := by
  constructor
  · rintro ⟨enough, found, hfound, -, hall⟩
    have hsome := hfound (max enough (c.length + 1)) (Nat.le_max_left _ _)
    have hfuel : c.length < max enough (c.length + 1) := Nat.lt_of_lt_of_le (Nat.lt_succ_self _) (Nat.le_max_right _ _)
    rw [c.searchLoop?_eq term (Nat.zero_le _) hfuel, Option.some_inj] at hsome
    by_contra! hnot
    obtain ⟨hstart, hex⟩ := hnot
    -- the first match is to be reported, but what is reported in its place is further on
    obtain ⟨j, hj, heq⟩ := (c.mem_searchLoop hterm hfuel).mp
      (hsome ▸ (hall _).mpr ⟨Nat.find hex, Nat.find_spec hex, rfl⟩)
    have hfirst : Nat.find hex ≤ j := Nat.find_min' hex hj
    have hsame : c.startPosition + Nat.find hex = j + c.startPosition + c.startPosition :=
      congrArg Prod.fst heq
    omega
  · intro h
    refine ⟨c.length + 1, c.searchLoop term (c.length + 1) 0, fun fuel hfuel => ?_,
      Filechunk.searchLoop_ascending (Nat.lt_succ_self _), fun x => ?_⟩
    · rw [c.searchLoop?_eq term (Nat.zero_le _) hfuel, c.searchLoop_eq term hfuel,
        c.searchLoop_eq term (Nat.lt_succ_self c.length)]
    · rw [Filechunk.mem_searchLoop hterm (Nat.lt_succ_self _)]
      rcases h with hstart | hnone
      · simp only [hstart, Nat.add_zero, Nat.zero_add]
      · exact ⟨fun ⟨i, hi, _⟩ => absurd hi (hnone i), fun ⟨i, hi, _⟩ => absurd hi (hnone i)⟩

/-- Overlapping matches in the first chunk of a file. -/
theorem findsMatches_overlap :
    FindsMatches { buffer := fun _ => 7, startPosition := 0, length := 3, index := 0 : Filechunk 4 } [7, 7] :=
  (findsMatches_iff (by decide)).mpr (.inl rfl)

/-- A byte at 3 that is reported at 6. -/
theorem finds_not_there :
    ¬FindsMatches { buffer := fun _ => 7, startPosition := 3, length := 1, index := 1 : Filechunk 4 } [7] := by
  rintro ⟨enough, found, hfound, -, hall⟩
  have hsome := hfound (enough + 2) (Nat.le_add_right _ _)
  have hmem : (3, 4) ∈ found := (hall (3, 4)).mpr ⟨0, by decide, rfl⟩
  have hfinds : found = [(6, 7)] := Option.some_inj.mp (hsome.symm.trans rfl)
  rw [hfinds] at hmem
  exact absurd hmem (by decide)

end RaftLib.Kernels
