/-
# `RaftLib.Kernels.FileReader` -- the kernel that cuts a file into chunks

`filereader` (`fileio.tcc`) and `filechunk` (`filechunk.tcc`). The reader seeks back by the overlap
before every chunk but the first, and counts its chunks down from a number that the constructor
computes. The quotient there is taken exactly, where the code divides two `float`s; the overlap is a
`long` that is not negative.

Chunk `k` starts at `startAt k`, whatever the ports: how much space they have decides when a chunk is
read, not which one. The countdown does not depend on the bytes read, so it may end before the file
does (`filereader_covers_iff`).
-/
import Mathlib.Algebra.Order.Floor.Div
import Mathlib.Data.List.Forall2
import Mathlib.Data.List.Chain
import RaftLib.Queue.Buffer

namespace RaftLib.Kernels

open RaftLib.Queue (RaftSignal Kstatus)

/-! ## The C library -/

/-- A `FILE` opened for reading. -/
structure File where
  bytes : List UInt8
  pos : Nat := 0

namespace File

/-- `fseek( fp, offset, SEEK_CUR )`; it fails, and moves nothing, where it would pass the start. -/
def fseekCur (f : File) (offset : Int) : File :=
  if (f.pos : Int) + offset < 0 then f else { f with pos := ((f.pos : Int) + offset).toNat }

/-- `fread( buffer, 1, n, fp )`. -/
def fread (f : File) (n : Nat) : List UInt8 × File :=
  let read := (f.bytes.drop f.pos).take n
  (read, { f with pos := f.pos + read.length })

end File

/-! ## Chunks -/

/-- `filechunk< size >`. -/
structure Filechunk (size : Nat) where
  buffer : Fin size → UInt8
  startPosition : Nat
  length : Nat
  index : Nat

/-- The first `length` bytes of the buffer. -/
def Filechunk.contents {size : Nat} (c : Filechunk size) : List UInt8 :=
  ((List.finRange size).map c.buffer).take c.length

/-- What the buffer holds after `read` and a zero have been written to its start. -/
def overwrite {size : Nat} (read : List UInt8) (memory : Fin size → UInt8) : Fin size → UInt8 :=
  fun i => if h : i < read.length then read[i] else if (i : Nat) = read.length then 0 else memory i

theorem take_overwrite {size : Nat} (read : List UInt8) (memory : Fin size → UInt8)
    (h : read.length ≤ size) :
    ((List.finRange size).map (overwrite read memory)).take read.length = read := by
  refine List.ext_getElem (by simpa using h) fun i hi hi' => ?_
  simp [overwrite, hi']

/-! ## The reader -/

/-- The members of `filereader< filechunk< size > >`; `ports` is how many output ports it has. -/
structure FileReader (size : Nat) where
  fp : File
  length : Nat
  iterations : Int
  init : Bool := false
  chunkIndex : Nat := 0
  chunkOffset : Nat
  ports : Nat

namespace FileReader

variable {size : Nat}

/-- The number of chunks that the constructor plans for. -/
def planned (size length chunkOffset : Nat) : Nat :=
  if chunkOffset ≠ 0 then length ⌈/⌉ ((size - 1) - (chunkOffset - 1)) else length ⌈/⌉ (size - 1)

/-- The constructor, on a file with the given bytes. -/
def make (inputfile : List UInt8) (chunkOffset nOutputPorts : Nat) : FileReader size where
  fp := { bytes := inputfile }
  length := inputfile.length
  iterations := planned size inputfile.length chunkOffset
  chunkOffset := chunkOffset
  ports := nOutputPorts

/-- The body of the loop over the ports, up to the test of the countdown; `memory` is what the buffer
of the allocated chunk holds before. The signal's comparison is one of `std::size_t`s. -/
def emit (r : FileReader size) (memory : Fin size → UInt8) :
    (Filechunk size × RaftSignal) × FileReader size :=
  let fp := if r.init then r.fp.fseekCur (-r.chunkOffset) else r.fp
  let (read, fp') := fp.fread (size - 1)
  let chunk : Filechunk size :=
    { buffer := overwrite read memory
      startPosition := fp.pos
      length := read.length
      index := r.chunkIndex }
  let signal := if (r.iterations - r.ports) % 2 ^ 64 > 0 then RaftSignal.none else RaftSignal.eof
  ((chunk, signal),
    { r with fp := fp', init := true, chunkIndex := r.chunkIndex + 1, iterations := r.iterations - 1 })

/-- The free space on the output ports at one run: a port with space gets a chunk, whose memory may
hold anything. -/
abbrev Space (size : Nat) := List (Option (Fin size → UInt8))

/-- `run`. -/
def run (r : FileReader size) : Space size → List (Filechunk size × RaftSignal) × FileReader size × Kstatus
  | [] => ([], r, .proceed)
  | none :: ports => run r ports
  | some memory :: ports =>
      let (sent, r') := r.emit memory
      if r'.iterations < 0 then ([sent], r', .stop)
      else
        let (rest, r'', status) := run r' ports
        (sent :: rest, r'', status)

/-- Successive runs, until one returns stop. -/
def runs (r : FileReader size) :
    List (Space size) → List (Filechunk size × RaftSignal) × FileReader size × Kstatus
  | [] => ([], r, .proceed)
  | space :: later =>
      match r.run space with
      | (sent, r', .stop) => (sent, r', .stop)
      | (sent, r', .proceed) =>
          let (rest, r'', status) := runs r' later
          (sent ++ rest, r'', status)

/-! ## Where the chunks start -/

section Positions

/-- The start of chunk `k` of a file of length `length`. -/
def startAt (size chunkOffset length k : Nat) : Nat :=
  min (k * (size - 1 - chunkOffset)) (length - chunkOffset)

/-- Its end. -/
def endAt (size chunkOffset length k : Nat) : Nat :=
  min (startAt size chunkOffset length k + (size - 1)) length

variable {off length : Nat}

@[simp] theorem startAt_zero : startAt size off length 0 = 0 := by simp [startAt]

theorem startAt_le {k : Nat} : startAt size off length k ≤ length := (Nat.min_le_right _ _).trans (Nat.sub_le _ _)

/-- The overlap has been read before. -/
theorem le_endAt (hoff : off < size - 1) (hlength : off ≤ length) (k : Nat) :
    off ≤ endAt size off length k :=
  Nat.le_min.mpr ⟨hoff.le.trans (Nat.le_add_left _ _), hlength⟩

theorem startAt_succ (hoff : off < size - 1) (k : Nat) :
    startAt size off length (k + 1) = endAt size off length k - off := by
  unfold startAt endAt startAt
  rw [Nat.add_mul, Nat.one_mul]
  omega

theorem startAt_mono {k k' : Nat} (h : k ≤ k') : startAt size off length k ≤ startAt size off length k' :=
  min_le_min (Nat.mul_le_mul_right _ h) le_rfl

/-- The chunks up to the `k`-th leave no gap. -/
theorem exists_chunk (hoff : off < size - 1) {i : Nat} :
    ∀ {k : Nat}, i < endAt size off length k →
      ∃ j ≤ k, startAt size off length j ≤ i ∧ i < endAt size off length j := by
  intro k
  induction k with
  | zero => exact fun h => ⟨0, Nat.le_refl 0, by simp, h⟩
  | succ k ih =>
      intro h
      by_cases hk : i < endAt size off length k
      · obtain ⟨j, hj, hi⟩ := ih hk
        exact ⟨j, Nat.le_succ_of_le hj, hi⟩
      · refine ⟨k + 1, Nat.le_refl _, ?_, h⟩
        rw [startAt_succ hoff]
        omega

/-- The file ends with chunk `k` exactly if `k` steps and one buffer reach its end. -/
theorem endAt_eq_iff (hoff : off < size - 1) {k : Nat} :
    endAt size off length k = length ↔ length ≤ size - 1 + k * (size - 1 - off) := by
  unfold endAt startAt
  omega

end Positions

/-! ## What a run sends -/

/-- Chunk `k` of the file. -/
structure IsChunk (bytes : List UInt8) (off k : Nat) (c : Filechunk size) : Prop where
  start : c.startPosition = startAt size off bytes.length k
  stop : c.startPosition + c.length = endAt size off bytes.length k
  contents : c.contents = (bytes.drop c.startPosition).take c.length
  index : c.index = k

/-- The reader before chunk `k`. -/
structure Before (bytes : List UInt8) (off ports k : Nat) (r : FileReader size) : Prop where
  file : r.fp.bytes = bytes
  pos : r.fp.pos = if k = 0 then 0 else endAt size off bytes.length (k - 1)
  iterations : r.iterations = (planned size bytes.length off : Int) - k
  init : r.init = decide (k ≠ 0)
  chunkIndex : r.chunkIndex = k
  chunkOffset : r.chunkOffset = off
  ports : r.ports = ports

section Sent

variable {bytes : List UInt8} {off ports k : Nat} {r : FileReader size}

theorem before_make : Before bytes off ports 0 (make bytes off ports : FileReader size) where
  file := rfl
  pos := rfl
  iterations := by simp [make]
  init := rfl
  chunkIndex := rfl
  chunkOffset := rfl
  ports := rfl

/-- **One chunk.** -/
theorem emit_spec (hoff : off < size - 1) (hlength : off ≤ bytes.length)
    (h : Before bytes off ports k r) (memory : Fin size → UInt8) :
    IsChunk bytes off k (r.emit memory).1.1 ∧ Before bytes off ports (k + 1) (r.emit memory).2 := by
  -- the position from which the chunk is read
  obtain ⟨fp, hfp, hbytes, hpos⟩ : ∃ fp, (if r.init then r.fp.fseekCur (-r.chunkOffset) else r.fp) = fp ∧
      fp.bytes = bytes ∧ fp.pos = startAt size off bytes.length k := by
    refine ⟨_, rfl, ?_⟩
    rw [h.init, h.chunkOffset]
    cases k with
    | zero => exact ⟨h.file, h.pos.trans startAt_zero.symm⟩
    | succ k =>
        have hback : off ≤ endAt size off bytes.length k := le_endAt hoff hlength k
        have hp : r.fp.pos = endAt size off bytes.length k := h.pos
        have hseek : ¬(r.fp.pos : Int) + -(off : Int) < 0 := by omega
        simp only [ne_eq, Nat.add_eq_zero_iff, one_ne_zero, and_false, not_false_eq_true, decide_true,
          if_true, File.fseekCur, hseek, if_false]
        refine ⟨h.file, ?_⟩
        rw [startAt_succ hoff, hp]
        omega
  have hread : (fp.fread (size - 1)).1 = (bytes.drop fp.pos).take (size - 1) := by
    rw [File.fread, hbytes]
  have hlen : (fp.fread (size - 1)).1.length = min (size - 1) (bytes.length - fp.pos) := by
    rw [hread, List.length_take, List.length_drop]
  have hstop : fp.pos + (fp.fread (size - 1)).1.length = endAt size off bytes.length k := by
    have hle : fp.pos ≤ bytes.length := hpos ▸ startAt_le
    rw [hlen, endAt, ← hpos]
    omega
  have hchunk : (r.emit memory).1.1 =
      { buffer := overwrite (fp.fread (size - 1)).1 memory, startPosition := fp.pos,
        length := (fp.fread (size - 1)).1.length, index := r.chunkIndex } := by
    simp only [emit, hfp]
  constructor
  · rw [hchunk]
    refine ⟨hpos, hstop, ?_, h.chunkIndex⟩
    show ((List.finRange size).map (overwrite _ memory)).take _ = _
    rw [take_overwrite _ _ (by rw [hlen]; omega), hread]
    show _ = (bytes.drop fp.pos).take ((bytes.drop fp.pos).take (size - 1)).length
    rw [List.take_eq_take_iff, List.length_take, List.length_drop]
    omega
  · refine ⟨?_, ?_, ?_, rfl, ?_, h.chunkOffset, h.ports⟩
    · simp only [emit, hfp]
      exact hbytes
    · simp only [emit, hfp]
      exact hstop
    · show r.iterations - 1 = _
      rw [h.iterations]
      omega
    · show r.chunkIndex + 1 = k + 1
      rw [h.chunkIndex]

/-- The chunks from `k` on, as sent. -/
def Chunks (bytes : List UInt8) (off k n : Nat) (sent : List (Filechunk size × RaftSignal)) : Prop :=
  List.Forall₂ (fun i s => IsChunk bytes off i s.1) (List.range' k n) sent

/-- How a run leaves the reader that has sent the chunks up to `k`: it has stopped exactly if it has sent
one chunk more than planned. -/
def Ended (bytes : List UInt8) (off ports k : Nat) (r : FileReader size) (status : Kstatus) : Prop :=
  Before bytes off ports k r ∧ k ≤ planned size bytes.length off + 1 ∧
    (status = .stop ↔ k = planned size bytes.length off + 1)

/-- **A run** sends the next chunks, one at least if a port has space. -/
theorem run_spec (hoff : off < size - 1) (hlength : off ≤ bytes.length) (space : Space size) :
    ∀ {k : Nat} {r : FileReader size}, Before bytes off ports k r → k ≤ planned size bytes.length off →
      ∃ n, Chunks bytes off k n (r.run space).1 ∧
        Ended bytes off ports (k + n) (r.run space).2.1 (r.run space).2.2 ∧
        ((∃ m, some m ∈ space) → 0 < n) := by
  induction space with
  | nil => exact fun h hk => ⟨0, .nil, ⟨h, by omega, by simp [run]; omega⟩, by simp⟩
  | cons port space ih =>
      intro k r h hk
      cases port with
      | none =>
          obtain ⟨n, hsent, hended, hpos⟩ := ih h hk
          exact ⟨n, hsent, hended, fun ⟨m, hm⟩ => hpos ⟨m, by simpa using hm⟩⟩
      | some memory =>
          obtain ⟨hchunk, hnext⟩ := emit_spec hoff hlength h memory
          have hiter := hnext.iterations
          by_cases hstop : (r.emit memory).2.iterations < 0
          · refine ⟨1, ?_, ⟨?_, ?_, ?_⟩, fun _ => Nat.one_pos⟩
            · simp only [run, hstop, if_true]
              exact .cons hchunk .nil
            · simp only [run, hstop, if_true]
              exact hnext
            · omega
            · simp only [run, hstop, if_true, true_iff]
              omega
          · obtain ⟨n, hsent, hended, -⟩ := ih hnext (by omega)
            refine ⟨n + 1, ?_, ?_, fun _ => Nat.succ_pos n⟩
            · simp only [run, hstop, if_false]
              exact .cons hchunk hsent
            · simp only [run, hstop, if_false]
              rwa [show k + (n + 1) = k + 1 + n by omega]

/-- **Successive runs.** -/
theorem runs_spec (hoff : off < size - 1) (hlength : off ≤ bytes.length) (spaces : List (Space size)) :
    ∀ {k : Nat} {r : FileReader size}, Before bytes off ports k r → k ≤ planned size bytes.length off →
      ∃ n, Chunks bytes off k n (r.runs spaces).1 ∧
        Ended bytes off ports (k + n) (r.runs spaces).2.1 (r.runs spaces).2.2 := by
  induction spaces with
  | nil => exact fun h hk => ⟨0, .nil, h, by omega, by simp [runs]; omega⟩
  | cons space spaces ih =>
      intro k r h hk
      obtain ⟨n, hsent, hended, -⟩ := run_spec hoff hlength space h hk
      rcases hrun : r.run space with ⟨sent, r', status⟩
      rw [hrun] at hsent hended
      cases status with
      | stop => exact ⟨n, by simpa only [runs, hrun] using hsent, by simpa only [runs, hrun] using hended⟩
      | proceed =>
          have hne : k + n ≠ planned size bytes.length off + 1 := fun hcon => by
            cases hended.2.2.mpr hcon
          obtain ⟨n', hsent', hended'⟩ := ih hended.1 (by have := hended.2.1; omega)
          refine ⟨n + n', ?_, ?_⟩
          · simp only [runs, hrun]
            rw [Chunks, ← List.range'_append_1]
            exact List.rel_append hsent hsent'
          · simp only [runs, hrun]
            rwa [← Nat.add_assoc]

end Sent

/-! ## Does the reader cover the file? -/

/-- What the chunks have to satisfy, whatever the space on the ports between the runs: they are pieces
of the file, each starts `off` bytes before the end of the one before it, and after the reader has
stopped every byte is in one of them. And the reader stops, if only there is space again and again. -/
structure Covers (size : Nat) (bytes : List UInt8) (off ports : Nat) : Prop where
  contents : ∀ spaces : List (Space size), (∀ space ∈ spaces, space.length = ports) →
    ∀ s ∈ ((make bytes off ports).runs spaces).1,
      s.1.startPosition + s.1.length ≤ bytes.length ∧
        s.1.contents = (bytes.drop s.1.startPosition).take s.1.length
  first : ∀ spaces : List (Space size), (∀ space ∈ spaces, space.length = ports) →
    ∀ s ∈ ((make bytes off ports).runs spaces).1.head?, s.1.startPosition = 0
  overlap : ∀ spaces : List (Space size), (∀ space ∈ spaces, space.length = ports) →
    ((make bytes off ports).runs spaces).1.IsChain fun s s' =>
      s'.1.startPosition + off = s.1.startPosition + s.1.length
  all : ∀ spaces : List (Space size), (∀ space ∈ spaces, space.length = ports) →
    ((make bytes off ports).runs spaces).2.2 = .stop → ∀ i < bytes.length,
      ∃ s ∈ ((make bytes off ports).runs spaces).1,
        s.1.startPosition ≤ i ∧ i < s.1.startPosition + s.1.length
  stops : ∀ spaces : Nat → Space size, (∀ n, (spaces n).length = ports) →
    (∀ n, ∃ m ≥ n, ∃ memory, some memory ∈ spaces m) →
      ∃ n, ((make bytes off ports).runs ((List.range n).map spaces)).2.2 = .stop

section Covers

variable {bytes : List UInt8} {off ports : Nat}

theorem Chunks.isChunk {k n : Nat} {sent : List (Filechunk size × RaftSignal)}
    (h : Chunks bytes off k n sent) {i : Nat} (hi : i < sent.length) :
    IsChunk bytes off (k + i) sent[i].1 := by
  have hlen : n = sent.length := by simpa using h.length_eq
  have := h.get (i := i) (by simpa [hlen] using hi) hi
  simpa using this

theorem Chunks.length {k n : Nat} {sent : List (Filechunk size × RaftSignal)}
    (h : Chunks bytes off k n sent) : sent.length = n := by
  simpa using h.length_eq.symm

/-- More runs send more, until the reader stops. -/
theorem runs_append (r : FileReader size) (spaces later : List (Space size)) :
    r.runs (spaces ++ later) =
      if (r.runs spaces).2.2 = .stop then r.runs spaces
      else ((r.runs spaces).1 ++ ((r.runs spaces).2.1.runs later).1,
        ((r.runs spaces).2.1.runs later).2) := by
  induction spaces generalizing r with
  | nil => simp [runs]
  | cons space spaces ih =>
      rw [List.cons_append]
      rcases hrun : r.run space with ⟨sent, r', status⟩
      cases status with
      | stop => simp [runs, hrun]
      | proceed =>
          simp only [runs, hrun, ih r']
          split
          · rfl
          · simp [List.append_assoc]

variable (hoff : off < size - 1) (hlength : off ≤ bytes.length)
include hoff hlength

/-- With space again and again, the reader stops after finitely many runs. -/
theorem exists_stop (spaces : Nat → Space size)
    (hspace : ∀ n, ∃ m ≥ n, ∃ memory, some memory ∈ spaces m) :
    ∃ n, ((make bytes off ports).runs ((List.range n).map spaces)).2.2 = .stop := by
  by_contra hcon
  simp only [not_exists] at hcon
  -- so the number of chunks sent grows without bound
  have hgrow : ∀ k, ∃ n, k ≤ ((make bytes off ports).runs ((List.range n).map spaces)).1.length := by
    intro k
    induction k with
    | zero => exact ⟨0, Nat.zero_le _⟩
    | succ k ih =>
        obtain ⟨n, hn⟩ := ih
        obtain ⟨m, hm, memory, hmem⟩ := hspace n
        refine ⟨m + 1, ?_⟩
        obtain ⟨n', hsent, hended⟩ := runs_spec hoff hlength
          ((List.range m).map spaces) before_make (Nat.zero_le _)
        have hk : k ≤ ((make bytes off ports).runs ((List.range m).map spaces)).1.length := by
          obtain ⟨d, rfl⟩ := Nat.exists_eq_add_of_le hm
          rw [List.range_add, List.map_append, runs_append, if_neg (hcon n), List.length_append]
          omega
        have hne : 0 + n' ≠ planned size bytes.length off + 1 := fun h => hcon m (hended.2.2.mpr h)
        obtain ⟨d, hsent', -, hd⟩ := run_spec hoff hlength (spaces m) hended.1
          (by have := hended.2.1; omega)
        have hd := hd ⟨memory, hmem⟩
        rw [List.range_succ, List.map_append, runs_append, if_neg (hcon m), List.length_append]
        have hone : ((make bytes off ports).runs ((List.range m).map spaces)).2.1.runs [spaces m] =
            ((make bytes off ports).runs ((List.range m).map spaces)).2.1.run (spaces m) := by
          rcases hr : ((make bytes off ports).runs ((List.range m).map spaces)).2.1.run (spaces m) with
            ⟨sent, r', status⟩
          cases status <;> simp [runs, hr]
        have hlen := hsent'.length
        simp only [List.map_cons, List.map_nil, hone]
        omega
  obtain ⟨n, hn⟩ := hgrow (planned size bytes.length off + 2)
  obtain ⟨n', hsent, hended⟩ := runs_spec hoff hlength ((List.range n).map spaces)
    (before_make : Before bytes off ports 0 (make bytes off ports)) (Nat.zero_le _)
  have := hsent.length
  have := hended.2.1
  omega

omit hlength in
/-- The last chunk ends where the file does, -/
theorem endAt_planned_iff : endAt size off bytes.length (planned size bytes.length off) = bytes.length ↔
    off = 0 ∨ bytes.length ≤ size - 1 + (bytes.length ⌈/⌉ (size - off)) * (size - 1 - off) := by
  rw [endAt_eq_iff hoff]
  by_cases hz : off = 0
  · have hle : bytes.length ≤ (size - 1) * (bytes.length ⌈/⌉ (size - 1)) :=
      (ceilDiv_le_iff_le_mul (by omega)).mp le_rfl
    simp only [hz, planned, true_or, iff_true, ne_eq, not_true_eq_false, if_false, Nat.sub_zero]
    rw [Nat.mul_comm] at hle
    omega
  · rw [planned, if_pos hz, show (size - 1) - (off - 1) = size - off by omega]
    simp [hz]

/-- as it does if the file is covered: the reader that always finds space stops, and then its last chunk
has the last byte; -/
theorem Covers.endAt_planned (hports : 1 ≤ ports) (h : Covers size bytes off ports) :
    endAt size off bytes.length (planned size bytes.length off) = bytes.length := by
  let spaces : Nat → Space size := fun _ => List.replicate ports (some fun _ => 0)
  have hsize : ∀ n, (spaces n).length = ports := fun n => List.length_replicate
  obtain ⟨n, hstop⟩ := h.stops spaces hsize fun n =>
    ⟨n, le_rfl, fun _ => 0, List.mem_replicate.mpr ⟨by omega, rfl⟩⟩
  have hsizes : ∀ space ∈ (List.range n).map spaces, space.length = ports := by
    intro space hspace
    obtain ⟨m, -, rfl⟩ := List.mem_map.mp hspace
    exact hsize m
  obtain ⟨n', hsent, hended⟩ := runs_spec hoff hlength ((List.range n).map spaces)
    before_make (Nat.zero_le _)
  by_contra hne
  have hlt : endAt size off bytes.length (planned size bytes.length off) < bytes.length :=
    lt_of_le_of_ne (Nat.min_le_right _ _) hne
  obtain ⟨s, hs, -, hi⟩ := h.all _ hsizes hstop _ hlt
  obtain ⟨j, hj, rfl⟩ := List.mem_iff_getElem.mp hs
  have hchunk := hsent.isChunk hj
  have hle : 0 + j ≤ planned size bytes.length off := by
    have := hsent.length
    have := hended.2.1
    omega
  have hmono : endAt size off bytes.length (0 + j) ≤
      endAt size off bytes.length (planned size bytes.length off) :=
    min_le_min (Nat.add_le_add_right (startAt_mono hle) _) le_rfl
  have := hchunk.stop
  omega

/-- and if it does, the file is covered. -/
theorem covers_of_endAt
    (hend : endAt size off bytes.length (planned size bytes.length off) = bytes.length) :
    Covers size bytes off ports := by
  have hspec := fun spaces : List (Space size) => runs_spec hoff hlength spaces
    (before_make : Before bytes off ports 0 (make bytes off ports)) (Nat.zero_le _)
  refine ⟨fun spaces _ s hs => ?_, fun spaces _ s hs => ?_, fun spaces _ => ?_,
    fun spaces _ hstop i hi => ?_, fun spaces _ => exists_stop hoff hlength spaces⟩
  · obtain ⟨n, hsent, -⟩ := hspec spaces
    obtain ⟨j, hj, rfl⟩ := List.mem_iff_getElem.mp hs
    have hchunk := hsent.isChunk hj
    exact ⟨hchunk.stop.trans_le (Nat.min_le_right _ _), hchunk.contents⟩
  · obtain ⟨n, hsent, -⟩ := hspec spaces
    cases hl : ((make bytes off ports).runs spaces).1 with
    | nil => simp [hl] at hs
    | cons s' rest =>
        rw [hl] at hs hsent
        obtain rfl : s' = s := by simpa using hs
        have hchunk := hsent.isChunk (i := 0) (Nat.zero_lt_succ _)
        simpa using hchunk.start
  · obtain ⟨n, hsent, -⟩ := hspec spaces
    rw [List.isChain_iff_getElem]
    intro i hi
    have hchunk := hsent.isChunk (i := i) (by omega)
    have hchunk' := hsent.isChunk (i := i + 1) hi
    have hback := le_endAt hoff hlength (0 + i)
    rw [hchunk'.start, ← Nat.add_assoc, startAt_succ hoff, hchunk.stop]
    omega
  · obtain ⟨n, hsent, hended⟩ := hspec spaces
    have hn := hended.2.2.mp hstop
    obtain ⟨j, hj, hstart, hstop'⟩ := exists_chunk hoff (hend.symm ▸ hi)
    have hjn : j < ((make bytes off ports).runs spaces).1.length := by
      have := hsent.length
      omega
    have hchunk := hsent.isChunk hjn
    rw [Nat.zero_add] at hchunk
    refine ⟨_, List.getElem_mem hjn, ?_, ?_⟩
    · rw [hchunk.start]
      exact hstart
    · rw [hchunk.stop]
      exact hstop'

end Covers

/-- **The reader covers the file exactly if the planned number of chunks, and one more, reach its end.**
Without an overlap they always do. -/
theorem filereader_covers_iff {bytes : List UInt8} {off ports : Nat} (hoff : off < size - 1)
    (hlength : off ≤ bytes.length) (hports : 1 ≤ ports) :
    Covers size bytes off ports ↔
      off = 0 ∨
        bytes.length ≤ size - 1 + (bytes.length ⌈/⌉ (size - off)) * (size - 1 - off) := by
  rw [← endAt_planned_iff hoff]
  exact ⟨fun h => h.endAt_planned hoff hlength hports, covers_of_endAt hoff hlength⟩

/-- Five bytes in chunks of three that overlap by one, over two ports. -/
theorem filereader_covers_five : Covers 4 [1, 2, 3, 4, 5] 1 2 :=
  (filereader_covers_iff (by decide) (by decide) (by decide)).mpr (by decide)

/-- Six bytes in chunks of two that overlap by one: three chunks are planned, four are sent, and the last
byte is in none of them. -/
theorem filereader_drops_tail : ¬Covers 3 [1, 2, 3, 4, 5, 6] 1 1 := by
  intro h
  have hall := h.all (List.replicate 4 [some fun _ => 0]) (by decide) (by decide) 5 (by decide)
  revert hall
  decide

end FileReader

end RaftLib.Kernels
