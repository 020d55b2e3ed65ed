/-
# `RaftLib.Kernels.FileSignals` -- the signals that `filereader` sends with its chunks

`FileReader.run` again, with the output port that each chunk goes to. The reader compares its countdown
with the number of ports as `std::size_t`s, so a countdown below that number is taken for a huge one:
`eof` goes with a single chunk of the whole run, the one sent when as many chunks are left as there are
ports. One more is sent than planned, so that is never the last one (`not_eofLast`).
-/
import RaftLib.Kernels.FileReader

namespace RaftLib.Kernels

open RaftLib.Queue (RaftSignal Kstatus)

namespace FileReader

variable {size : Nat}

/-- A chunk, its signal, and the port it is sent on. -/
abbrev SentOn (size : Nat) := Nat × Filechunk size × RaftSignal

/-! ## The ports -/

/-- `run`, from port `port` on. -/
def runOn (r : FileReader size) (port : Nat) : Space size → List (SentOn size) × FileReader size × Kstatus
  | [] => ([], r, .proceed)
  -- no space on this port
  | none :: ports => runOn r (port + 1) ports
  | some memory :: ports =>
      let (sent, r') := r.emit memory
      if r'.iterations < 0 then ([(port, sent)], r', .stop)
      else
        let (rest, r'', status) := runOn r' (port + 1) ports
        ((port, sent) :: rest, r'', status)

/-- Successive runs, until one returns stop. -/
def runsOn (r : FileReader size) :
    List (Space size) → List (SentOn size) × FileReader size × Kstatus
  | [] => ([], r, .proceed)
  | space :: later =>
      match r.runOn 0 space with
      | (sent, r', .stop) => (sent, r', .stop)
      | (sent, r', .proceed) =>
          let (rest, r'', status) := runsOn r' later
          (sent ++ rest, r'', status)

/-- It is `run` that is looked at, port by port. -/
theorem runOn_run (space : Space size) : ∀ (r : FileReader size) (port : Nat),
    ((r.runOn port space).1.map Prod.snd, (r.runOn port space).2) = r.run space := by
  induction space with
  | nil => exact fun _ _ => rfl
  | cons place space ih =>
      intro r port
      cases place with
      | none => exact ih r (port + 1)
      | some memory =>
          have hrest := ih (r.emit memory).2 (port + 1)
          by_cases hstop : (r.emit memory).2.iterations < 0
          · simp only [runOn, run, hstop, if_true, List.map_cons, List.map_nil]
          · simp only [runOn, run, hstop, if_false, List.map_cons, ← hrest]

theorem runsOn_runs (spaces : List (Space size)) : ∀ r : FileReader size,
    ((r.runsOn spaces).1.map Prod.snd, (r.runsOn spaces).2) = r.runs spaces := by
  induction spaces with
  | nil => exact fun _ => rfl
  | cons space spaces ih =>
      intro r
      have hrun := runOn_run space r 0
      rcases hon : r.runOn 0 space with ⟨sent, r', status⟩
      rw [hon] at hrun
      cases status with
      | stop => simp only [runsOn, runs, hon, ← hrun]
      | proceed => simp only [runsOn, runs, hon, ← hrun, List.map_append, ← ih r']

/-! ## The signals -/

/-- What the chunks sent on the ports are to carry: on each port the last one `eof`, the others none,
and each port is to get one `eof` if there are as many chunks as ports. -/
structure EofLast (ports : Nat) (sent : List (SentOn size)) : Prop where
  last : ∀ port < ports, ∀ s ∈ (sent.filter fun s => s.1 = port).getLast?, s.2.2 = RaftSignal.eof
  others : ∀ port < ports, ∀ s ∈ (sent.filter fun s => s.1 = port).dropLast, s.2.2 = RaftSignal.none
  once : ports ≤ sent.length → ∀ port < ports,
    (sent.filter fun s => s.1 = port ∧ s.2.2 = RaftSignal.eof).length = 1

/-- **The signal of one chunk** is `eof` if the countdown is the number of ports, and none otherwise. -/
theorem emit_signal (r : FileReader size) (memory : Fin size → UInt8) (hlow : 0 ≤ r.iterations)
    (hhigh : r.iterations < 2 ^ 63) (hports : r.ports < 2 ^ 64) :
    (r.emit memory).1.2 = if r.iterations = r.ports then RaftSignal.eof else RaftSignal.none := by
  show (if (r.iterations - r.ports) % 2 ^ 64 > 0 then RaftSignal.none else RaftSignal.eof) = _
  by_cases heq : r.iterations = r.ports
  · rw [if_pos heq, heq, Int.sub_self, Int.zero_emod, if_neg (Int.lt_irrefl 0)]
  · -- below the number of ports the difference wraps round
    rw [if_neg heq, if_pos]
    omega

/-- The chunks sent by a reader that has become `r'`: on ports below `bound`, with `eof` on the one sent
when the countdown was the number of ports, and the countdown one lower for each. -/
structure Signalled (r : FileReader size) (bound : Nat) (sent : List (SentOn size)) (r' : FileReader size)
    (status : Kstatus) : Prop where
  port : ∀ s ∈ sent, s.1 < bound
  signal : ∀ (i : Nat) (s : SentOn size), sent[i]? = some s →
    s.2.2 = if r.iterations - i = r.ports then RaftSignal.eof else RaftSignal.none
  iterations : r'.iterations = r.iterations - sent.length
  ports : r'.ports = r.ports
  low : -1 ≤ r'.iterations
  stop : status = .stop ↔ r'.iterations < 0

theorem Signalled.nil {r : FileReader size} {bound : Nat} (hlow : 0 ≤ r.iterations) :
    Signalled r bound [] r .proceed where
  port _ h := nomatch h
  signal _ _ h := nomatch h
  iterations := by simp
  ports := rfl
  low := by omega
  stop := ⟨(nomatch ·), fun h => absurd hlow (by omega)⟩

/-- What is sent after something else has been. -/
theorem Signalled.append {r r₁ r₂ : FileReader size} {bound : Nat} {sent₁ sent₂ : List (SentOn size)}
    {status₁ status₂ : Kstatus} (h₁ : Signalled r bound sent₁ r₁ status₁)
    (h₂ : Signalled r₁ bound sent₂ r₂ status₂) : Signalled r bound (sent₁ ++ sent₂) r₂ status₂ where
  port s hs := (List.mem_append.mp hs).elim (h₁.port s) (h₂.port s)
  signal i s hs := by
    have hiter := h₁.iterations
    rcases Nat.lt_or_ge i sent₁.length with hi | hi
    · rw [List.getElem?_append_left hi] at hs
      exact h₁.signal i s hs
    · rw [List.getElem?_append_right hi] at hs
      have hsig := h₂.signal _ s hs
      rw [h₁.ports, hiter, Int.natCast_sub hi] at hsig
      rwa [show r.iterations - i = r.iterations - sent₁.length - (i - sent₁.length) by omega]
  iterations := by
    have hiter₁ := h₁.iterations
    have hiter₂ := h₂.iterations
    rw [List.length_append]
    omega
  ports := h₂.ports.trans h₁.ports
  low := h₂.low
  stop := h₂.stop

section Sent

variable {r : FileReader size} (hlow : 0 ≤ r.iterations) (hhigh : r.iterations < 2 ^ 63)
  (hports : r.ports < 2 ^ 64)

include hlow hhigh hports

/-- One chunk. -/
theorem emit_signalled (memory : Fin size → UInt8) {port bound : Nat} (hport : port < bound) :
    Signalled r bound [(port, (r.emit memory).1)] (r.emit memory).2
      (if (r.emit memory).2.iterations < 0 then .stop else .proceed) where
  port s hs := List.mem_singleton.mp hs ▸ hport
  signal i s hs := by
    obtain ⟨rfl, rfl⟩ : i = 0 ∧ s = (port, (r.emit memory).1) := by
      cases i with
      | zero => exact ⟨rfl, (Option.some_inj.mp hs).symm⟩
      | succ i => exact nomatch hs
    rw [emit_signal r memory hlow hhigh hports, Int.natCast_zero, Int.sub_zero]
  iterations := rfl
  ports := rfl
  low := by
    show -1 ≤ r.iterations - 1
    omega
  stop := by
    by_cases hend : (r.emit memory).2.iterations < 0
    · simp [hend]
    · simp [hend]

omit hlow hhigh hports in
/-- **A run.** -/
theorem runOn_signalled (space : Space size) : ∀ {r : FileReader size} {port bound : Nat},
    0 ≤ r.iterations → r.iterations < 2 ^ 63 → r.ports < 2 ^ 64 → port + space.length ≤ bound →
    Signalled r bound (r.runOn port space).1 (r.runOn port space).2.1 (r.runOn port space).2.2 := by
  induction space with
  | nil => exact fun hlow _ _ _ => .nil hlow
  | cons place space ih =>
      intro r port bound hlow hhigh hports hbound
      rw [List.length_cons] at hbound
      cases place with
      | none => exact ih hlow hhigh hports (by omega)
      | some memory =>
          have hone := emit_signalled hlow hhigh hports memory (show port < bound by omega)
          by_cases hend : (r.emit memory).2.iterations < 0
          · simp only [runOn, hend, if_true] at hone ⊢
            exact hone
          · simp only [runOn, hend, if_false] at hone ⊢
            have hiter := hone.iterations
            refine hone.append (ih (Int.not_lt.mp hend) ?_ hports (by omega))
            rw [hiter]
            omega

omit hlow hhigh hports in
/-- **Successive runs.** -/
theorem runsOn_signalled (spaces : List (Space size)) : ∀ {r : FileReader size},
    0 ≤ r.iterations → r.iterations < 2 ^ 63 → r.ports < 2 ^ 64 →
    (∀ space ∈ spaces, space.length = r.ports) →
    Signalled r r.ports (r.runsOn spaces).1 (r.runsOn spaces).2.1 (r.runsOn spaces).2.2 := by
  induction spaces with
  | nil => exact fun hlow _ _ _ => .nil hlow
  | cons space spaces ih =>
      intro r hlow hhigh hports hspaces
      have hone := runOn_signalled space hlow hhigh hports
        (show 0 + space.length ≤ r.ports by rw [Nat.zero_add, hspaces space List.mem_cons_self])
      rcases hon : r.runOn 0 space with ⟨sent, r', status⟩
      rw [hon] at hone
      cases status with
      | stop => simpa only [runsOn, hon] using hone
      | proceed =>
          simp only [runsOn, hon]
          have hlow' : ¬r'.iterations < 0 := fun h => nomatch hone.stop.mpr h
          have hiter : r'.iterations = r.iterations - sent.length := hone.iterations
          have hmore := ih (r := r') (by omega) (by omega) (hone.ports ▸ hports) fun space hmem =>
            (hspaces space (List.mem_cons_of_mem _ hmem)).trans hone.ports.symm
          rw [hone.ports] at hmore
          exact hone.append hmore

end Sent

/-- The last chunk of a whole run carries no signal: it is sent when the countdown is zero. -/
theorem Signalled.getLast {r r' : FileReader size} {bound : Nat} {sent : List (SentOn size)}
    (h : Signalled r bound sent r' .stop) (hlow : 0 ≤ r.iterations) :
    ∃ s, sent.getLast? = some s ∧ s.1 < bound ∧
      s.2.2 = if r.ports = 0 then RaftSignal.eof else RaftSignal.none := by
  have hend := h.stop.mp rfl
  have hiter := h.iterations
  have hlast := h.low
  have hlength : (sent.length : Int) = r.iterations + 1 := by omega
  have hne : sent ≠ [] := fun hnil => by
    rw [hnil, List.length_nil] at hlength
    omega
  refine ⟨sent.getLast hne, List.getLast?_eq_getLast_of_ne_nil hne, h.port _ (List.getLast_mem hne), ?_⟩
  have hget : sent[sent.length - 1]? = some (sent.getLast hne) := by
    rw [← List.getLast?_eq_getElem?, List.getLast?_eq_getLast_of_ne_nil hne]
  rw [h.signal _ _ hget]
  -- the run stops when the countdown has passed zero, so the last chunk was sent at zero
  have hzero : r.iterations - ((sent.length - 1 : Nat) : Int) = 0 := by omega
  rw [hzero]
  exact if_congr ⟨fun h => by omega, fun h => by omega⟩ rfl rfl

theorem planned_le (length chunkOffset : Nat) : planned size length chunkOffset ≤ length := by
  have hceil : ∀ step : Nat, length ⌈/⌉ step ≤ length := fun step => by
    rcases Nat.eq_zero_or_pos step with rfl | hpos
    · rw [ceilDiv_zero]
      exact Nat.zero_le length
    · exact (ceilDiv_le_iff_le_mul hpos).mpr (Nat.le_mul_of_pos_left length hpos)
  unfold planned
  split <;> exact hceil _

/-- A run that has ended, from any countdown. -/
theorem not_eofLast_of_run {r : FileReader size} (hlow : 0 ≤ r.iterations) (hhigh : r.iterations < 2 ^ 63)
    (hports : r.ports < 2 ^ 64) {spaces : List (Space size)} (hspaces : ∀ space ∈ spaces, space.length = r.ports)
    (hstop : (r.runsOn spaces).2.2 = .stop) : ¬EofLast r.ports (r.runsOn spaces).1 := by
  have hsent := runsOn_signalled spaces hlow hhigh hports hspaces
  rw [hstop] at hsent
  obtain ⟨s, hs, hport, hsignal⟩ := hsent.getLast hlow
  replace hsignal := hsignal.trans (if_neg (Nat.ne_of_gt ((Nat.zero_le _).trans_lt hport)))
  obtain ⟨before, hbefore⟩ := List.getLast?_eq_some_iff.mp hs
  intro hlast
  have heof := hlast.last s.1 hport s (by
    rw [hbefore, List.filter_append, List.filter_singleton, decide_eq_true rfl, cond_true,
      List.getLast?_concat]
    rfl)
  exact absurd (hsignal.symm.trans heof) (by decide)

/-- The reader with another countdown. -/
def startingAt (r : FileReader size) (n : Int) : FileReader size := { r with iterations := n }

/-- **`eof` never goes with the last chunk**, whatever the countdown starts at. -/
theorem not_eofLast {bytes : List UInt8} (off : Nat) {ports : Nat} (hlength : bytes.length < 2 ^ 63)
    (hports : ports < 2 ^ 64) {spaces : List (Space size)} (hspaces : ∀ space ∈ spaces, space.length = ports) :
    (((make bytes off ports : FileReader size).runsOn spaces).2.2 = .stop →
      ¬EofLast ports ((make bytes off ports : FileReader size).runsOn spaces).1) ∧
    ∀ n : Int, 0 ≤ n → n < 2 ^ 63 →
      (((make bytes off ports : FileReader size).startingAt n).runsOn spaces).2.2 = .stop →
      ¬EofLast ports (((make bytes off ports : FileReader size).startingAt n).runsOn spaces).1 := by
  refine ⟨fun hstop => ?_, fun n hlow hhigh hstop => ?_⟩
  · have hhigh : (make bytes off ports : FileReader size).iterations < 2 ^ 63 :=
      Int.ofNat_lt.mpr ((planned_le _ _).trans_lt hlength)
    exact not_eofLast_of_run (r := make bytes off ports) (Int.natCast_nonneg _) hhigh hports hspaces hstop
  · exact not_eofLast_of_run (r := (make bytes off ports).startingAt n) hlow hhigh hports hspaces hstop

/-- A file of one byte, read into one port, and the same with one chunk fewer planned. -/
theorem not_eofLast_byte :
    ¬EofLast 1 ((make [7] 0 1 : FileReader 4).runsOn [[some fun _ => 0], [some fun _ => 0]]).1 ∧
    ¬EofLast 1 (((make [7] 0 1 : FileReader 4).startingAt 0).runsOn
      [[some fun _ => 0], [some fun _ => 0]]).1 := by
  constructor
  · exact (not_eofLast 0 (by decide) (by decide) (by decide)).1 (by decide)
  · exact (not_eofLast 0 (by decide) (by decide) (by decide)).2 0 (by decide) (by decide) (by decide)

/-- It goes with the first of the two chunks there, the only one that holds a byte; the second is empty. -/
theorem eof_with_first :
    ((make [7] 0 1 : FileReader 4).runsOn [[some fun _ => 0], [some fun _ => 0]]).1.map
        (fun s => (s.1, s.2.1.contents, s.2.2)) = [(0, [7], .eof), (0, [], .none)] ∧
      ¬EofLast 1 ((make [7] 0 1 : FileReader 4).runsOn [[some fun _ => 0], [some fun _ => 0]]).1 :=
  ⟨by decide, fun h => absurd (h.others 0 (by decide) _ (List.mem_cons_self)) (by decide)⟩

end FileReader

end RaftLib.Kernels
