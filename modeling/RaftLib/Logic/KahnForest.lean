/-
# `RaftLib.Logic.KahnForest` -- networks without cycles come to their end

A network whose channels, taken without their direction, form no cycle. It is given by a root for each
of its parts: `up` is the channel of a process towards the root, and every channel is that of one of
its two ends (`Forest`).

If everybody waited for somebody, a process farthest from its root would wait for the one above it,
and that one would not be waiting for it in turn: both would wait at the same channel, one for an item
and one for a place. So it could be left out, and the same said of the others (`Forest.no_cycle`).
-/
import RaftLib.Logic.Kahn

namespace RaftLib.Logic.Kahn

open RaftLib.Logic.Confluence
open RaftLib.Logic.Steps

universe u v w x

variable {κ : Type u} {ι : Type v} {T : ι → Type w} {σ : κ → Type x}

/-- The channels between the processes form a forest. -/
structure Forest (src dst : ι → κ) where
  up : κ → Option ι
  depth : κ → Nat
  isUp : ∀ q, (up (src q) = some q ∧ depth (dst q) < depth (src q)) ∨
    (up (dst q) = some q ∧ depth (src q) < depth (dst q))

namespace Forest

variable {src dst : ι → κ} (F : Forest src dst)

include F in
/-- No process is both ends of a channel. -/
theorem src_ne_dst (q : ι) : src q ≠ dst q := by
  intro heq
  rcases F.isUp q with ⟨-, hlt⟩ | ⟨-, hlt⟩
  · rw [heq] at hlt
    exact lt_irrefl _ hlt
  · rw [heq] at hlt
    exact lt_irrefl _ hlt

/-- The channels of a process to others that are not deeper are all the one above it. -/
theorem up_src {q : ι} (h : F.depth (dst q) ≤ F.depth (src q)) : F.up (src q) = some q := by
  rcases F.isUp q with ⟨hup, -⟩ | ⟨-, hlt⟩
  · exact hup
  · omega

theorem up_dst {q : ι} (h : F.depth (src q) ≤ F.depth (dst q)) : F.up (dst q) = some q := by
  rcases F.isUp q with ⟨-, hlt⟩ | ⟨hup, -⟩
  · omega
  · exact hup

/-- At channel `q` of `k` waits either the receiver, for data, or the sender, for room; `j` is the
other end. -/
def WaitsFor (src dst : ι → κ) (data : ι → Prop) (k : κ) (q : ι) (j : κ) : Prop :=
  (dst q = k ∧ ¬data q ∧ src q = j) ∨ (src q = k ∧ data q ∧ dst q = j)

/-- Where a process waits for one that is not deeper, it waits at the channel above. -/
theorem up_of_waitsFor {data : ι → Prop} {k j : κ} {q : ι} (h : WaitsFor src dst data k q j)
    (hdepth : F.depth j ≤ F.depth k) : F.up k = some q := by
  rcases h with ⟨rfl, -, rfl⟩ | ⟨rfl, -, rfl⟩
  · exact F.up_dst hdepth
  · exact F.up_src hdepth

theorem up_of_waitsFor' {data : ι → Prop} {k j : κ} {q : ι} (h : WaitsFor src dst data k q j)
    (hdepth : F.depth k ≤ F.depth j) : F.up j = some q := by
  rcases h with ⟨rfl, -, rfl⟩ | ⟨rfl, -, rfl⟩
  · exact F.up_src hdepth
  · exact F.up_dst hdepth

include F in
/-- Two processes do not wait for each other at one channel. -/
theorem not_both {data : ι → Prop} {k j : κ} {q : ι} (h : WaitsFor src dst data k q j) :
    ¬WaitsFor src dst data j q k := by
  have hne := F.src_ne_dst q
  rintro (⟨hdst, hno, hsrc⟩ | ⟨hsrc, hyes, hdst⟩)
  · rcases h with ⟨hdst', -, hsrc'⟩ | ⟨-, hyes, -⟩
    · exact hne (hsrc'.trans hdst.symm)
    · exact hno hyes
  · rcases h with ⟨-, hno, -⟩ | ⟨hsrc', -, hdst'⟩
    · exact hno hyes
    · exact hne (hsrc.trans hdst'.symm)

include F in
/-- **Not everybody waits for somebody.** -/
theorem no_cycle [DecidableEq κ] (data : ι → Prop) (S : Finset κ) (hne : S.Nonempty) :
    ¬∀ k ∈ S, ∃ q, ∃ j ∈ S, WaitsFor src dst data k q j := by
  induction S using Finset.strongInduction with
  | H S ih =>
      intro hwait
      obtain ⟨k, hk, hmax⟩ := S.exists_max_image F.depth hne
      obtain ⟨q, j, hj, hq⟩ := hwait k hk
      have hup : F.up k = some q := F.up_of_waitsFor hq (hmax j hj)
      have hjk : j ≠ k := by
        rintro rfl
        exact F.not_both hq hq
      refine ih (S.erase k) (Finset.erase_ssubset hk) ⟨j, Finset.mem_erase.mpr ⟨hjk, hj⟩⟩ ?_
      intro i hmem
      obtain ⟨-, hi⟩ := Finset.mem_erase.mp hmem
      obtain ⟨q', j', hj', hq'⟩ := hwait i hi
      refine ⟨q', j', Finset.mem_erase.mpr ⟨?_, hj'⟩, hq'⟩
      -- nobody that is left waits for `k`: it would be the process above, at the same channel
      rintro rfl
      have hup' : F.up j' = some q' := F.up_of_waitsFor' hq' (hmax i hi)
      rw [hup] at hup'
      obtain rfl : q = q' := Option.some.inj hup'
      have hij : i = j := by
        rcases hq with ⟨hd, hno, hs⟩ | ⟨hs, hyes, hd⟩
        · rcases hq' with ⟨hd', -, hs'⟩ | ⟨-, hyes, -⟩
          · exact absurd (hs'.trans hd.symm) (F.src_ne_dst q)
          · exact absurd hyes hno
        · rcases hq' with ⟨-, hno, -⟩ | ⟨hs', -, hd'⟩
          · exact absurd hyes hno
          · exact absurd (hs.trans hd'.symm) (F.src_ne_dst q)
      subst hij
      exact F.not_both hq hq'

include F in
/-- The processes can be put into an order in which no channel leads backwards. -/
theorem exists_order [DecidableEq κ] (S : Finset κ) : ∃ order : List κ, order.Nodup ∧
    (∀ k, k ∈ order ↔ k ∈ S) ∧ order.Pairwise fun j k => ∀ q, src q = k → dst q ≠ j := by
  induction S using Finset.strongInduction with
  | H S ih =>
      rcases S.eq_empty_or_nonempty with rfl | hne
      · exact ⟨[], List.nodup_nil, fun k => by simp, .nil⟩
      · -- one that receives nothing from the others comes first
        obtain ⟨k, hk, hno⟩ : ∃ k ∈ S, ∀ q, dst q = k → src q ∉ S := by
          by_contra hall
          refine F.no_cycle (fun _ => False) S hne fun k hk => ?_
          by_contra hnot
          exact hall ⟨k, hk, fun q hq hsrc => hnot ⟨q, src q, hsrc, .inl ⟨hq, not_false, rfl⟩⟩⟩
        obtain ⟨order, hnodup, hmem, hforward⟩ := ih (S.erase k) (Finset.erase_ssubset hk)
        refine ⟨k :: order, List.nodup_cons.mpr ⟨fun h => ?_, hnodup⟩, fun j => ?_,
          List.pairwise_cons.mpr ⟨fun j hj q hsrc hdst => ?_, hforward⟩⟩
        · exact Finset.notMem_erase k S ((hmem k).mp h)
        · rw [List.mem_cons, hmem, Finset.mem_erase]
          by_cases hjk : j = k
          · subst hjk
            exact ⟨fun _ => hk, fun _ => .inl rfl⟩
          · exact ⟨fun h => (h.resolve_left hjk).2, fun h => .inr ⟨hjk, h⟩⟩
        · refine hno q hdst ?_
          rw [hsrc]
          exact Finset.mem_of_mem_erase ((hmem j).mp hj)

end Forest

namespace Net

variable [DecidableEq κ] [DecidableEq ι] [Fintype κ] {N : Net κ ι T σ} {s t u : State κ ι T σ}
  {ls ks : List κ} {room : ι → ℕ∞} {P : ∀ k, σ k → Prop}

/-- **No deadlock.** In a network without cycles somebody can go on until all have come to their
end, if with room enough the network comes to its end with everything received. -/
theorem not_stuck (F : Forest N.src N.dst) (hlast : N.LastWait P) (hroom : ∀ q, 0 < room q)
    (h : Run (N.Step ⊤) s ks u) (hu : ∀ k, N.Halted u k) (hd : ∀ q, ¬(u.chan q).HasData)
    (hs : Stuck (N.Step room) s) (k : κ) : N.Halted s k := by
  classical
  by_contra hk
  have hwait (j : κ) (hj : ¬N.Halted s j) : ∃ q, N.WaitsAt s j q :=
    waitsAt_of_blocked hlast hroom h hu hd hj (hs j)
  refine F.no_cycle (fun q => (s.chan q).HasData)
    (Finset.univ.filter fun j => ¬N.Halted s j) ⟨k, by simpa using hk⟩ fun j hj => ?_
  obtain ⟨q, hq⟩ := hwait j (by simpa using hj)
  rcases hq with ⟨hdst, hempty, hsrc⟩ | ⟨hsrc, hdata, hdst⟩
  · exact ⟨q, N.src q, by simpa using hsrc, .inl ⟨hdst, hempty, rfl⟩⟩
  · exact ⟨q, N.dst q, by simpa using hdst, .inr ⟨hsrc, hdata, rfl⟩⟩

/-- Where nobody can go on, the network is where it comes to with room enough. -/
theorem eq_of_stuck (F : Forest N.src N.dst) (hlast : N.LastWait P) (hroom : ∀ q, 0 < room q)
    (h : Run (N.Step ⊤) s ks u) (hu : ∀ k, N.Halted u k) (hd : ∀ q, ¬(u.chan q).HasData)
    (ht : Run (N.Step room) s ls t) (hstuck : Stuck (N.Step room) t) : t = u := by
  have hrest := ((N.commuting ⊤).complete (run_mono le_top ht) h (stuck_of_halted hu)).1
  have hall := not_stuck F hlast hroom hrest hu hd hstuck
  have hend : Stuck (N.Step ⊤) t := stuck_of_halted hall
  exact (hend.run_nil hrest).2.symm

/-- **Every run can be completed**, with whatever room there is in the channels: as with room enough. -/
theorem completes_of_forest (F : Forest N.src N.dst) (hlast : N.LastWait P) (hroom : ∀ q, 0 < room q)
    (h : Run (N.Step ⊤) s ks u) (hu : ∀ k, N.Halted u k) (hd : ∀ q, ¬(u.chan q).HasData)
    (ht : Run (N.Step room) s ls t) : ∃ ls', Run (N.Step room) t ls' u := by
  have hbound {ls : List κ} {t : State κ ι T σ} (ht : Run (N.Step room) s ls t) :
      ls.length ≤ ks.length :=
    (N.commuting ⊤).length_le (run_mono le_top ht) h (stuck_of_halted hu)
  -- by how many steps are left until the run is as long as the one that comes to its end
  obtain ⟨n, hn⟩ : ∃ n, ks.length = ls.length + n := ⟨_, (Nat.add_sub_cancel' (hbound ht)).symm⟩
  induction n generalizing t ls with
  | zero =>
      have hstuck : Stuck (N.Step room) t := by
        intro k t' hl
        have hlen := hbound (ht.append (.single hl))
        rw [List.length_append, List.length_singleton] at hlen
        omega
      obtain rfl := eq_of_stuck F hlast hroom h hu hd ht hstuck
      exact ⟨[], .nil _⟩
  | succ n ih =>
      by_cases hnext : ∃ k t', N.Step room t k t'
      · obtain ⟨k, t', hl⟩ := hnext
        have hlen : ks.length = (ls ++ [k]).length + n := by
          rw [List.length_append, List.length_singleton]
          omega
        obtain ⟨ls', hls'⟩ := ih (ht.append (.single hl)) hlen
        exact ⟨k :: ls', .cons hl hls'⟩
      · have hstuck : Stuck (N.Step room) t := fun k t' hl => hnext ⟨k, t', hl⟩
        obtain rfl := eq_of_stuck F hlast hroom h hu hd ht hstuck
        exact ⟨[], .nil _⟩

end Net

end RaftLib.Logic.Kahn
