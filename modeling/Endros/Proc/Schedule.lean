import Endros.Lib.Run
import Endros.Proc.Table

/-!
# The scheduler

`schedule` goes around the table from the slot behind the one that runs.  The flag is set
when the loop comes to that slot itself, which is the last one it looks at.  So the process
that is found is the nearest one in the direction of the loop (`Nearest`).

Fairness over a run of calls is a matter of distance.  As long as a process is ready and
another one is dispatched, the other one is on the way to it, and the distance that is left
gets smaller (`Nearest.closer`).  A process cannot be dispatched twice on the way.
-/

namespace Proc

open Lib

/-! ## A call -/

inductive Action where
  | run (i : Nat)
  /-- `sync_filesystem`. -/
  | sync
  | shutdown
deriving DecidableEq, Repr

/-- What `schedule` does when the slot `id` is running. -/
def scheduleActions (status : Nat → Status) (id : Nat) : List Action :=
  match scan status id (numProcs + 1) ((id + 1) % numProcs) false with
  | none => [.sync, .shutdown]
  | some i => [.run i]

/-- The process `t` is the first one that is ready at a distance of 1 to `NUM_PROCS` behind
`id`. -/
def Nearest (status : Nat → Status) (id t : Nat) : Prop :=
  ∃ d, 1 ≤ d ∧ d ≤ numProcs ∧ (id + d) % numProcs = t ∧ status t = .ready ∧
    ∀ e, 1 ≤ e → e < d → status ((id + e) % numProcs) ≠ .ready

section Scan

variable {status : Nat → Status} {id t : Nat}

/-- What the loop finds at a distance of `d` or more. -/
def ScanResult (status : Nat → Status) (id : Nat) : Option Nat → Prop
  | none => ∀ e, 1 ≤ e → e ≤ numProcs → status ((id + e) % numProcs) ≠ .ready
  | some t => Nearest status id t

/-- The slot itself is the last one. -/
theorem back_iff {d : Nat} (hid : id < numProcs) (hd : 1 ≤ d) (hle : d ≤ numProcs) :
    (id + d) % numProcs = id ↔ d = numProcs := by
  simp only [numProcs] at *
  omega

theorem scan_result (hid : id < numProcs) {fuel d : Nat} (hd : 1 ≤ d) (hfuel : fuel + d = numProcs + 2)
    (hbefore : ∀ e, 1 ≤ e → e < d → status ((id + e) % numProcs) ≠ .ready) (hle : d ≤ numProcs + 1) :
    ScanResult status id (scan status id fuel ((id + d) % numProcs) (decide (numProcs < d))) := by
  induction fuel generalizing d with
  | zero => omega
  | succ fuel ih =>
      rw [scan]
      by_cases hlast : numProcs < d
      · -- the loop is back at its beginning
        have hd' : d = numProcs + 1 := by omega
        have hback : (id + d) % numProcs = (id + 1) % numProcs := by
          rw [hd', Nat.add_comm numProcs 1, ← Nat.add_assoc, Nat.add_mod_right]
        rw [if_pos ⟨decide_eq_true hlast, hback⟩]
        exact fun e he hele => hbefore e he (by omega)
      · have hflag : ¬ (decide (numProcs < d) = true ∧ (id + d) % numProcs = (id + 1) % numProcs) :=
          fun h => hlast (of_decide_eq_true h.1)
        rw [if_neg hflag]
        by_cases hready : status ((id + d) % numProcs) = .ready
        · rw [if_pos hready]
          exact ⟨d, hd, by omega, rfl, hready, hbefore⟩
        · have hnext : ((id + d) % numProcs + 1) % numProcs = (id + (d + 1)) % numProcs := by
            rw [Nat.mod_add_mod, Nat.add_assoc]
          have hself : (decide (numProcs < d) || (id + d) % numProcs == id) =
              decide (numProcs < d + 1) := by
            have hback := back_iff hid hd (by omega)
            rw [decide_eq_false hlast, Bool.false_or, Bool.beq_eq_decide_eq, decide_eq_decide, hback]
            omega
          rw [if_neg hready, hnext, hself]
          refine ih (by omega) (by omega) (fun e he hlt => ?_) (by omega)
          rcases Nat.lt_succ_iff_lt_or_eq.mp hlt with hlt | rfl
          · exact hbefore e he hlt
          · exact hready

/-- Every slot is at some distance from another. -/
theorem exists_distance (hid : id < numProcs) {i : Nat} (hi : i < numProcs) :
    ∃ d, 1 ≤ d ∧ d ≤ numProcs ∧ (id + d) % numProcs = i := by
  simp only [numProcs] at *
  refine ⟨(i + (255 - id)) % 256 + 1, by omega, by omega, by omega⟩

/-- There is one distance from a slot to another. -/
theorem distance_unique {d e : Nat} (hd : 1 ≤ d) (hd' : d ≤ numProcs) (he : 1 ≤ e) (he' : e ≤ numProcs)
    (h : (id + d) % numProcs = (id + e) % numProcs) : d = e := by
  simp only [numProcs] at *
  omega

theorem Nearest.unique {t' : Nat} (h : Nearest status id t) (h' : Nearest status id t') : t = t' := by
  obtain ⟨d, hd, -, rfl, hready, hbefore⟩ := h
  obtain ⟨e, he, -, rfl, hready', hbefore'⟩ := h'
  rcases Nat.lt_trichotomy d e with hlt | rfl | hlt
  · exact absurd hready (hbefore' d hd hlt)
  · rfl
  · exact absurd hready' (hbefore e he hlt)

theorem Nearest.lt (h : Nearest status id t) : t < numProcs := by
  obtain ⟨d, -, -, rfl, -⟩ := h
  exact Nat.mod_lt _ (by decide)

theorem scheduleActions_cases (status : Nat → Status) (hid : id < numProcs) :
    (scheduleActions status id = [.sync, .shutdown] ∧ ∀ i, i < numProcs → status i ≠ .ready) ∨
      ∃ t, scheduleActions status id = [.run t] ∧ Nearest status id t := by
  have h : ScanResult status id (scan status id (numProcs + 1) ((id + 1) % numProcs) false) :=
    scan_result hid (Nat.le_refl 1) rfl (fun e he hlt => by omega) (by decide)
  rw [scheduleActions]
  cases hs : scan status id (numProcs + 1) ((id + 1) % numProcs) false with
  | none =>
      rw [hs] at h
      refine .inl ⟨rfl, fun i hi => ?_⟩
      obtain ⟨d, hd, hd', rfl⟩ := exists_distance hid hi
      exact h d hd hd'
  | some t =>
      rw [hs] at h
      exact .inr ⟨t, rfl, h⟩

/-- The process that is dispatched is the nearest one. -/
theorem scheduleActions_run_iff (hid : id < numProcs) :
    scheduleActions status id = [.run t] ↔ Nearest status id t := by
  rcases scheduleActions_cases status hid with ⟨hnone, hall⟩ | ⟨t', hrun, hnear⟩
  · rw [hnone]
    refine iff_of_false (by simp) fun h => ?_
    obtain ⟨d, -, -, rfl, hready, -⟩ := h
    exact hall _ (Nat.mod_lt _ (by decide)) hready
  · rw [hrun]
    constructor
    · intro h
      cases h
      exact hnear
    · intro h
      rw [hnear.unique h]

/-- The machine is shut down exactly if no process is ready. -/
theorem scheduleActions_shutdown_iff (hid : id < numProcs) :
    scheduleActions status id = [.sync, .shutdown] ↔ ∀ i, i < numProcs → status i ≠ .ready := by
  rcases scheduleActions_cases status hid with ⟨hnone, hall⟩ | ⟨t, hrun, hnear⟩
  · exact ⟨fun _ => hall, fun _ => hnone⟩
  · rw [hrun]
    refine iff_of_false (by simp) fun h => ?_
    obtain ⟨d, -, -, rfl, hready, -⟩ := hnear
    exact h _ (Nat.mod_lt _ (by decide)) hready

/-- `schedule` as a change of the kernel. -/
theorem schedule_eq {ω ρ : Type} (k : Kernel ω ρ) :
    (∀ i, scheduleActions (fun i => (k.table i).status) k.running = [.run i] → schedule k = some (k.run i)) ∧
    (scheduleActions (fun i => (k.table i).status) k.running = [.sync, .shutdown] → schedule k = none) := by
  rw [schedule, scheduleActions]
  cases hs : scan (fun i => (k.table i).status) k.running (numProcs + 1) ((k.running + 1) % numProcs) false with
  | none =>
      refine ⟨fun i h => ?_, fun _ => rfl⟩
      cases h
  | some t =>
      refine ⟨fun i h => ?_, fun h => ?_⟩
      · cases h
        rfl
      · cases h

end Scan

/-! ## Runs -/

/-- A step is a call of `schedule` with the statuses it finds, which dispatches a process. -/
def Dispatch (id : Nat) (status : Nat → Status) (t : Nat) : Prop :=
  scheduleActions status id = [.run t]

section Fair

variable {status : Nat → Status} {id t p q d : Nat} {r r₂ r₃ : List ((Nat → Status) × Nat)}

/-- A process that is passed over is nearer afterwards. -/
theorem Nearest.closer (h : Nearest status id t)
    (hq : (id + d) % numProcs = q) (hready : status q = .ready) (hd : 1 ≤ d) (hne : t ≠ q) :
    ∃ e, 1 ≤ e ∧ e < d ∧ (t + e) % numProcs = q := by
  obtain ⟨c, hc, -, rfl, -, hbefore⟩ := h
  subst hq
  -- the process found is not behind `q`
  have hle : c ≤ d := by
    by_contra hlt
    exact hbefore d hd (by omega) hready
  have hlt : c ≠ d := fun he => hne (by rw [he])
  refine ⟨d - c, by omega, by omega, ?_⟩
  rw [Nat.mod_add_mod]
  congr 1
  omega

/-- Along calls that find `q` ready and do not dispatch it, `q` gets nearer. -/
theorem closer_along (hid : id < numProcs) (hr : IsRun Dispatch id r) (hd : 1 ≤ d) (hd' : d ≤ numProcs)
    (hq : (id + d) % numProcs = q) (hready : ∀ e ∈ r, e.1 q = .ready) (hno : ∀ e ∈ r, e.2 ≠ q) :
    ∃ c, 1 ≤ c ∧ c ≤ d ∧ (r ≠ [] → c < d) ∧ (finalState id r + c) % numProcs = q := by
  induction r generalizing id d with
  | nil => exact ⟨d, hd, Nat.le_refl d, fun h => absurd rfl h, hq⟩
  | cons e r ih =>
      obtain ⟨status, t⟩ := e
      have hnear := (scheduleActions_run_iff hid).mp hr.1
      obtain ⟨c, hc, hlt, hc'⟩ := hnear.closer hq (hready _ List.mem_cons_self) hd
        (hno _ List.mem_cons_self)
      obtain ⟨c', h₁, h₂, -, h₃⟩ := ih hnear.lt hr.2 hc (by omega) hc'
        (fun e he => hready e (List.mem_cons_of_mem _ he)) (fun e he => hno e (List.mem_cons_of_mem _ he))
      exact ⟨c', h₁, by omega, fun _ => by omega, h₃⟩

/-- Between two dispatches of `p`, every process that is ready all the time has its turn. -/
theorem dispatched_between (hp : p < numProcs) {status' : Nat → Status}
    (hr : IsRun Dispatch p (r₂ ++ [(status', p)])) (hq : q < numProcs) (hne : q ≠ p)
    (hready : ∀ e ∈ r₂ ++ [(status', p)], e.1 q = .ready) : ∃ e ∈ r₂, e.2 = q := by
  by_contra hno
  have hno' : ∀ e ∈ r₂ ++ [(status', p)], e.2 ≠ q := by
    intro e he hq'
    rcases List.mem_append.mp he with he | he
    · exact hno ⟨e, he, hq'⟩
    · rw [List.mem_singleton.mp he] at hq'
      exact hne hq'.symm
  obtain ⟨d, hd, hd', hdq⟩ := exists_distance hp hq
  obtain ⟨c, hc, -, hlt, hcq⟩ := closer_along hp hr hd hd' hdq hready hno'
  have hlt := hlt (List.append_ne_nil_of_right_ne_nil _ (List.cons_ne_nil _ _))
  rw [finalState_append] at hcq
  have heq := distance_unique hc (by omega) hd hd' (hcq.trans hdq.symm)
  omega

end Fair

/-- `schedule` is a round robin: it dispatches the nearest process that is ready, shuts down
exactly if there is none, and between two dispatches of a process every other one that is
ready at all the calls in between has its turn. -/
theorem schedule_round_robin :
    (∀ status id, id < numProcs →
      (∀ t, scheduleActions status id = [.run t] ↔ Nearest status id t) ∧
      (scheduleActions status id = [.sync, .shutdown] ↔ ∀ i, i < numProcs → status i ≠ .ready)) ∧
    ∀ (id p q : Nat) (r₁ r₂ r₃ : List ((Nat → Status) × Nat)) (status status' : Nat → Status), id < numProcs →
      IsRun Dispatch id (r₁ ++ (status, p) :: (r₂ ++ (status', p) :: r₃)) → q < numProcs → q ≠ p →
      (∀ e ∈ r₂ ++ [(status', p)], e.1 q = .ready) → ∃ e ∈ r₂, e.2 = q := by
  refine ⟨fun status id hid => ⟨fun t => scheduleActions_run_iff hid, scheduleActions_shutdown_iff hid⟩,
    fun id p q r₁ r₂ r₃ status status' hid hr hq hne hready => ?_⟩
  have hsplit : r₁ ++ (status, p) :: (r₂ ++ (status', p) :: r₃) =
      (r₁ ++ [(status, p)]) ++ ((r₂ ++ [(status', p)]) ++ r₃) := by
    simp only [List.append_assoc, List.cons_append, List.nil_append]
  rw [hsplit] at hr
  have hlt : ∀ s status t, s < numProcs → Dispatch s status t → t < numProcs :=
    fun s status t hs ht => ((scheduleActions_run_iff hs).mp ht).lt
  have hp : finalState id (r₁ ++ [(status, p)]) = p := finalState_append id r₁ _
  have hp' := (hr.take.invariant hlt hid).final
  rw [hp] at hp'
  have hrun := hr.drop.take
  rw [hp] at hrun
  exact dispatched_between hp' hrun hq hne hready

/-- The processes 0 and 1 are always ready, and have their turns. -/
theorem schedule_round_robin_two :
    let status : Nat → Status := fun i => if i < 2 then .ready else .unused
    (scheduleActions status 0 = [.run 1] ∧ scheduleActions status 1 = [.run 0]) ∧
      ∃ e ∈ [(status, 1)], e.2 = 1 := by
  intro status
  have h₀ : scheduleActions status 0 = [.run 1] := by decide +kernel
  have h₁ : scheduleActions status 1 = [.run 0] := by decide +kernel
  exact ⟨⟨h₀, h₁⟩, schedule_round_robin.2 1 0 1 [] [(status, 1)] [] status status (by decide)
    ⟨h₁, h₀, h₁, trivial⟩ (by decide) (by decide) (by simp [status])⟩

end Proc
