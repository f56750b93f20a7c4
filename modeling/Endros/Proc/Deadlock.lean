import Mathlib.Logic.Relation
import Endros.Proc.Parents

/-!
# Processes that wait for each other

A blocked process waits for a child, which may be blocked as well.  The waits can go in a
circle: a child that is put into the slot of its grandparent finds its own parent among its
children.  `schedule` looks for a process that is ready and not for those that are blocked, so
the machine is shut down then with both of them asleep (`mutual_wait`).

If every `waitpid` is for a process that is there and is younger than the caller, then pids grow
along the waits, and the last one is for a process that is awake.
-/

namespace Proc

open Lib

variable {ω ρ α : Type}

/-- A `waitpid` that finds a slot finds a process in it, younger than the caller. -/
def WaitsForYounger (k : Kernel ω ρ) (e : Event α) (_ : Kernel ω ρ) : Prop :=
  match e with
  | .waitpid pid => ∀ i, findChild k pid numProcs = some i →
      (k.table i).status ≠ .unused ∧ (k.table k.running).pid < (k.table i).pid
  | _ => True

instance (k : Kernel ω ρ) (e : Event α) (k' : Kernel ω ρ) : Decidable (WaitsForYounger k e k') :=
  match e with
  | .waitpid pid => inferInstanceAs (Decidable (∀ i ∈ findChild k pid numProcs,
      (k.table i).status ≠ .unused ∧ (k.table k.running).pid < (k.table i).pid))
  | .fork | .exit _ | .yield | .call _ => .isTrue trivial

/-- Every blocked process waits, over others that are blocked, for one that is awake. -/
def WaitsEnd (k : Kernel ω ρ) : Prop :=
  ∀ p < numProcs, (k.table p).status = .blocked →
    ∃ i, Relation.TransGen (fun p i => (k.role i).Awaited p) p i ∧
      ((k.table i).status = .ready ∨ (k.table i).status = .running)

/-- Who is waited for is younger than who waits. -/
def Younger (r : Nat → Role) : Prop :=
  ∀ i p, (r i).parent = some p → (r i).waited = true → (r i).mode ≠ .free → (r p).pid < (r i).pid

theorem exists_last_wait {r : Nat → Role} {n : Int} (hw : WakeableRoles r) (hy : Younger r)
    (hn : ∀ i, (r i).pid < n) {p : Nat} (hp : p < numProcs) (hb : (r p).mode = .blocked) :
    ∃ i, Relation.TransGen (fun p i => (r i).Awaited p) p i ∧ (r i).mode = .awake := by
  -- the pids grow, and they are below `n`
  induction hd : (n - (r p).pid).toNat using Nat.strongRecOn generalizing p with
  | _ d ih =>
      obtain ⟨i, hi, ha⟩ := hw p hp hb
      rcases ha.2.2 with hm | hm
      · exact ⟨i, .single ha, hm⟩
      · have hlt := hy i p ha.1 ha.2.1 (by rw [hm]; decide)
        have hin := hn i
        obtain ⟨j, hj, hm'⟩ := ih _ (by omega) hi hm rfl
        exact ⟨j, .head ha hj, hm'⟩

/-! ## One step -/

section Step

variable {k k' : Kernel ω ρ} {e : Event α}

/-- A slot is changed that is waited for afterwards only if it was before. -/
theorem Younger.change {r : Nat → Role} {j : Nat} {f : Role → Role} (hy : Younger r)
    (hpid : (f (r j)).pid = (r j).pid) (hpar : (f (r j)).parent = (r j).parent)
    (hf : (f (r j)).waited = true → (f (r j)).mode ≠ .free → (r j).waited = true ∧ (r j).mode ≠ .free) :
    Younger (changeRole r j f) := by
  intro i p hp hw hm
  have hsame : (changeRole r j f p).pid = (r p).pid :=
    changeRole_rel (P := fun x y => y.pid = x.pid) (fun _ => rfl) hpid p
  rw [hsame]
  by_cases hij : i = j
  · subst hij
    rw [changeRole_self] at hp hw hm ⊢
    obtain ⟨hw', hm'⟩ := hf hw hm
    rw [hpid]
    exact hy i p (hpar.symm.trans hp) hw' hm'
  · rw [changeRole_of_ne hij] at hp hw hm ⊢
    exact hy i p hp hw hm

/-- The parent of a process that is waited for is blocked. -/
theorem Sched.parent_blocked (h : Sched k) {i p : Nat} (hpar : (k.role i).parent = some p)
    (hwt : (k.role i).waited = true) (hm : (k.role i).mode ≠ .free) : (k.role p).mode = .blocked := by
  obtain ⟨o, ho⟩ := h.hist
  obtain ⟨q, hq, hblk, -⟩ := ho.waited i hwt fun hu => hm (mode_free_iff.mpr hu)
  obtain rfl : p = q := Option.some.inj (hpar.symm.trans hq)
  exact mode_blocked_iff.mpr hblk

theorem Change.younger (h : Sched k) (hy : Younger k.role) (hc : Change k k' e)
    (hl : WaitsForYounger k e k') : Younger k'.role := by
  cases hc with
  | quiet _ hr _ =>
      rw [hr]
      exact hy
  | @fork j hj hr _ =>
      rw [hr]
      intro i p hpar hw hm
      by_cases hij : i = j
      · subst hij
        rw [changeRole_self] at hw
        cases hw
      · rw [changeRole_of_ne hij] at hpar hw hm ⊢
        have hpj : p ≠ j := by
          rintro rfl
          have hb := h.parent_blocked hpar hw hm
          rw [hj] at hb
          cases hb
        rw [changeRole_of_ne hpj]
        exact hy i p hpar hw hm
  | zombie hwt hr _ =>
      rw [hr]
      refine hy.change rfl rfl fun hw => ?_
      rw [hwt] at hw
      cases hw
  | reap _ _ hr _ =>
      rw [hr]
      exact hy.change rfl rfl fun _ hm => absurd rfl hm
  | wake hwt hq hr _ =>
      rw [hr]
      refine (hy.change rfl rfl fun hw _ => ⟨hw, ?_⟩).change rfl rfl fun _ hm => absurd rfl hm
      rw [h.parent_blocked hq hwt (by rw [h.awake]; decide)]
      decide
  | @block pid i hi _ hr _ =>
      intro j p hp hw hm
      simp only [block_role hr] at hp hw hm ⊢
      by_cases hj : j = i
      · subst hj
        cases (findChild_spec hi).2.symm.trans hp
        exact (hl j hi).2
      · rw [if_neg hj] at hw
        refine hy j p hp hw fun hf => hm ?_
        rw [if_neg, hf]
        rintro rfl
        rw [h.awake] at hf
        cases hf

end Step

/-! ## Runs -/

/-- No circle of waits.  Whatever the processes do, every blocked process waits in the end for
one that is awake, as long as every `waitpid` of the run is for a younger process. -/
theorem run_waitsEnd (M : Machine ω ρ α) (world : ω) (res : Nat → ρ) (r : List (Event α × Kernel ω ρ))
    (hr : IsRun (fun k e k' => step M k e = some k') (boot world res) r)
    (hw : EveryStep WaitsForYounger (boot world res) r) : EveryState WaitsEnd (boot world res) r := by
  have hinv := hr.everyState (C := WaitsForYounger)
    (I := fun k => Settled k ∧ Wakeable k ∧ Younger k.role) (fun k e k' h hs hl => ?_)
    ⟨boot_settled world res, ?_, ?_⟩ hw
  · refine hinv.mono fun k h p hp hb => ?_
    obtain ⟨hs, hwake, hy⟩ := h
    obtain ⟨i, hi, hm⟩ := exists_last_wait (wakeable_iff.mp hwake) hy hs.pid_lt hp (mode_blocked_iff.mpr hb)
    exact ⟨i, hi, mode_awake_iff.mp hm⟩
  · obtain ⟨hs', hiff⟩ := step_wakeable h.1 h.2.1 hs
    refine ⟨hs', hiff.mpr ?_, (step_change h.1.awake hs).younger h.1.toSched h.2.2 hl⟩
    cases e with
    | waitpid pid => exact fun i hi => (hl i hi).1
    | fork | exit | yield | call => trivial
  · intro p _ hb
    cases p <;> cases hb
  · intro i p hpar
    cases hpar

/-- `init` waits for its child, which waits for its own. -/
theorem run_waitsEnd_chain : ∃ r ∈ runOf (step noMachine) bootUnit [.fork, .waitpid 2, .fork, .waitpid 3],
    ((finalState bootUnit r).table 0).status = .blocked ∧
    ((finalState bootUnit r).table 1).status = .blocked ∧ EveryState WaitsEnd bootUnit r := by
  obtain ⟨r, hr, h₀, h₁, hw⟩ : ∃ r ∈ runOf (step noMachine) bootUnit [.fork, .waitpid 2, .fork, .waitpid 3],
      ((finalState bootUnit r).table 0).status = .blocked ∧
      ((finalState bootUnit r).table 1).status = .blocked ∧ EveryStep WaitsForYounger bootUnit r := by
    decide +kernel
  exact ⟨r, hr, h₀, h₁, run_waitsEnd noMachine () _ r (isRun_runOf hr) hw⟩

/-- The process 4 is put into the slot of the process 2, which has made the process 3.  So 4 can
wait for 3, which waits for 4.  The exit of `init` then shuts the machine down. -/
theorem mutual_wait : ∃ r ∈ runOf (step noMachine) bootUnit
      [.fork, .yield, .fork, .exit 0, .yield, .waitpid 2, .yield, .fork, .waitpid 4, .yield, .waitpid 3],
    ((finalState bootUnit r).table 1).status = .blocked ∧
    ((finalState bootUnit r).table 2).status = .blocked ∧
    (step noMachine (finalState bootUnit r) (.exit 0)).isNone := by decide +kernel

end Proc
