import Endros.Proc.Roles

/-!
# Parents, children and `waitpid`

`unload_process` marks a slot `UNUSED` and leaves its pid and its parent there,
and a parent is a slot, not a process.  Two things follow.

A `waitpid` for a child that was reaped before finds the slot the child has
left.  It is no zombie, so the caller marks it and blocks, and nothing is there
to wake it.  This is the only way to such a sleep: over every run, each blocked
process has a live child that is waited for exactly when no `waitpid` finds an
unused slot.

A process that takes over the slot of another one takes over its children.
Since pids only grow, such a child is older than its new parent: over every run,
each `waitpid` is for a child of the caller exactly when the pid of the child is
above the pid of the caller.
-/

namespace Proc

open Lib

variable {ω ρ α : Type}

/-! ## A blocked process can be woken -/

/-- Every blocked process has a live child that is waited for. -/
def Wakeable (k : Kernel ω ρ) : Prop :=
  ∀ p < numProcs, (k.table p).status = .blocked →
    ∃ i < numProcs, (k.table i).parent = some p ∧ (k.table i).waited = true ∧
      ((k.table i).status = .ready ∨ (k.table i).status = .running ∨
        (k.table i).status = .blocked)

/-- A `waitpid` that finds a slot finds a process in it. -/
def FindsProcess (k : Kernel ω ρ) (e : Event α) (_ : Kernel ω ρ) : Prop :=
  match e with
  | .waitpid pid => ∀ i, findChild k pid numProcs = some i → (k.table i).status ≠ .unused
  | _ => True

instance (k : Kernel ω ρ) (e : Event α) (k' : Kernel ω ρ) : Decidable (FindsProcess k e k') :=
  match e with
  | .waitpid pid => inferInstanceAs (Decidable (∀ i ∈ findChild k pid numProcs,
      (k.table i).status ≠ .unused))
  | .fork | .exit _ | .yield | .call _ => .isTrue trivial

/-- The role of a slot that is waited for and can still exit. -/
def Role.Awaited (r : Role) (p : Nat) : Prop :=
  r.parent = some p ∧ r.waited = true ∧ (r.mode = .awake ∨ r.mode = .blocked)

/-- `Wakeable`, read off the roles. -/
def WakeableRoles (r : Nat → Role) : Prop :=
  ∀ p < numProcs, (r p).mode = .blocked → ∃ i < numProcs, (r i).Awaited p

theorem mode_blocked_iff {st : Status} : st.mode = .blocked ↔ st = .blocked := by
  cases st <;> simp [Status.mode]

theorem mode_free_iff {st : Status} : st.mode = .free ↔ st = .unused := by
  cases st <;> simp [Status.mode]

theorem mode_awake_iff {st : Status} : st.mode = .awake ↔ st = .ready ∨ st = .running := by
  cases st <;> simp [Status.mode]

theorem wakeable_iff {k : Kernel ω ρ} : Wakeable k ↔ WakeableRoles k.role := by
  simp only [Wakeable, WakeableRoles, Role.Awaited, Kernel.role, PCB.role, mode_blocked_iff,
    mode_awake_iff, or_assoc]

/-- The table is reachable and `terminate` has left no slot half way. -/
structure Settled (k : Kernel ω ρ) : Prop extends Sched k where
  not_gone : ∀ i, (k.role i).mode ≠ .gone

theorem boot_settled (world : ω) (res : Nat → ρ) : Settled (boot world res) := by
  refine ⟨boot_sched world res, fun i => ?_⟩
  cases i <;> simp [Kernel.role, PCB.role, boot, Status.mode]

/-- No live child of the process that runs is waited for. -/
theorem Sched.not_awaited {k : Kernel ω ρ} (h : Sched k) {i : Nat}
    (hpar : (k.role i).parent = some k.running) (hmode : (k.role i).mode ≠ .free) :
    (k.role i).waited = false := by
  obtain ⟨o, ho⟩ := h.hist
  refine Bool.eq_false_iff.mpr fun hw => ?_
  obtain ⟨q, hq, hblk, -⟩ := ho.waited i hw fun hu => hmode (mode_free_iff.mpr hu)
  obtain rfl : k.running = q := Option.some.inj (hpar.symm.trans hq)
  rcases ho.live with hl | hl <;> rw [hl] at hblk <;> cases hblk

section Step

variable {k k' : Kernel ω ρ} {e : Event α}

/-- A change to one slot that keeps every child a child and blocks nobody. -/
theorem WakeableRoles.change {r : Nat → Role} {i : Nat} {f : Role → Role} (h : WakeableRoles r)
    (hblk : (f (r i)).mode ≠ .blocked) (hkeep : ∀ p, (r i).Awaited p → (f (r i)).Awaited p) :
    WakeableRoles (changeRole r i f) := by
  intro p hp hb
  have hpi : p ≠ i := by
    rintro rfl
    rw [changeRole_self] at hb
    exact hblk hb
  rw [changeRole_of_ne hpi] at hb
  obtain ⟨j, hj, ha⟩ := h p hp hb
  refine ⟨j, hj, ?_⟩
  by_cases hji : j = i
  · subst hji
    rw [changeRole_self]
    exact hkeep p ha
  · rw [changeRole_of_ne hji]
    exact ha

/-- A slot nobody waits for may become anything that is not blocked. -/
theorem WakeableRoles.change_other {r : Nat → Role} {i : Nat} {f : Role → Role}
    (h : WakeableRoles r) (hblk : (f (r i)).mode ≠ .blocked) (hnot : ∀ p, ¬ (r i).Awaited p) :
    WakeableRoles (changeRole r i f) :=
  h.change hblk fun p ha => absurd ha (hnot p)

/-- An exit wakes the only process that waits for the one that exits. -/
theorem WakeableRoles.wake {r : Nat → Role} {i q : Nat} (h : WakeableRoles r)
    (hq : (r i).parent = some q) (hne : q ≠ i) :
    WakeableRoles (changeRole (changeRole r q fun x => { x with mode := .awake }) i
      fun x => { x with mode := .free }) := by
  intro p hp hb
  have hpi : p ≠ i := by
    rintro rfl
    rw [changeRole_self] at hb
    cases hb
  rw [changeRole_of_ne hpi] at hb
  have hpq : p ≠ q := by
    rintro rfl
    rw [changeRole_self] at hb
    cases hb
  rw [changeRole_of_ne hpq] at hb
  obtain ⟨j, hj, hpar, hw, hm⟩ := h p hp hb
  have hji : j ≠ i := by
    rintro rfl
    exact hpq (Option.some.inj (hpar.symm.trans hq))
  refine ⟨j, hj, ?_⟩
  rw [changeRole_of_ne hji]
  by_cases hjq : j = q
  · subst hjq
    rw [changeRole_self]
    exact ⟨hpar, hw, .inl rfl⟩
  · rw [changeRole_of_ne hjq]
    exact ⟨hpar, hw, hm⟩

/-- The roles after a `waitpid` that blocks. -/
theorem block_role {i : Nat}
    (hr : k'.role = changeRole (changeRole k.role i fun r => { r with waited := true })
      k.running fun r => { r with mode := .blocked }) (j : Nat) :
    k'.role j = ⟨(k.role j).pid, if j = k.running then .blocked else (k.role j).mode,
      (k.role j).parent, if j = i then true else (k.role j).waited⟩ := by
  rw [hr]
  by_cases hj : j = k.running
  · subst hj
    by_cases hi : k.running = i
    · subst hi
      simp
    · simp [hi]
  · rw [changeRole_of_ne hj]
    by_cases hi : j = i
    · subst hi
      simp [hj]
    · simp [hi, hj]

/-- A `waitpid` that blocks can be answered exactly when there is a process in
the slot it found. -/
theorem block_wakeable {pid : Int} {i : Nat} (h : Settled k) (hw : WakeableRoles k.role)
    (hi : findChild k pid numProcs = some i) (hz : (k.role i).mode ≠ .dead)
    (hr : k'.role = changeRole (changeRole k.role i fun r => { r with waited := true })
      k.running fun r => { r with mode := .blocked }) :
    WakeableRoles k'.role ↔ (k.role i).mode ≠ .free := by
  have hpar : (k.role i).parent = some k.running := (findChild_spec hi).2
  have hlt : i < numProcs := findChild_lt hi
  constructor
  · intro hw' hfree
    have hb : (k'.role k.running).mode = .blocked := by rw [block_role hr, if_pos rfl]
    obtain ⟨j, -, hjpar, hjw, hjm⟩ := hw' k.running h.running_lt hb
    rw [block_role hr] at hjpar hjw hjm
    dsimp only at hjpar hjw hjm
    have hjfree : (k.role j).mode ≠ .free := by
      intro hf
      split at hjm
      · rename_i hj
        subst hj
        rw [h.awake] at hf
        cases hf
      · rw [hf] at hjm
        rcases hjm with hm | hm <;> cases hm
    split at hjw
    · rename_i hj
      subst hj
      exact hjfree hfree
    · rw [h.not_awaited hjpar hjfree] at hjw
      cases hjw
  · intro hfree p hp hb
    rw [block_role hr] at hb
    dsimp only at hb
    split at hb
    · -- the caller waits for the slot it found
      rename_i hpr
      subst hpr
      refine ⟨i, hlt, ?_⟩
      rw [block_role hr]
      refine ⟨hpar, if_pos rfl, ?_⟩
      dsimp only
      split
      · exact .inr rfl
      · have hgone := h.not_gone i
        cases hm : (k.role i).mode with
        | free => exact absurd hm hfree
        | dead => exact absurd hm hz
        | blocked => exact .inr rfl
        | awake => exact .inl rfl
        | gone => exact absurd hm hgone
    · obtain ⟨j, hj, hjpar, hjw, hjm⟩ := hw p hp hb
      refine ⟨j, hj, ?_⟩
      rw [block_role hr]
      refine ⟨hjpar, ?_, ?_⟩
      · dsimp only
        split
        · rfl
        · exact hjw
      · dsimp only
        split
        · exact .inr rfl
        · exact hjm

theorem Role.not_awaited_of_mode {r : Role} (h : r.mode = .free ∨ r.mode = .dead) (p : Nat) :
    ¬ r.Awaited p := by
  rintro ⟨-, -, hm⟩
  rcases h with h | h <;> rw [h] at hm <;> rcases hm with hm | hm <;> cases hm

/-- No change leaves a slot half way. -/
theorem change_not_gone (hg : ∀ i, (k.role i).mode ≠ .gone) (hc : Change k k' e) (i : Nat) :
    (k'.role i).mode ≠ .gone := by
  have hone {r : Nat → Role} {j : Nat} {f : Role → Role} (hr : ∀ i, (r i).mode ≠ .gone)
      (hf : (f (r j)).mode ≠ .gone) (i : Nat) : (changeRole r j f i).mode ≠ .gone :=
    changeRole_rel (P := fun _ x => x.mode ≠ .gone) hr hf i
  cases hc with
  | quiet hq hr hn => rw [hr]; exact hg i
  | fork hi hr hn => rw [hr]; exact hone hg Mode.noConfusion i
  | zombie hw hr hn => rw [hr]; exact hone hg Mode.noConfusion i
  | wake hw hq hr hn => rw [hr]; exact hone (hone hg Mode.noConfusion) Mode.noConfusion i
  | reap hi hz hr hn => rw [hr]; exact hone hg Mode.noConfusion i
  | @block _ j hi hz hr hn =>
      rw [hr]
      exact hone (hone (f := fun r => { r with waited := true }) hg (hg j)) Mode.noConfusion i

/-- A step keeps every blocked process wakeable exactly when it finds no unused
slot. -/
theorem step_wakeable {M : Machine ω ρ α} (h : Settled k) (hw : Wakeable k)
    (hs : step M k e = some k') : Settled k' ∧ (Wakeable k' ↔ FindsProcess k e k') := by
  have hc : Change k k' e := step_change h.awake hs
  refine ⟨⟨h.toSched.step hs, change_not_gone h.not_gone hc⟩, ?_⟩
  rw [wakeable_iff] at hw ⊢
  cases hc with
  | @quiet e hq hr hn =>
      rw [hr]
      refine ⟨fun _ => ?_, fun _ => hw⟩
      cases e with
      | waitpid pid =>
          intro i hi
          rw [hq pid rfl] at hi
          cases hi
      | fork => trivial
      | exit x => trivial
      | yield => trivial
      | call a => trivial
  | @fork i hi hr hn =>
      rw [hr]
      exact iff_of_true (hw.change_other nofun (Role.not_awaited_of_mode (.inl hi))) trivial
  | zombie hwt hr hn =>
      rw [hr]
      refine iff_of_true (hw.change_other nofun fun p ha => ?_) trivial
      rw [ha.2.1] at hwt
      cases hwt
  | @wake x q hwt hq hr hn =>
      rw [hr]
      refine iff_of_true (hw.wake hq ?_) trivial
      rintro rfl
      have hself := h.not_awaited hq (by rw [h.awake]; nofun)
      rw [hself] at hwt
      cases hwt
  | @reap pid i hi hz hr hn =>
      rw [hr]
      refine iff_of_true (hw.change_other nofun (Role.not_awaited_of_mode (.inr hz))) ?_
      intro j hj hu
      obtain rfl : i = j := Option.some.inj (hi.symm.trans hj)
      rw [Kernel.role, PCB.role, hu] at hz
      cases hz
  | @block pid i hi hz hr hn =>
      rw [block_wakeable h hw hi hz hr]
      refine ⟨fun hf j hj => ?_, fun hf hm => hf i hi (mode_free_iff.mp hm)⟩
      obtain rfl : i = j := Option.some.inj (hi.symm.trans hj)
      exact fun hu => hf (mode_free_iff.mpr hu)

end Step

/-- Sleep over runs.  Whatever the processes do, every blocked process can be
woken by a live child exactly when no `waitpid` of the run finds the slot of a
child that was reaped before. -/
theorem run_wakeable (M : Machine ω ρ α) (world : ω) (res : Nat → ρ)
    (r : List (Event α × Kernel ω ρ))
    (hr : IsRun (fun k e k' => step M k e = some k') (boot world res) r) :
    EveryState Wakeable (boot world res) r ↔ EveryStep FindsProcess (boot world res) r := by
  refine hr.everyState_iff (I := Settled) (fun k e k' h hw hs => step_wakeable h hw hs)
    (boot_settled world res) ?_
  intro p _ hb
  cases p <;> cases hb

/-- The process `init` with no resources. -/
def bootUnit : Kernel Unit Unit := boot () fun _ => ()

/-- `init` forks and waits for the child. -/
theorem run_wakeable_waitFirst :
    ∃ r, runOf (step noMachine) bootUnit [.fork, .waitpid 2] = some r ∧
      ((finalState bootUnit r).table 0).status = .blocked ∧ EveryState Wakeable bootUnit r := by
  obtain ⟨r, hr⟩ : ∃ r, runOf (step noMachine) bootUnit [.fork, .waitpid 2] = some r :=
    Option.isSome_iff_exists.mp (by decide +kernel)
  have hend : ∀ r ∈ runOf (step noMachine) bootUnit [.fork, .waitpid 2],
      ((finalState bootUnit r).table 0).status = .blocked ∧ EveryStep FindsProcess bootUnit r := by
    decide +kernel
  exact ⟨r, hr, (hend r hr).1, (run_wakeable noMachine () _ r (isRun_runOf hr)).mpr (hend r hr).2⟩

/-- `init` forks twice, the first child exits and is reaped, and `init` waits
for it again. -/
theorem reaped_child_never_wakes :
    ∃ r, runOf (step noMachine) bootUnit
        [.fork, .fork, .yield, .exit 0, .yield, .waitpid 2, .waitpid 2] = some r ∧
      ¬ Wakeable (finalState bootUnit r) := by
  obtain ⟨r, hr⟩ : ∃ r, runOf (step noMachine) bootUnit
      [.fork, .fork, .yield, .exit 0, .yield, .waitpid 2, .waitpid 2] = some r :=
    Option.isSome_iff_exists.mp (by decide +kernel)
  have hend : ∀ r ∈ runOf (step noMachine) bootUnit
        [.fork, .fork, .yield, .exit 0, .yield, .waitpid 2, .waitpid 2],
      ((finalState bootUnit r).table 0).status = .blocked ∧
      ∀ i < numProcs, ((finalState bootUnit r).table i).waited = true →
        ((finalState bootUnit r).table i).status = .unused := by
    decide +kernel
  refine ⟨r, hr, fun h => ?_⟩
  obtain ⟨i, hi, -, hw, hst⟩ := h 0 (by decide) (hend r hr).1
  rw [(hend r hr).2 i hi hw] at hst
  rcases hst with hst | hst | hst <;> cases hst

/-! ## Only a parent waits for its child -/

/-- A kernel with the pid of the process that made each pid. -/
structure Lineage (ω ρ : Type) where
  k : Kernel ω ρ
  creator : Int → Option Int

/-- A fork that gives out a pid is written down. -/
def record (k k' : Kernel ω ρ) (creator : Int → Option Int) : Int → Option Int :=
  if k'.nextPid = k.nextPid then creator
  else Function.update creator k.nextPid (some (k.table k.running).pid)

def lstep (M : Machine ω ρ α) (s : Lineage ω ρ) (e : Event α) : Option (Lineage ω ρ) :=
  (step M s.k e).map fun k' => ⟨k', record s.k k' s.creator⟩

def Lineage.boot (world : ω) (res : Nat → ρ) : Lineage ω ρ :=
  ⟨Proc.boot world res, fun _ => none⟩

/-- A `waitpid` that reaps a process or marks it as waited for was called by the
process that made it. -/
def WaitsForOwn (s : Lineage ω ρ) (e : Event α) (_ : Lineage ω ρ) : Prop :=
  match e with
  | .waitpid pid => ∀ i, findChild s.k pid numProcs = some i →
      s.creator (s.k.table i).pid = some (s.k.table s.k.running).pid
  | _ => True

/-- A `waitpid` that finds a slot is for a pid above the caller's. -/
def WaitsAbove (s : Lineage ω ρ) (e : Event α) (_ : Lineage ω ρ) : Prop :=
  match e with
  | .waitpid pid => findChild s.k pid numProcs ≠ none → (s.k.table s.k.running).pid < pid
  | _ => True

instance (s : Lineage ω ρ) (e : Event α) (s' : Lineage ω ρ) : Decidable (WaitsForOwn s e s') :=
  match e with
  | .waitpid pid => inferInstanceAs (Decidable (∀ i ∈ findChild s.k pid numProcs,
      s.creator (s.k.table i).pid = some (s.k.table s.k.running).pid))
  | .fork | .exit _ | .yield | .call _ => .isTrue trivial

instance (s : Lineage ω ρ) (e : Event α) (s' : Lineage ω ρ) : Decidable (WaitsAbove s e s') :=
  match e with
  | .waitpid pid => inferInstanceAs (Decidable (findChild s.k pid numProcs ≠ none →
      (s.k.table s.k.running).pid < pid))
  | .fork | .exit _ | .yield | .call _ => .isTrue trivial

/-- The parent slot of every process still has its maker in it, or a process
that is younger than both. -/
structure Kin (s : Lineage ω ρ) : Prop extends Sched s.k where
  kin : ∀ i q, (s.k.role i).parent = some q → ∃ c, s.creator (s.k.role i).pid = some c ∧
    c < (s.k.role i).pid ∧ ((s.k.role q).pid = c ∨ (s.k.role i).pid < (s.k.role q).pid)

theorem boot_kin (world : ω) (res : Nat → ρ) : Kin (Lineage.boot world res : Lineage ω ρ) :=
  ⟨boot_sched world res, fun _ _ h => by cases h⟩

theorem Sched.pid_lt {k : Kernel ω ρ} (h : Sched k) (i : Nat) : (k.role i).pid < k.nextPid := by
  obtain ⟨o, ho⟩ := h.hist
  exact ho.pid_lt i

section Step

variable {k k' : Kernel ω ρ} {e : Event α}

/-- A step that gives out no pid keeps pids and parents. -/
theorem change_pid_parent (hc : Change k k' e) (hn : k'.nextPid = k.nextPid) (i : Nat) :
    (k'.role i).pid = (k.role i).pid ∧ (k'.role i).parent = (k.role i).parent := by
  let P : Role → Role → Prop := fun x y => y.pid = x.pid ∧ y.parent = x.parent
  have hrefl (r : Nat → Role) (i : Nat) : P (r i) (r i) := ⟨rfl, rfl⟩
  cases hc with
  | quiet hq hr _ => rw [hr]; exact ⟨rfl, rfl⟩
  | fork hi hr hn' => omega
  | zombie hw hr _ => rw [hr]; exact changeRole_rel (P := P) (hrefl _) ⟨rfl, rfl⟩ i
  | wake hw hq hr _ =>
      rw [hr]
      obtain ⟨hp₁, hq₁⟩ := changeRole_rel (P := P) (j := k.running)
        (f := fun r => { r with mode := .free })
        (hrefl (changeRole k.role _ fun r => { r with mode := .awake })) ⟨rfl, rfl⟩ i
      obtain ⟨hp₂, hq₂⟩ := changeRole_rel (P := P) (f := fun r => { r with mode := .awake })
        (hrefl k.role) ⟨rfl, rfl⟩ i
      exact ⟨hp₁.trans hp₂, hq₁.trans hq₂⟩
  | reap hi hz hr _ => rw [hr]; exact changeRole_rel (P := P) (hrefl _) ⟨rfl, rfl⟩ i
  | block hi hz hr _ => rw [block_role hr]; exact ⟨rfl, rfl⟩

theorem step_kin {M : Machine ω ρ α} {s s' : Lineage ω ρ} (h : Kin s)
    (hs : lstep M s e = some s') : Kin s' := by
  obtain ⟨k, creator⟩ := s
  obtain ⟨k', hk', rfl⟩ := Option.map_eq_some_iff.mp hs
  have hc : Change k k' e := step_change h.awake hk'
  refine ⟨h.toSched.step hk', ?_⟩
  by_cases hn : k'.nextPid = k.nextPid
  · intro i q hpar
    obtain ⟨hpid, hpar'⟩ := change_pid_parent hc hn i
    dsimp only at hpar ⊢
    rw [record, if_pos hn, hpid, (change_pid_parent hc hn q).1]
    exact h.kin i q (hpar'.symm.trans hpar)
  · cases hc with
    | @fork i hi hr hn' =>
        have hlt := h.pid_lt
        have hrun : k.running ≠ i := by
          rintro rfl
          rw [h.awake] at hi
          cases hi
        intro j q hpar
        dsimp only at hpar ⊢
        rw [record, if_neg hn]
        rw [hr] at hpar ⊢
        by_cases hji : j = i
        · -- the child itself: its maker runs
          subst hji
          rw [changeRole_self] at hpar ⊢
          cases hpar
          refine ⟨(k.role k.running).pid, Function.update_self .., hlt _, .inl ?_⟩
          rw [changeRole_of_ne hrun]
        · rw [changeRole_of_ne hji] at hpar ⊢
          obtain ⟨c, hcr, hcl, hor⟩ := h.kin j q hpar
          have hne : (k.role j).pid ≠ k.nextPid := Int.ne_of_lt (hlt j)
          refine ⟨c, (Function.update_of_ne hne ..).trans hcr, hcl, ?_⟩
          by_cases hqi : q = i
          · subst hqi
            rw [changeRole_self]
            exact .inr (hlt j)
          · rw [changeRole_of_ne hqi]
            exact hor
    | quiet hq hr hn' => exact absurd hn' hn
    | zombie hw hr hn' => exact absurd hn' hn
    | wake hw hq hr hn' => exact absurd hn' hn
    | reap hi hz hr hn' => exact absurd hn' hn
    | block hi hz hr hn' => exact absurd hn' hn

/-- The child a `waitpid` finds was made by the caller exactly when its pid is
above the caller's. -/
theorem Kin.waits_iff {s s' : Lineage ω ρ} (h : Kin s) : WaitsForOwn s e s' ↔ WaitsAbove s e s' := by
  cases e with
  | waitpid pid =>
      cases hf : findChild s.k pid numProcs with
      | none => simp [WaitsForOwn, WaitsAbove, hf]
      | some i =>
          obtain ⟨hpid, hpar⟩ := findChild_spec hf
          obtain ⟨c, hcr, hlt, hor⟩ := h.kin i s.k.running hpar
          have hcr' : s.creator (s.k.table i).pid = some c := hcr
          have hlt' : c < pid := hpid ▸ hlt
          have hor' : (s.k.table s.k.running).pid = c ∨ pid < (s.k.table s.k.running).pid := hpid ▸ hor
          simp only [WaitsForOwn, WaitsAbove, hf, ne_eq, reduceCtorEq, not_false_eq_true,
            true_implies, Option.some.injEq, forall_eq', hcr']
          omega
  | fork => exact Iff.rfl
  | exit x => exact Iff.rfl
  | yield => exact Iff.rfl
  | call a => exact Iff.rfl

end Step

/-- Parenthood over runs.  Every process that a `waitpid` reaps or marks was
made by the caller exactly when every such `waitpid` is for a pid above the
caller's own. -/
theorem run_waitsForOwn (M : Machine ω ρ α) (world : ω) (res : Nat → ρ)
    (r : List (Event α × Lineage ω ρ))
    (hr : IsRun (fun s e s' => lstep M s e = some s') (Lineage.boot world res) r) :
    EveryStep WaitsForOwn (Lineage.boot world res) r ↔
      EveryStep WaitsAbove (Lineage.boot world res) r := by
  constructor
  · exact hr.everyStep (I := Kin) (fun s e s' h hs _ => step_kin h hs)
      (fun s e s' h _ hw => h.waits_iff.mp hw) (boot_kin world res)
  · exact hr.everyStep (I := Kin) (fun s e s' h hs _ => step_kin h hs)
      (fun s e s' h _ hw => h.waits_iff.mpr hw) (boot_kin world res)

/-- `init` waits for the child it has made. -/
theorem run_waitsForOwn_child :
    ∃ r, runOf (lstep noMachine) (Lineage.boot () fun _ => ()) [.fork, .waitpid 2] = some r ∧
      EveryStep WaitsForOwn (Lineage.boot () fun _ => ()) r := by
  obtain ⟨r, hr⟩ : ∃ r, runOf (lstep noMachine) (Lineage.boot () fun _ => ())
      [.fork, .waitpid 2] = some r := Option.isSome_iff_exists.mp (by decide +kernel)
  have hend : ∀ r ∈ runOf (lstep noMachine) (Lineage.boot () fun _ => ()) [.fork, .waitpid 2],
      EveryStep WaitsAbove (Lineage.boot () fun _ => ()) r := by decide +kernel
  exact ⟨r, hr, (run_waitsForOwn noMachine () _ r (isRun_runOf hr)).mpr (hend r hr)⟩

/-- The child of `init`, pid 2, forks pid 3 and exits.  `init` reaps it and
forks pid 4 into its slot, and that process waits for pid 3. -/
theorem slot_heir_waits :
    ∃ r, runOf (lstep noMachine) (Lineage.boot () fun _ => ())
        [.fork, .yield, .fork, .exit 0, .yield, .waitpid 2, .fork, .yield, .waitpid 3] = some r ∧
      ¬ EveryStep WaitsForOwn (Lineage.boot () fun _ => ()) r := by
  obtain ⟨r, hr⟩ : ∃ r, runOf (lstep noMachine) (Lineage.boot () fun _ => ())
      [.fork, .yield, .fork, .exit 0, .yield, .waitpid 2, .fork, .yield, .waitpid 3] = some r :=
    Option.isSome_iff_exists.mp (by decide +kernel)
  have hend : ∀ r ∈ runOf (lstep noMachine) (Lineage.boot () fun _ => ())
        [.fork, .yield, .fork, .exit 0, .yield, .waitpid 2, .fork, .yield, .waitpid 3],
      ¬ EveryStep WaitsForOwn (Lineage.boot () fun _ => ()) r := by decide +kernel
  exact ⟨r, hr, hend r hr⟩

end Proc
