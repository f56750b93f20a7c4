import Endros.Proc.Effect

/-!
# What a kernel entry does to the family of processes

Who waits for whom is a matter of four fields of a slot: its pid, its parent,
the flag `FLAGS_WAITED` and its status.  Of the status it does not matter
whether a process is ready or running, so the marks that `trap_handler` and
`schedule` set can be forgotten.  `Role` is what is left, and `Change` lists
what one kernel entry can do to the roles: nothing, a fork into a free slot, an
exit that leaves a zombie, an exit that wakes the parent, the reaping of a
zombie, or a `waitpid` that blocks.
-/

namespace Proc

variable {ω ρ α : Type}

inductive Mode where
  | free | dead | blocked | awake | gone
deriving DecidableEq, Repr

def Status.mode : Status → Mode
  | .unused => .free
  | .zombie => .dead
  | .blocked => .blocked
  | .ready | .running => .awake
  | .terminated => .gone

structure Role where
  pid : Int
  mode : Mode
  parent : Option Nat
  waited : Bool

def PCB.role (p : PCB ρ) : Role := ⟨p.pid, p.status.mode, p.parent, p.waited⟩

def Kernel.role (k : Kernel ω ρ) (i : Nat) : Role := (k.table i).role

/-- Change the role of the slot `i`. -/
def changeRole (r : Nat → Role) (i : Nat) (f : Role → Role) : Nat → Role :=
  Function.update r i (f (r i))

@[simp] theorem changeRole_self (r : Nat → Role) (i : Nat) (f : Role → Role) :
    changeRole r i f i = f (r i) :=
  Function.update_self ..

@[simp] theorem changeRole_of_ne {r : Nat → Role} {i j : Nat} {f : Role → Role} (h : j ≠ i) :
    changeRole r i f j = r j :=
  Function.update_of_ne h ..

theorem changeRole_id {r : Nat → Role} {i : Nat} {f : Role → Role} (h : f (r i) = r i) :
    changeRole r i f = r := by
  rw [changeRole, h, Function.update_eq_self]

/-- What holds between the roles of every slot when it holds for the one that is
changed. -/
theorem changeRole_rel {P : Role → Role → Prop} {r : Nat → Role} {j : Nat} {f : Role → Role}
    (hr : ∀ i, P (r i) (r i)) (hf : P (r j) (f (r j))) (i : Nat) : P (r i) (changeRole r j f i) := by
  by_cases hij : i = j
  · subst hij
    rw [changeRole_self]
    exact hf
  · rw [changeRole_of_ne hij]
    exact hr i

/-- The role of a process that `sys_fork` has made. -/
def newborn (k : Kernel ω ρ) : Role := ⟨k.nextPid, .awake, some k.running, false⟩

/-- The changes of the roles and of the pid counter. -/
inductive Change (k k' : Kernel ω ρ) : Event α → Prop where
  | quiet {e : Event α} (hq : ∀ pid, e = .waitpid pid → findChild k pid numProcs = none)
      (hr : k'.role = k.role) (hn : k'.nextPid = k.nextPid) : Change k k' e
  | fork {i : Nat} (hi : (k.role i).mode = .free)
      (hr : k'.role = changeRole k.role i fun _ => newborn k) (hn : k'.nextPid = k.nextPid + 1) :
      Change k k' .fork
  | zombie {x : Int32} (hw : (k.role k.running).waited = false)
      (hr : k'.role = changeRole k.role k.running fun r => { r with mode := .dead })
      (hn : k'.nextPid = k.nextPid) : Change k k' (.exit x)
  | wake {x : Int32} {q : Nat} (hw : (k.role k.running).waited = true)
      (hq : (k.role k.running).parent = some q)
      (hr : k'.role = changeRole (changeRole k.role q fun r => { r with mode := .awake })
        k.running fun r => { r with mode := .free })
      (hn : k'.nextPid = k.nextPid) : Change k k' (.exit x)
  | reap {pid : Int} {i : Nat} (hi : findChild k pid numProcs = some i)
      (hz : (k.role i).mode = .dead)
      (hr : k'.role = changeRole k.role i fun r => { r with mode := .free })
      (hn : k'.nextPid = k.nextPid) : Change k k' (.waitpid pid)
  | block {pid : Int} {i : Nat} (hi : findChild k pid numProcs = some i)
      (hz : (k.role i).mode ≠ .dead)
      (hr : k'.role = changeRole (changeRole k.role i fun r => { r with waited := true })
        k.running fun r => { r with mode := .blocked })
      (hn : k'.nextPid = k.nextPid) : Change k k' (.waitpid pid)

/-! ## The roles after an update of the table -/

section

variable {k k' : Kernel ω ρ}

/-- An update of a slot that acts on its role as `f` does. -/
theorem role_modify {i : Nat} {g : PCB ρ → PCB ρ} {f : Role → Role}
    (h : ∀ p : PCB ρ, (g p).role = f p.role) : (k.modify i g).role = changeRole k.role i f := by
  funext j
  by_cases hj : j = i
  · subst hj
    rw [changeRole_self, Kernel.role, Kernel.role, ← h]
    simp
  · simp [Kernel.role, hj]

theorem role_setStatus (i : Nat) (st : Status) :
    (k.setStatus i st).role = changeRole k.role i fun r => { r with mode := st.mode } :=
  role_modify fun _ => rfl

@[simp] theorem role_ret (v : UInt64) : (k.ret v).role = k.role :=
  (role_modify fun _ => rfl).trans (changeRole_id (f := fun r => r) rfl)

@[simp] theorem role_setRes (w : ω) (r : ρ) : (k.setRes w r).role = k.role :=
  (role_modify (k := k) (i := k.running) (g := fun p => { p with res := r }) fun _ => rfl).trans
    (changeRole_id (f := fun r => r) rfl)

theorem role_addChild (i : Nat) (w : ω) (r : ρ) :
    (addChild k i w r).role = changeRole k.role i fun _ => newborn k := by
  funext j
  by_cases hj : j = i
  · subst hj
    rw [changeRole_self]
    simp [Kernel.role, PCB.role, childOf, newborn, Status.mode]
  · simp [Kernel.role, hj]

theorem role_unloadProcess (M : Machine ω ρ α) (i : Nat) :
    (unloadProcess M k i).role = changeRole k.role i fun r => { r with mode := .free } :=
  role_setStatus i .unused

/-- Whoever runs next was awake already. -/
theorem schedule_role (h : schedule k = some k') : k'.role = k.role ∧ k'.nextPid = k.nextPid := by
  obtain ⟨t, ht, rfl⟩ := schedule_cases h
  refine ⟨(role_setStatus t .running).trans (changeRole_id ?_), rfl⟩
  simp [Kernel.role, PCB.role, ht, Status.mode]

theorem Sched.awake (h : Sched k) : (k.role k.running).mode = .awake := by
  obtain ⟨o, ho⟩ := h.hist
  rcases ho.live with hl | hl <;> simp [Kernel.role, PCB.role, hl, Status.mode]

end

/-! ## The changes -/

section Calls

variable {M : Machine ω ρ α} {k k' : Kernel ω ρ}

theorem fork_change (hs : sysFork M k = some k') : Change k k' (.fork : Event α) := by
  rw [sysFork] at hs
  split at hs
  · cases hs
    exact .quiet (fun _ he => by cases he) (role_ret _) rfl
  · rename_i i hi
    split at hs
    · cases hs
    · cases hs
      refine .fork (i := i) ?_ ((role_ret _).trans (role_addChild _ _ _)) rfl
      simp [Kernel.role, PCB.role, freeSlot_unused hi, Status.mode]

theorem exit_change {x : Int32} (hs : sysExit M k x = some k') : Change k k' (.exit x : Event α) := by
  have hcl : (closeFiles M k).role = k.role := role_setRes _ _
  rw [sysExit, exitProcess] at hs
  split at hs
  · rename_i hw
    split at hs
    · cases hs
    · rename_i q hq
      obtain ⟨hr, hn⟩ := schedule_role hs
      refine .wake (q := q) ?_ ?_ ?_ hn
      · rw [← hcl]
        exact hw
      · rw [← hcl]
        exact hq
      · rw [hr, role_unloadProcess, role_modify (f := fun r => { r with mode := .awake }) fun _ => rfl,
          hcl]
        rfl
  · rename_i hw
    obtain ⟨hr, hn⟩ := schedule_role hs
    refine .zombie ?_ ?_ hn
    · rw [← hcl]
      exact Bool.eq_false_iff.mpr hw
    · rw [hr, role_modify (f := fun r => { r with mode := .dead }) fun _ => rfl, hcl]
      rfl

theorem mode_dead_iff {i : Nat} : (k.role i).mode = .dead ↔ (k.table i).status = .zombie := by
  rw [Kernel.role, PCB.role]
  cases (k.table i).status <;> simp [Status.mode]

theorem waitpid_change {pid : Int} (hs : sysWaitpid M k pid = some k') :
    Change k k' (.waitpid pid : Event α) := by
  rw [sysWaitpid] at hs
  cases hf : findChild k pid numProcs with
  | none =>
      rw [hf] at hs
      cases hs
      refine .quiet (fun pid' he => ?_) (role_ret _) rfl
      cases he
      exact hf
  | some i =>
      rw [hf] at hs
      dsimp only at hs
      split at hs
      · rename_i hz
        cases hs
        exact .reap hf (mode_dead_iff.mpr hz) ((role_ret _).trans (role_unloadProcess M i)) rfl
      · rename_i hz
        obtain ⟨hr, hn⟩ := schedule_role hs
        refine .block hf (fun hd => hz (mode_dead_iff.mp hd)) ?_ hn
        rw [hr, role_setStatus, role_modify (f := fun r => { r with waited := true }) fun _ => rfl]
        rfl

/-- `Change` is all a kernel entry does to the roles. -/
theorem step_change {e : Event α} (h : (k.role k.running).mode = .awake)
    (hs : step M k e = some k') : Change k k' e := by
  have htrap : (k.setStatus k.running .ready).role = k.role :=
    (role_setStatus _ _).trans (changeRole_id (by rw [Status.mode, ← h]))
  have hchange : Change (k.setStatus k.running .ready) k' e := by
    cases e with
    | fork => exact fork_change hs
    | exit x => exact exit_change hs
    | waitpid pid => exact waitpid_change hs
    | yield =>
        obtain ⟨hr, hn⟩ := schedule_role hs
        exact .quiet (fun _ he => by cases he) hr hn
    | call a =>
        rw [step, sysCall] at hs
        split at hs
        · cases hs
        · cases hs
          exact .quiet (fun _ he => by cases he) ((role_ret _).trans (role_setRes _ _)) rfl
  -- the mark of the trap handler is not seen here
  have hf : ∀ pid, findChild (k.setStatus k.running .ready) pid numProcs =
      findChild k pid numProcs := fun pid => findChild_setStatus k _ _ pid _
  cases hchange with
  | quiet hq hr hn => exact .quiet (fun pid he => (hf pid).symm.trans (hq pid he)) (hr.trans htrap) hn
  | fork hi hr hn => exact .fork (by rw [← htrap]; exact hi) (by rw [hr, htrap]; rfl) hn
  | zombie hw hr hn =>
      rw [htrap] at hw hr
      exact .zombie hw hr hn
  | wake hw hq hr hn =>
      rw [htrap] at hw hq hr
      exact .wake hw hq hr hn
  | reap hi hz hr hn =>
      rw [htrap] at hz hr
      exact .reap (by rw [← hf]; exact hi) hz hr hn
  | block hi hz hr hn =>
      rw [htrap] at hz hr
      exact .block (by rw [← hf]; exact hi) hz hr hn

end Calls

end Proc
