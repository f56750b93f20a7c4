import Endros.Proc.Wait

/-!
# What a kernel entry does to the resources

For the resources of processes a slot is free, live, or dead (a zombie, whose
files are closed and whose address space is still there).  `Effect` lists what
one kernel entry can do to them: nothing, a fork into a free slot, an exit, the
reaping of a dead process, or a call of the process that runs.  `Sched` is the
invariant of the table that `step_effect` rests on.
-/

namespace Proc

variable {ω ρ α : Type}

inductive Phase where
  | free | dead | live
deriving DecidableEq, Repr

def Status.phase : Status → Phase
  | .unused => .free
  | .zombie => .dead
  | .ready | .running | .blocked | .terminated => .live

namespace Kernel

def phase (k : Kernel ω ρ) (i : Nat) : Phase := (k.table i).status.phase

def res (k : Kernel ω ρ) (i : Nat) : ρ := (k.table i).res

end Kernel

/-- The changes of the resources, of what processes share and of the phases. -/
inductive Effect (M : Machine ω ρ α) (k k' : Kernel ω ρ) : Event α → Prop where
  | quiet {e : Event α} (he : ∀ a, e ≠ .call a) (hw : k'.world = k.world) (hr : k'.res = k.res)
      (hp : k'.phase = k.phase) : Effect M k k' e
  | fork {i : Nat} {w : ω} {r : ρ} (hi : i < numProcs) (hfree : k.phase i = .free)
      (hc : M.copy k.world (k.res k.running) (k.res i) = some (w, r)) (hw : k'.world = w)
      (hr : k'.res = Function.update k.res i r)
      (hp : k'.phase = Function.update k.phase i .live) : Effect M k k' .fork
  | zombie {x : Int32} {w : ω} {r : ρ} (hc : M.close k.world (k.res k.running) = (w, r))
      (hw : k'.world = w) (hr : k'.res = Function.update k.res k.running r)
      (hp : k'.phase = Function.update k.phase k.running .dead) : Effect M k k' (.exit x)
  | gone {x : Int32} {w : ω} {r : ρ} (hc : M.close k.world (k.res k.running) = (w, r))
      (hw : k'.world = M.unload w r) (hr : k'.res = Function.update k.res k.running r)
      (hp : k'.phase = Function.update k.phase k.running .free) : Effect M k k' (.exit x)
  | reap {pid : Int} {i : Nat} (hi : i < numProcs) (hdead : k.phase i = .dead)
      (hw : k'.world = M.unload k.world (k.res i)) (hr : k'.res = k.res)
      (hp : k'.phase = Function.update k.phase i .free) : Effect M k k' (.waitpid pid)
  | call {a : α} {w : ω} {r : ρ} {v : UInt64}
      (hc : M.exec a k.world (k.res k.running) = some (w, r, v)) (hw : k'.world = w)
      (hr : k'.res = Function.update k.res k.running r) (hp : k'.phase = k.phase) :
      Effect M k k' (.call a)

/-! ## The invariant of the table -/

/-- A kernel some history leads to. -/
structure Sched (k : Kernel ω ρ) : Prop where
  hist : ∃ o, Inv k o
  running_lt : k.running < numProcs

theorem boot_sched (world : ω) (res : Nat → ρ) : Sched (boot world res) :=
  ⟨⟨_, boot_inv world res⟩, by show 0 < numProcs; decide⟩

theorem Sched.live {k : Kernel ω ρ} (h : Sched k) : k.phase k.running = .live := by
  obtain ⟨o, ho⟩ := h.hist
  rcases ho.live with h | h <;> rw [Kernel.phase, h] <;> rfl

theorem scan_lt {status : Nat → Status} {id : Nat} :
    ∀ {fuel target : Nat} {flag : Bool} {t : Nat}, target < numProcs →
      scan status id fuel target flag = some t → t < numProcs
  | 0, _, _, _, _, h => by cases h
  | fuel + 1, target, flag, t, hlt, h => by
      rw [scan] at h
      split at h
      · cases h
      · split at h
        · cases h; exact hlt
        · exact scan_lt (Nat.mod_lt _ (by decide)) h

theorem schedule_lt {k k' : Kernel ω ρ} (h : schedule k = some k') : k'.running < numProcs := by
  obtain ⟨t, ht, rfl⟩ := Option.map_eq_some_iff.mp h
  exact scan_lt (Nat.mod_lt _ (by decide)) ht

theorem step_running_lt {M : Machine ω ρ α} {k k' : Kernel ω ρ} {e : Event α}
    (hlt : k.running < numProcs) (hs : step M k e = some k') : k'.running < numProcs := by
  cases e with
  | fork =>
      simp only [step, sysFork] at hs
      split at hs
      · cases hs; exact hlt
      · split at hs
        · cases hs
        · cases hs; exact hlt
  | exit x =>
      simp only [step, sysExit, exitProcess] at hs
      split at hs
      · split at hs
        · cases hs
        · exact schedule_lt hs
      · exact schedule_lt hs
  | waitpid pid =>
      simp only [step, sysWaitpid] at hs
      split at hs
      · cases hs; exact hlt
      · split at hs
        · cases hs; exact hlt
        · exact schedule_lt hs
  | yield => exact schedule_lt hs
  | call a =>
      simp only [step, sysCall] at hs
      split at hs
      · cases hs
      · cases hs; exact hlt

theorem Sched.step {M : Machine ω ρ α} {k k' : Kernel ω ρ} {e : Event α} (h : Sched k)
    (hs : Proc.step M k e = some k') : Sched k' := by
  obtain ⟨o, ho⟩ := h.hist
  -- the log of a history is not part of the invariant
  have ho' : Inv k { o with log := [] } :=
    ⟨⟨ho.toPids, ho.pid_ne, ho.code_live, ho.code_zombie, ho.code_new, ho.waited, ho.wait⟩,
      ⟨ho.live, ho.free⟩⟩
  exact ⟨⟨_, (step_inv ho' (fun d hd => by cases hd) hs).1⟩, step_running_lt h.running_lt hs⟩

/-! ## The effects -/

section

variable {k : Kernel ω ρ}

theorem phase_modify (i : Nat) (f : PCB ρ → PCB ρ) :
    (k.modify i f).phase = Function.update k.phase i (f (k.table i)).status.phase := by
  funext j
  by_cases hj : j = i <;> simp [Kernel.phase, hj]

theorem res_modify (i : Nat) (f : PCB ρ → PCB ρ) :
    (k.modify i f).res = Function.update k.res i (f (k.table i)).res := by
  funext j
  by_cases hj : j = i <;> simp [Kernel.res, hj]

@[simp] theorem res_setStatus (i : Nat) (st : Status) : (k.setStatus i st).res = k.res :=
  (res_modify _ _).trans (Function.update_eq_self ..)

@[simp] theorem world_setStatus (i : Nat) (st : Status) : (k.setStatus i st).world = k.world := rfl

@[simp] theorem phase_setStatus (i : Nat) (st : Status) :
    (k.setStatus i st).phase = Function.update k.phase i st.phase :=
  phase_modify _ _

@[simp] theorem res_ret (v : UInt64) : (k.ret v).res = k.res :=
  (res_modify _ _).trans (Function.update_eq_self ..)

@[simp] theorem phase_ret (v : UInt64) : (k.ret v).phase = k.phase :=
  (phase_modify _ _).trans (Function.update_eq_self ..)

@[simp] theorem res_setRes (w : ω) (r : ρ) :
    (k.setRes w r).res = Function.update k.res k.running r :=
  res_modify (k := k) k.running fun p => { p with res := r }

@[simp] theorem phase_setRes (w : ω) (r : ρ) : (k.setRes w r).phase = k.phase :=
  (phase_modify (k := k) k.running fun p => { p with res := r }).trans
    (Function.update_eq_self ..)

@[simp] theorem res_addChild (i : Nat) (w : ω) (r : ρ) :
    (addChild k i w r).res = Function.update k.res i r := by
  funext j
  by_cases hj : j = i <;> simp [Kernel.res, hj, childOf]

@[simp] theorem phase_addChild (i : Nat) (w : ω) (r : ρ) :
    (addChild k i w r).phase = Function.update k.phase i .live := by
  funext j
  by_cases hj : j = i <;> simp [Kernel.phase, hj, childOf, Status.phase]

@[simp] theorem res_unloadProcess (M : Machine ω ρ α) (i : Nat) :
    (unloadProcess M k i).res = k.res :=
  res_setStatus i .unused

@[simp] theorem phase_unloadProcess (M : Machine ω ρ α) (i : Nat) :
    (unloadProcess M k i).phase = Function.update k.phase i .free :=
  phase_setStatus i .unused

theorem schedule_quiet {k' : Kernel ω ρ} (h : schedule k = some k') :
    k'.world = k.world ∧ k'.res = k.res ∧ k'.phase = k.phase := by
  obtain ⟨t, ht, rfl⟩ := schedule_cases h
  have hlive : k.phase t = .live := by rw [Kernel.phase, ht]; rfl
  refine ⟨rfl, res_setStatus t .running, (phase_setStatus t .running).trans ?_⟩
  rw [show Status.running.phase = k.phase t from hlive.symm, Function.update_eq_self]

theorem findChild_lt {pid : Int} : ∀ {n i : Nat}, findChild k pid n = some i → i < n
  | 0, _, h => by cases h
  | n + 1, i, h => by
      rw [findChild] at h
      split at h
      · cases h; omega
      · exact Nat.lt_succ_of_lt (findChild_lt h)

theorem freeSlot_lt {i : Nat} (h : freeSlot k = some i) : i < numProcs :=
  List.mem_range.mp (List.mem_of_find?_eq_some h)

end

section Calls

variable {M : Machine ω ρ α} {k k' : Kernel ω ρ}

theorem fork_effect (hs : sysFork M k = some k') : Effect M k k' .fork := by
  rw [sysFork] at hs
  split at hs
  · cases hs
    exact .quiet (fun _ he => by cases he) rfl (res_ret _) (phase_ret _)
  · rename_i i hi
    split at hs
    · cases hs
    · rename_i w r hc
      cases hs
      exact .fork (freeSlot_lt hi) (by rw [Kernel.phase, freeSlot_unused hi]; rfl) hc rfl
        (by simp) (by simp)

theorem call_effect {a : α} (hs : sysCall M k a = some k') : Effect M k k' (.call a) := by
  rw [sysCall] at hs
  split at hs
  · cases hs
  · rename_i w r v hc
    cases hs
    exact .call hc rfl (by simp) (by simp)

/-- The parent that an exit wakes is blocked, so it is live. -/
theorem wake_quiet {o : Obs} {x : Int32} {q : Nat} (h : Inv k o)
    (hw : (k.table k.running).waited = true) (hq : (k.table k.running).parent = some q) :
    (k.modify q fun p => { p with status := .ready, x10 := sext x }).res = k.res ∧
    (k.modify q fun p => { p with status := .ready, x10 := sext x }).phase = k.phase := by
  refine ⟨(res_modify _ _).trans (Function.update_eq_self ..), (phase_modify _ _).trans ?_⟩
  have hlive : (k.table k.running).status ≠ .unused := by
    rcases h.live with h | h <;> rw [h] <;> decide
  obtain ⟨q', hq', hblk, -⟩ := h.waited k.running hw hlive
  obtain rfl : q = q' := by simpa [hq] using hq'
  rw [show Status.ready.phase = k.phase q by rw [Kernel.phase, hblk]; rfl,
    Function.update_eq_self]

theorem exit_effect {o : Obs} {x : Int32} (h : Inv k o) (hs : sysExit M k x = some k') :
    Effect M k k' (.exit x) := by
  cases hc : M.close k.world (k.res k.running) with
  | mk w r =>
      have hclose : closeFiles M k = k.setRes w r := by rw [closeFiles, ← Kernel.res, hc]
      have hinv : Inv (k.setRes w r) o := inv_setRes h w r
      rw [sysExit, hclose, exitProcess] at hs
      split at hs
      · rename_i hwaited
        split at hs
        · cases hs
        · rename_i q hq
          obtain ⟨hres, hphase⟩ := wake_quiet (x := x) hinv hwaited hq
          obtain ⟨hw, hr, hp⟩ := schedule_quiet hs
          refine .gone hc (hw.trans ?_) ?_ ?_
          · refine congrArg (M.unload w) ((congrFun hres k.running).trans ?_)
            simp
          · rw [hr, res_unloadProcess, hres, res_setRes]
          · rw [hp, phase_unloadProcess, hphase, phase_setRes]
            rfl
      · obtain ⟨hw, hr, hp⟩ := schedule_quiet hs
        refine .zombie hc hw ?_ ?_
        · rw [hr, res_modify]
          simp
        · rw [hp, phase_modify, phase_setRes]
          rfl

theorem waitpid_effect {pid : Int} (hlive : k.phase k.running = .live)
    (hs : sysWaitpid M k pid = some k') : Effect M k k' (.waitpid pid) := by
  rw [sysWaitpid] at hs
  split at hs
  · cases hs
    exact .quiet (fun _ he => by cases he) rfl (res_ret _) (phase_ret _)
  · rename_i i hi
    split at hs
    · rename_i hz
      cases hs
      exact .reap (findChild_lt hi) (by rw [Kernel.phase, hz]; rfl) rfl (by simp) (by simp)
    · obtain ⟨hw, hr, hp⟩ := schedule_quiet hs
      have hwaited : (k.modify i fun p => { p with waited := true }).phase = k.phase :=
        (phase_modify _ _).trans (Function.update_eq_self ..)
      refine .quiet (fun _ he => by cases he) hw ?_ ?_
      · rw [hr, res_setStatus]
        exact (res_modify _ _).trans (Function.update_eq_self ..)
      · rw [hp, phase_setStatus, hwaited, show Status.blocked.phase = k.phase k.running from hlive.symm,
          Function.update_eq_self]

/-- The mark `READY` of the trap handler changes nothing for the resources. -/
theorem Effect.of_ready {e : Event α} (hlive : k.phase k.running = .live)
    (h : Effect M (k.setStatus k.running .ready) k' e) : Effect M k k' e := by
  have hphase : (k.setStatus k.running .ready).phase = k.phase := by
    rw [phase_setStatus, show Status.ready.phase = k.phase k.running from hlive.symm,
      Function.update_eq_self]
  cases h with
  | quiet he hw hr hp => exact .quiet he hw (by simpa using hr) (by rw [hp, hphase])
  | fork hi hfree hc hw hr hp =>
      exact .fork hi (by rw [← hphase]; exact hfree) (by simpa using hc) hw (by simpa using hr)
        (by rw [hp, hphase])
  | zombie hc hw hr hp =>
      exact .zombie (by simpa using hc) hw (by simpa using hr) (by rw [hp, hphase]; rfl)
  | gone hc hw hr hp =>
      exact .gone (by simpa using hc) hw (by simpa using hr) (by rw [hp, hphase]; rfl)
  | reap hi hdead hw hr hp =>
      exact .reap hi (by rw [← hphase]; exact hdead) (by simpa using hw) (by simpa using hr)
        (by rw [hp, hphase])
  | call hc hw hr hp =>
      exact .call (by simpa using hc) hw (by simpa using hr) (by rw [hp, hphase])

/-- `Effect` is all a kernel entry does to the resources. -/
theorem step_effect {e : Event α} (h : Sched k) (hs : step M k e = some k') :
    Effect M k k' e := by
  obtain ⟨o, ho⟩ := h.hist
  have htrap : Inv (k.setStatus k.running .ready) o := inv_trap ho
  refine .of_ready h.live ?_
  cases e with
  | fork => exact fork_effect hs
  | exit x => exact exit_effect htrap hs
  | waitpid pid =>
      refine waitpid_effect ?_ hs
      show (k.setStatus k.running .ready).phase k.running = .live
      simp [Status.phase]
  | yield =>
      obtain ⟨hw, hr, hp⟩ := schedule_quiet hs
      exact .quiet nofun hw hr hp
  | call a => exact call_effect hs

end Calls

end Proc
