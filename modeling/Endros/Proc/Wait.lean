import Endros.Lib.Run
import Endros.Proc.Table

/-!
# What `waitpid` reports

The exit status of a child takes one of two routes to its parent.  If the parent
is blocked in `waitpid` when the child exits, `sys_exit` writes the code into
the parent's saved `a0` and makes it ready.  If the child exits first it stays
behind as a zombie with the code in its slot, and `sys_waitpid` returns `0` when
it reaps it.

The history of a run is kept next to the kernel: the code every pid exited with,
and what each `waitpid` left in `a0` at the return to user mode.  The invariant
of the wake-up protocol holds on every run, so the first route always delivers
the code.  The second delivers it exactly when the code is `0`.
-/

namespace Proc

open Lib

variable {ω ρ α : Type}

/-! ## What is observed -/

/-- A return of `waitpid` to user mode: the caller, the pid it waited for,
whether that process was a zombie when the call was made, and the value in
`a0`. -/
structure Delivery where
  parent : Int
  child : Int
  zombie : Bool
  a0 : UInt64
deriving DecidableEq, Repr

/-- The history of a run.  `wait` has the call of `waitpid` each slot is in,
`codes` the argument of `sys_exit` by pid. -/
structure Obs where
  wait : Nat → Option (Int × Bool)
  codes : Int → Option Int32
  log : List Delivery

/-- The process that runs goes back to user mode. -/
def resume (k : Kernel ω ρ) (o : Obs) : Obs :=
  match o.wait k.running with
  | none => o
  | some (c, z) =>
      { o with
        wait := Function.update o.wait k.running none
        log := ⟨(k.table k.running).pid, c, z, (k.table k.running).x10⟩ :: o.log }

/-- What the event adds to the history before the kernel returns. -/
def enter (k : Kernel ω ρ) (e : Event α) (o : Obs) : Obs :=
  match e with
  | .exit x => { o with codes := Function.update o.codes (k.table k.running).pid (some x) }
  | .waitpid pid =>
      match findChild k pid numProcs with
      | none => o
      | some i =>
          { o with
            wait := Function.update o.wait k.running
              (some (pid, decide ((k.table i).status = .zombie))) }
  | _ => o

/-- A kernel with its history. -/
structure Traced (ω ρ : Type) where
  k : Kernel ω ρ
  obs : Obs

def tstep (M : Machine ω ρ α) (s : Traced ω ρ) (e : Event α) : Option (Traced ω ρ) :=
  (step M s.k e).map fun k' => ⟨k', resume k' (enter s.k e s.obs)⟩

/-- The machine after boot, with an empty history. -/
def Traced.boot (world : ω) (res : Nat → ρ) : Traced ω ρ :=
  ⟨Proc.boot world res, ⟨fun _ => none, fun _ => none, []⟩⟩

/-- Every `waitpid` that returned delivered the argument of the child's
`sys_exit`. -/
def Reports (o : Obs) : Prop :=
  ∀ d ∈ o.log, ∃ x, o.codes d.child = some x ∧ d.a0 = sext x

instance (o : Obs) : Decidable (Reports o) :=
  decidable_of_iff (∀ d ∈ o.log, (o.codes d.child).map sext = some d.a0) <| by
    simp only [Option.map_eq_some_iff]
    exact forall₂_congr fun d _ => exists_congr fun x => and_congr_right fun _ => eq_comm

/-- A `waitpid` that finds a zombie finds one that exited with `0`. -/
def ReapsZero (s : Traced ω ρ) (e : Event α) (_ : Traced ω ρ) : Prop :=
  match e with
  | .waitpid pid => ∀ i, findChild s.k pid numProcs = some i →
      (s.k.table i).status = .zombie → (s.k.table i).exitCode = 0
  | _ => True

instance (s : Traced ω ρ) (e : Event α) (s' : Traced ω ρ) : Decidable (ReapsZero s e s') :=
  match e with
  | .waitpid pid => inferInstanceAs (Decidable (∀ i ∈ findChild s.k pid numProcs,
      (s.k.table i).status = .zombie → (s.k.table i).exitCode = 0))
  | .fork | .exit _ | .yield | .call _ => .isTrue trivial

/-! ## The invariant -/

/-- A pid names one slot. -/
structure Pids (k : Kernel ω ρ) : Prop where
  pid_lt : ∀ i, (k.table i).pid < k.nextPid
  pid_inj : ∀ i j, (k.table i).pid = (k.table j).pid → i = j ∨ (k.table i).pid = 0
  next_pos : 0 < k.nextPid

/-- What holds of the table and the history whoever runs.  The last two fields
are the wake-up protocol: a live process that is waited for has a parent blocked
on its pid, and a process in `waitpid` is blocked, or has been woken with the
code in its `a0`. -/
structure Core (k : Kernel ω ρ) (o : Obs) : Prop extends Pids k where
  pid_ne : ∀ i, (k.table i).status ≠ .unused → (k.table i).pid ≠ 0
  code_live : ∀ i, (k.table i).status ≠ .unused → (k.table i).status ≠ .zombie →
    o.codes (k.table i).pid = none
  code_zombie : ∀ i, (k.table i).status = .zombie →
    o.codes (k.table i).pid = some (k.table i).exitCode
  code_new : ∀ p, k.nextPid ≤ p → o.codes p = none
  waited : ∀ i, (k.table i).waited = true → (k.table i).status ≠ .unused →
    ∃ q, (k.table i).parent = some q ∧ (k.table q).status = .blocked ∧
      o.wait q = some ((k.table i).pid, false)
  wait : ∀ q c z, o.wait q = some (c, z) → z = false ∧
    ((k.table q).status = .blocked ∨
      ((k.table q).status = .ready ∧ ∃ x, o.codes c = some x ∧ (k.table q).x10 = sext x))

/-- The process that runs is ready and in no `waitpid`. -/
structure Runs (k : Kernel ω ρ) (o : Obs) : Prop where
  live : (k.table k.running).status = .ready ∨ (k.table k.running).status = .running
  free : o.wait k.running = none

structure Inv (k : Kernel ω ρ) (o : Obs) : Prop extends Core k o, Runs k o

theorem boot_inv (world : ω) (res : Nat → ρ) :
    Inv (Traced.boot world res).k (Traced.boot world res).obs := by
  refine ⟨⟨⟨?_, ?_, ?_⟩, ?_, ?_, ?_, ?_, ?_, ?_⟩, ⟨?_, ?_⟩⟩ <;>
    simp [Traced.boot, boot]
  · intro i; split <;> omega
  · intro i j h
    split at h <;> split at h <;> simp_all
  · intro i; split <;> simp

/-! ## Small facts about the table -/

@[simp, grind =] theorem Kernel.modify_table (k : Kernel ω ρ) (i j : Nat) (f : PCB ρ → PCB ρ) :
    (k.modify i f).table j = if j = i then f (k.table i) else k.table j := by
  simp [Kernel.modify, Function.update_apply]

@[simp, grind =] theorem Kernel.modify_running (k : Kernel ω ρ) (i : Nat) (f : PCB ρ → PCB ρ) :
    (k.modify i f).running = k.running := rfl

@[simp, grind =] theorem Kernel.modify_nextPid (k : Kernel ω ρ) (i : Nat) (f : PCB ρ → PCB ρ) :
    (k.modify i f).nextPid = k.nextPid := rfl

/-- Whatever `schedule` picks is ready. -/
theorem scan_ready {status : Nat → Status} {id : Nat} : ∀ {fuel target : Nat} {flag : Bool} {t : Nat},
    scan status id fuel target flag = some t → status t = .ready
  | 0, _, _, _, h => by cases h
  | fuel + 1, target, flag, t, h => by
      rw [scan] at h
      split at h
      · cases h
      · split at h
        · cases h; assumption
        · exact scan_ready h

/-- What `schedule` does: a ready process runs. -/
theorem schedule_cases {k k' : Kernel ω ρ} (h : schedule k = some k') :
    ∃ t, (k.table t).status = .ready ∧ k' = k.run t := by
  obtain ⟨t, ht, rfl⟩ := Option.map_eq_some_iff.mp h
  exact ⟨t, scan_ready ht, rfl⟩

theorem freeSlot_unused {k : Kernel ω ρ} {i : Nat} (h : freeSlot k = some i) :
    (k.table i).status = .unused := by
  simpa using List.find?_some h

theorem findChild_spec {k : Kernel ω ρ} {pid : Int} : ∀ {n i : Nat}, findChild k pid n = some i →
    (k.table i).pid = pid ∧ (k.table i).parent = some k.running
  | 0, _, h => by cases h
  | n + 1, i, h => by
      rw [findChild] at h
      split at h
      · cases h; assumption
      · exact findChild_spec h

@[simp, grind =] theorem Kernel.setStatus_running (k : Kernel ω ρ) (i : Nat) (st : Status) :
    (k.setStatus i st).running = k.running := rfl

@[simp, grind =] theorem Kernel.setStatus_nextPid (k : Kernel ω ρ) (i : Nat) (st : Status) :
    (k.setStatus i st).nextPid = k.nextPid := rfl

@[simp, grind =] theorem Kernel.setStatus_table (k : Kernel ω ρ) (i j : Nat) (st : Status) :
    (k.setStatus i st).table j =
      if j = i then { k.table i with status := st } else k.table j := by
  simp [Kernel.setStatus]

@[simp, grind =] theorem Kernel.run_table (k : Kernel ω ρ) (i j : Nat) :
    (k.run i).table j = if j = i then { k.table i with status := .running } else k.table j := by
  simp [Kernel.run]

@[simp, grind =] theorem Kernel.run_running (k : Kernel ω ρ) (i : Nat) : (k.run i).running = i := rfl

@[simp, grind =] theorem Kernel.run_nextPid (k : Kernel ω ρ) (i : Nat) : (k.run i).nextPid = k.nextPid := rfl

@[simp, grind =] theorem unloadProcess_table (M : Machine ω ρ α) (k : Kernel ω ρ) (i j : Nat) :
    (unloadProcess M k i).table j =
      if j = i then { k.table i with status := .unused } else k.table j := by
  simp [unloadProcess]

@[simp, grind =] theorem unloadProcess_running (M : Machine ω ρ α) (k : Kernel ω ρ) (i : Nat) :
    (unloadProcess M k i).running = k.running := rfl

@[simp, grind =] theorem unloadProcess_nextPid (M : Machine ω ρ α) (k : Kernel ω ρ) (i : Nat) :
    (unloadProcess M k i).nextPid = k.nextPid := rfl

@[simp, grind =] theorem addChild_table (k : Kernel ω ρ) (i j : Nat) (world : ω) (res : ρ) :
    (addChild k i world res).table j =
      if j = i then childOf k (k.table i) res else k.table j := by
  simp [addChild, Function.update_apply]

@[simp, grind =] theorem addChild_running (k : Kernel ω ρ) (i : Nat) (world : ω) (res : ρ) :
    (addChild k i world res).running = k.running := rfl

@[simp, grind =] theorem addChild_nextPid (k : Kernel ω ρ) (i : Nat) (world : ω) (res : ρ) :
    (addChild k i world res).nextPid = k.nextPid + 1 := rfl

attribute [grind =] childOf

@[simp] theorem Kernel.setRes_table (k : Kernel ω ρ) (world : ω) (res : ρ) (j : Nat) :
    (k.setRes world res).table j =
      if j = k.running then { k.table k.running with res } else k.table j := by
  simp [Kernel.setRes]

@[simp] theorem Kernel.setRes_running (k : Kernel ω ρ) (world : ω) (res : ρ) :
    (k.setRes world res).running = k.running := rfl

theorem Pids.congr {k k' : Kernel ω ρ} (h : Pids k) (hn : k'.nextPid = k.nextPid)
    (hpid : ∀ j, (k'.table j).pid = (k.table j).pid) : Pids k' := by
  refine ⟨?_, ?_, ?_⟩
  · intro j; rw [hpid, hn]; exact h.pid_lt j
  · intro j j'; rw [hpid, hpid]; exact h.pid_inj j j'
  · rw [hn]; exact h.next_pos

/-! ## Steps that keep the invariant -/

/-- The invariant reads six fields of a slot, and `a0` only of a process in
`waitpid`. -/
theorem core_congr {k k' : Kernel ω ρ} {o : Obs} (hc : Core k o) (hn : k'.nextPid = k.nextPid)
    (hpid : ∀ j, (k'.table j).pid = (k.table j).pid)
    (hst : ∀ j, (k'.table j).status = (k.table j).status)
    (hpar : ∀ j, (k'.table j).parent = (k.table j).parent)
    (hwtd : ∀ j, (k'.table j).waited = (k.table j).waited)
    (hex : ∀ j, (k'.table j).exitCode = (k.table j).exitCode)
    (hx10 : ∀ j, o.wait j ≠ none → (k'.table j).x10 = (k.table j).x10) : Core k' o := by
  refine ⟨hc.toPids.congr hn hpid, ?_, ?_, ?_, ?_, ?_, ?_⟩
  · intro j; rw [hpid, hst]; exact hc.pid_ne j
  · intro j; rw [hpid, hst]; exact hc.code_live j
  · intro j; rw [hpid, hst, hex]; exact hc.code_zombie j
  · intro p; rw [hn]; exact hc.code_new p
  · intro j hw hl
    rw [hwtd] at hw
    rw [hst] at hl
    obtain ⟨q, hq, hb, hwt⟩ := hc.waited j hw hl
    exact ⟨q, by rw [hpar]; exact hq, by rw [hst]; exact hb, by rw [hpid]; exact hwt⟩
  · intro q c z hq
    obtain ⟨hz, h⟩ := hc.wait q c z hq
    refine ⟨hz, ?_⟩
    rw [hst, hx10 q (by rw [hq]; exact Option.some_ne_none _)]
    exact h

/-- The status of a process that is not blocked, zombie or unused may change to
another such one. -/
theorem core_setStatus {k : Kernel ω ρ} {o : Obs} {i : Nat} {st : Status} (hc : Core k o)
    (hi : (k.table i).status = .ready ∨ (k.table i).status = .running)
    (hw : o.wait i = none) (hst : st = .ready ∨ st = .running) : Core (k.setStatus i st) o := by
  have hst' : st ≠ .unused ∧ st ≠ .zombie := by
    rcases hst with rfl | rfl <;> exact ⟨by decide, by decide⟩
  have hi' : (k.table i).status ≠ .unused ∧ (k.table i).status ≠ .zombie ∧
      (k.table i).status ≠ .blocked := by
    rcases hi with h | h <;> rw [h] <;> exact ⟨by decide, by decide, by decide⟩
  refine ⟨hc.toPids.congr rfl (by grind), ?_, ?_, ?_, hc.code_new, ?_, ?_⟩
  · intro j
    have := hc.pid_ne j
    grind
  · intro j
    have := hc.code_live j
    grind
  · intro j
    have := hc.code_zombie j
    grind
  · intro j
    have := hc.waited j
    grind
  · intro q c z
    have := hc.wait q c z
    grind

/-- The result of a call goes to a process that is in no `waitpid`. -/
theorem inv_ret {k : Kernel ω ρ} {o : Obs} (h : Inv k o) (v : UInt64) : Inv (k.ret v) o := by
  refine ⟨?_, ⟨by simpa [Kernel.ret] using h.live, h.free⟩⟩
  refine core_congr h.toCore rfl ?_ ?_ ?_ ?_ ?_ ?_ <;> intro j <;>
    by_cases hj : j = k.running <;> simp [Kernel.ret, hj]
  intro hne
  exact absurd h.free hne

/-- A process that was woken leaves `waitpid`. -/
theorem core_leave {k : Kernel ω ρ} {o : Obs} {t : Nat} {l : List Delivery} (hc : Core k o)
    (ht : (k.table t).status = .ready) :
    Core k { o with wait := Function.update o.wait t none, log := l } := by
  refine ⟨hc.toPids, hc.pid_ne, hc.code_live, hc.code_zombie, hc.code_new, ?_, ?_⟩
  · intro j hw hl
    obtain ⟨q, hq, hblk, hwait⟩ := hc.waited j hw hl
    have hqt : q ≠ t := by
      rintro rfl
      rw [ht] at hblk; cases hblk
    exact ⟨q, hq, hblk, by simpa [Function.update_apply, hqt] using hwait⟩
  · intro q c z hq
    have := hc.wait q c z
    grind

/-- Dispatching a ready process.  If it comes back from `waitpid` it was woken
with the code of the child in `a0`. -/
theorem core_run {k : Kernel ω ρ} {o : Obs} {t : Nat} (hc : Core k o)
    (ht : (k.table t).status = .ready) (hrep : Reports o) :
    Inv (k.run t) (resume (k.run t) o) ∧ Reports (resume (k.run t) o) := by
  have hrun : ∀ {o' : Obs}, Core k o' → o'.wait t = none → Inv (k.run t) o' := by
    intro o' hc' hw
    have h := core_setStatus hc' (Or.inl ht) hw (Or.inr rfl)
    refine ⟨core_congr h rfl ?_ ?_ ?_ ?_ ?_ ?_, ⟨Or.inr (by simp), hw⟩⟩ <;> intros <;> rfl
  cases hw : o.wait t with
  | none =>
      have hres : resume (k.run t) o = o := by simp [resume, hw]
      rw [hres]
      exact ⟨hrun hc hw, hrep⟩
  | some cz =>
      obtain ⟨c, z⟩ := cz
      have hres : resume (k.run t) o =
          { o with
            wait := Function.update o.wait t none
            log := ⟨(k.table t).pid, c, z, (k.table t).x10⟩ :: o.log } := by
        simp [resume, hw]
      rw [hres]
      obtain ⟨hz, hb | ⟨-, x, hx, hx10⟩⟩ := hc.wait t c z hw
      · rw [ht] at hb; cases hb
      · refine ⟨hrun (core_leave hc ht) (by simp), ?_⟩
        intro d hd
        rcases List.mem_cons.mp hd with rfl | hd
        · exact ⟨x, hx, hx10⟩
        · exact hrep d hd

/-- `schedule` and the return to user mode. -/
theorem schedule_inv {k k' : Kernel ω ρ} {o : Obs} (hc : Core k o) (hrep : Reports o)
    (h : schedule k = some k') : Inv k' (resume k' o) ∧ Reports (resume k' o) := by
  obtain ⟨t, ht, rfl⟩ := schedule_cases h
  exact core_run hc ht hrep

/-- A child in an unused slot. -/
theorem core_fork {k : Kernel ω ρ} {o : Obs} {i : Nat} {res : ρ} {world : ω} (hc : Core k o)
    (hi : (k.table i).status = .unused) :
    Core (addChild k i world res) o := by
  have hpos := hc.next_pos
  refine ⟨⟨?_, ?_, ?_⟩, ?_, ?_, ?_, ?_, ?_, ?_⟩
  · intro j
    have := hc.pid_lt j
    grind
  · intro j j'
    -- the new pid is above every other
    have := hc.pid_lt j
    have := hc.pid_lt j'
    have := hc.pid_inj j j'
    grind
  · show 0 < k.nextPid + 1
    omega
  · intro j
    have := hc.pid_ne j
    grind
  · intro j
    have := hc.code_live j
    have := hc.code_new k.nextPid (Int.le_refl _)
    grind
  · intro j
    have := hc.code_zombie j
    grind
  · intro p hp
    exact hc.code_new p (by rw [addChild_nextPid] at hp; omega)
  · intro j
    have := hc.waited j
    grind
  · intro q c z
    -- an unused slot is in no `waitpid`
    have := hc.wait q c z
    grind

section Exit

variable {k : Kernel ω ρ} {o : Obs} {i : Nat} (x : Int32) (hc : Core k o)
  (hi : (k.table i).status = .ready) (hfree : o.wait i = none)

include hc in
/-- No pid that is still to be given out has a code. -/
theorem code_new_exit (p : Int) (hp : k.nextPid ≤ p) :
    Function.update o.codes (k.table i).pid (some x) p = none := by
  have hlt := hc.pid_lt i
  have hne : p ≠ (k.table i).pid := by omega
  rw [Function.update_of_ne hne]
  exact hc.code_new p hp

include hc hi hfree

/-- The exit of a process that nobody waits for. -/
theorem core_zombie (hw : (k.table i).waited = false) :
    Core (k.modify i fun p => { p with status := .zombie, exitCode := x })
      { o with codes := Function.update o.codes (k.table i).pid (some x) } := by
  have hpid : (k.table i).pid ≠ 0 := hc.pid_ne i (by rw [hi]; decide)
  have hnone : o.codes (k.table i).pid = none :=
    hc.code_live i (by rw [hi]; decide) (by rw [hi]; decide)
  refine ⟨hc.toPids.congr rfl (by grind), ?_, ?_, ?_, code_new_exit x hc, ?_, ?_⟩
  · intro j
    have := hc.pid_ne j
    grind
  · intro j
    have := hc.code_live j
    have := hc.pid_inj i j
    grind
  · intro j
    have := hc.code_zombie j
    have := hc.pid_inj i j
    grind
  · intro j
    have := hc.waited j
    grind
  · intro q c z
    have := hc.wait q c z
    grind

/-- The exit of a process whose parent waits for it: the parent is woken with
the code in its `a0`. -/
theorem core_wake {M : Machine ω ρ α} {q : Nat} (hw : (k.table i).waited = true)
    (hq : (k.table i).parent = some q) :
    Core (unloadProcess M
        (k.modify q fun p => { p with status := .ready, x10 := sext x }) i)
      { o with codes := Function.update o.codes (k.table i).pid (some x) } := by
  have hpid : (k.table i).pid ≠ 0 := hc.pid_ne i (by rw [hi]; decide)
  have hnone : o.codes (k.table i).pid = none :=
    hc.code_live i (by rw [hi]; decide) (by rw [hi]; decide)
  obtain ⟨q', hq', hblk, hwait⟩ := hc.waited i hw (by rw [hi]; decide)
  obtain rfl : q = q' := by simpa [hq] using hq'
  have hqi : q ≠ i := by
    rintro rfl
    rw [hi] at hblk; cases hblk
  refine ⟨hc.toPids.congr rfl (by grind), ?_, ?_, ?_, code_new_exit x hc, ?_, ?_⟩
  · intro j
    have := hc.pid_ne j
    grind
  · intro j
    have := hc.code_live j
    have := hc.pid_inj i j
    grind
  · intro j
    have := hc.code_zombie j
    have := hc.pid_inj i j
    grind
  · intro j
    -- another process waited for through `q` would have the pid of `i`
    have := hc.waited j
    have := hc.pid_inj i j
    grind
  · intro q' c z
    have := hc.wait q' c z
    grind

end Exit

/-- Reaping a zombie. -/
theorem core_reap {M : Machine ω ρ α} {k : Kernel ω ρ} {o : Obs} {i : Nat} (hc : Core k o)
    (hi : (k.table i).status = .zombie) : Core (unloadProcess M k i) o := by
  refine ⟨hc.toPids.congr rfl (by grind), ?_, ?_, ?_, hc.code_new, ?_, ?_⟩
  · intro j
    have := hc.pid_ne j
    grind
  · intro j
    have := hc.code_live j
    grind
  · intro j
    have := hc.code_zombie j
    grind
  · intro j
    have := hc.waited j
    grind
  · intro q c z
    have := hc.wait q c z
    grind

/-- The caller of `waitpid` blocks on its child. -/
theorem core_block {k : Kernel ω ρ} {o : Obs} {i : Nat} (hc : Core k o)
    (hr : (k.table k.running).status = .ready) (hi : (k.table i).parent = some k.running) :
    Core ((k.modify i fun p => { p with waited := true }).setStatus k.running .blocked)
      { o with wait := Function.update o.wait k.running (some ((k.table i).pid, false)) } := by
  refine ⟨hc.toPids.congr rfl (by grind), ?_, ?_, ?_, hc.code_new, ?_, ?_⟩
  · intro j
    have := hc.pid_ne j
    grind
  · intro j
    have := hc.code_live j
    grind
  · intro j
    have := hc.code_zombie j
    grind
  · intro j
    have := hc.waited j
    grind
  · intro q c z
    have := hc.wait q c z
    grind

/-! ## The system calls -/

/-- Only the code `0` goes to a register as `0`. -/
theorem sext_eq_zero (x : Int32) : sext x = 0 ↔ x = 0 := by
  constructor
  · intro h
    have h64 : x.toInt64 = 0 := by
      rw [← x.toInt64.toInt64_toUInt64]
      exact congrArg UInt64.toInt64 h
    have h0 : x.toInt64.toInt = 0 := by rw [h64]; rfl
    rw [Int32.toInt_toInt64] at h0
    exact Int32.toInt_inj.mp h0
  · rintro rfl
    rfl

theorem resume_of_free {k : Kernel ω ρ} {o : Obs} (h : o.wait k.running = none) :
    resume k o = o := by
  simp [resume, h]

theorem findChild_setStatus (k : Kernel ω ρ) (i : Nat) (st : Status) (pid : Int) :
    ∀ n, findChild (k.setStatus i st) pid n = findChild k pid n
  | 0 => rfl
  | n + 1 => by
      have hpid : ((k.setStatus i st).table n).pid = (k.table n).pid := by grind
      have hpar : ((k.setStatus i st).table n).parent = (k.table n).parent := by grind
      rw [findChild, findChild, hpid, hpar, findChild_setStatus k i st pid n]
      rfl

/-- Every child of the caller is found. -/
theorem findChild_ne_none {k : Kernel ω ρ} {pid : Int} {i : Nat}
    (hpid : (k.table i).pid = pid) (hpar : (k.table i).parent = some k.running) :
    ∀ {n : Nat}, i < n → findChild k pid n ≠ none
  | n + 1, hi => by
      rw [findChild]
      split
      · exact Option.some_ne_none _
      · rename_i hn
        have hne : i ≠ n := by
          rintro rfl
          exact hn ⟨hpid, hpar⟩
        exact findChild_ne_none hpid hpar (by omega)

section Calls

variable {M : Machine ω ρ α} {k k' : Kernel ω ρ} {o : Obs}

theorem fork_inv (h : Inv k o) (hs : sysFork M k = some k') : Inv k' o := by
  rw [sysFork] at hs
  split at hs
  · cases hs
    exact inv_ret h _
  · rename_i i hi
    have hun := freeSlot_unused hi
    split at hs
    · cases hs
    · cases hs
      have hne : k.running ≠ i := by
        intro he
        have := h.live
        rw [he, hun] at this
        rcases this with h | h <;> cases h
      refine inv_ret ⟨core_fork h.toCore hun, ⟨?_, h.free⟩⟩ _
      simpa [hne] using h.live

/-- The resources of the process that runs may change. -/
theorem inv_setRes (h : Inv k o) (world : ω) (res : ρ) :
    Inv (k.setRes world res) o := by
  refine ⟨?_, ⟨by simpa using h.live, h.free⟩⟩
  refine core_congr h.toCore rfl ?_ ?_ ?_ ?_ ?_ ?_ <;> intro j <;>
    by_cases hj : j = k.running <;> simp [hj]

theorem call_inv {a : α} (h : Inv k o) (hs : sysCall M k a = some k') : Inv k' o := by
  rw [sysCall] at hs
  split at hs
  · cases hs
  · cases hs
    exact inv_ret (inv_setRes h _ _) _

/-- The code of a process that was still alive is no delivered one. -/
theorem reports_exit (h : Inv k o) (hrep : Reports o) (x : Int32) :
    Reports { o with codes := Function.update o.codes (k.table k.running).pid (some x) } := by
  intro d hd
  obtain ⟨y, hy, ha0⟩ := hrep d hd
  have hnone : o.codes (k.table k.running).pid = none := by
    apply h.code_live <;> rcases h.live with h | h <;> rw [h] <;> decide
  have hne : d.child ≠ (k.table k.running).pid := by
    intro he
    rw [he, hnone] at hy; cases hy
  exact ⟨y, by simpa [Function.update_apply, hne] using hy, ha0⟩

theorem exit_inv {x : Int32} (h : Inv k o) (hr : (k.table k.running).status = .ready)
    (hrep : Reports o) (hs : sysExit M k x = some k') :
    Inv k' (resume k' (enter k (.exit x : Event α) o)) ∧
      Reports (resume k' (enter k (.exit x : Event α) o)) := by
  have hcl : Inv (closeFiles M k) o := inv_setRes h _ _
  have hready : ((closeFiles M k).table (closeFiles M k).running).status = .ready := by
    simpa [closeFiles] using hr
  have henter : enter k (.exit x : Event α) o =
      { o with
        codes := Function.update o.codes ((closeFiles M k).table (closeFiles M k).running).pid
          (some x) } := by
    simp [enter, closeFiles]
  rw [henter]
  have hrep' := reports_exit hcl hrep x
  rw [sysExit, exitProcess] at hs
  split at hs
  · rename_i hw
    split at hs
    · cases hs
    · rename_i q hq
      exact schedule_inv (core_wake x hcl.toCore hready hcl.free hw hq) hrep' hs
  · rename_i hw
    exact schedule_inv (core_zombie x hcl.toCore hready hcl.free (by simpa using hw)) hrep' hs

/-- `waitpid` reports rightly unless it reaps a zombie whose code is not `0`. -/
theorem waitpid_inv {pid : Int} (h : Inv k o) (hr : (k.table k.running).status = .ready)
    (hrep : Reports o) (hs : sysWaitpid M k pid = some k') :
    Inv k' (resume k' (enter k (.waitpid pid : Event α) o)) ∧
      (Reports (resume k' (enter k (.waitpid pid : Event α) o)) ↔
        ∀ i, findChild k pid numProcs = some i → (k.table i).status = .zombie →
          (k.table i).exitCode = 0) := by
  rw [sysWaitpid] at hs
  cases hf : findChild k pid numProcs with
  | none =>
      rw [hf] at hs
      cases hs
      have henter : enter k (.waitpid pid : Event α) o = o := by simp [enter, hf]
      have hinv := inv_ret h minusOne
      rw [henter, resume_of_free hinv.free]
      exact ⟨hinv, ⟨fun _ i hi => (by cases hi), fun _ => hrep⟩⟩
  | some i =>
      rw [hf] at hs
      dsimp only at hs
      obtain ⟨hpid, hpar⟩ := findChild_spec hf
      by_cases hz : (k.table i).status = .zombie
      · rw [if_pos hz] at hs
        cases hs
        have hne : k.running ≠ i := by
          intro he
          rw [← he, hr] at hz; cases hz
        have hfree := h.free
        have hinv : Inv ((unloadProcess M k i).ret 0) o := by
          refine inv_ret ⟨core_reap h.toCore hz, ⟨Or.inl ?_, hfree⟩⟩ 0
          simpa [hne] using hr
        -- the call returns at once: the history only gets the delivery of `0`
        have hres : resume ((unloadProcess M k i).ret 0) (enter k (.waitpid pid : Event α) o) =
            { o with log := ⟨(k.table k.running).pid, pid, true, 0⟩ :: o.log } := by
          simp [resume, enter, hf, hz, Kernel.ret, hne, ← hfree]
        rw [hres]
        refine ⟨?_, ?_, ?_⟩
        · exact ⟨⟨hinv.toPids, hinv.pid_ne, hinv.code_live, hinv.code_zombie, hinv.code_new,
            hinv.waited, hinv.wait⟩, ⟨hinv.live, hinv.free⟩⟩
        · intro hrep' j hj _
          cases hj
          obtain ⟨x, hx, hx0⟩ := hrep' _ (List.mem_cons_self ..)
          have hcode := h.code_zombie i hz
          rw [hpid] at hcode
          obtain rfl : (k.table i).exitCode = x := by simpa [hcode] using hx
          exact (sext_eq_zero _).mp hx0.symm
        · intro h0 d hd
          rcases List.mem_cons.mp hd with rfl | hd
          · have hcode := h.code_zombie i hz
            rw [hpid] at hcode
            exact ⟨_, hcode, ((sext_eq_zero _).mpr (h0 i rfl hz)).symm⟩
          · exact hrep d hd
      · rw [if_neg hz] at hs
        have henter : enter k (.waitpid pid : Event α) o =
            { o with wait := Function.update o.wait k.running (some ((k.table i).pid, false)) } := by
          simp [enter, hf, hz, hpid]
        rw [henter]
        obtain ⟨hinv, hrep'⟩ := schedule_inv (core_block h.toCore hr hpar) hrep hs
        refine ⟨hinv, ⟨?_, fun _ => hrep'⟩⟩
        intro _ j hj hzj
        cases hj
        exact absurd hzj hz

/-- `trap_handler` marks the process that runs `READY`. -/
theorem inv_trap (h : Inv k o) : Inv (k.setStatus k.running .ready) o :=
  ⟨core_setStatus h.toCore h.live h.free (Or.inl rfl), ⟨Or.inl (by simp), h.free⟩⟩

/-- A step keeps the invariant, and the reports right exactly when it reaps no
zombie with another code than `0`. -/
theorem step_inv {e : Event α} (h : Inv k o) (hrep : Reports o) (hs : step M k e = some k') :
    Inv k' (resume k' (enter k e o)) ∧
      (Reports (resume k' (enter k e o)) ↔ ReapsZero ⟨k, o⟩ e ⟨k', resume k' (enter k e o)⟩) := by
  have htrap : Inv (k.setStatus k.running .ready) o := inv_trap h
  have hr : ((k.setStatus k.running .ready).table (k.setStatus k.running .ready).running).status =
      .ready := by simp
  cases e with
  | fork =>
      have hinv := fork_inv htrap hs
      show Inv k' (resume k' o) ∧ (Reports (resume k' o) ↔ True)
      rw [resume_of_free hinv.free]
      exact ⟨hinv, iff_true_intro hrep⟩
  | exit x =>
      have henter : enter k (.exit x : Event α) o =
          enter (k.setStatus k.running .ready) (.exit x : Event α) o := by simp [enter]
      rw [henter]
      obtain ⟨hinv, hrep'⟩ := exit_inv htrap hr hrep hs
      exact ⟨hinv, iff_true_intro hrep'⟩
  | waitpid pid =>
      have hstatus : ∀ i, ((k.setStatus k.running .ready).table i).status = .zombie ↔
          (k.table i).status = .zombie := by
        have := h.live
        grind
      have hcode : ∀ i, ((k.setStatus k.running .ready).table i).exitCode = (k.table i).exitCode := by
        grind
      have henter : enter k (.waitpid pid : Event α) o =
          enter (k.setStatus k.running .ready) (.waitpid pid : Event α) o := by
        simp only [enter, findChild_setStatus, hstatus]
        rfl
      rw [henter]
      have hw := waitpid_inv htrap hr hrep hs
      simp only [findChild_setStatus, hstatus, hcode] at hw
      exact hw
  | yield =>
      obtain ⟨hinv, hrep'⟩ := schedule_inv htrap.toCore hrep hs
      exact ⟨hinv, iff_true_intro hrep'⟩
  | call a =>
      have hinv := call_inv htrap hs
      show Inv k' (resume k' o) ∧ (Reports (resume k' o) ↔ True)
      rw [resume_of_free hinv.free]
      exact ⟨hinv, iff_true_intro hrep⟩

end Calls

/-! ## Whole runs -/

/-- The exit status over runs.  Whatever the processes do, every `waitpid`
delivers the child's exit code exactly when each zombie that is reaped exited
with `0`: a parent that waits first always gets the code, a parent that comes
later always gets `0`. -/
theorem run_reports (M : Machine ω ρ α) (world : ω) (res : Nat → ρ) (r : List (Event α × Traced ω ρ))
    (hr : IsRun (fun s e s' => tstep M s e = some s') (Traced.boot world res) r) :
    EveryState (fun s => Reports s.obs) (Traced.boot world res) r ↔
      EveryStep ReapsZero (Traced.boot world res) r := by
  refine hr.everyState_iff (I := fun s => Inv s.k s.obs) ?_ (boot_inv world res)
    (fun d hd => by cases hd)
  rintro ⟨k, o⟩ e s' hinv hrep hs
  obtain ⟨k', hk', rfl⟩ := Option.map_eq_some_iff.mp hs
  exact step_inv hinv hrep hk'

/-- No resources at all. -/
def noMachine : Machine Unit Unit Empty where
  copy w r _ := some (w, r)
  close w r := (w, r)
  unload w _ := w
  exec a := nomatch a

/-- `init` forks and waits, and the child exits with `7`. -/
theorem run_reports_waitFirst :
    ∃ r, runOf (tstep noMachine) (Traced.boot () fun _ => ()) [.fork, .waitpid 2, .exit 7] = some r ∧
      (finalState (Traced.boot () fun _ => ()) r).obs.log = [⟨1, 2, false, 7⟩] ∧
      EveryState (fun s => Reports s.obs) (Traced.boot () fun _ => ()) r := by
  obtain ⟨r, hr⟩ : ∃ r, runOf (tstep noMachine) (Traced.boot () fun _ => ())
      [.fork, .waitpid 2, .exit 7] = some r := Option.isSome_iff_exists.mp (by decide +kernel)
  have hlog : ∀ r ∈ runOf (tstep noMachine) (Traced.boot () fun _ => ()) [.fork, .waitpid 2, .exit 7],
      (finalState (Traced.boot () fun _ => ()) r).obs.log = [⟨1, 2, false, 7⟩] ∧
      EveryStep ReapsZero (Traced.boot () fun _ => ()) r := by decide +kernel
  exact ⟨r, hr, (hlog r hr).1,
    (run_reports noMachine () _ r (isRun_runOf hr)).mpr (hlog r hr).2⟩

/-- `init` forks, yields to the child, which exits with `7`, and reaps it: its
`waitpid` delivers `0`. -/
theorem zombie_reports_zero :
    ∃ r, runOf (tstep noMachine) (Traced.boot () fun _ => ()) [.fork, .yield, .exit 7, .waitpid 2] = some r ∧
      (finalState (Traced.boot () fun _ => ()) r).obs.log = [⟨1, 2, true, 0⟩] ∧
      ¬ Reports (finalState (Traced.boot () fun _ => ()) r).obs := by
  obtain ⟨r, hr⟩ : ∃ r, runOf (tstep noMachine) (Traced.boot () fun _ => ())
      [.fork, .yield, .exit 7, .waitpid 2] = some r :=
    Option.isSome_iff_exists.mp (by decide +kernel)
  have hlog : ∀ r ∈ runOf (tstep noMachine) (Traced.boot () fun _ => ())
        [.fork, .yield, .exit 7, .waitpid 2],
      (finalState (Traced.boot () fun _ => ()) r).obs.log = [⟨1, 2, true, 0⟩] ∧
      ¬ Reports (finalState (Traced.boot () fun _ => ()) r).obs := by decide +kernel
  exact ⟨r, hr, hlog r hr⟩

end Proc
