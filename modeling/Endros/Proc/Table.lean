import Mathlib.Algebra.Group.Int.Defs
import Mathlib.Algebra.GroupWithZero.Nat
import Mathlib.Data.List.Basic
import Mathlib.Logic.Function.Basic

/-!
# The process table

`process_control_table` is an array of `NUM_PROCS` slots, and a process is named
by its slot.  The parent of a process is a slot too (`none` for `NULL`), so it
can outlive the process that was in it.  A kernel entry is one step of the
running process: `trap_handler` marks it `READY`, the system call runs, and
either it returns and its result goes to `x[10]` of the trap frame, or
`schedule` switches to another process and never returns.

What the table does not look into, the address space and the descriptors, is a
`Machine`: `copy` is what `sys_fork` makes for the child, `close` and `unload`
are what `sys_exit` and `free_process_space` give back, and `exec` are the calls
that touch only the caller's own resources.

`step` returns `none` where the kernel panics or shuts down.  `pid_t` is an
`int` whose overflow is undefined in C, so the counter is not bounded here.
-/

namespace Proc

/-- `NUM_PROCS`. -/
def numProcs : Nat := 256

inductive Status where
  | unused | ready | running | blocked | zombie | terminated
deriving DecidableEq, Repr, Inhabited

/-- A slot of the table.  `waited` is the only flag, `FLAGS_WAITED`. -/
structure PCB (ρ : Type) where
  pid : Int
  status : Status
  parent : Option Nat
  waited : Bool
  exitCode : Int32
  /-- `trapframe->x[10]`, the register `a0` of the process. -/
  x10 : UInt64
  res : ρ

/-- The resources of processes: `ω` is what they share, `ρ` what each has. -/
structure Machine (ω ρ α : Type) where
  /-- The child's resources in `sys_fork`, from the parent's and what its slot
  held before, `none` on a panic. -/
  copy : ω → ρ → ρ → Option (ω × ρ)
  /-- `sys_exit` closes every descriptor. -/
  close : ω → ρ → ω × ρ
  /-- `free_process_space`. -/
  unload : ω → ρ → ω
  /-- The other system calls, with the value they return. -/
  exec : α → ω → ρ → Option (ω × ρ × UInt64)

structure Kernel (ω ρ : Type) where
  table : Nat → PCB ρ
  /-- `cpus[0].running`. -/
  running : Nat
  nextPid : Int
  world : ω

inductive Event (α : Type) where
  | fork
  | exit (xstate : Int32)
  | waitpid (pid : Int)
  /-- `sys_yield` or a timer interrupt. -/
  | yield
  | call (a : α)

variable {ω ρ α : Type}

namespace Kernel

/-- Change the slot `i`. -/
def modify (k : Kernel ω ρ) (i : Nat) (f : PCB ρ → PCB ρ) : Kernel ω ρ :=
  { k with table := Function.update k.table i (f (k.table i)) }

def setStatus (k : Kernel ω ρ) (i : Nat) (st : Status) : Kernel ω ρ :=
  k.modify i fun p => { p with status := st }

/-- The process that runs has other resources, and so has the machine. -/
def setRes (k : Kernel ω ρ) (world : ω) (res : ρ) : Kernel ω ρ :=
  { k.modify k.running fun p => { p with res } with world }

/-- The result of a system call goes to the caller's `a0`. -/
def ret (k : Kernel ω ρ) (v : UInt64) : Kernel ω ρ :=
  k.modify k.running fun p => { p with x10 := v }

end Kernel

/-! ## `schedule` -/

/-- The loop of `schedule`, from `target` on. -/
def scan (status : Nat → Status) (id : Nat) : Nat → Nat → Bool → Option Nat
  | 0, _, _ => none
  | fuel + 1, target, flag =>
      if flag ∧ target = (id + 1) % numProcs then none
      else if status target = .ready then some target
      else scan status id fuel ((target + 1) % numProcs) (flag || target == id)

/-- `run`, up to the return to user mode. -/
def Kernel.run (k : Kernel ω ρ) (i : Nat) : Kernel ω ρ :=
  { k.setStatus i .running with running := i }

/-- `schedule`.  With no process ready the machine is shut down. -/
def schedule (k : Kernel ω ρ) : Option (Kernel ω ρ) :=
  (scan (fun i => (k.table i).status) k.running (numProcs + 1)
    ((k.running + 1) % numProcs) false).map k.run

/-! ## The system calls -/

/-- `-1` as the handler stores it. -/
def minusOne : UInt64 := 0 - 1

/-- An `i32` stored into a 64-bit register. -/
def sext (x : Int32) : UInt64 := x.toInt64.toUInt64

/-- The first unused slot. -/
def freeSlot (k : Kernel ω ρ) : Option Nat :=
  (List.range numProcs).find? fun i => (k.table i).status = .unused

/-- The child `sys_fork` puts into a slot that held `old`. -/
def childOf (k : Kernel ω ρ) (old : PCB ρ) (res : ρ) : PCB ρ :=
  { pid := k.nextPid, status := .ready, parent := some k.running, waited := false,
    exitCode := old.exitCode, x10 := 0, res }

/-- The table with the child in the slot `i`. -/
def addChild (k : Kernel ω ρ) (i : Nat) (world : ω) (res : ρ) : Kernel ω ρ :=
  { k with
    table := Function.update k.table i (childOf k (k.table i) res)
    nextPid := k.nextPid + 1
    world }

def sysFork (M : Machine ω ρ α) (k : Kernel ω ρ) : Option (Kernel ω ρ) :=
  match freeSlot k with
  | none => some (k.ret minusOne)
  | some i =>
      match M.copy k.world (k.table k.running).res (k.table i).res with
      | none => none
      | some (world, res) =>
          some ((addChild k i world res).ret (UInt64.ofInt k.nextPid))

/-- `terminate` and `unload_process`. -/
def unloadProcess (M : Machine ω ρ α) (k : Kernel ω ρ) (i : Nat) : Kernel ω ρ :=
  { k.setStatus i .unused with world := M.unload k.world (k.table i).res }

def closeFiles (M : Machine ω ρ α) (k : Kernel ω ρ) : Kernel ω ρ :=
  let r := M.close k.world (k.table k.running).res
  k.setRes r.1 r.2

/-- `sys_exit` behind the loop that closes the files. -/
def exitProcess (M : Machine ω ρ α) (k : Kernel ω ρ) (xstate : Int32) : Option (Kernel ω ρ) :=
  let p := k.table k.running
  if p.waited then
    match p.parent with
    | none => none
    | some q =>
        schedule (unloadProcess M
          (k.modify q fun p => { p with status := .ready, x10 := sext xstate }) k.running)
  else
    schedule (k.modify k.running fun p => { p with status := .zombie, exitCode := xstate })

def sysExit (M : Machine ω ρ α) (k : Kernel ω ρ) (xstate : Int32) : Option (Kernel ω ρ) :=
  exitProcess M (closeFiles M k) xstate

/-- The loop of `sys_waitpid` over the slots below `n`: the last one whose pid
is `pid` and whose parent is the caller. -/
def findChild (k : Kernel ω ρ) (pid : Int) : Nat → Option Nat
  | 0 => none
  | n + 1 =>
      if (k.table n).pid = pid ∧ (k.table n).parent = some k.running then some n
      else findChild k pid n

def sysWaitpid (M : Machine ω ρ α) (k : Kernel ω ρ) (pid : Int) : Option (Kernel ω ρ) :=
  match findChild k pid numProcs with
  | none => some (k.ret minusOne)
  | some i =>
      if (k.table i).status = .zombie then some ((unloadProcess M k i).ret 0)
      else
        schedule ((k.modify i fun p => { p with waited := true }).setStatus k.running .blocked)

/-- A call that touches only the resources of the caller. -/
def sysCall (M : Machine ω ρ α) (k : Kernel ω ρ) (a : α) : Option (Kernel ω ρ) :=
  match M.exec a k.world (k.table k.running).res with
  | none => none
  | some (world, res, v) =>
      some ((k.setRes world res).ret v)

/-- One kernel entry of the running process. -/
def step (M : Machine ω ρ α) (k : Kernel ω ρ) (e : Event α) : Option (Kernel ω ρ) :=
  let k := k.setStatus k.running .ready
  match e with
  | .fork => sysFork M k
  | .exit x => sysExit M k x
  | .waitpid pid => sysWaitpid M k pid
  | .yield => schedule k
  | .call a => sysCall M k a

/-- The table `init_scheduler` leaves: `init` runs in slot `0`. -/
def boot (world : ω) (res : Nat → ρ) : Kernel ω ρ :=
  { table := fun i =>
      { pid := if i = 0 then 1 else 0, status := if i = 0 then .running else .unused,
        parent := none, waited := false, exitCode := 0, x10 := 0, res := res i }
    running := 0
    nextPid := 2
    world }

end Proc
