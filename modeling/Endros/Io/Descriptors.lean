import Endros.Io.File
import Endros.Proc.Slots

/-!
# Descriptors as indices

The calls take a descriptor from a register and use it as an index into
`opened_files`.  None of them compares it with `NUM_FILES`.  So the table is taken
here as memory: `slots` has a `FileDescriptor` at every index, and behind and
before the 64 of the table it is whatever lies there.  Every call returns the
indices at which it has looked.

The scans for a free slot stay inside the table, and every other index is one that
the caller passed (`exec_accesses`).  With indices inside the table the calls are
those of `Proc` (`Raw.close_restrict`, `Raw.dup_restrict`, `Raw.dup3_restrict`).
-/

namespace Io

open Proc (FileDescriptor FdTable File FileType GetFile numFiles freeFd)

/-- The memory around `opened_files`, and the state `σ` of the files. -/
structure Raw (σ : Type) where
  heap : Proc.Heap
  slots : Int → FileDescriptor
  files : σ

/-- The calls, with their arguments as they arrive.  `out` is what `getfile` does from
the directory of the descriptor `dfd`, or from that of the process. -/
inductive FdCall where
  | read (fd : UInt32) (size : UInt64)
  | write (fd : UInt32) (buf : Nat → UInt8) (size : UInt64)
  | close (fd : UInt32)
  | lseek (fd : UInt32) (offHigh offLow : UInt64) (whence : UInt32)
  | dup (fd : UInt32)
  | dup3 (oldFd newFd : UInt32) (flags : UInt32)
  | openat (dfd : Int32) (flags : UInt32) (out : Option File → GetFile)

/-- `opened_files[fd]`. -/
def index (fd : UInt32) : Int := fd.toNat

/-- What a call returns: the state, its result and the indices it looked at. -/
abbrev Returns (σ : Type) := Raw σ × Int × List Int

namespace Raw

variable {σ : Type} (s : Raw σ)

/-- The 64 slots of the table. -/
def table : FdTable := fun fd => s.slots fd.val

def setSlot (i : Int) (d : FileDescriptor) : Raw σ :=
  { s with slots := Function.update s.slots i d }

/-- The memory with another table in it. -/
def setTable (t : FdTable) : Raw σ :=
  { s with slots := fun i => if h : 0 ≤ i ∧ i < numFiles then t ⟨i.toNat, by omega⟩ else s.slots i }

/-- `rc++` of the file of a descriptor, unless it is a device. -/
def link (file : File) : Raw σ :=
  { s with heap := if file.type ≠ .device then s.heap.setRc file.super (· + 1) else s.heap }

/-- The loop that looks for a free slot, with the indices it looks at. -/
def scanned : List Int :=
  match freeFd s.table with
  | none => (List.range numFiles).map Int.ofNat
  | some fd => (List.range (fd + 1)).map Int.ofNat

def close (fd : UInt32) : Returns σ :=
  let d := s.slots (index fd)
  if d.occupied = false then (s, -1, [index fd])
  else
    let heap := if d.file.type ≠ .device then s.heap.drop d.file.super else s.heap
    ({ s with heap }.setSlot (index fd) { d with occupied := false }, 0, [index fd])

def dup (fd : UInt32) : Returns σ :=
  let d := s.slots (index fd)
  if d.occupied = false then (s, -1, [index fd])
  else
    match freeFd s.table with
    | none => (s, -1, index fd :: s.scanned)
    | some newFd => ((s.link d.file).setSlot newFd.val d, 0, index fd :: s.scanned)

def dup3 (oldFd newFd : UInt32) (flags : UInt32) : Returns σ :=
  if (s.slots (index oldFd)).occupied = false then (s, -1, [index oldFd])
  else
    let s := if (s.slots (index newFd)).occupied then (s.close newFd).1 else s
    let d := s.slots (index oldFd)
    let s := s.setSlot (index newFd) { d with openFlags := d.openFlags &&& flags }
    (s.link (s.slots (index oldFd)).file, 0, [index oldFd, index newFd])

def openat (dfd : Int32) (flags : UInt32) (out : Option File → GetFile) : Option (Returns σ) :=
  let d := s.slots dfd.toInt
  let cwd := if d.occupied = true ∧ d.file.type = .directory then some d.file else none
  (Proc.sysOpenat s.heap s.table flags (out cwd)).map fun (heap, t, v) =>
    ({ s with heap }.setTable t, v.toInt64.toInt, dfd.toInt :: s.scanned)

end Raw

section Exec

variable {σ : Type} (ops : File → FileOps σ)

/-- One call. -/
def exec (s : Raw σ) : FdCall → Option (Returns σ)
  | .read fd size =>
      let d := s.slots (index fd)
      let r := sysRead (ops d.file) s.files d size
      some (s.setSlot (index fd) r.2.1, r.2.2, [index fd])
  | .write fd buf size =>
      let d := s.slots (index fd)
      (sysWrite (ops d.file) s.files d buf size).map fun r =>
        ({ s with files := r.1 }.setSlot (index fd) r.2.1, r.2.2, [index fd])
  | .close fd => some (s.close fd)
  | .lseek fd offHigh offLow whence =>
      let d := s.slots (index fd)
      let r := sysLseek (ops d.file) s.files d offHigh offLow whence
      some (s.setSlot (index fd) r.1, r.2, if r.2 = 0 then [index fd] else [])
  | .dup fd => some (s.dup fd)
  | .dup3 oldFd newFd flags => some (s.dup3 oldFd newFd flags)
  | .openat dfd flags out => s.openat dfd flags out

/-- The descriptors a call is given. -/
def FdCall.args : FdCall → List Int
  | .read fd _ | .write fd _ _ | .close fd | .lseek fd _ _ _ | .dup fd => [index fd]
  | .dup3 oldFd newFd _ => [index oldFd, index newFd]
  | .openat dfd _ _ => [dfd.toInt]

/-- The descriptor whose slot has to be occupied.  `sys_lseek` does not ask. -/
def FdCall.checked : FdCall → Option Int
  | .read fd _ | .write fd _ _ | .close fd | .dup fd => some (index fd)
  | .dup3 oldFd _ _ => some (index oldFd)
  | .lseek .. | .openat .. => none

/-- An index of the table. -/
def InRange (i : Int) : Prop := 0 ≤ i ∧ i < numFiles

end Exec

/-! ## The indices -/

section Indices

variable {σ : Type} {ops : File → FileOps σ} {s s' : Raw σ}

theorem Raw.scanned_inRange (s : Raw σ) : ∀ i ∈ s.scanned, InRange i := by
  intro i hi
  rw [Raw.scanned] at hi
  split at hi
  · obtain ⟨n, hn, rfl⟩ := List.mem_map.mp hi
    have := List.mem_range.mp hn
    exact ⟨Int.natCast_nonneg n, by simp only [Int.ofNat_eq_natCast]; omega⟩
  · rename_i fd _
    obtain ⟨n, hn, rfl⟩ := List.mem_map.mp hi
    have := List.mem_range.mp hn
    have := fd.isLt
    exact ⟨Int.natCast_nonneg n, by simp only [Int.ofNat_eq_natCast]; omega⟩

/-- A call looks at the slots it is given and at slots of the table. -/
theorem exec_accesses {c : FdCall} {v : Int} {l : List Int} (h : exec ops s c = some (s', v, l)) :
    ∀ i ∈ l, i ∈ c.args ∨ InRange i := by
  cases c with
  | read fd size =>
      cases h
      exact fun i hi => .inl hi
  | write fd buf size =>
      obtain ⟨r, -, hr⟩ := Option.map_eq_some_iff.mp h
      cases hr
      exact fun i hi => .inl hi
  | close fd =>
      have hl : (s.close fd).2.2 = [index fd] := by
        rw [Raw.close]
        dsimp only
        split <;> rfl
      rw [exec, Option.some.injEq] at h
      rw [h] at hl
      dsimp only at hl
      subst hl
      exact fun i hi => .inl hi
  | lseek fd offHigh offLow whence =>
      cases h
      intro i hi
      split at hi
      · exact .inl hi
      · cases hi
  | dup fd =>
      have hl : (s.dup fd).2.2 = [index fd] ∨ (s.dup fd).2.2 = index fd :: s.scanned := by
        rw [Raw.dup]
        split
        · exact .inl rfl
        · split <;> exact .inr rfl
      rw [exec, Option.some.injEq] at h
      rw [h] at hl
      dsimp only at hl
      intro i hi
      rcases hl with rfl | rfl
      · exact .inl hi
      · rcases List.mem_cons.mp hi with rfl | hi
        · exact .inl (List.mem_singleton_self _)
        · exact .inr (s.scanned_inRange i hi)
  | dup3 oldFd newFd flags =>
      have hl : (s.dup3 oldFd newFd flags).2.2 = [index oldFd] ∨
          (s.dup3 oldFd newFd flags).2.2 = [index oldFd, index newFd] := by
        rw [Raw.dup3]
        split
        · exact .inl rfl
        · exact .inr rfl
      rw [exec, Option.some.injEq] at h
      rw [h] at hl
      intro i hi
      rcases hl with rfl | rfl
      · exact .inl (List.mem_cons.mpr (.inl (List.mem_singleton.mp hi)))
      · exact .inl hi
  | openat dfd flags out =>
      obtain ⟨⟨heap, t, w⟩, -, hr⟩ := Option.map_eq_some_iff.mp h
      cases hr
      intro i hi
      rcases List.mem_cons.mp hi with rfl | hi
      · exact .inl (List.mem_singleton_self _)
      · exact .inr (s.scanned_inRange i hi)

theorem Raw.setSlot_self (s : Raw σ) (i : Int) : s.setSlot i (s.slots i) = s := by
  rw [Raw.setSlot, Function.update_eq_self]

/-- A call whose descriptor is not open is refused. -/
theorem exec_rejects {c : FdCall} {v : Int} {l : List Int} (h : exec ops s c = some (s', v, l))
    {i : Int} (hc : c.checked = some i) (hfree : (s.slots i).occupied = false) :
    v = -1 ∧ s' = s := by
  cases c with
  | read fd size =>
      cases hc
      rw [exec, sysRead, if_pos hfree] at h
      cases h
      exact ⟨rfl, s.setSlot_self _⟩
  | write fd buf size =>
      cases hc
      rw [exec, sysWrite, if_pos hfree] at h
      cases h
      exact ⟨rfl, s.setSlot_self _⟩
  | close fd =>
      cases hc
      rw [exec, Raw.close, if_pos hfree] at h
      cases h
      exact ⟨rfl, rfl⟩
  | lseek => cases hc
  | dup fd =>
      cases hc
      rw [exec, Raw.dup, if_pos hfree] at h
      cases h
      exact ⟨rfl, rfl⟩
  | dup3 oldFd newFd flags =>
      cases hc
      rw [exec, Raw.dup3, if_pos hfree] at h
      cases h
      exact ⟨rfl, rfl⟩
  | openat => cases hc

end Indices

/-! ## Indices inside the table -/

section Restrict

variable {σ : Type} {s : Raw σ}

theorem Raw.table_setSlot {i : Fin numFiles} (d : FileDescriptor) :
    (s.setSlot i.val d).table = Function.update s.table i d := by
  funext j
  show Function.update s.slots i.val d j.val = Function.update s.table i d j
  by_cases hj : j = i
  · subst hj
    rw [Function.update_self, Function.update_self]
  · have hne : (j.val : Int) ≠ i.val := fun h => hj (Fin.ext (by omega))
    rw [Function.update_of_ne hne, Function.update_of_ne hj]
    rfl

/-- A descriptor below `NUM_FILES` as a slot. -/
def slot (fd : UInt32) (h : fd.toNat < numFiles) : Fin numFiles := ⟨fd.toNat, h⟩

/-- Inside the table `sys_close` is that of `Proc`. -/
theorem Raw.close_restrict {fd : UInt32} (h : fd.toNat < numFiles) :
    (s.close fd).1.heap = (Proc.sysClose s.heap s.table (slot fd h)).1 ∧
      (s.close fd).1.table = (Proc.sysClose s.heap s.table (slot fd h)).2.1 := by
  have hslot : s.slots (index fd) = s.table (slot fd h) := rfl
  rw [Raw.close, Proc.sysClose, hslot]
  cases hocc : (s.table (slot fd h)).occupied with
  | false => exact ⟨rfl, rfl⟩
  | true => exact ⟨rfl, Raw.table_setSlot (i := slot fd h) _⟩

theorem Raw.dup_restrict {fd : UInt32} (h : fd.toNat < numFiles) :
    (s.dup fd).1.heap = (Proc.sysDup s.heap s.table (slot fd h)).1 ∧
      (s.dup fd).1.table = (Proc.sysDup s.heap s.table (slot fd h)).2.1 := by
  have hslot : s.slots (index fd) = s.table (slot fd h) := rfl
  rw [Raw.dup, Proc.sysDup, hslot]
  cases hocc : (s.table (slot fd h)).occupied with
  | false => exact ⟨rfl, rfl⟩
  | true =>
      simp only [Bool.true_eq_false, if_false, if_true]
      cases freeFd s.table with
      | none => exact ⟨rfl, rfl⟩
      | some newFd => exact ⟨rfl, Raw.table_setSlot (i := newFd) _⟩

theorem Raw.dup3_restrict {oldFd newFd flags : UInt32} (ho : oldFd.toNat < numFiles)
    (hn : newFd.toNat < numFiles) :
    (s.dup3 oldFd newFd flags).1.heap =
        (Proc.sysDup3 s.heap s.table (slot oldFd ho) (slot newFd hn) flags).1 ∧
      (s.dup3 oldFd newFd flags).1.table =
        (Proc.sysDup3 s.heap s.table (slot oldFd ho) (slot newFd hn) flags).2.1 := by
  have hold : ∀ s : Raw σ, s.slots (index oldFd) = s.table (slot oldFd ho) := fun _ => rfl
  have hnew : s.slots (index newFd) = s.table (slot newFd hn) := rfl
  rw [Raw.dup3, Proc.sysDup3, hold, hnew]
  cases hocc : (s.table (slot oldFd ho)).occupied with
  | false => exact ⟨rfl, rfl⟩
  | true =>
      simp only [Bool.true_eq_false, if_false, if_true, Proc.closeFd]
      -- the slot of the copy, closed if it was open
      have hclose : ((if (s.table (slot newFd hn)).occupied = true then (s.close newFd).1 else s).heap,
          (if (s.table (slot newFd hn)).occupied = true then (s.close newFd).1 else s).table) =
          (if (s.table (slot newFd hn)).occupied = true then
            ((Proc.sysClose s.heap s.table (slot newFd hn)).1,
              (Proc.sysClose s.heap s.table (slot newFd hn)).2.1)
          else (s.heap, s.table)) := by
        split
        · obtain ⟨h₁, h₂⟩ := Raw.close_restrict (s := s) hn
          rw [h₁, h₂]
        · rfl
      rw [← hclose]
      generalize (if (s.table (slot newFd hn)).occupied = true then (s.close newFd).1 else s) = s₁
      dsimp only
      rw [hold s₁]
      generalize ({ s₁.table (slot oldFd ho) with
        openFlags := (s₁.table (slot oldFd ho)).openFlags &&& flags } : FileDescriptor) = d
      have hset : (s₁.setSlot (index newFd) d).table = Function.update s₁.table (slot newFd hn) d :=
        Raw.table_setSlot (i := slot newFd hn) d
      rw [hold, hset]
      exact ⟨rfl, hset⟩

end Restrict

/-! ## Descriptors outside the table -/

/-- A process with nothing open, in front of memory that looks like descriptors of a
device. -/
def emptyTable : Raw Unit :=
  { heap := ⟨fun _ => none, false⟩
    slots := fun i => if 0 ≤ i ∧ i < 64 then ⟨false, 0, ⟨0, .directory⟩, 0⟩ else ⟨true, 0, ⟨0, .device⟩, 0⟩
    files := () }

/-- A device that can be read and written and has no bytes. -/
def nullFile (_ : File) : FileOps Unit where
  getPermission _ := permissionR ||| permissionW
  getSize _ := 0
  read _ _ buf _ := (buf, 0)
  write _ _ _ _ := ((), 0)
  trunc _ _ := some ()

end Io
