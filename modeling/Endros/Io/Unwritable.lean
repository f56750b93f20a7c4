import Endros.Fs.Outcome
import Endros.Io.File

/-!
# Writing to a file without permission

The permission of a file is tested in `wrapped_write`.  A write that goes beyond
the end of the file calls `trunc_file` before that, if the descriptor has
`O_TRUNC`, and `trunc_file` does not look at the permission.  So `sys_write` can
make a file larger that may not be written.

The file system, the table of open files and the descriptors of all processes
make up the state.  A step is a call of some process, with what the uninitialised
locals of the file system hold during it.  Calls on descriptors of devices are
left out.
-/

namespace Io

open Lib Fs
open Proc (FileDescriptor FdTable numProcs numFiles mayWrite)

/-- What the uninitialised locals hold during a call. -/
structure Locals where
  permission : Uninit
  size : Uninit
  access : Uninit
  trunc : TruncateLocals
  pages : Nat → UInt32

/-- A file of the file system, as `wrap_fsfile` sets it up. -/
def fsFile (fs : Filesystem) (u : Locals) (inum : Nat) : FileOps Disk where
  getPermission d := (getInode fs d u.permission inum).1.permission
  getSize d := (getInode fs d u.size inum).1.sizeBytes
  read d offset buf size :=
    (fsFileRead fs d u.access u.pages inum offset.toNat buf size.toNat, 0)
  write d offset buf size :=
    (fsFileWrite fs d u.access u.pages inum offset.toNat buf size.toNat, 0)
  trunc d size := (fsFileTruncate fs d u.trunc inum size).map (·.2)

structure State where
  heap : Proc.Heap
  rows : Proc.Rows
  disk : Disk

inductive Call where
  | lseek (fd : Fin numFiles) (offHigh offLow : UInt64) (whence : UInt32)
  | write (fd : Fin numFiles) (buf : Nat → UInt8) (size : UInt64)
  | dup (fd : Fin numFiles)
  | dup3 (oldFd newFd : Fin numFiles) (flags : UInt32)
  | close (fd : Fin numFiles)

structure Event where
  proc : Fin numProcs
  call : Call
  locals : Locals

namespace State

/-- The file behind a descriptor. -/
def inum (s : State) (d : FileDescriptor) : Option Nat :=
  if d.file.type = .device then none else (s.heap.files d.file.super).map (·.inum.toNat)

def setFd (s : State) (i : Fin numProcs) (fd : Fin numFiles) (d : FileDescriptor) : State :=
  { s with rows := Proc.setSlot s.rows i fd d }

/-- What a call on descriptors leaves. -/
def setFiles (s : State) (i : Fin numProcs) (r : Proc.Heap × FdTable × UInt64) : State :=
  { s with heap := r.1, rows := Function.update s.rows i r.2.1 }

end State

/-- One call. -/
def step (fs : Filesystem) (s : State) (e : Event) : Option State :=
  let t := s.rows e.proc
  match e.call with
  | .lseek fd offHigh offLow whence =>
      (s.inum (t fd)).map fun inum =>
        s.setFd e.proc fd
          (sysLseek (fsFile fs e.locals inum) s.disk (t fd) offHigh offLow whence).1
  | .write fd buf size =>
      if (t fd).occupied = false then some s
      else
        (s.inum (t fd)).bind fun inum =>
          (sysWrite (fsFile fs e.locals inum) s.disk (t fd) buf size).map fun r =>
            { s.setFd e.proc fd r.2.1 with disk := r.1 }
  | .dup fd => some (s.setFiles e.proc (Proc.sysDup s.heap t fd))
  | .dup3 oldFd newFd flags => some (s.setFiles e.proc (Proc.sysDup3 s.heap t oldFd newFd flags))
  | .close fd => some (s.setFiles e.proc (Proc.sysClose s.heap t fd))

/-- A write of the call goes to the file `f`. -/
def OnFile (f : Nat) (s : State) (e : Event) : Prop :=
  match e.call with
  | .write fd _ _ => (s.rows e.proc fd).occupied = true → s.inum (s.rows e.proc fd) = some f
  | _ => True

/-- A call on descriptors of the file `f`. -/
def FileStep (fs : Filesystem) (f : Nat) (s : State) (e : Event) (s' : State) : Prop :=
  step fs s e = some s' ∧ OnFile f s e

/-- The inode of the file can be read, and its permission lacks `PERMISSION_W`. -/
def Unwritable (fs : Filesystem) (d : Disk) (f : Nat) : Prop :=
  ∀ u, (getInode fs d u f).1.permission &&& permissionW = 0

/-- The call does not make the file `f` larger.  A write through a descriptor that
has `O_TRUNC` and may be written ends within the file, or needs a page for which
there is no free block. -/
def KeepsSize (fs : Filesystem) (f : Nat) (s : State) (e : Event) (_ : State) : Prop :=
  match e.call with
  | .write fd _ size =>
      let d := s.rows e.proc fd
      d.occupied = true → mayWrite d.openFlags = true → d.openFlags &&& oTrunc ≠ 0 →
        (inodeOf fs s.disk f).sizeBytes < d.seek + size →
        pages fs s.disk f < Mem.addr2PageUp (d.seek + size).toNat ∧
          ∀ b, b < 8 * fs.bitmapBytes → marked fs s.disk b = true
  | _ => True

section Step

variable {fs : Filesystem} {d : Disk} {f : Nat}

/-- A value that does not depend on what the locals hold has been read from the
disk. -/
theorem Unwritable.getInode (h : Unwritable fs d f) (u : Uninit) :
    (Fs.getInode fs d u f).1 = inodeOf fs d f := by
  -- with a bit that is clear unless it is read, and a permission to write
  have hw := h ⟨0, { u.inode with permission := permissionW }⟩
  have hjunk : ¬ permissionW &&& permissionW = 0 := by decide
  rw [Fs.getInode, Fs.wrappedRead] at hw
  rw [Fs.getInode, Fs.wrappedRead]
  by_cases hend : Mem.u64 (inodeBitmapByte f + 1) > d.size
  · rw [if_pos hend, show bitmapGet 0 f = false by simp [bitmapGet]] at hw
    exact absurd hw hjunk
  · have hbyte : ∀ junk : Nat → UInt8,
        patch junk 0 1 (fun j => d.bytes (inodeBitmapByte f + j)) 0 = d.bytes (inodeBitmapByte f) :=
      fun _ => patch_of_mem (Nat.le_refl 0) (by decide)
    rw [if_neg hend, hbyte] at hw
    rw [if_neg hend, hbyte]
    dsimp only at hw ⊢
    split at hw
    · rename_i hbit
      rw [if_pos hbit]
      split at hw
      · exact absurd hw hjunk
      · rename_i hsize
        rw [if_neg hsize]
    · exact absurd hw hjunk

/-- A call that is refused for its permission changes nothing. -/
theorem Unwritable.wrappedWrite (h : Unwritable fs d f) (u : Locals) (offset : UInt64)
    (buf : Nat → UInt8) (size : UInt64) :
    (Io.wrappedWrite (fsFile fs u f) d offset buf size).1 = d := by
  have hnone : admitted (fsFile fs u f) d permissionW offset size = none := if_pos (h u.permission)
  rw [Io.wrappedWrite, hnone]

/-- A write that does not reach `trunc_file`, or for which it finds no block. -/
theorem Unwritable.sysWrite (h : Unwritable fs d f) {u : Locals} {fd fd' : FileDescriptor}
    {buf : Nat → UInt8} {size : UInt64} {d' : Disk} {v : Int}
    (hkeep : fd.occupied = true → mayWrite fd.openFlags = true → fd.openFlags &&& oTrunc ≠ 0 →
      (inodeOf fs d f).sizeBytes < fd.seek + size →
      pages fs d f < Mem.addr2PageUp (fd.seek + size).toNat ∧
        ∀ b, b < 8 * fs.bitmapBytes → marked fs d b = true)
    (hs : Io.sysWrite (fsFile fs u f) d fd buf size = some (d', fd', v)) : d' = d := by
  have hsize : (fsFile fs u f).getSize d = (inodeOf fs d f).sizeBytes :=
    congrArg Inode.sizeBytes (h.getInode u.size)
  rw [Io.sysWrite, hsize] at hs
  split at hs
  · cases hs
    rfl
  rename_i hocc
  split at hs
  · cases hs
    rfl
  rename_i hmode
  split at hs
  · rename_i hlt
    split at hs
    · cases hs
      rfl
    · rename_i htrunc
      obtain ⟨hpages, hfull⟩ := hkeep (by simpa using hocc) (by simpa using hmode) htrunc hlt
      have hold : oldPages fs d u.trunc f < Mem.addr2PageUp (fd.seek + size).toNat := by
        rw [oldPages, oldInode, h.getInode]
        exact hpages
      have hres : (fsFile fs u f).trunc d (fd.seek + size) = some d := by
        show (fsFileTruncate fs d u.trunc f (fd.seek + size)).map (·.2) = some d
        rw [fsFileTruncate_full hold hfull]
        rfl
      rw [hres] at hs
      cases hs
      exact h.wrappedWrite ..
  · cases hs
    exact h.wrappedWrite ..

theorem step_disk {s s' : State} {e : Event} (h : Unwritable fs s.disk f)
    (hs : FileStep fs f s e s') (hc : KeepsSize fs f s e s') : s'.disk = s.disk := by
  obtain ⟨hs, hon⟩ := hs
  obtain ⟨i, call, u⟩ := e
  cases call with
  | lseek fd offHigh offLow whence =>
      obtain ⟨inum, -, rfl⟩ := Option.map_eq_some_iff.mp hs
      rfl
  | write fd buf size =>
      rw [step] at hs
      dsimp only at hs
      split at hs
      · cases hs
        rfl
      · rename_i hocc
        rw [hon (by simpa using hocc)] at hs
        obtain ⟨⟨d', fd', v⟩, hw, rfl⟩ := Option.map_eq_some_iff.mp hs
        exact h.sysWrite hc hw
  | dup fd =>
      cases hs
      rfl
  | dup3 oldFd newFd flags =>
      cases hs
      rfl
  | close fd =>
      cases hs
      rfl

end Step

/-- A file that may not be written is not changed.  Whatever calls of `sys_lseek`,
`sys_write`, `sys_dup`, `sys_dup3` and `sys_close` are made on descriptors of the
file, the whole disk stays the same, if none of the writes makes the file
larger. -/
theorem run_disk {fs : Filesystem} {f : Nat} {s : State} (h : Unwritable fs s.disk f)
    {r : List (Event × State)} (hr : IsRun (FileStep fs f) s r)
    (hc : EveryStep (KeepsSize fs f) s r) : EveryState (fun s' => s'.disk = s.disk) s r :=
  hr.everyState (I := fun s' => s'.disk = s.disk)
    (fun s₁ e s₂ hi hs hc => (step_disk (by rw [hi]; exact h) hs hc).trans hi) rfl hc

/-- One descriptor with the flags `flags` on the file `2` of a disk where it is empty,
with no permission at all. -/
def oneFd (flags : UInt32) : State :=
  { heap := ⟨Function.update (fun _ => none) 4096 (some ⟨2, 1⟩), false⟩
    rows := fun i fd =>
      if i.val = 0 ∧ fd.val = 3 then ⟨true, flags, ⟨4096, .file⟩, 0⟩
      else ⟨false, 0, ⟨0, .directory⟩, 0⟩
    disk := emptyDisk }

def zeroLocals : Locals :=
  { permission := zeroUninit, size := zeroUninit, access := zeroUninit, trunc := Fs.zeroLocals
    pages := fun _ => 0 }

/-- A byte is written through the descriptor. -/
def writeByte : Event := ⟨⟨0, by decide⟩, .write ⟨3, show 3 < 64 by decide⟩ (fun _ => 1) 1, zeroLocals⟩

theorem oneFd_unwritable (flags : UInt32) : Unwritable sampleFs (oneFd flags).disk 2 := by
  intro u
  show (getInode sampleFs emptyDisk u 2).1.permission &&& permissionW = 0
  have hdev : OnDevice sampleFs emptyDisk := ⟨by decide, by decide⟩
  rw [getInode_eq hdev ⟨by decide, by decide⟩]
  decide

/-- With `O_WRONLY` alone the write is refused. -/
theorem run_disk_refused :
    ∃ s', step sampleFs (oneFd 1) writeByte = some s' ∧
      EveryState (fun s' => s'.disk = (oneFd 1).disk) (oneFd 1) [(writeByte, s')] := by
  refine ⟨_, rfl, run_disk (oneFd_unwritable 1) ⟨⟨rfl, fun _ => rfl⟩, trivial⟩ ⟨?_, trivial⟩⟩
  intro _ _ htrunc
  exact absurd rfl htrunc

/-- With `O_TRUNC` the file has one byte then, and a block. -/
theorem write_grows_unwritable :
    Unwritable sampleFs (oneFd 0o1001).disk 2 ∧ OnFile 2 (oneFd 0o1001) writeByte ∧
      (inodeOf sampleFs (oneFd 0o1001).disk 2).sizeBytes = 0 ∧
      marked sampleFs (oneFd 0o1001).disk 4 = false ∧
      (step sampleFs (oneFd 0o1001) writeByte).map (fun s =>
        ((inodeOf sampleFs s.disk 2).sizeBytes, marked sampleFs s.disk 4)) = some (1, true) :=
  ⟨oneFd_unwritable _, fun _ => rfl, by decide, by decide, by decide⟩

end Io
