import Endros.Fs.Extend
import Endros.Io.Unwritable
import Endros.Io.UserCopy

/-!
# What `sys_write` returns

`sys_write` makes the file larger if it has to, copies the bytes of the user to a
buffer of the kernel, and writes the buffer to the file.  It looks at neither what
`trunc_file` nor what `wrapped_write` returns: behind the tests at its beginning it
returns `0` and moves the position.

A call is `Truthful` if `0` means that the bytes are in the file, and a negative
result that nothing has changed.  `WriteHolds` collects the calls for which this is
so: those that are refused, those of no bytes, and those that find the permission,
the memory of the user and the blocks they need.
-/

namespace Io

open Lib Fs Mem
open Proc (FileDescriptor mayWrite)

section Calls

variable {σ : Type} (F : FileOps σ) (s : σ) (fd : FileDescriptor) (m : UserMemory)
  (buf size : UInt64)

/-- The end of `sys_write`, from the copy on.  The buffer comes from `kalloc`, which
clears it. -/
def copyAndWrite : Option (σ × FileDescriptor × Int) :=
  (m.translateBuffer (fun _ => 0) buf size).map fun data =>
    ((wrappedWrite F s fd.seek data size).1, { fd with seek := fd.seek + size }, 0)

/-- `sys_write` of the bytes at an address of the process. -/
def sysWriteUser : Option (σ × FileDescriptor × Int) :=
  if fd.occupied = false then some (s, fd, -1)
  else if mayWrite fd.openFlags = false then some (s, fd, -1)
  else if F.getSize s < fd.seek + size then
    if fd.openFlags &&& oTrunc = 0 then some (s, fd, -1)
    else (F.trunc s (fd.seek + size)).bind fun s => copyAndWrite F s fd m buf size
  else copyAndWrite F s fd m buf size

end Calls

/-! ## The contract -/

/-- The file has the byte `b` at `y`. -/
structure HoldsAt (fs : Filesystem) (d : Disk) (f y : Nat) (b : UInt8) : Prop where
  lt : y < (inodeOf fs d f).sizeBytes.toNat
  read : ∀ u junk buffer, fsFileRead fs d u junk f y buffer 1 0 = b

theorem HoldsAt.of_contents {fs : Filesystem} {d : Disk} {f y : Nat} {c : Nat → UInt8}
    (h : Contents fs d f c) (hy : y < (inodeOf fs d f).sizeBytes.toNat) : HoldsAt fs d f y (c y) :=
  ⟨hy, fun u junk buffer => h u junk y 1 buffer hy 0 (by decide)⟩

section Contract

variable (fs : Filesystem) (f : Nat) (d : Disk) (fd : FileDescriptor) (m : UserMemory)
  (buf size : UInt64)

/-- The bytes of the user are in the file, and the position is behind them. -/
structure Stored (d' : Disk) (fd' : FileDescriptor) : Prop where
  bytes : ∀ x, x < size.toNat → ∃ b, m.byte (buf.toNat + x) = some b ∧
    HoldsAt fs d' f (fd.seek.toNat + x) b
  seek : fd'.seek.toNat = fd.seek.toNat + size.toNat

/-- The file and the position are as before. -/
structure Untouched (d' : Disk) (fd' : FileDescriptor) : Prop where
  size : (inodeOf fs d' f).sizeBytes = (inodeOf fs d f).sizeBytes
  bytes : ∀ y b, HoldsAt fs d' f y b ↔ HoldsAt fs d f y b
  seek : fd'.seek = fd.seek

def Truthful (r : Disk × FileDescriptor × Int) : Prop :=
  (r.2.2 = 0 ∧ Stored fs f fd m buf size r.1 r.2.1) ∨ (r.2.2 < 0 ∧ Untouched fs f d fd r.1 r.2.1)

/-- The blocks for a larger file are there, in reach of 32-bit addresses. -/
structure RoomFor (newsize : Nat) : Prop where
  blocks : pages fs d f = addr2PageUp newsize ∨ CanGrow fs d f (addr2PageUp newsize)
  low : needed (pages fs d f) (addr2PageUp newsize) ≤
    freeBelow fs d (min fs.sizeBlocks.toNat (2 ^ 20))

/-- All that a write needs. -/
structure Storable : Prop where
  permission : (inodeOf fs d f).permission &&& permissionW ≠ 0
  seek : fd.seek.toNat + size.toNat < 2 ^ 64
  user : buf.toNat + size.toNat < 2 ^ 64
  mapped : ∀ x, x < size.toNat → (m.byte (buf.toNat + x)).isSome
  low : LowBlocks fs d f
  room : fd.seek.toNat + size.toNat ≤ (inodeOf fs d f).sizeBytes.toNat ∨
    RoomFor fs f d (fd.seek.toNat + size.toNat)

/-- The calls that tell the truth. -/
inductive WriteHolds : Prop where
  | unoccupied : fd.occupied = false → WriteHolds
  | readOnly : mayWrite fd.openFlags = false → WriteHolds
  | tooLarge : (inodeOf fs d f).sizeBytes < fd.seek + size → fd.openFlags &&& oTrunc = 0 → WriteHolds
  | empty : size = 0 → WriteHolds
  | stores : Storable fs f d fd m buf size → WriteHolds

end Contract

section Write

variable {fs : Filesystem} {f : Nat} {d : Disk} {fd : FileDescriptor} {m : UserMemory}
  {buf size : UInt64}

theorem truthful_refused : Truthful fs f d fd m buf size (d, fd, -1) :=
  .inr ⟨(by decide : (-1 : Int) < 0), rfl, fun _ _ => Iff.rfl, rfl⟩

theorem fsFile_getSize (hdev : OnDevice fs d) (hf : IsFile fs d f) (u : Locals) :
    (fsFile fs u f).getSize d = (inodeOf fs d f).sizeBytes :=
  congrArg (fun r : Inode × Int => r.1.sizeBytes) (getInode_eq hdev hf u.size)

theorem fsFile_getPermission (hdev : OnDevice fs d) (hf : IsFile fs d f) (u : Locals) :
    (fsFile fs u f).getPermission d = (inodeOf fs d f).permission :=
  congrArg (fun r : Inode × Int => r.1.permission) (getInode_eq hdev hf u.permission)

/-- A write within a file whose blocks are in reach. -/
theorem wrappedWrite_holds (hw : WellFormed fs d (files fs d)) (hc : Covered fs d (files fs d))
    (hf : IsFile fs d f) (hlow : LowBlocks fs d f)
    (hperm : (inodeOf fs d f).permission &&& permissionW ≠ 0) {offset : UInt64}
    (hle : offset.toNat + size.toNat ≤ (inodeOf fs d f).sizeBytes.toNat) (u : Locals)
    (data : Nat → UInt8) {x : Nat} (hx : x < size.toNat) :
    HoldsAt fs (wrappedWrite (fsFile fs u f) d offset data size).1 f (offset.toNat + x) (data x) := by
  have hadm : admitted (fsFile fs u f) d permissionW offset size = some ⟨offset, size⟩ := by
    rw [admitted_eq_some, fsFile_getPermission hc.device hf, fsFile_getSize hc.device hf,
      UInt64.toNat_add]
    exact ⟨hperm, Nat.le_trans (Nat.mod_le ..) hle, rfl⟩
  rw [wrappedWrite, hadm]
  obtain ⟨-, hinode, hcontents⟩ := (hw.fileMap hc hf hlow).fsFileWrite hc.device hf
    (le_addr2PageUp _) u.access u.pages data hle
  have hholds := HoldsAt.of_contents hcontents (y := offset.toNat + x) (by rw [hinode]; omega)
  rw [patch_add hx] at hholds
  exact hholds

/-- `trunc_file` to a larger size returns. -/
theorem fsFile_trunc_isSome (hdev : OnDevice fs d) (hf : IsFile fs d f) (u : Locals)
    {newsize : UInt64} (hgrow : (inodeOf fs d f).sizeBytes < newsize) :
    ∃ d', (fsFile fs u f).trunc d newsize = some d' := by
  have hpages : ¬ addr2PageUp (inodeOf fs d f).sizeBytes.toNat > addr2PageUp newsize.toNat :=
    Nat.not_lt.mpr (addr2PageUp_mono (Nat.le_of_lt (UInt64.lt_iff_toNat_lt.mp hgrow)))
  show ∃ d', (fsFileTruncate fs d u.trunc f newsize).map (·.2) = some d'
  rw [fsFileTruncate, getInode_eq hdev hf, truncateInode]
  split
  · exact ⟨_, rfl⟩
  · rw [truncatePages]
    split
    · split
      · exact ⟨_, rfl⟩
      · exact ⟨_, rfl⟩
    · -- by `hpages` there is nothing to shrink
      exact ⟨_, rfl⟩

/-- The copy and the write of no bytes. -/
theorem copyAndWrite_empty (F : FileOps Disk) {d₀ : Disk} (fd : FileDescriptor) (m : UserMemory)
    (buf : UInt64) : ∃ r, copyAndWrite F d fd m buf 0 = some r ∧ Truthful fs f d₀ fd m buf 0 r := by
  have hcopy : m.translateBuffer (fun _ => 0) buf 0 = some (patch (fun _ => 0) 0 0 fun _ => 0) :=
    UserMemory.translateBuffer_eq buf.toNat_lt fun x hx => absurd hx (Nat.not_lt_zero x)
  rw [copyAndWrite, hcopy]
  refine ⟨_, rfl, .inl ⟨rfl, fun x hx => absurd hx (Nat.not_lt_zero x), ?_⟩⟩
  show (fd.seek + 0).toNat = fd.seek.toNat + 0
  rw [UInt64.add_zero, Nat.add_zero]

/-- The copy and the write, once the file is large enough. -/
theorem copyAndWrite_stores {d₁ : Disk} (hw : WellFormed fs d₁ (files fs d₁))
    (hc : Covered fs d₁ (files fs d₁)) (hf : IsFile fs d₁ f) (hlow : LowBlocks fs d₁ f)
    (hperm : (inodeOf fs d₁ f).permission = (inodeOf fs d f).permission)
    (hle : fd.seek.toNat + size.toNat ≤ (inodeOf fs d₁ f).sizeBytes.toNat)
    (h : Storable fs f d fd m buf size) (u : Locals) :
    ∃ r, copyAndWrite (fsFile fs u f) d₁ fd m buf size = some r ∧
      Truthful fs f d fd m buf size r := by
  have hdata : ∀ x, x < size.toNat →
      m.byte (buf.toNat + x) = some ((m.byte (buf.toNat + x)).getD 0) := by
    intro x hx
    obtain ⟨b, hb⟩ := Option.isSome_iff_exists.mp (h.mapped x hx)
    rw [hb]
    rfl
  rw [copyAndWrite, UserMemory.translateBuffer_eq h.user hdata]
  refine ⟨_, rfl, .inl ⟨rfl, fun x hx => ⟨_, hdata x hx, ?_⟩, ?_⟩⟩
  · have hholds := wrappedWrite_holds hw hc hf hlow (by rw [hperm]; exact h.permission) hle u
      (patch (fun _ => 0) 0 size.toNat fun x => (m.byte (buf.toNat + x)).getD 0) hx
    rw [patch_of_mem (Nat.zero_le x) (by omega), Nat.sub_zero] at hholds
    exact hholds
  · show (fd.seek + size).toNat = fd.seek.toNat + size.toNat
    rw [UInt64.toNat_add, Nat.mod_eq_of_lt h.seek]

/-- A write that finds what it needs. -/
theorem sysWriteUser_stores (hw : WellFormed fs d (files fs d)) (hc : Covered fs d (files fs d))
    (hf : IsFile fs d f) (h : Storable fs f d fd m buf size) (hocc : fd.occupied ≠ false)
    (hmode : mayWrite fd.openFlags ≠ false)
    (htrunc : (inodeOf fs d f).sizeBytes < fd.seek + size → fd.openFlags &&& oTrunc ≠ 0)
    (u : Locals) :
    ∃ r, sysWriteUser (fsFile fs u f) d fd m buf size = some r ∧
      Truthful fs f d fd m buf size r := by
  have hend : (fd.seek + size).toNat = fd.seek.toNat + size.toNat := by
    rw [UInt64.toNat_add, Nat.mod_eq_of_lt h.seek]
  rw [sysWriteUser, if_neg hocc, if_neg hmode, fsFile_getSize hc.device hf]
  by_cases hgrow : (inodeOf fs d f).sizeBytes < fd.seek + size
  · rw [if_pos hgrow, if_neg (htrunc hgrow)]
    have hlt := UInt64.lt_iff_toNat_lt.mp hgrow
    rcases h.room with hle | hroom
    · omega
    rw [← hend] at hroom
    obtain ⟨d₁, hres, hext⟩ := fsFileTruncate_extends hw hc hf hgrow hroom.blocks u.trunc
    have hres' : (fsFile fs u f).trunc d (fd.seek + size) = some d₁ := by
      show (fsFileTruncate fs d u.trunc f (fd.seek + size)).map (·.2) = some d₁
      rw [hres]
      rfl
    rw [hres', Option.bind_some]
    refine copyAndWrite_stores hext.grown.wellFormed hext.grown.covered (hext.isFile.mpr hf)
      (hext.lowBlocks h.low hroom.low) hext.header.2 ?_ h u
    rw [hext.sizeBytes, hend]
  · rw [if_neg hgrow]
    refine copyAndWrite_stores hw hc hf h.low rfl ?_ h u
    rw [← hend]
    exact Nat.le_of_not_lt fun hlt => hgrow (UInt64.lt_iff_toNat_lt.mpr hlt)

end Write

/-- A process with the page `1` alone, all of it ones. -/
def onePage : UserMemory :=
  { walkupt := fun v => if v = 1 then 7 else 0
    pages := fun v => if v = 7 then some fun _ => 1 else none }

/-- A descriptor with `O_WRONLY` and `O_TRUNC`. -/
def truncFd : FileDescriptor := ⟨true, 0o1001, ⟨4096, .file⟩, 0⟩

/-- The disk with a permission to read and to write for the file `2`. -/
def withPermission (d : Disk) : Disk := d.write (3 * 4096 + 260) 1 fun _ => 6

theorem withPermission_empty (g : Nat) (h : IsFile sampleFs (withPermission emptyDisk) g) :
    pages sampleFs (withPermission emptyDisk) g = 0 := by
  have hall : ∀ g, g < 32 → pages sampleFs (withPermission emptyDisk) g = 0 := by decide
  exact hall g h.lt

theorem withPermission_full (g : Nat) (h : IsFile sampleFs (withPermission (tightDisk 0xff)) g) :
    pages sampleFs (withPermission (tightDisk 0xff)) g = 0 := by
  have hall : ∀ g, g < 32 → pages sampleFs (withPermission (tightDisk 0xff)) g = 0 := by decide
  exact hall g h.lt

end Io
