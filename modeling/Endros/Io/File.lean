import Endros.Proc.Access

/-!
# Reading and writing through a `File`

A `File` is a table of functions on the thing it stands for.  `wrapped_read` and
`wrapped_write` ask it for its permission and its size before they call its
`read` or `write`; `admitted` is what both do up to that call.  The end of the
range is computed in 64 bits, so a range that passes the check ends within the
file unless the sum has wrapped.  `sys_lseek` sets any position, and nothing else
stands between the arguments of `sys_read` and `sys_write` and this check.

`sys_write` grows a file first if its descriptor has `O_TRUNC`, and does not look
at what `trunc_file` or `wrapped_write` return.
-/

namespace Io

open Proc (FileDescriptor mayRead mayWrite)

/-- The functions of a `File`, on the state `σ` of what it stands for.  `trunc` is
`trunc_file`, with `none` if it does not return. -/
structure FileOps (σ : Type) where
  getPermission : σ → UInt32
  getSize : σ → UInt64
  read : σ → UInt64 → (Nat → UInt8) → UInt64 → (Nat → UInt8) × Int
  write : σ → UInt64 → (Nat → UInt8) → UInt64 → σ × Int
  trunc : σ → UInt64 → Option σ

/-- `PERMISSION_R`. -/
def permissionR : UInt32 := 4

/-- `PERMISSION_W`. -/
def permissionW : UInt32 := 2

/-- `O_TRUNC`. -/
def oTrunc : UInt32 := 0o1000

/-- The arguments of a call of `read` or `write` of a file. -/
structure Access where
  offset : UInt64
  size : UInt64
deriving DecidableEq, Repr

section Calls

variable {σ : Type} (F : FileOps σ) (s : σ)

/-- The call that `wrapped_read` and `wrapped_write` make, `none` if they return
`-1` before it. -/
def admitted (permission : UInt32) (offset size : UInt64) : Option Access :=
  if F.getPermission s &&& permission = 0 then none
  else if offset + size > F.getSize s then none
  else some ⟨offset, size⟩

def wrappedRead (offset : UInt64) (buf : Nat → UInt8) (size : UInt64) : (Nat → UInt8) × Int :=
  match admitted F s permissionR offset size with
  | none => (buf, -1)
  | some c => F.read s c.offset buf c.size

def wrappedWrite (offset : UInt64) (buf : Nat → UInt8) (size : UInt64) : σ × Int :=
  match admitted F s permissionW offset size with
  | none => (s, -1)
  | some c => F.write s c.offset buf c.size

/-- `sys_lseek`, but for the copy of the position to the user. -/
def sysLseek (d : FileDescriptor) (offHigh offLow : UInt64) (whence : UInt32) :
    FileDescriptor × Int :=
  if offHigh ≠ 0 then (d, -1)
  else if whence = 0 then ({ d with seek := offLow }, 0)
  else if whence = 1 then ({ d with seek := d.seek + offLow }, 0)
  else if whence = 2 then ({ d with seek := F.getSize s + offLow }, 0)
  else (d, -1)

/-- `sys_read`, with the bytes it copies to the user. -/
def sysRead (d : FileDescriptor) (size : UInt64) :
    Option (Nat → UInt8) × FileDescriptor × Int :=
  if d.occupied = false then (none, d, -1)
  else if mayRead d.openFlags = false then (none, d, -1)
  else
    let r := wrappedRead F s d.seek (fun _ => 0) size
    if r.2 < 0 then (none, d, r.2) else (some r.1, { d with seek := d.seek + size }, 0)

/-- `sys_write` of the bytes `buf` of the user. -/
def sysWrite (d : FileDescriptor) (buf : Nat → UInt8) (size : UInt64) :
    Option (σ × FileDescriptor × Int) :=
  if d.occupied = false then some (s, d, -1)
  else if mayWrite d.openFlags = false then some (s, d, -1)
  else if F.getSize s < d.seek + size then
    if d.openFlags &&& oTrunc = 0 then some (s, d, -1)
    else
      (F.trunc s (d.seek + size)).map fun s =>
        ((wrappedWrite F s d.seek buf size).1, { d with seek := d.seek + size }, 0)
  else some ((wrappedWrite F s d.seek buf size).1, { d with seek := d.seek + size }, 0)

end Calls

/-! ## The bounds check -/

section Bounds

variable {σ : Type} (F : FileOps σ) (s : σ)

/-- The range of a call lies within the file. -/
def Access.InBounds (c : Access) : Prop := c.offset.toNat + c.size.toNat ≤ (F.getSize s).toNat

theorem admitted_eq_some {permission : UInt32} {offset size : UInt64} {c : Access} :
    admitted F s permission offset size = some c ↔
      F.getPermission s &&& permission ≠ 0 ∧ (offset + size).toNat ≤ (F.getSize s).toNat ∧
        c = ⟨offset, size⟩ := by
  rw [admitted]
  split
  · rename_i h
    simp [h]
  · rename_i h
    split
    · rename_i hgt
      have hlt : (F.getSize s).toNat < (offset + size).toNat := UInt64.lt_iff_toNat_lt.mp hgt
      refine ⟨nofun, fun hc => ?_⟩
      omega
    · rename_i hle
      have hle' : (offset + size).toNat ≤ (F.getSize s).toNat :=
        Nat.le_of_not_lt fun hlt => hle (UInt64.lt_iff_toNat_lt.mpr hlt)
      simp only [Option.some.injEq]
      exact ⟨fun hc => ⟨h, hle', hc.symm⟩, fun hc => hc.2.2.symm⟩

/-- A sum that has wrapped is below its parts, so the range it stands for ends
beyond any file. -/
theorem inBounds_iff {offset size : UInt64} (hle : (offset + size).toNat ≤ (F.getSize s).toNat) :
    Access.InBounds F s ⟨offset, size⟩ ↔ offset.toNat + size.toNat < 2 ^ 64 := by
  have hsize := (F.getSize s).toNat_lt
  rw [UInt64.toNat_add] at hle
  rw [Access.InBounds]
  constructor
  · intro h
    exact Nat.lt_of_le_of_lt h hsize
  · intro h
    rwa [Nat.mod_eq_of_lt h] at hle

/-- Every call that `wrapped_read` and `wrapped_write` make for a range stays
within the file exactly if the end of the range is a 64-bit number, or the
wrapped end is beyond the file, or the file has neither permission. -/
theorem admitted_inBounds_iff (offset size : UInt64) :
    (∀ c, admitted F s permissionR offset size = some c ∨
        admitted F s permissionW offset size = some c → Access.InBounds F s c) ↔
      offset.toNat + size.toNat < 2 ^ 64 ∨ F.getSize s < offset + size ∨
        F.getPermission s &&& permissionR = 0 ∧ F.getPermission s &&& permissionW = 0 := by
  simp only [admitted_eq_some]
  constructor
  · intro h
    by_cases hlt : F.getSize s < offset + size
    · exact .inr (.inl hlt)
    have hle : (offset + size).toNat ≤ (F.getSize s).toNat :=
      Nat.le_of_not_lt fun h => hlt (UInt64.lt_iff_toNat_lt.mpr h)
    by_cases hr : F.getPermission s &&& permissionR = 0
    · by_cases hw : F.getPermission s &&& permissionW = 0
      · exact .inr (.inr ⟨hr, hw⟩)
      · exact .inl ((inBounds_iff F s hle).mp (h _ (.inr ⟨hw, hle, rfl⟩)))
    · exact .inl ((inBounds_iff F s hle).mp (h _ (.inl ⟨hr, hle, rfl⟩)))
  · rintro h c hc
    have hc' : (offset + size).toNat ≤ (F.getSize s).toNat ∧ c = ⟨offset, size⟩ := by
      rcases hc with hc | hc <;> exact hc.2
    obtain ⟨hle, rfl⟩ := hc'
    rcases h with h | h | ⟨hr, hw⟩
    · exact (inBounds_iff F s hle).mpr h
    · exact absurd (UInt64.lt_iff_toNat_lt.mp h) (Nat.not_lt_of_le hle)
    · rcases hc with hc | hc
      · exact absurd hr hc.1
      · exact absurd hw hc.1

end Bounds

/-! ## The frame buffer -/

/-- `memcpy` to the address `dst`. -/
def memcpy (mem : UInt64 → UInt8) (dst : UInt64) (buf : Nat → UInt8) (len : UInt64) :
    UInt64 → UInt8 := fun a =>
  if (a - dst).toNat < len.toNat then buf (a - dst).toNat else mem a

/-- The frame buffer at the address `fb`, as `wrap_virtio_gpu_file` sets it up.
`fb_read` only asks the device to show it. -/
def gpuFile (fb size : UInt64) : FileOps (UInt64 → UInt8) where
  getPermission _ := permissionR ||| permissionW
  getSize _ := size
  read _ _ buf _ := (buf, 0)
  write mem offset buf len := (memcpy mem (fb + offset) buf len, 0)
  trunc mem _ := some mem

/-- A write within the frame buffer leaves the rest of the memory alone. -/
theorem gpuFile_write_inside {fb size offset len : UInt64} {mem : UInt64 → UInt8}
    (hfb : fb.toNat + size.toNat ≤ 2 ^ 64)
    (hin : Access.InBounds (gpuFile fb size) mem ⟨offset, len⟩) (buf : Nat → UInt8) {a : UInt64}
    (ha : a.toNat < fb.toNat ∨ fb.toNat + size.toNat ≤ a.toNat) :
    ((gpuFile fb size).write mem offset buf len).1 a = mem a := by
  have hin' : offset.toNat + len.toNat ≤ size.toNat := hin
  have hlt := a.toNat_lt
  have hfar : ¬ (a - (fb + offset)).toNat < len.toNat := by
    rw [UInt64.toNat_sub, UInt64.toNat_add]
    omega
  exact if_neg hfar

/-- A descriptor of the frame buffer, opened for reading and writing. -/
def gpuFd : FileDescriptor := ⟨true, 2, ⟨0, .device⟩, 0⟩

/-- A process sets the position to `2 ^ 64 - 4096` and writes two pages.  The end
wraps to `4096`, and `fb_write` overwrites the page before the frame buffer. -/
theorem write_before_frame_buffer :
    let gpu := gpuFile 0x100400000 0x400000
    let fd := (sysLseek gpu (fun _ => 0) gpuFd 0 (0 - 4096) 0).1
    admitted gpu (fun _ => 0) permissionW fd.seek 8192 = some ⟨0 - 4096, 8192⟩ ∧
      ¬ Access.InBounds gpu (fun _ => 0) ⟨0 - 4096, 8192⟩ ∧
      (sysWrite gpu (fun _ => 0) fd (fun _ => 1) 8192).map (fun r => r.1 0x1003fffff) = some 1 := by
  refine ⟨by decide, ?_, by decide⟩
  show ¬ (UInt64.toNat (0 - 4096) + UInt64.toNat 8192 ≤ UInt64.toNat 0x400000)
  decide

end Io
