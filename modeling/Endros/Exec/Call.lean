import Endros.Fs.Path
import Endros.Io.Unwritable
import Endros.Io.UserScan
import Endros.Space.Free
import Endros.Space.User

/-!
# `sys_execve`

`sys_execve` copies the path, the two arrays and their strings to buffers of the kernel,
looks for the file, gives back the address space and loads the program.  Then it copies
the strings to the new stack.  One cursor goes along the pointers, and one along the
strings behind them.

A buffer has two pages.  A copy that leaves them is not followed any further, and neither
is one that meets a page which is not mapped: the call is `none` then, and also when an
allocation panics.  The copies of the strings in the kernel are lists.  The kernel frees
their buffers, and `free_process_space` frees the stack that it runs on.  The contents of
that stack are not part of the model.
-/

namespace Exec

open Lib Mem Space
open Fs (Chr Disk GetfileLocals Mount Target Uninit Walk)

variable {ω : Type}

/-! ## Copies of strings -/

/-- The string at `i`, when there are at most `n` bytes up to its end. -/
def cString (buf : Nat → UInt8) : Nat → Nat → Option (List Chr)
  | 0, _ => none
  | n + 1, i => if h : buf i = 0 then some [] else (cString buf n (i + 1)).map (⟨buf i, h⟩ :: ·)

/-- The bytes of a string, with zeros behind them. -/
def cBytes (text : List Chr) (k : Nat) : UInt8 := ((text[k]?).map Subtype.val).getD 0

/-- The pages of a buffer. -/
def bufferPages : Nat := 2

/-- The bytes of a buffer. -/
def bufferBytes : Nat := 8192

/-- `kalloc` of a buffer, and `translate_2_pages` to it. -/
def copyIn (A : Allocator ω) (r : Root) (a : UInt64) (unitSize : Nat) (s : Memory ω) :
    Option (Nat × (Nat → UInt8) × Memory ω) := do
  let (b, s) ← s.kalloc A bufferPages
  let buf ← (view A s r).translate2Pages 3 (fun _ => 0) a unitSize
  some (b, buf, s)

/-- A string in a buffer. -/
structure Argument where
  region : Nat
  text : List Chr

def copyString (A : Allocator ω) (r : Root) (a : UInt64) (s : Memory ω) :
    Option (Argument × Memory ω) := do
  let (b, buf, s) ← copyIn A r a 1 s
  let text ← cString buf bufferBytes 0
  some (⟨b, text⟩, s)

/-- The loop over the pointers of an array from `i` on, when there are at most `n` up to
the one that is zero. -/
def copyStrings (A : Allocator ω) (r : Root) (pointers : Nat → UInt8) :
    Nat → Nat → Memory ω → Option (List Argument × Memory ω)
  | 0, _, _ => none
  | n + 1, i, s =>
      if le64 pointers (8 * i) = 0 then some ([], s)
      else do
        let (x, s) ← copyString A r (le64 pointers (8 * i)) s
        let (xs, s) ← copyStrings A r pointers n (i + 1) s
        some (x :: xs, s)

/-! ## The file -/

/-- `kalloc` of a number of bytes, which is `NULL` for none. -/
def kallocBytes (A : Allocator ω) (size : Nat) (s : Memory ω) : Option (Nat × Memory ω) :=
  if size = 0 then some (0, s) else s.kalloc A (addr2PageUp size)

def kfreeBytes (A : Allocator ω) (b size : Nat) (s : Memory ω) : Memory ω :=
  if size = 0 then s else s.kfree A b (addr2PageUp size)

/-- The loop of `getfile` with its allocations, for at most `n` rounds. -/
def lookup (A : Allocator ω) (m : Mount) (d : Disk) (u : GetfileLocals) (fileout : Nat) :
    Nat → Walk → Memory ω → Option (Option Target × Memory ω)
  | 0, w, s => some (some (.file w.cwd), s)
  | n + 1, w, s =>
      if w.ptr = [] then some (some (.file w.cwd), s)
      -- `fileout` is not given back
      else if (w.inode m d u).type ≠ Fs.directory then some (none, s)
      else do
        let size := (w.inode m d u).sizeBytes.toNat
        let (entries, s) ← kallocBytes A size s
        let s := kfreeBytes A entries size s
        match w.device m d u with
        | some t => some (some t, s.kfree A fileout 1)
        | none =>
            match w.found m d u with
            | none => some (none, s.kfree A fileout 1)
            | some inum => lookup A m d u fileout n (w.next m d u inum) s

/-- `getfile` without `create`.  A file keeps `fileout`. -/
def getfile (A : Allocator ω) (m : Mount) (d : Disk) (u : GetfileLocals) (cwd : UInt32)
    (path : List Chr) (s : Memory ω) : Option (Option Target × Memory ω) :=
  let w := Fs.firstRound m u cwd path
  if w.ptr = [] then some (none, s)
  else do
    let (fileout, s) ← s.kalloc A 1
    lookup A m d u fileout w.ptr.length w s

/-- What the uninitialised locals hold during the call, and the memory behind the buffer
of the program. -/
structure Locals where
  getfile : GetfileLocals
  wrap : Uninit
  permission : Uninit
  program : Io.Locals
  behind : Nat → UInt8

/-- `DEVICE`. -/
def device : UInt32 := 3

/-- `PERMISSION_X`. -/
def permissionX : UInt32 := 1

section File

variable (m : Mount) (d : Disk) (u : Locals)

/-- `program.type`. -/
def fileType : Target → UInt32
  | .file inum => (Fs.getInode m.fs d u.wrap inum.toNat).1.type
  | _ => device

/-- `program.get_permission(program.super)`. -/
def filePermission : Target → UInt32
  | .file inum => (Fs.getInode m.fs d u.permission inum.toNat).1.permission
  | .framebuffer => Io.permissionR ||| Io.permissionW
  | .stdin => Io.permissionR
  | .stdout => Io.permissionW
  | .vda => Io.permissionR ||| Io.permissionW

/-- "Program not executable". -/
def notExecutable (t : Target) : Prop :=
  fileType m d u t = Fs.directory ∨ filePermission m d u t &&& permissionX = 0 ∨
    filePermission m d u t &&& Io.permissionR = 0

instance (t : Target) : Decidable (notExecutable m d u t) := inferInstanceAs (Decidable (_ ∨ _ ∨ _))

/-- What `load_process` reads of the file.  It is not called for a device. -/
def programOf : Target → Program
  | .file inum =>
      let F := Io.fsFile m.fs u.program inum.toNat
      let size := F.getSize d
      ⟨size.toNat, (Io.wrappedRead F d 0 (Fs.kallocBuffer size.toNat u.behind) size).1⟩
  | _ => ⟨0, u.behind⟩

end File

/-! ## The new stack -/

/-- The variables of the loops over the strings. -/
structure Cursor where
  tsp : UInt64
  tstrtab : UInt64
  userVpn : Nat
  kernelVpn : Nat

/-- The kernel page of the next pointer. -/
def Cursor.seek (s : Memory ω) (r : Root) (c : Cursor) : Cursor :=
  if addr2Page c.tsp.toNat ≠ c.userVpn then
    { c with userVpn := addr2Page c.tsp.toNat, kernelVpn := walkupt s r.ref (addr2Page c.tsp.toNat) }
  else c

/-- A pointer is stored at `tsp`. -/
def pushPointer (A : Allocator ω) (r : Root) (x : UInt64) (c : Cursor) (s : Memory ω) :
    Option (Cursor × Memory ω) :=
  let c := c.seek s r
  if c.kernelVpn = 0 then none
  else some ({ c with tsp := c.tsp + 8 }, s.store A c.kernelVpn (wordOf (offset c.tsp.toNat)) x)

/-- The loop over the strings of an array. -/
def pushStrings (A : Allocator ω) (r : Root) :
    List Argument → Cursor → Memory ω → Option (Cursor × Memory ω)
  | [], c, s => pushPointer A r 0 c s
  | x :: xs, c, s => do
      let (c, s) ← pushPointer A r c.tstrtab c s
      let len := UInt64.ofNat (x.text.length + 1)
      let s ← translateOut A s r (cBytes x.text) c.tstrtab len
      pushStrings A r xs { c with tstrtab := c.tstrtab + len } (s.kfree A x.region bufferPages)

/-- `argsize`, the bytes of the strings with their ends. -/
def argsize (xs : List Argument) : UInt64 :=
  xs.foldl (fun n x => n + UInt64.ofNat (x.text.length + 1)) 0

/-- "make it 16-byte aligned". -/
def align16 (n : UInt64) : UInt64 := if n &&& 0xf ≠ 0 then (n &&& ~~~ 0xf) + 0x10 else n

/-- An array in a buffer, and its strings. -/
structure Arguments where
  region : Nat
  strings : List Argument

/-- The registers of the new image, and the variables at the beginning of the loops. -/
def pushRegisters (A : Allocator ω) (sp : AddressSpace) (argv envp : List Argument) (s : Memory ω) :
    Cursor × Memory ω :=
  let pointers := UInt64.ofNat ((argv.length + envp.length + 2) * 8)
  let totalSize := align16 (pointers + argsize (argv ++ envp))
  let tsp := s.load A sp.trapframe 2 - totalSize
  let s := s.store A sp.trapframe 2 tsp
  let userVpn := addr2Page tsp.toNat
  let c : Cursor := ⟨tsp, tsp + pointers, userVpn, walkupt s sp.root.ref userVpn⟩
  let s := s.store A sp.trapframe 11 tsp
  (c, s.store A sp.trapframe 12 (tsp + UInt64.ofNat ((argv.length + 1) * 8)))

/-- What comes behind `free_process_space`. -/
def replaceImage (A : Allocator ω) (B : Platform) (program : Program) (argv envp : Arguments)
    (s : Memory ω) : Option (Int × AddressSpace × Memory ω) := do
  let (sp, s) ← loadProcess A B program s
  let (c, s) := pushRegisters A sp argv.strings envp.strings s
  let (c, s) ← pushStrings A sp.root argv.strings c s
  let (_, s) ← pushStrings A sp.root envp.strings c (s.kfree A argv.region bufferPages)
  some (argv.strings.length, sp, s.kfree A envp.region bufferPages)

/-! ## The call -/

/-- The buffers of an array are given back. -/
def freeArguments (A : Allocator ω) (x : Arguments) (s : Memory ω) : Memory ω :=
  (x.strings.foldl (fun s y => s.kfree A y.region bufferPages) s).kfree A x.region bufferPages

/-- The copies of the path and of the two arrays. -/
def copyArguments (A : Allocator ω) (r : Root) (path argv envp : UInt64) (s : Memory ω) :
    Option (Argument × Arguments × Arguments × Memory ω) := do
  let (kernelPath, s) ← copyString A r path s
  let (kernelArgv, pointers, s) ← copyIn A r argv 8 s
  let (kernelEnvp, pointers', s) ← copyIn A r envp 8 s
  let (args, s) ← copyStrings A r pointers 1024 0 s
  let (env, s) ← copyStrings A r pointers' 1024 0 s
  some (kernelPath, ⟨kernelArgv, args⟩, ⟨kernelEnvp, env⟩, s)

/-- `sys_execve` of the process with the address space `sp`, and its address space
afterwards. -/
def sysExecve (A : Allocator ω) (B : Platform) (m : Mount) (d : Disk) (u : Locals) (cwd : UInt32)
    (sp : AddressSpace) (path argv envp : UInt64) (s : Memory ω) :
    Option (Int × AddressSpace × Memory ω) := do
  let (kernelPath, kernelArgv, kernelEnvp, s) ← copyArguments A sp.root path argv envp s
  let (found, s) ← getfile A m d u.getfile cwd kernelPath.text s
  let s := s.kfree A kernelPath.region bufferPages
  match found with
  -- "Unable to find file"
  | none => some (-1, sp, s)
  | some t =>
      if notExecutable m d u t then
        some (-1, sp, freeArguments A kernelEnvp (freeArguments A kernelArgv s))
      else replaceImage A B (programOf m d u t) kernelArgv kernelEnvp (freeProcessSpace A s sp)

/-! ## The file that is found -/

section Getfile

variable {A : Allocator ω} {m : Mount} {d : Disk} {u : GetfileLocals} {s s' : Memory ω}
  {t : Option Target}

/-- The allocations do not matter to what is found. -/
theorem lookup_target {fileout n : Nat} {w : Walk}
    (h : lookup A m d u fileout n w s = some (t, s')) : w.loop m d u false n = some (t, d) := by
  induction n generalizing w s with
  | zero =>
      cases h
      rfl
  | succ n ih =>
      rw [lookup] at h
      rw [Walk.loop]
      split at h
      · rename_i hptr
        cases h
        rw [if_pos hptr]
      · rename_i hptr
        rw [if_neg hptr]
        split at h
        · rename_i htype
          cases h
          rw [if_pos htype]
        · rename_i htype
          have hcreate : ¬ (w.rest = [] ∧ w.found m d u = none ∧ false = true) := fun hc =>
            Bool.false_ne_true hc.2.2
          rw [if_neg htype, if_neg hcreate]
          obtain ⟨⟨entries, s₁⟩, -, h⟩ := Option.bind_eq_some_iff.mp h
          dsimp only at h
          cases hdev : w.device m d u with
          | some t' =>
              rw [hdev] at h
              cases h
              rfl
          | none =>
              rw [hdev] at h
              dsimp only at h ⊢
              cases hfound : w.found m d u with
              | none =>
                  rw [hfound] at h
                  cases h
                  rfl
              | some inum =>
                  rw [hfound] at h
                  exact ih h

theorem getfile_target {cwd : UInt32} {path : List Chr}
    (h : getfile A m d u cwd path s = some (t, s')) :
    Fs.getfile m d u cwd path false = some (t, d) := by
  rw [getfile] at h
  rw [Fs.getfile]
  dsimp only at h ⊢
  split at h
  · rename_i hptr
    cases h
    rw [if_pos hptr]
  · rename_i hptr
    obtain ⟨⟨fileout, s₁⟩, -, h⟩ := Option.bind_eq_some_iff.mp h
    rw [if_neg hptr]
    exact lookup_target h

/-- No device can be executed. -/
theorem notExecutable_device (m : Mount) (d : Disk) (u : Locals) {t : Target}
    (ht : ∀ inum, t ≠ .file inum) : notExecutable m d u t := by
  refine .inr (.inl ?_)
  cases t with
  | file inum => exact absurd rfl (ht inum)
  | framebuffer => exact (by decide : (Io.permissionR ||| Io.permissionW) &&& permissionX = 0)
  | stdin => exact (by decide : Io.permissionR &&& permissionX = 0)
  | stdout => exact (by decide : Io.permissionW &&& permissionX = 0)
  | vda => exact (by decide : (Io.permissionR ||| Io.permissionW) &&& permissionX = 0)

end Getfile

end Exec
