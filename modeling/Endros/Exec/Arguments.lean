import Endros.Exec.Image
import Endros.Fs.Resolve
import Endros.Space.Room

/-!
# The arguments of `sys_execve`

The call copies the strings of the caller to buffers, and from there to the stack of the
new image.  With room for the buffers, the tables and the pages it returns
(`sysExecve_returns`).  The block of arguments is right when the stack of the program is
clear of the trap frame.

`load_process` takes the addresses of the segments as they are.  So there are programs whose
stack has a page in the slot of the trap frame, and then the block is written over the
registers of the process.
-/

namespace Exec

open Lib Mem Space
open Io (UserMemory)
open Fs (Chr Disk Mount Target Walk sampleFs)

variable {ω : Type} {A : Allocator ω}

/-! ## The call returns -/

section Returns

variable {V : Lawful A} {U : Account A} {Y : Roomy A} {s₀ s : Memory ω} {sp : AddressSpace}
  {trampoline : UInt64} {T Q R : Footprint} {l : List (Nat × Nat)} {n : Nat}

theorem Temps.copyIn_returns {a : UInt64} {k : Nat} {buf : Nat → UInt8}
    (h : Temps V U s₀ sp trampoline T Q R l s) (hroom : Y.Room s.heap (n + bufferPages))
    (hbuf : (view A s₀ sp.root).translate2Pages 3 (fun _ => 0) a k = some buf) :
    ∃ b s', Exec.copyIn A sp.root a k s = some (b, buf, s') ∧ Y.Room s'.heap n := by
  obtain ⟨b, s', hk, hroom'⟩ := kalloc_returns Y (show 1 ≤ bufferPages by decide) hroom
  have h' := h.kalloc (by decide) hk
  have hbuf' : (view A s' sp.root).translate2Pages 3 (fun _ => 0) a k = some buf :=
    (Io.UserMemory.translate2Pages_congr h'.pages_eq ..).trans hbuf
  exact ⟨b, s', Option.bind_eq_some_iff.mpr ⟨_, hk, Option.bind_eq_some_iff.mpr ⟨_, hbuf', rfl⟩⟩, hroom'⟩

theorem Temps.copyString_returns {a : UInt64} {text : List Chr}
    (h : Temps V U s₀ sp trampoline T Q R l s) (hroom : Y.Room s.heap (n + bufferPages))
    (htext : userString (view A s₀ sp.root) a = some text) :
    ∃ x s', Exec.copyString A sp.root a s = some (x, s') ∧ x.text = text ∧ Y.Room s'.heap n := by
  obtain ⟨buf, hbuf, hstr⟩ := Option.bind_eq_some_iff.mp htext
  obtain ⟨b, s', hin, hroom'⟩ := h.copyIn_returns hroom hbuf
  exact ⟨⟨b, text⟩, s', Option.bind_eq_some_iff.mpr ⟨_, hin, Option.bind_eq_some_iff.mpr ⟨_, hstr, rfl⟩⟩,
    rfl, hroom'⟩

theorem Temps.copyStrings_returns {pointers : Nat → UInt8} {k i : Nat} {ps : List UInt64}
    {texts : List (List Chr)} (h : Temps V U s₀ sp trampoline T Q R l s)
    (hroom : Y.Room s.heap (n + bufferPages * ps.length)) (hps : pointersFrom pointers k i = some ps)
    (htexts : List.Forall₂ (fun p text => userString (view A s₀ sp.root) p = some text) ps texts) :
    ∃ xs s', Exec.copyStrings A sp.root pointers k i s = some (xs, s') ∧ xs.map Argument.text = texts ∧
      Y.Room s'.heap n := by
  induction k generalizing i ps texts l s with
  | zero => cases hps
  | succ k ih =>
      rw [pointersFrom] at hps
      rw [Exec.copyStrings]
      split at hps
      · rename_i hzero
        cases hps
        cases htexts
        exact ⟨[], s, if_pos hzero, rfl, hroom⟩
      · rename_i hzero
        obtain ⟨ps', hps', he⟩ := Option.map_eq_some_iff.mp hps
        cases he
        cases htexts with
        | cons htext htexts =>
            rw [List.length_cons, Nat.mul_succ, ← Nat.add_assoc] at hroom
            obtain ⟨x, s₁, hx, hxt, hroom₁⟩ := h.copyString_returns hroom htext
            obtain ⟨xs, s', hxs, hxst, hroom'⟩ := ih (h.copyString hx).1 hroom₁ hps' htexts
            refine ⟨x :: xs, s', ?_, by rw [List.map_cons, hxt, hxst], hroom'⟩
            rw [if_neg hzero]
            exact Option.bind_eq_some_iff.mpr ⟨_, hx, Option.bind_eq_some_iff.mpr ⟨_, hxs, rfl⟩⟩

/-- The copies need two pages for each array and each string. -/
theorem Temps.copyArguments_returns {path argv envp : UInt64} {text : List Chr}
    {args vars : List (List Chr)} (h : Temps V U s₀ sp trampoline T Q R l s)
    (hroom : Y.Room s.heap (n + bufferPages * (args.length + vars.length + 3)))
    (hpath : userString (view A s₀ sp.root) path = some text)
    (hargv : UserStrings (view A s₀ sp.root) argv args)
    (henvp : UserStrings (view A s₀ sp.root) envp vars) :
    ∃ x y z s', Exec.copyArguments A sp.root path argv envp s = some (x, y, z, s') ∧ Y.Room s'.heap n := by
  obtain ⟨buf, ps, hbuf, hps, htexts⟩ := hargv
  obtain ⟨buf', qs, hbuf', hqs, htexts'⟩ := henvp
  have hsum : n + bufferPages * (args.length + vars.length + 3) =
      n + bufferPages * qs.length + bufferPages * ps.length + bufferPages + bufferPages + bufferPages := by
    rw [htexts.length_eq, htexts'.length_eq]
    simp only [bufferPages]
    omega
  rw [hsum] at hroom
  obtain ⟨x, s₁, hx, -, hroom₁⟩ := h.copyString_returns hroom hpath
  have h₁ := (h.copyString hx).1
  obtain ⟨b, s₂, hb, hroom₂⟩ := h₁.copyIn_returns hroom₁ hbuf
  have h₂ := (h₁.copyIn hb).1
  obtain ⟨b', s₃, hb', hroom₃⟩ := h₂.copyIn_returns hroom₂ hbuf'
  have h₃ := (h₂.copyIn hb').1
  obtain ⟨xs, s₄, hxs, -, hroom₄⟩ := h₃.copyStrings_returns hroom₃ hps htexts
  have h₄ := (h₃.copyStrings hxs).1
  obtain ⟨ys, s₅, hys, -, hroom₅⟩ := h₄.copyStrings_returns hroom₄ hqs htexts'
  exact ⟨x, ⟨b, xs⟩, ⟨b', ys⟩, s₅, Option.bind_eq_some_iff.mpr ⟨_, hx, Option.bind_eq_some_iff.mpr ⟨_, hb,
    Option.bind_eq_some_iff.mpr ⟨_, hb', Option.bind_eq_some_iff.mpr ⟨_, hxs,
    Option.bind_eq_some_iff.mpr ⟨_, hys, rfl⟩⟩⟩⟩⟩, hroom₅⟩

/-- A path of one name that is found in its directory. -/
structure OneName (m : Mount) (d : Disk) (u : Fs.GetfileLocals) (w : Walk) (inum : UInt32) : Prop where
  ptr : w.ptr ≠ []
  directory : (w.inode m d u).type = Fs.directory
  device : w.device m d u = none
  found : w.found m d u = some inum
  last : (w.next m d u inum).ptr = []

theorem kallocBytes_returns {size : Nat} (hroom : Y.Room s.heap (n + addr2PageUp size)) :
    ∃ b s', kallocBytes A size s = some (b, s') ∧ Y.Room s'.heap n := by
  rw [kallocBytes]
  split
  · exact ⟨0, s, rfl, Y.mono hroom (Nat.le_add_right _ _)⟩
  · rename_i hsize
    exact kalloc_returns Y (addr2PageUp_pos hsize) hroom

theorem getfile_returns (hY : Y.Kept) {m : Mount} {d : Disk} {u : Fs.GetfileLocals} {cwd inum : UInt32}
    {path : List Chr} (hw : OneName m d u (Fs.firstRound m u cwd path) inum)
    (hroom : Y.Room s.heap
      (n + addr2PageUp ((Fs.firstRound m u cwd path).inode m d u).sizeBytes.toNat + 1)) :
    ∃ s', getfile A m d u cwd path s = some (some (.file inum), s') ∧ Y.Room s'.heap n := by
  obtain ⟨fileout, s₁, hk, hroom₁⟩ := kalloc_returns Y (Nat.le_refl 1) hroom
  obtain ⟨entries, s₂, hentries, hroom₂⟩ := kallocBytes_returns hroom₁
  have hkept : Y.Room (kfreeBytes A entries
      ((Fs.firstRound m u cwd path).inode m d u).sizeBytes.toNat s₂).heap n := by
    rw [kfreeBytes]
    split
    · exact hroom₂
    · exact hY.kfree _ _ hroom₂
  obtain ⟨k, hlen⟩ := Nat.exists_eq_succ_of_ne_zero (List.length_pos_of_ne_nil hw.ptr).ne'
  refine ⟨_, ?_, hkept⟩
  rw [getfile]
  dsimp only
  rw [if_neg hw.ptr]
  refine Option.bind_eq_some_iff.mpr ⟨_, hk, ?_⟩
  dsimp only
  rw [hlen, lookup, if_neg hw.ptr, if_neg (not_not.mpr hw.directory)]
  refine Option.bind_eq_some_iff.mpr ⟨_, hentries, ?_⟩
  dsimp only
  rw [hw.device]
  dsimp only
  rw [hw.found]
  dsimp only
  cases k with
  | zero => rfl
  | succ k => rw [lookup, if_pos hw.last]; rfl

theorem getfile_device_returns {m : Mount} {d : Disk} {u : Fs.GetfileLocals} {cwd : UInt32}
    {path : List Chr} {t : Target} (hptr : (Fs.firstRound m u cwd path).ptr ≠ [])
    (hdir : ((Fs.firstRound m u cwd path).inode m d u).type = Fs.directory)
    (hdev : (Fs.firstRound m u cwd path).device m d u = some t)
    (hroom : Y.Room s.heap
      (n + addr2PageUp ((Fs.firstRound m u cwd path).inode m d u).sizeBytes.toNat + 1)) :
    ∃ s', getfile A m d u cwd path s = some (some t, s') := by
  obtain ⟨fileout, s₁, hk, hroom₁⟩ := kalloc_returns Y (Nat.le_refl 1) hroom
  obtain ⟨entries, s₂, hentries, -⟩ := kallocBytes_returns hroom₁
  obtain ⟨k, hlen⟩ := Nat.exists_eq_succ_of_ne_zero (List.length_pos_of_ne_nil hptr).ne'
  refine ⟨(kfreeBytes A entries ((Fs.firstRound m u cwd path).inode m d u).sizeBytes.toNat s₂).kfree A
    fileout 1, ?_⟩
  rw [getfile]
  dsimp only
  rw [if_neg hptr]
  refine Option.bind_eq_some_iff.mpr ⟨_, hk, ?_⟩
  dsimp only
  rw [hlen, lookup, if_neg hptr, if_neg (not_not.mpr hdir)]
  refine Option.bind_eq_some_iff.mpr ⟨_, hentries, ?_⟩
  dsimp only
  rw [hdev]

/-- `sys_execve` returns -1, if no file that can be executed is found. -/
theorem sysExecve_refuses {B : Platform} {m : Mount} {d : Disk} {u : Locals} {cwd : UInt32}
    {path argv envp : UInt64} {text : List Chr} {args vars : List (List Chr)}
    (h : Held V s sp B.trampoline T Q R) (hpath : userString (view A s sp.root) path = some text)
    (hargv : UserStrings (view A s sp.root) argv args) (henvp : UserStrings (view A s sp.root) envp vars)
    (hroom : Y.Room s.heap (n + bufferPages * (args.length + vars.length + 3)))
    (hget : ∀ s : Memory ω, Y.Room s.heap n → ∃ found s', getfile A m d u.getfile cwd text s =
      some (found, s') ∧ ∀ t, found = some t → notExecutable m d u t) :
    ∃ s', sysExecve A B m d u cwd sp path argv envp s = some (-1, sp, s') := by
  have h₀ : Temps V (Account.none A) s sp B.trampoline T Q R [] s := .begin h trivial
  obtain ⟨x, y, z, s₁, hcopy, hroom₁⟩ := h₀.copyArguments_returns hroom hpath hargv henvp
  cases hpath.symm.trans (h₀.copyArguments hcopy).2.1
  obtain ⟨found, s₂, hfound, hnot⟩ := hget s₁ hroom₁
  cases found with
  | none => exact ⟨_, Option.bind_eq_some_iff.mpr ⟨_, hcopy, Option.bind_eq_some_iff.mpr ⟨_, hfound, rfl⟩⟩⟩
  | some t =>
      exact ⟨_, Option.bind_eq_some_iff.mpr ⟨_, hcopy, Option.bind_eq_some_iff.mpr ⟨_, hfound,
        if_pos (hnot t rfl)⟩⟩⟩

/-- `sys_execve` of a file that can be executed returns, if there is room and the block of
arguments fits on the stack. -/
theorem sysExecve_returns (hY : Y.Kept) {B : Platform} {m : Mount} {d : Disk} {u : Locals}
    {cwd inum : UInt32} {path argv envp : UInt64} {text : List Chr} {args vars : List (List Chr)}
    (h : Held V s sp B.trampoline T Q R) (hpath : userString (view A s sp.root) path = some text)
    (hargv : UserStrings (view A s sp.root) argv args) (henvp : UserStrings (view A s sp.root) envp vars)
    (hw : OneName m d u.getfile (Fs.firstRound m u.getfile cwd text) inum)
    (hexec : ¬ notExecutable m d u (.file inum))
    (hlt : stackTop (programOf m d u (.file inum)) < 2 ^ 64) (hfits : blockSize args vars ≤ userStackSize)
    (hroom : Y.Room s.heap ((programOf m d u (.file inum)).pages +
      addr2PageUp ((Fs.firstRound m u.getfile cwd text).inode m d u.getfile).sizeBytes.toNat + 1 +
      bufferPages * (args.length + vars.length + 3))) :
    ∃ ret sp' s', 0 ≤ ret ∧ sysExecve A B m d u cwd sp path argv envp s = some (ret, sp', s') := by
  have h₀ : Temps V (Account.none A) s sp B.trampoline T Q R [] s := .begin h trivial
  obtain ⟨x, y, z, s₁, hcopy, hroom₁⟩ := h₀.copyArguments_returns hroom hpath hargv henvp
  obtain ⟨h₁, hx, hy, hz⟩ := h₀.copyArguments hcopy
  cases hpath.symm.trans hx
  obtain ⟨s₂, hget, hroom₂⟩ := getfile_returns hY hw hroom₁
  obtain ⟨l', fileout, h₂, hkept⟩ := h₁.getfile hget
  rw [hkept.file inum rfl] at h₂
  have h₃ := (h₂.perm (fileout_last x y z fileout)).kfree
  -- the image is replaced
  have hroom₃ := h₃.held.free_room hY (hY.kfree x.region bufferPages hroom₂)
  obtain ⟨sp', s', hload, -⟩ := loadProcess_returns Y (n := 0) B (programOf m d u (.file inum))
    (by rwa [Nat.zero_add])
  have hargs := hy.unique hargv
  have hvars := hz.unique henvp
  obtain ⟨s₄, hrep⟩ := replaceImage_returns h₃.held.free.1 h₃.nodup
    (fun a ha a' ha' => h₃.fresh a ha a' (.inr ha')) hload fun T' Q' mem hloaded hshow => by
      rw [hargs, hvars]
      obtain ⟨mem', x12, hpush, -⟩ := Loaded.pushBlock_eq hloaded hshow hlt hfits
      exact ⟨mem', hpush⟩
  refine ⟨(y.strings.length : Int), sp', s₄, Int.natCast_nonneg _, Option.bind_eq_some_iff.mpr ⟨_, hcopy,
    Option.bind_eq_some_iff.mpr ⟨_, hget, ?_⟩⟩⟩
  dsimp only
  rw [if_neg hexec]
  exact hrep

end Returns

/-! ## The block of arguments -/

/-- The new process with the block of arguments, as it is in `mem`. -/
structure Laid (V : Lawful A) (s : Memory ω) (sp : AddressSpace) (trampoline : UInt64) (T Q R : Footprint)
    (program : Program) (args vars : List (List Chr)) (mem : UserMemory) (x12 : UInt64) : Prop where
  pushing : ∃ l, Pushing V sp.root trampoline T Q R l s mem
  top : sp.heapBottom = stackTop program
  trap : ∀ v, slotOf v = slotOf trapframeVpn → mem.walkupt v = sp.trapframe
  page : ∃ q ∈ Q.pages, q.vpn = sp.trapframe
  block : ArgumentBlock mem (stackTop program) args vars
    (blockStart (UInt64.ofNat ((program.stackVpn + userStackPages) * pageSize)) args vars)
    (blockStart (UInt64.ofNat ((program.stackVpn + userStackPages) * pageSize)) args vars) x12
  envp : x12.toNat = (blockStart (UInt64.ofNat ((program.stackVpn + userStackPages) * pageSize)) args
    vars).toNat + 8 * (args.length + 1)
  registers : StackClear program → Registers mem sp.trapframe
    (blockStart (UInt64.ofNat ((program.stackVpn + userStackPages) * pageSize)) args vars)
    (blockStart (UInt64.ofNat ((program.stackVpn + userStackPages) * pageSize)) args vars) x12

section Call

variable {V : Lawful A} {B : Platform} {m : Mount} {d : Disk} {u : Locals} {cwd : UInt32}
  {s s' : Memory ω} {sp sp' : AddressSpace} {T Q R : Footprint} {path argv envp : UInt64} {ret : Int}
  {ps qs : List UInt64} {args vars : List (List Chr)}

/-- `sys_execve` that succeeds has found a file and laid out the arguments. -/
theorem sysExecve_laid (h : Held V s sp B.trampoline T Q R)
    (hargv : UserStrings (view A s sp.root) argv args) (henvp : UserStrings (view A s sp.root) envp vars)
    (hfits : blockSize args vars ≤ userStackSize)
    (hlt : ∀ text t, userString (view A s sp.root) path = some text →
      Fs.getfile m d u.getfile cwd text false = some (some t, d) → stackTop (programOf m d u t) < 2 ^ 64)
    (hrun : sysExecve A B m d u cwd sp path argv envp s = some (ret, sp', s')) (hret : 0 ≤ ret) :
    ret = args.length ∧ ∃ text t T' Q' mem x12, userString (view A s sp.root) path = some text ∧
      Fs.getfile m d u.getfile cwd text false = some (some t, d) ∧
      Laid V s' sp' B.trampoline T' Q' R (programOf m d u t) args vars mem x12 := by
  obtain ⟨text, args', vars', found, htext, hargv', henvp', hfound, hended⟩ :=
    sysExecve_ended (U := Account.none A) h trivial hrun
  have hargs' := hargv'.unique hargv
  have hvars' := henvp'.unique henvp
  cases hended with
  | missing => exact absurd hret (by decide)
  | refused => exact absurd hret (by decide)
  | @replaced t s₁ _ _ _ x y fileout hexec hx hy htemps hr =>
      have hlt := hlt text t htext hfound
      obtain ⟨s₂, T', Q', mem, mem', hloaded, hshow, hpush, hpushing, rfl⟩ :=
        replaceImage_shows htemps.held.free.1 htemps.nodup
          (fun a ha a' ha' => htemps.fresh a ha a' (.inr ha')) hr
      rw [hx, hy, hargs', hvars'] at hpush
      obtain ⟨mem₁, x12, hpush₁, hwalk, hblock, hx12, hregs⟩ :=
        Loaded.pushBlock_eq hloaded hshow hlt hfits
      cases hpush.symm.trans hpush₁
      have htrap := hloaded.held.trap
      refine ⟨?_, text, t, T', Q', mem', x12, htext, hfound, ?_⟩
      · rw [← hargs', ← hx, Arguments.texts, List.length_map]
      · refine ⟨⟨_, hpushing⟩, hloaded.bottom.trans (Nat.mod_eq_of_lt hlt), fun v hv => ?_, ?_, hblock, hx12,
          hregs⟩
        · rw [hwalk, hshow.walkupt, hv, htrap]
        · exact ⟨_, hloaded.held.built.leaves.held _ (htrap ▸ hloaded.held.trap_ne), htrap⟩

end Call

/-! ## A caller and a file -/

/-- A long string. -/
def longText : List Chr := List.replicate 4071 ⟨0x41, by decide⟩

/-- A program with one page at `0x10000`: the paths `a` and `vda`, an array with a pointer to
the long string, whose end is an empty array too, and the string. -/
def callerProgram : Program where
  size := 8192
  byte a :=
    if 4120 ≤ a ∧ a < 8191 then 0x41
    else match a with
      | 32 => 64
      | 56 => 1
      | 64 => 1
      | 68 => 6
      | 73 => 0x10
      | 82 => 1
      | 97 => 0x10
      | 105 => 0x10
      | 4096 => 97
      | 4100 => 118
      | 4101 => 100
      | 4102 => 97
      | 4104 => 0x18
      | 4106 => 1
      | _ => 0

/-- The file has a header for an empty segment at `vaddr`. -/
def elfBytes (vaddr : UInt64) (k : Nat) : UInt8 :=
  if 80 ≤ k ∧ k < 88 then bytes64 vaddr (k - 80)
  else match k with
    | 32 => 64
    | 56 => 1
    | 64 => 1
    | _ => 0

def elfInode : Fs.Inode :=
  { type := Fs.file
    permission := 7
    sizeBytes := 120
    direct := fun _ => 5
    singleInd := 0
    doubleInd := 0
    tripleInd := 0 }

/-- The directory 2 has this file under the name `a`. -/
def elfDisk (vaddr : UInt64) : Disk :=
  (((((Disk.mk (fun _ => 0) (2048 * 4096)).write 4096 1 fun _ => 12).write (2 * 4096) 1
    fun _ => 0x3f).write (3 * 4096 + 256) 128 (bytesOfWords Fs.oneEntryInode.words)).write (3 * 4096 + 384)
    128 (bytesOfWords elfInode.words) |>.write (4 * 4096) 64
    (Fs.dirEntry (Fs.literal "a") 3)).write (5 * 4096) 120 (elfBytes vaddr)

def sampleMount : Mount := ⟨sampleFs, 2, 5⟩

def zeroCall : Locals := ⟨Fs.zeroGetfileLocals, Fs.zeroUninit, Fs.zeroUninit, Io.zeroLocals, fun _ => 0⟩

/-- The program of the file. -/
def elfProgram (vaddr : UInt64) : Program := programOf sampleMount (elfDisk vaddr) zeroCall (.file 3)

section Caller

variable {s : Memory Alloc.Heap} {sp : AddressSpace} {T Q : Footprint}

theorem callerProgram_wellFormed : callerProgram.WellFormed :=
  .of_one (by decide) (by decide) (by decide) (by decide) (by decide) (by decide)

/-- The page of the caller. -/
theorem caller_byte (h : Loaded (heapLawful 0x80206) board callerProgram largeMemory .none sp s T Q)
    {k : Nat} (hk : k < 4096) :
    (view heapAllocator s sp.root).byte (0x10000 + k) = some (callerProgram.byte (4096 + k)) := by
  have hone : callerProgram.ePhnum = 1 := by decide
  have hpage : addr2Page (0x10000 + k) = 16 := by
    simp only [addr2Page, pageSize]
    omega
  have hoff : offset (0x10000 + k) = k := by
    simp only [offset, pageSize]
    omega
  have hlast : callerProgram.Last 0 (addr2Page (0x10000 + k)) := by
    rw [hpage]
    exact ⟨by decide, ⟨by decide, by decide, by decide⟩, fun j hj hj' => by omega⟩
  have hstart : ((callerProgram.header 0).pOffset +
      (UInt64.ofNat (16 * pageSize) - (callerProgram.header 0).pVaddr)).toNat = 4096 := by decide
  rw [h.view_byte callerProgram_wellFormed hlast, ProgramHeader.source, hpage, hoff, hstart]

/-- A string on the page of the caller. -/
theorem caller_string (h : Loaded (heapLawful 0x80206) board callerProgram largeMemory .none sp s T Q)
    {a : UInt64} {k : Nat} {text : List Chr} (ha : a.toNat = 0x10000 + k) (hk : k + textSize text ≤ 4096)
    (htext : ∀ x, x < textSize text → callerProgram.byte (4096 + k + x) = cBytes text x) :
    userString (view heapAllocator s sp.root) a = some text := by
  have hstring : HasString (view heapAllocator s sp.root) a text := by
    intro x hx
    rw [ha, Nat.add_assoc, caller_byte h (by omega), ← Nat.add_assoc, htext x hx]
  refine hstring.userString ?_
  simp only [textSize] at hk
  omega

theorem caller_path (h : Loaded (heapLawful 0x80206) board callerProgram largeMemory .none sp s T Q) :
    userString (view heapAllocator s sp.root) 0x10000 = some (Fs.literal "a") :=
  caller_string h (k := 0) rfl (by decide) (by decide)

theorem caller_argv (h : Loaded (heapLawful 0x80206) board callerProgram largeMemory .none sp s T Q) :
    HasStrings (view heapAllocator s sp.root) 0x10008 [0x10018] [longText] := by
  have hword : ∀ k y, k + 8 ≤ 4096 → y < 8 →
      (view heapAllocator s sp.root).byte (0x10000 + k + y) = some (callerProgram.byte (4096 + k + y)) :=
    fun k y hk hy => by
      rw [Nat.add_assoc, caller_byte h (by omega), Nat.add_assoc]
  refine ⟨⟨fun y hy => ?_, fun y hy => ?_, trivial⟩, fun p hp => ?_, .cons (fun x hx => ?_) .nil⟩
  · refine (hword 8 y (by decide) hy).trans (congrArg some ?_)
    exact (by decide : ∀ y, y < 8 → callerProgram.byte (4096 + 8 + y) = bytes64 0x10018 y) y hy
  · refine (hword 16 y (by decide) hy).trans (congrArg some ?_)
    exact (by decide : ∀ y, y < 8 → callerProgram.byte (4096 + 16 + y) = bytes64 0 y) y hy
  · rw [List.mem_singleton.mp hp]
    decide
  · have hlen : longText.length = 4071 := List.length_replicate
    have hx : x < longText.length + 1 := hx
    have haddr : (0x10018 : UInt64).toNat + x = 0x10000 + (24 + x) := by
      have hnum : (0x10018 : UInt64).toNat = 0x10018 := rfl
      omega
    rw [haddr, caller_byte h (by omega), ← Nat.add_assoc]
    refine congrArg some ?_
    rw [cBytes]
    rcases Nat.lt_or_ge x 4071 with hlt | hge
    · rw [longText, List.getElem?_replicate, if_pos hlt]
      exact if_pos ⟨by omega, by omega⟩
    · have hlast : x = 4071 := by omega
      rw [List.getElem?_eq_none (hlen ▸ hge), hlast]
      rfl

theorem caller_envp (h : Loaded (heapLawful 0x80206) board callerProgram largeMemory .none sp s T Q) :
    HasStrings (view heapAllocator s sp.root) 0x10010 [] [] := by
  refine ⟨⟨fun y hy => ?_, trivial⟩, fun p hp => absurd hp List.not_mem_nil, .nil⟩
  have hbyte := caller_byte h (show 16 + y < 4096 by omega)
  rw [← Nat.add_assoc, ← Nat.add_assoc] at hbyte
  refine hbyte.trans (congrArg some ?_)
  exact (by decide : ∀ y, y < 8 → callerProgram.byte (4096 + 16 + y) = bytes64 0 y) y hy

theorem longText_fits : blockSize [longText] [] = 4096 := by
  have hsize : textSize longText = 4072 := congrArg (· + 1) List.length_replicate
  rw [blockSize, List.append_nil, textsSize_cons, hsize]
  rfl

theorem longText_length : ∀ text ∈ [longText], text.length < 8192 := by
  intro text ht
  rw [List.mem_singleton.mp ht, longText, List.length_replicate]
  decide

/-- The caller executes the file, with any allocators under the same address space. -/
theorem caller_execve {V : Lawful A} {Y : Roomy A} (hY : Y.Kept) (vaddr : UInt64) {w : Memory ω}
    {T' Q' R' : Footprint}
    (h : Loaded (heapLawful 0x80206) board callerProgram largeMemory .none sp s T Q)
    (hw : Held V w sp board.trampoline T' Q' R')
    (hview : view A w sp.root = view heapAllocator s sp.root) (hroom : Y.Room w.heap 6000)
    (hname : OneName sampleMount (elfDisk vaddr) zeroCall.getfile
      (Fs.firstRound sampleMount zeroCall.getfile 2 (Fs.literal "a")) 3)
    (hexec : ¬ notExecutable sampleMount (elfDisk vaddr) zeroCall (.file 3))
    (hlt : stackTop (elfProgram vaddr) < 2 ^ 64) (hpages : (elfProgram vaddr).pages ≤ 5900)
    (hup : addr2PageUp ((Fs.firstRound sampleMount zeroCall.getfile 2 (Fs.literal "a")).inode sampleMount
      (elfDisk vaddr) zeroCall.getfile).sizeBytes.toNat ≤ 1) :
    ∃ ret sp' s', 0 ≤ ret ∧ sysExecve A board sampleMount (elfDisk vaddr) zeroCall 2 sp 0x10000 0x10008
      0x10010 w = some (ret, sp', s') := by
  refine sysExecve_returns hY hw (hview ▸ caller_path h)
    (hview ▸ (caller_argv h).userStrings (by decide) longText_length)
    (hview ▸ (caller_envp h).userStrings (by decide) fun text ht => absurd ht List.not_mem_nil) hname hexec
    hlt (by rw [longText_fits]; decide) (Y.mono hroom ?_)
  have hpages : (programOf sampleMount (elfDisk vaddr) zeroCall (.file 3)).pages ≤ 5900 := hpages
  simp only [bufferPages, List.length_singleton, List.length_nil]
  omega

/-- The file is found, and can be executed. -/
theorem elfDisk_low : OneName sampleMount (elfDisk 0x10000) zeroCall.getfile
      (Fs.firstRound sampleMount zeroCall.getfile 2 (Fs.literal "a")) 3 ∧
    ¬ notExecutable sampleMount (elfDisk 0x10000) zeroCall (.file 3) ∧
    (elfProgram 0x10000).stackVpn = 17 ∧ (elfProgram 0x10000).pages ≤ 5900 ∧
    addr2PageUp ((Fs.firstRound sampleMount zeroCall.getfile 2 (Fs.literal "a")).inode sampleMount
      (elfDisk 0x10000) zeroCall.getfile).sizeBytes.toNat ≤ 1 :=
  ⟨⟨by decide +kernel, by decide +kernel, by decide +kernel, by decide +kernel, by decide +kernel⟩,
    by decide +kernel, by decide +kernel, by decide +kernel, by decide +kernel⟩

/-- The stack of the file is in the middle of the address space. -/
theorem elfProgram_low : StackClear (elfProgram 0x10000) := by
  have hvpn := elfDisk_low.2.2.1
  have htrap : trapframeVpn % 2 ^ 27 = 2 ^ 27 - 2 := by decide
  refine ⟨by rw [stackTop, hvpn]; decide, fun j hj he => ?_⟩
  rw [hvpn, slotOf_eq_iff, SamePage, htrap] at he
  simp only [userStackPages] at hj
  omega

/-- The caller executes the file with a low address. -/
theorem caller_execve_low {V : Lawful A} {Y : Roomy A} (hY : Y.Kept) {w : Memory ω} {T' Q' R' : Footprint}
    (h : Loaded (heapLawful 0x80206) board callerProgram largeMemory .none sp s T Q)
    (hw : Held V w sp board.trampoline T' Q' R')
    (hview : view A w sp.root = view heapAllocator s sp.root) (hroom : Y.Room w.heap 6000) :
    ∃ ret sp' s', 0 ≤ ret ∧ sysExecve A board sampleMount (elfDisk 0x10000) zeroCall 2 sp 0x10000 0x10008
      0x10010 w = some (ret, sp', s') :=
  caller_execve hY 0x10000 h hw hview hroom elfDisk_low.1 elfDisk_low.2.1 elfProgram_low.lt
    elfDisk_low.2.2.2.1 elfDisk_low.2.2.2.2

theorem caller_loaded : ∃ sp s T Q,
    Loaded (heapLawful 0x80206) board callerProgram largeMemory .none sp s T Q ∧ HeapRoom s.heap 6000 := by
  obtain ⟨sp, s, hl, hroom⟩ := loadProcess_returns heapRoomy (s := largeMemory) (n := 6000) board
    callerProgram (show largeMemory.heap.pfnStart + 3 * (6000 + callerProgram.pages) ≤
      largeMemory.heap.maxPfn by decide)
  obtain ⟨T, Q, h⟩ := loadProcess_loaded largeMemory_own hl
  exact ⟨sp, s, T, Q, h, hroom⟩

end Caller

/-- What is found under the name `a`. -/
theorem elfDisk_found {vaddr : UInt64} {text : List Chr} {t : Target} {s : Memory Alloc.Heap}
    {sp : AddressSpace} {T Q : Footprint}
    (h : Loaded (heapLawful 0x80206) board callerProgram largeMemory .none sp s T Q)
    (hget : (Fs.getfile sampleMount (elfDisk vaddr) zeroCall.getfile 2 (Fs.literal "a") false).map
      Prod.fst = some (some (.file 3)))
    (htext : userString (view heapAllocator s sp.root) 0x10000 = some text)
    (hfound : Fs.getfile sampleMount (elfDisk vaddr) zeroCall.getfile 2 text false =
      some (some t, elfDisk vaddr)) : t = .file 3 := by
  cases (caller_path h).symm.trans htext
  rw [hfound] at hget
  exact Option.some.inj (Option.some.inj hget)

/-- A byte of the page of the trap frame, if the stack ends with it. -/
theorem Laid.trap_byte {A : Allocator ω} {V : Lawful A} {s : Memory ω} {sp : AddressSpace}
    {trampoline : UInt64} {T Q R : Footprint} {program : Program} {args vars : List (List Chr)}
    {mem : UserMemory} {x12 : UInt64} (h : Laid V s sp trampoline T Q R program args vars mem x12) {v k : Nat}
    (hv : slotOf v = slotOf trapframeVpn) (hk : k < pageSize) :
    mem.kernelByte (sp.trapframe * pageSize + k) = mem.byte (v * pageSize + k) := by
  have hsplit := addr_split v hk
  rw [UserMemory.byte_eq, UserMemory.kernelAddr, hsplit.1, hsplit.2, h.trap v hv]

/-- The long string is behind the two arrays. -/
theorem longText_place {mem : UserMemory} {top : Nat} {x x12 : UInt64}
    (h : ArgumentBlock mem top [longText] [] x x x12) (htop : top = x.toNat + 4096)
    (hx12 : x12.toNat = x.toNat + 8 * ([longText].length + 1)) {k : Nat} (hk : k < 4072) :
    mem.byte (x.toNat + 24 + k) = some (cBytes longText k) := by
  obtain ⟨ps, qs, hargv, henvp, hspans, hdisjoint⟩ := h.strings
  obtain ⟨p, _, htext, hnil, rfl⟩ := List.forall₂_cons_right_iff.mp hargv.strings
  cases List.forall₂_nil_right_iff.mp hnil
  cases List.forall₂_nil_right_iff.mp henvp.strings
  have hsize : textSize longText = 4072 := congrArg (· + 1) List.length_replicate
  have hspan : (⟨p.toNat, textSize longText, ()⟩ : Span Unit) ∈
      arraySpans x [p] [longText] ++ arraySpans x12 [] [] := .tail _ (.head _)
  have hbounds := hspans _ hspan
  dsimp only at hbounds
  rw [hsize] at hbounds
  obtain ⟨hargs, hdisjoint⟩ := List.pairwise_cons.mp hdisjoint
  have hfirst := hargs _ (.head _)
  have hsecond := (List.pairwise_cons.mp hdisjoint).1 _ (.head _)
  have hself : (⟨p.toNat, textSize longText, ()⟩ : Span Unit).Has p.toNat :=
    ⟨Nat.le_refl _, by rw [hsize]; exact Nat.lt_add_of_pos_right (show 0 < 4072 by decide)⟩
  rw [List.length_singleton] at hx12
  have hplace : p.toNat = x.toNat + 24 := by
    by_contra hne
    rcases Nat.lt_or_ge p.toNat (x.toNat + 16) with hlt | hge
    · exact hfirst p.toNat ⟨hbounds.1, hlt⟩ hself
    · exact hsecond p.toNat hself
        (show x12.toNat ≤ p.toNat ∧ p.toNat < x12.toNat + 8 from ⟨by omega, by omega⟩)
  rw [← hplace]
  exact htext k (hsize ▸ hk)

end Exec
