import Mathlib.Data.Fintype.Prod
import Endros.Lib.RefCount
import Endros.Proc.Effect

/-!
# Open files

Every process has a table of `NUM_FILES` descriptors.  An open file of the file
system is an `FSFile` from `kalloc`, and descriptors of any process may point to
it: `rc` counts them, and `sys_close` frees the `FSFile` with the last one.  A
device is a static `File` that is not counted.

The lookup of a path is the file system's business.  An `openat` event carries
what `getfile` did: it failed and left the descriptor's old `File` in place, it
found a device, or it made an `FSFile` at a pointer that was not allocated.  The
directory it starts from matters to nothing else.

`stray` records that a freed `FSFile` was written or freed again.  Such a write
hits a node of the page allocator.
-/

namespace Proc

open Lib

/-- `NUM_FILES`. -/
def numFiles : Nat := 64

inductive FileType where
  | directory | file | symbolicLink | device
deriving DecidableEq, Repr

structure File where
  super : Nat
  type : FileType
deriving DecidableEq, Repr

structure FileDescriptor where
  occupied : Bool
  openFlags : UInt32
  file : File
  seek : UInt64
deriving DecidableEq, Repr

abbrev FdTable := Fin numFiles → FileDescriptor

structure FSFile where
  inum : UInt32
  rc : UInt32
deriving DecidableEq, Repr

structure Heap where
  files : Nat → Option FSFile
  stray : Bool

/-- What `getfile` did. -/
inductive GetFile where
  | fail
  | device (super : Nat)
  | fsfile (ptr : Nat) (inum : UInt32) (type : FileType)
deriving DecidableEq, Repr

inductive FileCall where
  | openat (flags : UInt32) (out : GetFile)
  | close (fd : Fin numFiles)
  | dup (fd : Fin numFiles)
  | dup3 (oldFd newFd : Fin numFiles) (flags : UInt32)

/-- `O_DIRECTORY`. -/
def oDirectory : UInt32 := 0o200000

namespace Heap

def kfree (h : Heap) (p : Nat) : Heap :=
  match h.files p with
  | none => { h with stray := true }
  | some _ => { h with files := Function.update h.files p none }

def setRc (h : Heap) (p : Nat) (f : UInt32 → UInt32) : Heap :=
  match h.files p with
  | none => { h with stray := true }
  | some file => { h with files := Function.update h.files p (some { file with rc := f file.rc }) }

/-- `rc--`, and `kfree` if it is `0` then. -/
def drop (h : Heap) (p : Nat) : Heap :=
  let h := h.setRc p (· - 1)
  match h.files p with
  | none => h
  | some file => if file.rc = 0 then h.kfree p else h

end Heap

def getfile (out : GetFile) (h : Heap) (file : File) : Option (Heap × File × Bool) :=
  match out with
  | .fail => some (h, file, false)
  | .device super => some (h, ⟨super, .device⟩, true)
  | .fsfile ptr inum type =>
      if h.files ptr = none then
        some ({ h with files := Function.update h.files ptr (some ⟨inum, 0⟩) }, ⟨ptr, type⟩, true)
      else none

/-- The first descriptor that is not occupied. -/
def freeFd (t : FdTable) : Option (Fin numFiles) :=
  (List.finRange numFiles).find? fun fd => !(t fd).occupied

def sysOpenat (h : Heap) (t : FdTable) (flags : UInt32) (out : GetFile) :
    Option (Heap × FdTable × UInt64) :=
  match freeFd t with
  | none => some (h, t, minusOne)
  | some fd =>
      match getfile out h (t fd).file with
      | none => none
      | some (h, file, res) =>
          let t := Function.update t fd ⟨true, flags, file, 0⟩
          if file.type = .directory ∧ flags &&& oDirectory = 0 then
            some (h.kfree file.super, t, minusOne)
          else if file.type ≠ .directory ∧ flags &&& oDirectory ≠ 0 then
            some (if file.type ≠ .device then h.kfree file.super else h, t, minusOne)
          else if res = false then some (h, t, minusOne)
          else
            some (if file.type ≠ .device then h.setRc file.super (fun _ => 1) else h, t,
              UInt64.ofNat fd)

def sysClose (h : Heap) (t : FdTable) (fd : Fin numFiles) : Heap × FdTable × UInt64 :=
  if (t fd).occupied then
    (if (t fd).file.type ≠ .device then h.drop (t fd).file.super else h,
      Function.update t fd { t fd with occupied := false }, 0)
  else (h, t, minusOne)

/-- Close a descriptor if it is occupied, as the loop of `sys_exit` does. -/
def closeFd (s : Heap × FdTable) (fd : Fin numFiles) : Heap × FdTable :=
  if (s.2 fd).occupied then
    let r := sysClose s.1 s.2 fd
    (r.1, r.2.1)
  else s

def sysDup (h : Heap) (t : FdTable) (fd : Fin numFiles) : Heap × FdTable × UInt64 :=
  if (t fd).occupied then
    match freeFd t with
    | none => (h, t, minusOne)
    | some newFd =>
        (if (t fd).file.type ≠ .device then h.setRc (t fd).file.super (· + 1) else h,
          Function.update t newFd (t fd), 0)
  else (h, t, minusOne)

def sysDup3 (h : Heap) (t : FdTable) (oldFd newFd : Fin numFiles) (flags : UInt32) :
    Heap × FdTable × UInt64 :=
  if (t oldFd).occupied then
    let (h, t) := closeFd (h, t) newFd
    let t := Function.update t newFd { t oldFd with openFlags := (t oldFd).openFlags &&& flags }
    (if (t oldFd).file.type ≠ .device then h.setRc (t oldFd).file.super (· + 1) else h, t, 0)
  else (h, t, minusOne)

/-- Copy a descriptor of the parent to the child. -/
def copyFd (parent : FdTable) (s : Heap × FdTable) (fd : Fin numFiles) : Heap × FdTable :=
  if (parent fd).occupied then
    (if (parent fd).file.type ≠ .device then s.1.setRc (parent fd).file.super (· + 1) else s.1,
      Function.update s.2 fd (parent fd))
  else (s.1, Function.update s.2 fd { s.2 fd with occupied := false })

/-- The loop of `sys_fork` over the descriptors. -/
def copyAll (parent : FdTable) (s : Heap × FdTable) : Heap × FdTable :=
  (List.finRange numFiles).foldl (copyFd parent) s

/-- The loop of `sys_exit`. -/
def closeAll (s : Heap × FdTable) : Heap × FdTable := (List.finRange numFiles).foldl closeFd s

def FileCall.exec (a : FileCall) (h : Heap) (t : FdTable) : Option (Heap × FdTable × UInt64) :=
  match a with
  | .openat flags out => sysOpenat h t flags out
  | .close fd => some (sysClose h t fd)
  | .dup fd => some (sysDup h t fd)
  | .dup3 oldFd newFd flags => some (sysDup3 h t oldFd newFd flags)

/-- The process table with open files as its resources. -/
def filesMachine : Machine Heap FdTable FileCall where
  copy h parent old := some (copyAll parent (h, old))
  close h t := closeAll (h, t)
  unload h _ := h
  exec := FileCall.exec

/-- The descriptors `init_scheduler` sets up: `stdin`, `stdout` and `stderr`. -/
def initFiles (i : Nat) : FdTable := fun fd =>
  if i = 0 ∧ fd.val < 3 then ⟨true, if fd.val = 0 then 0 else 1, ⟨0, .device⟩, 0⟩
  else ⟨false, 0, ⟨0, .directory⟩, 0⟩

/-- After boot nothing is open but the three devices. -/
def filesBoot : Kernel Heap FdTable := boot ⟨fun _ => none, false⟩ initFiles

/-! ## Exact counts -/

/-- The `FSFile` a descriptor counts for. -/
def slotTarget (d : FileDescriptor) : Option Nat :=
  if d.occupied ∧ d.file.type ≠ .device then some d.file.super else none

abbrev Rows := Fin numProcs → FdTable

def targets (rows : Rows) (x : Fin numProcs × Fin numFiles) : Option Nat :=
  slotTarget (rows x.1 x.2)

def counts (h : Heap) (p : Nat) : Option Nat := (h.files p).map (·.rc.toNat)

/-- An `FSFile` is allocated exactly while a descriptor points to it, and its
`rc` is the number of those. -/
def Sound (rows : Rows) (h : Heap) : Prop :=
  h.stray = false ∧ Exact (targets rows) (counts h)

def rows (k : Kernel Heap FdTable) : Rows := fun i => k.res i

/-- What a call of a process with descriptors `t` has to meet. -/
def FileCall.Keeps (a : FileCall) (t : FdTable) : Prop :=
  match a with
  | .openat flags out => ∀ fd ∈ freeFd t,
      match out with
      | .fail => (t fd).file.type = .device
      | .device _ => True
      | .fsfile _ _ type => type ≠ .device ∧ (type = .directory ↔ flags &&& oDirectory ≠ 0)
  | .dup3 oldFd newFd _ =>
      oldFd ≠ newFd ∨ (t oldFd).occupied = false ∨ (t oldFd).file.type = .device
  | _ => True

instance (a : FileCall) (t : FdTable) : Decidable (a.Keeps t) :=
  match a with
  | .openat _ .fail => inferInstanceAs (Decidable (∀ fd ∈ freeFd t, (t fd).file.type = .device))
  | .openat _ (.device _) => inferInstanceAs (Decidable (∀ fd ∈ freeFd t, True))
  | .openat flags (.fsfile _ _ type) => inferInstanceAs (Decidable (∀ fd ∈ freeFd t,
      type ≠ .device ∧ (type = .directory ↔ flags &&& oDirectory ≠ 0)))
  | .dup3 oldFd newFd _ => inferInstanceAs (Decidable
      (oldFd ≠ newFd ∨ (t oldFd).occupied = false ∨ (t oldFd).file.type = .device))
  | .close _ | .dup _ => .isTrue trivial

def KeepsCounts (k : Kernel Heap FdTable) (e : Event FileCall) (_ : Kernel Heap FdTable) : Prop :=
  match e with
  | .call a => a.Keeps (k.res k.running)
  | _ => True

instance (k : Kernel Heap FdTable) (e : Event FileCall) (k' : Kernel Heap FdTable) :
    Decidable (KeepsCounts k e k') :=
  match e with
  | .call a => inferInstanceAs (Decidable (a.Keeps (k.res k.running)))
  | .fork | .exit _ | .waitpid _ | .yield => .isTrue trivial

/-! ## One descriptor changes -/

section Slot

variable {rows : Rows} {h : Heap} {i : Fin numProcs} {fd : Fin numFiles} {d : FileDescriptor}
  {p : Nat}

/-- The table with another descriptor in one slot. -/
def setSlot (rows : Rows) (i : Fin numProcs) (fd : Fin numFiles) (d : FileDescriptor) : Rows :=
  Function.update rows i (Function.update (rows i) fd d)

theorem targets_setSlot :
    targets (setSlot rows i fd d) = Function.update (targets rows) (i, fd) (slotTarget d) := by
  funext ⟨j, e⟩
  by_cases hj : j = i
  · subst hj
    by_cases he : e = fd
    · subst he
      simp [targets, setSlot]
    · simp [targets, setSlot, he]
  · simp [targets, setSlot, hj]

theorem rc_lt {n : Nat} (hs : Sound rows h) (hp : counts h p = some n) : n < 2 ^ 32 - 1 := by
  have hle := refs_le_card (targets rows) p
  rw [← (hs.2.count_eq hp).1, Fintype.card_prod, Fintype.card_fin, Fintype.card_fin] at hle
  exact Nat.lt_of_le_of_lt hle (by decide)

theorem counts_eq_some {n : Nat} (hp : counts h p = some n) :
    ∃ f, h.files p = some f ∧ f.rc.toNat = n :=
  Option.map_eq_some_iff.mp hp

theorem counts_update (x : Option FSFile) (files : Nat → Option FSFile) (stray : Bool) :
    counts ⟨Function.update files p x, stray⟩ =
      Function.update (counts ⟨files, stray⟩) p (x.map (·.rc.toNat)) := by
  funext q
  by_cases hq : q = p
  · subst hq
    simp [counts]
  · simp [counts, hq]

/-- `rc++` where the slot that was empty points to `p` now. -/
theorem sound_link {x : Fin numProcs × Fin numFiles} (hs : Sound rows h)
    (hi : slotTarget (rows i fd) = none) (hd : slotTarget d = some p)
    (hx : targets rows x = some p) : Sound (setSlot rows i fd d) (h.setRc p (· + 1)) := by
  have hc := hs.2.allocated hx
  have hlt := rc_lt hs hc
  obtain ⟨f, hf, hrc⟩ := counts_eq_some hc
  simp only [Heap.setRc, hf]
  refine ⟨hs.1, ?_⟩
  rw [targets_setSlot, counts_update, hd]
  have hadd : (f.rc + 1).toNat = refs (targets rows) p + 1 := by
    rw [UInt32.toNat_add, hrc]
    exact Nat.mod_eq_of_lt (by show _ + 1 < 2 ^ 32; omega)
  simpa [hadd] using hs.2.link (i := (i, fd)) hi hc

/-- A new `FSFile` in a slot that was empty. -/
theorem sound_alloc {inum : UInt32} (hs : Sound rows h) (hi : slotTarget (rows i fd) = none)
    (hd : slotTarget d = some p) (hp : h.files p = none) :
    Sound (setSlot rows i fd d) { h with files := Function.update h.files p (some ⟨inum, 1⟩) } := by
  refine ⟨hs.1, ?_⟩
  rw [targets_setSlot, counts_update, hd]
  exact hs.2.alloc (i := (i, fd)) hi (by rw [counts, hp]; rfl)

/-- `rc--`, with `kfree` at `0`, where the slot pointed to `p`. -/
theorem sound_unlink (hs : Sound rows h) (hi : slotTarget (rows i fd) = some p)
    (hd : slotTarget d = none) : Sound (setSlot rows i fd d) (h.drop p) := by
  have hc := hs.2.allocated (i := (i, fd)) hi
  have hpos := (hs.2.count_eq hc).2
  have hlt := rc_lt hs hc
  obtain ⟨f, hf, hrc⟩ := counts_eq_some hc
  have hun := hs.2.unlink (i := (i, fd)) hi hc
  have hsub : (f.rc - 1).toNat = refs (targets rows) p - 1 := by
    rw [UInt32.toNat_sub_of_le _ _ (UInt32.le_iff_toNat_le.mpr (by rw [hrc]; exact hpos)), hrc]
    rfl
  have hzero : f.rc - 1 = 0 ↔ refs (targets rows) p = 1 := by
    rw [← UInt32.toNat_inj, hsub, UInt32.toNat_zero]
    omega
  simp only [Heap.drop, Heap.setRc, hf, Function.update_self]
  by_cases h1 : refs (targets rows) p = 1
  · rw [if_pos (hzero.mpr h1)]
    simp only [Heap.kfree, Function.update_self, Function.update_idem]
    refine ⟨hs.1, ?_⟩
    rw [targets_setSlot, counts_update, hd]
    simpa [h1] using hun
  · rw [if_neg (mt hzero.mp h1)]
    refine ⟨hs.1, ?_⟩
    rw [targets_setSlot, counts_update, hd]
    simpa [h1, hsub] using hun

/-- A slot that counts for nothing before and after. -/
theorem sound_keep (hs : Sound rows h) (hi : slotTarget (rows i fd) = none)
    (hd : slotTarget d = none) : Sound (setSlot rows i fd d) h := by
  refine ⟨hs.1, ?_⟩
  rw [targets_setSlot]
  exact hs.2.update_none hi hd

end Slot

/-! ## The calls -/

theorem slotTarget_of_free {d : FileDescriptor} (h : d.occupied = false) : slotTarget d = none := by
  simp [slotTarget, h]

theorem slotTarget_of_device {d : FileDescriptor} (h : d.file.type = .device) :
    slotTarget d = none := by
  simp [slotTarget, h]

theorem slotTarget_of_fsfile {d : FileDescriptor} (ho : d.occupied = true)
    (h : d.file.type ≠ .device) : slotTarget d = some d.file.super := by
  simp [slotTarget, ho, h]

theorem freeFd_spec {t : FdTable} {fd : Fin numFiles} (h : freeFd t = some fd) :
    (t fd).occupied = false := by
  simpa using List.find?_some h

section Calls

variable {rows : Rows} {h : Heap} {i : Fin numProcs}

theorem sysClose_sound (hs : Sound rows h) (fd : Fin numFiles) :
    Sound (Function.update rows i (sysClose h (rows i) fd).2.1) (sysClose h (rows i) fd).1 := by
  rw [sysClose]
  split
  · rename_i hocc
    by_cases hdev : (rows i fd).file.type = .device
    · simp only [hdev, ne_eq, not_true_eq_false, if_false]
      exact sound_keep hs (slotTarget_of_device hdev) (slotTarget_of_free rfl)
    · simp only [ne_eq, hdev, not_false_eq_true, if_true]
      exact sound_unlink hs (slotTarget_of_fsfile hocc hdev) (slotTarget_of_free rfl)
  · rw [Function.update_eq_self]
    exact hs

theorem sysClose_free (h : Heap) (t : FdTable) (fd : Fin numFiles) :
    ((sysClose h t fd).2.1 fd).occupied = false := by
  rw [sysClose]
  split
  · simp
  · rename_i hocc
    simpa using hocc

/-- A copy of an occupied descriptor goes to a free slot, with `rc++`. -/
theorem sound_copy {j : Fin numProcs} (fd fd' : Fin numFiles) {d : FileDescriptor}
    (hs : Sound rows h) (hfree : (rows i fd).occupied = false)
    (hocc : (rows j fd').occupied = true) (hd : d.occupied = true)
    (hfile : d.file = (rows j fd').file) :
    Sound (setSlot rows i fd d)
      (if (rows j fd').file.type ≠ .device then h.setRc (rows j fd').file.super (· + 1) else h) := by
  by_cases hdev : (rows j fd').file.type = .device
  · simp only [hdev, ne_eq, not_true_eq_false, if_false]
    exact sound_keep hs (slotTarget_of_free hfree) (slotTarget_of_device (by rw [hfile]; exact hdev))
  · simp only [ne_eq, hdev, not_false_eq_true, if_true]
    refine sound_link (x := (j, fd')) hs (slotTarget_of_free hfree) ?_
      (slotTarget_of_fsfile hocc hdev)
    rw [← hfile] at hdev ⊢
    exact slotTarget_of_fsfile hd hdev

theorem sysDup_sound (hs : Sound rows h) (fd : Fin numFiles) :
    Sound (Function.update rows i (sysDup h (rows i) fd).2.1) (sysDup h (rows i) fd).1 := by
  rw [sysDup]
  split
  · rename_i hocc
    split
    · rw [Function.update_eq_self]
      exact hs
    · rename_i newFd hnew
      exact sound_copy _ _ hs (freeFd_spec hnew) hocc hocc rfl
  · rw [Function.update_eq_self]
    exact hs

theorem closeFd_sound (hs : Sound rows h) (fd : Fin numFiles) :
    Sound (Function.update rows i (closeFd (h, rows i) fd).2) (closeFd (h, rows i) fd).1 := by
  rw [closeFd]
  split
  · exact sysClose_sound hs fd
  · rw [Function.update_eq_self]
    exact hs

theorem closeFd_free (s : Heap × FdTable) (fd : Fin numFiles) :
    ((closeFd s fd).2 fd).occupied = false := by
  rw [closeFd]
  split
  · exact sysClose_free _ _ _
  · rename_i hocc
    simpa using hocc

theorem closeFd_of_ne (s : Heap × FdTable) {fd fd' : Fin numFiles} (hne : fd' ≠ fd) :
    (closeFd s fd).2 fd' = s.2 fd' := by
  rw [closeFd]
  split
  · rw [sysClose]
    split <;> simp [hne]
  · rfl

/-- One increment too many. -/
theorem not_sound_setRc {p : Nat} (hs : Sound rows h) : ¬ Sound rows (h.setRc p (· + 1)) := by
  intro hs'
  cases hf : h.files p with
  | none =>
      have hstray := hs'.1
      simp [Heap.setRc, hf] at hstray
  | some f =>
      have hc : counts h p = some f.rc.toNat := by rw [counts, hf]; rfl
      have hc' : counts (h.setRc p (· + 1)) p = some (f.rc + 1).toNat := by
        simp [counts, Heap.setRc, hf]
      have heq : (f.rc + 1).toNat = f.rc.toNat :=
        (hs'.2.count_eq hc').1.trans (hs.2.count_eq hc).1.symm
      have hlt := rc_lt hs hc
      rw [UInt32.toNat_add, UInt32.toNat_one, Nat.mod_eq_of_lt (by omega)] at heq
      omega

/-- `dup3` is sound unless it closes the descriptor it is to copy. -/
theorem sysDup3_sound (hs : Sound rows h) (oldFd newFd : Fin numFiles) (flags : UInt32) :
    Sound (Function.update rows i (sysDup3 h (rows i) oldFd newFd flags).2.1)
        (sysDup3 h (rows i) oldFd newFd flags).1 ↔
      (FileCall.dup3 oldFd newFd flags).Keeps (rows i) := by
  rw [FileCall.Keeps, sysDup3]
  by_cases hocc : (rows i oldFd).occupied = true
  · simp only [hocc, if_true, Bool.true_eq_false, false_or]
    by_cases hne : oldFd = newFd
    · subst hne
      simp only [closeFd, hocc, if_true, not_true_eq_false, ne_eq, false_or, sysClose,
        Function.update_self, Function.update_idem]
      by_cases hdev : (rows i oldFd).file.type = .device
      · simp only [hdev, not_true_eq_false, if_false, iff_true]
        exact sound_keep hs (slotTarget_of_device hdev) (slotTarget_of_free rfl)
      · simp only [hdev, not_false_eq_true, if_true, iff_false]
        exact not_sound_setRc
          (sound_unlink hs (slotTarget_of_fsfile hocc hdev) (slotTarget_of_free rfl))
    · simp only [ne_eq, hne, not_false_eq_true, true_or, iff_true]
      have hcl := closeFd_sound (i := i) hs newFd
      have hfree := closeFd_free (h, rows i) newFd
      have hold := closeFd_of_ne (h, rows i) hne
      generalize closeFd (h, rows i) newFd = r at hcl hfree hold ⊢
      obtain ⟨h₁, t₁⟩ := r
      have hrow : Function.update rows i t₁ i = t₁ := Function.update_self ..
      have hocc₁ : (t₁ oldFd).occupied = true := by
        rw [show t₁ oldFd = rows i oldFd from hold]
        exact hocc
      have hcopy := sound_copy (i := i) (j := i) newFd oldFd
        (d := { t₁ oldFd with openFlags := (t₁ oldFd).openFlags &&& flags }) hcl
        (by rw [hrow]; exact hfree) (by rw [hrow]; exact hocc₁) hocc₁ (by rw [hrow])
      simp only [setSlot, hrow, Function.update_idem] at hcopy
      simpa only [Function.update_of_ne hne] using hcopy
  · simp only [hocc, Bool.false_eq_true, if_false, Function.update_eq_self]
    simpa using hs

/-- What `openat` does to the heap and the descriptor it has claimed. -/
theorem sysOpenat_cases {t t' : FdTable} {h' : Heap} {flags : UInt32} {out : GetFile} {v : UInt64}
    (he : sysOpenat h t flags out = some (h', t', v)) :
    (freeFd t = none ∧ h' = h ∧ t' = t) ∨
    ∃ fd h₁ file res, freeFd t = some fd ∧ getfile out h (t fd).file = some (h₁, file, res) ∧
      t' = Function.update t fd ⟨true, flags, file, 0⟩ ∧
      h' = if file.type = .device then h₁
        else if file.type = .directory ↔ flags &&& oDirectory ≠ 0 then
          if res then h₁.setRc file.super (fun _ => 1) else h₁
        else h₁.kfree file.super := by
  rw [sysOpenat] at he
  split at he
  · rename_i hfd
    cases he
    exact Or.inl ⟨hfd, rfl, rfl⟩
  · rename_i fd hfd
    split at he
    · cases he
    · rename_i h₁ file res hget
      refine Or.inr ⟨fd, h₁, file, res, hfd, hget, ?_⟩
      dsimp only at he
      split at he
      · rename_i hc
        cases he
        simp [hc.1, hc.2]
      · rename_i hc
        split at he
        · rename_i hc'
          cases he
          by_cases hdev : file.type = .device <;> simp [hdev, hc'.1, hc'.2]
        · rename_i hc'
          have hiff : file.type = .directory ↔ flags &&& oDirectory ≠ 0 := by
            constructor
            · intro hd h0
              exact hc ⟨hd, h0⟩
            · intro h0
              by_contra hd
              exact hc' ⟨hd, h0⟩
          split at he
          · rename_i hres
            cases he
            by_cases hdev : file.type = .device <;> simp [hdev, hiff, hres]
          · rename_i hres
            cases he
            by_cases hdev : file.type = .device <;> simp [hdev, hiff, hres]

/-- A descriptor that points to a freed `FSFile`. -/
theorem not_sound_dangling {rows : Rows} {h : Heap} (fd : Fin numFiles) {p : Nat}
    (ht : slotTarget (rows i fd) = some p) (hf : h.files p = none) : ¬ Sound rows h := by
  intro hs
  have hc := hs.2.allocated (i := (i, fd)) ht
  rw [counts, hf] at hc
  cases hc

/-- A descriptor that points to an `FSFile` without being counted. -/
theorem not_sound_uncounted {fd : Fin numFiles} {d : FileDescriptor} {p : Nat} (hs : Sound rows h)
    (hi : slotTarget (rows i fd) = none) (hd : slotTarget d = some p) :
    ¬ Sound (setSlot rows i fd d) h := by
  intro hs'
  have hne : targets rows (i, fd) ≠ some p := by
    rw [targets, hi]
    exact Option.some_ne_none _ |>.symm
  have hlink : refs (targets (setSlot rows i fd d)) p = refs (targets rows) p + 1 := by
    rw [targets_setSlot, hd]
    exact refs_link hne
  have hc := hs'.2.allocated (i := (i, fd)) (p := p) (by simpa [targets, setSlot] using hd)
  have := (hs.2.count_eq hc).1
  omega

/-- An `FSFile` that no descriptor counts for. -/
theorem not_sound_leak {rows : Rows} {h : Heap} {p : Nat} {f : FSFile}
    (hp : h.files p = some f) (hr : refs (targets rows) p = 0) : ¬ Sound rows h := by
  intro hs
  have hc : counts h p = some f.rc.toNat := by rw [counts, hp]; rfl
  have := hs.2.count_eq hc
  omega

theorem kfree_files (h : Heap) (p : Nat) : (h.kfree p).files p = none := by
  rw [Heap.kfree]
  split
  · assumption
  · simp

/-- `openat` is sound exactly if it has nothing to undo on its error exits. -/
theorem sysOpenat_sound {flags : UInt32} {out : GetFile} {h' : Heap} {t' : FdTable} {v : UInt64}
    (hs : Sound rows h) (he : sysOpenat h (rows i) flags out = some (h', t', v)) :
    Sound (Function.update rows i t') h' ↔ (FileCall.openat flags out).Keeps (rows i) := by
  rcases sysOpenat_cases he with ⟨hfd, rfl, rfl⟩ | ⟨fd, h₁, file, res, hfd, hget, rfl, rfl⟩
  · simpa [FileCall.Keeps, hfd] using hs
  · have hfree : slotTarget (rows i fd) = none := slotTarget_of_free (freeFd_spec hfd)
    have hdang : ∀ {h₂ : Heap}, file.type ≠ .device → h₂.files file.super = none →
        ¬ Sound (setSlot rows i fd ⟨true, flags, file, 0⟩) h₂ := by
      intro h₂ hdev hf
      refine not_sound_dangling (i := i) fd (p := file.super) ?_ hf
      simpa [setSlot] using slotTarget_of_fsfile (d := ⟨true, flags, file, 0⟩) rfl hdev
    show Sound (setSlot rows i fd _) _ ↔ _
    cases out with
    | fail =>
        cases hget
        simp only [FileCall.Keeps, hfd, Option.mem_def, Option.some.injEq, forall_eq']
        by_cases hdev : (rows i fd).file.type = .device
        · simp only [hdev, if_true, iff_true]
          exact sound_keep hs hfree (slotTarget_of_device hdev)
        · simp only [hdev, if_false, iff_false]
          split
          · exact not_sound_uncounted hs hfree (slotTarget_of_fsfile rfl hdev)
          · exact hdang hdev (kfree_files _ _)
    | device super =>
        cases hget
        simp only [FileCall.Keeps, if_true]
        simpa [hfd] using sound_keep hs hfree (slotTarget_of_device rfl)
    | fsfile ptr inum type =>
        rw [getfile] at hget
        split at hget
        · rename_i hnone
          cases hget
          simp only [FileCall.Keeps, hfd, Option.mem_def, Option.some.injEq, forall_eq']
          by_cases hdev : type = .device
          · simp only [hdev, if_true, ne_eq, not_true_eq_false, false_and, iff_false]
            refine not_sound_leak (p := ptr) (Function.update_self ..) ?_
            rw [targets_setSlot, slotTarget_of_device rfl, ← hfree, show slotTarget (rows i fd) =
              targets rows (i, fd) from rfl, Function.update_eq_self]
            exact hs.2.not_referenced (by rw [counts, hnone]; rfl)
          · simp only [hdev, if_false, ne_eq, not_false_eq_true, true_and]
            by_cases hdir : type = .directory ↔ ¬ flags &&& oDirectory = 0
            · simp only [hdir, if_true, iff_true]
              simpa [Heap.setRc] using
                sound_alloc hs hfree (slotTarget_of_fsfile (d := ⟨true, flags, ⟨ptr, type⟩, 0⟩) rfl hdev)
                  hnone
            · simp only [hdir, if_false, iff_false]
              exact hdang hdev (kfree_files _ _)
        · cases hget

theorem exec_sound {a : FileCall} {h' : Heap} {t' : FdTable} {v : UInt64} (hs : Sound rows h)
    (he : a.exec h (rows i) = some (h', t', v)) :
    Sound (Function.update rows i t') h' ↔ a.Keeps (rows i) := by
  cases a with
  | openat flags out => exact sysOpenat_sound hs he
  | close fd =>
      have hc := sysClose_sound (i := i) hs fd
      rw [Option.some.inj he] at hc
      exact iff_true_intro hc
  | dup fd =>
      have hc := sysDup_sound (i := i) hs fd
      rw [Option.some.inj he] at hc
      exact iff_true_intro hc
  | dup3 oldFd newFd flags =>
      have hc := sysDup3_sound (i := i) hs oldFd newFd flags
      rw [Option.some.inj he] at hc
      exact hc

/-! ## The loops of `sys_exit` and `sys_fork` -/

theorem closeList_sound : ∀ (l : List (Fin numFiles)) {rows : Rows} {h : Heap}, Sound rows h →
    Sound (Function.update rows i (l.foldl closeFd (h, rows i)).2)
      (l.foldl closeFd (h, rows i)).1
  | [], rows, h, hs => by
      rw [List.foldl_nil, Function.update_eq_self]
      exact hs
  | fd :: l, rows, h, hs => by
      have ih := closeList_sound l (closeFd_sound (i := i) hs fd)
      rw [Function.update_self, Function.update_idem] at ih
      exact ih

theorem closeList_free (fd : Fin numFiles) : ∀ (l : List (Fin numFiles)) (s : Heap × FdTable),
    fd ∈ l ∨ (s.2 fd).occupied = false → ((l.foldl closeFd s).2 fd).occupied = false
  | [], s, h => by simpa using h
  | fd' :: l, s, h => by
      refine closeList_free fd l (closeFd s fd') ?_
      by_cases hfd : fd = fd'
      · subst hfd
        exact Or.inr (closeFd_free s fd)
      · rw [closeFd_of_ne s hfd]
        simpa [hfd] using h

/-- The slots of the child that are still to come are free, so no count is
lost when they are written. -/
theorem copyList_sound {r : Fin numProcs} (hri : r ≠ i) : ∀ (l : List (Fin numFiles)) (rows : Rows)
    {h : Heap}, l.Nodup → (∀ fd ∈ l, (rows i fd).occupied = false) → Sound rows h →
    Sound (Function.update rows i (l.foldl (copyFd (rows r)) (h, rows i)).2)
      (l.foldl (copyFd (rows r)) (h, rows i)).1
  | [], rows, h, _, _, hs => by
      rw [List.foldl_nil, Function.update_eq_self]
      exact hs
  | fd :: l, rows, h, hnd, hfree, hs => by
      obtain ⟨hnot, hnd⟩ := List.nodup_cons.mp hnd
      have hfd := hfree fd (List.mem_cons_self ..)
      have hone : Sound (Function.update rows i (copyFd (rows r) (h, rows i) fd).2)
          (copyFd (rows r) (h, rows i) fd).1 := by
        rw [copyFd]
        split
        · rename_i hocc
          exact sound_copy _ _ hs hfd hocc hocc rfl
        · exact sound_keep hs (slotTarget_of_free hfd) (slotTarget_of_free rfl)
      have hrest : ∀ fd' ∈ l, ((copyFd (rows r) (h, rows i) fd).2 fd').occupied = false := by
        intro fd' hmem
        have hne : fd' ≠ fd := by
          rintro rfl
          exact hnot hmem
        rw [copyFd]
        split <;> simpa [hne] using hfree fd' (List.mem_cons_of_mem _ hmem)
      have ih := copyList_sound hri l (Function.update rows i _) hnd
        (by rw [Function.update_self]; exact hrest) hone
      rw [Function.update_self, Function.update_of_ne hri, Function.update_idem] at ih
      exact ih

end Calls

/-! ## Whole runs -/

/-- The table, and that only live processes have open files. -/
structure FilesInv (k : Kernel Heap FdTable) : Prop where
  sched : Sched k
  closed : ∀ i fd, k.phase i ≠ .live → (k.res i fd).occupied = false

theorem filesBoot_inv : FilesInv filesBoot := by
  refine ⟨boot_sched _ _, ?_⟩
  intro i fd hi
  have hi0 : i ≠ 0 := by
    rintro rfl
    exact hi rfl
  simp [filesBoot, Kernel.res, boot, initFiles, hi0]

theorem filesBoot_sound : Sound (rows filesBoot) filesBoot.world := by
  have hnone : targets (rows filesBoot) = fun _ => none := by
    funext ⟨i, fd⟩
    show slotTarget (initFiles i fd) = none
    rw [initFiles]
    split <;> rfl
  refine ⟨rfl, fun p => ?_⟩
  rw [hnone]
  simp [refs, counts, filesBoot, boot]

theorem rows_congr {k k' : Kernel Heap FdTable} (hr : k'.res = k.res) : rows k' = rows k := by
  funext j
  rw [rows, rows, hr]

/-- The row of a slot of the table. -/
theorem rows_update {k k' : Kernel Heap FdTable} {i : Nat} (hi : i < numProcs) {t : FdTable}
    (hr : k'.res = Function.update k.res i t) :
    rows k' = Function.update (rows k) ⟨i, hi⟩ t := by
  funext j
  rw [rows, hr]
  by_cases hj : j = ⟨i, hi⟩
  · subst hj
    simp
  · have hne : (j : Nat) ≠ i := fun h => hj (Fin.ext h)
    simp [hj, hne, rows]

section Exit

variable {k k' : Kernel Heap FdTable} {w : Heap} {t : FdTable}

theorem exit_sound (hlt : k.running < numProcs) (hs : Sound (rows k) k.world)
    (hc : filesMachine.close k.world (k.res k.running) = (w, t)) :
    Sound (Function.update (rows k) ⟨k.running, hlt⟩ t) w ∧ ∀ fd, (t fd).occupied = false := by
  have hc' : (List.finRange numFiles).foldl closeFd (k.world, rows k ⟨k.running, hlt⟩) =
      (w, t) := by
    simpa only [filesMachine, closeAll, rows] using hc
  have hsound := closeList_sound (i := ⟨k.running, hlt⟩) (List.finRange numFiles) hs
  have hfree := fun fd => closeList_free fd (List.finRange numFiles)
    (k.world, rows k ⟨k.running, hlt⟩) (Or.inl (List.mem_finRange fd))
  simp only [hc'] at hsound hfree
  exact ⟨hsound, hfree⟩

theorem closed_update (hcl : ∀ i fd, k.phase i ≠ .live → (k.res i fd).occupied = false)
    (hr : k'.res = Function.update k.res k.running t) (hfree : ∀ fd, (t fd).occupied = false)
    (hp : ∀ j, j ≠ k.running → k'.phase j = k.phase j) :
    ∀ i fd, k'.phase i ≠ .live → (k'.res i fd).occupied = false := by
  intro j fd hj
  rw [hr]
  by_cases hjr : j = k.running
  · subst hjr
    rw [Function.update_self]
    exact hfree fd
  · rw [Function.update_of_ne hjr]
    exact hcl j fd (by rw [← hp j hjr]; exact hj)

end Exit

/-- A step keeps the invariant, and the counts exact exactly if it meets
`KeepsCounts`. -/
theorem files_step {k k' : Kernel Heap FdTable} {e : Event FileCall} (h : FilesInv k)
    (hs : Sound (rows k) k.world) (hstep : step filesMachine k e = some k') :
    FilesInv k' ∧ (Sound (rows k') k'.world ↔ KeepsCounts k e k') := by
  have hsched := h.sched.step hstep
  have hlive := h.sched.live
  have hlt := h.sched.running_lt
  cases step_effect h.sched hstep with
  | quiet he hw hr hp =>
      refine ⟨⟨hsched, by rw [hr, hp]; exact h.closed⟩, ?_⟩
      rw [rows_congr hr, hw]
      cases e with
      | call a => exact absurd rfl (he a)
      | _ => exact iff_true_intro hs
  | @fork i w r hi hfree hc hw hr hp =>
      have hne : k.running ≠ i := by
        rintro rfl
        rw [hlive] at hfree; cases hfree
      have hc' : copyAll (rows k ⟨k.running, hlt⟩) (k.world, rows k ⟨i, hi⟩) = (w, r) :=
        Option.some.inj hc
      refine ⟨⟨hsched, ?_⟩, iff_true_intro ?_⟩
      · intro j fd hj
        rw [hp] at hj
        have hji : j ≠ i := by
          rintro rfl
          simp at hj
        rw [hr, Function.update_of_ne hji]
        exact h.closed j fd (by simpa [hji] using hj)
      · have hcopy := copyList_sound (i := ⟨i, hi⟩) (r := ⟨k.running, hlt⟩)
          (fun heq => hne (Fin.mk.inj heq)) (List.finRange numFiles) (rows k) (List.nodup_finRange _)
          (fun fd _ => h.closed i fd (by rw [hfree]; decide)) hs
        rw [← copyAll, hc'] at hcopy
        rw [rows_update hi hr, hw]
        exact hcopy
  | zombie hc hw hr hp =>
      obtain ⟨hsound, hfree⟩ := exit_sound hlt hs hc
      refine ⟨⟨hsched, closed_update h.closed hr hfree fun j hj => ?_⟩, iff_true_intro ?_⟩
      · rw [hp, Function.update_of_ne hj]
      · rw [rows_update hlt hr, hw]
        exact hsound
  | gone hc hw hr hp =>
      obtain ⟨hsound, hfree⟩ := exit_sound hlt hs hc
      refine ⟨⟨hsched, closed_update h.closed hr hfree fun j hj => ?_⟩, iff_true_intro ?_⟩
      · rw [hp, Function.update_of_ne hj]
      · rw [rows_update hlt hr, hw]
        exact hsound
  | @reap pid i hi hdead hw hr hp =>
      refine ⟨⟨hsched, ?_⟩, iff_true_intro ?_⟩
      · intro j fd hj
        rw [hr]
        refine h.closed j fd fun hl => hj ?_
        have hji : j ≠ i := by
          rintro rfl
          rw [hl] at hdead; cases hdead
        rw [hp, Function.update_of_ne hji, hl]
      · rw [rows_congr hr, hw]
        exact hs
  | @call a w t v hc hw hr hp =>
      refine ⟨⟨hsched, ?_⟩, ?_⟩
      · intro j fd hj
        rw [hp] at hj
        have hjr : j ≠ k.running := by
          rintro rfl
          exact hj hlive
        rw [hr, Function.update_of_ne hjr]
        exact h.closed j fd hj
      · rw [rows_update hlt hr, hw]
        have hs' : Sound (rows k) k.world := hs
        exact exec_sound (i := ⟨k.running, hlt⟩) hs' hc

/-- `init` opens a file, forks, duplicates its descriptor and yields to the
child, which exits. -/
def openForkExit : List (Event FileCall) :=
  [.call (.openat 0 (.fsfile 4096 7 .file)), .fork, .call (.dup ⟨3, by decide⟩), .yield, .exit 0]

end Proc
