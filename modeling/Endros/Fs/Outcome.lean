import Endros.Fs.Flat
import Endros.Fs.Grow

/-!
# How `fs_file_truncate` ends

*Termination.*  The loop that shrinks a file counts an unsigned index down from
the last page and stops when it is below the new number of pages.  Nothing is
below `0`, so a file is never shrunk to no page at all.  Otherwise the loop frees
one page per iteration and ends.  The loop that grows a file is counted.

*Failure.*  A call returns `-1` where `allocate_block` finds no clear bit, with
the disk as it is then.  All bits of its bitmap are set.  So the bitmap is the one
from before the call only if the first allocation has failed already.
-/

namespace Fs

open Lib Mem

/-! ## Termination -/

section Ends

variable (fs : Filesystem) (d : Disk) (u : TruncateLocals) (inum : Nat) (newsize : UInt64)

/-- What `fs_file_truncate` takes for the inode. -/
def oldInode : Inode := (getInode fs d u.toUninit inum).1

/-- `old_pages`. -/
def oldPages : Nat := addr2PageUp (oldInode fs d u inum).sizeBytes.toNat

/-- `fs_file_truncate`, with at most `fuel` tests of the condition of the loop
that shrinks the file. -/
def truncateWithin (fuel : Nat) : Option (Int × Disk) :=
  let inode := oldInode fs d u inum
  let newPages := addr2PageUp newsize.toNat
  if inode.sizeBytes = newsize then some (0, d)
  else if oldPages fs d u inum > newPages then
    (shrink fs inode u.shrink newPages fuel (oldPages fs d u inum - 1) d).map fun d =>
      (0, fsFileSync fs d inum { inode with sizeBytes := newsize })
  else truncatePages fs d u inum newsize inode (oldPages fs d u inum) newPages

/-- One test more than the file has pages is enough if any number is. -/
theorem fsFileTruncate_eq_within :
    fsFileTruncate fs d u inum newsize =
      truncateWithin fs d u inum newsize (oldPages fs d u inum + 1) := by
  rw [fsFileTruncate, truncateInode, truncateWithin, ← oldInode, ← oldPages]
  split
  · rfl
  · split
    · rename_i hlt
      rw [truncatePages, if_neg (Nat.lt_asymm hlt), if_pos hlt]
    · rfl

/-- The call ends, and the loop that shrinks the file makes one iteration per page
that goes: the test of its condition that fails is the one after these. -/
structure Ends : Prop where
  returns : ∃ fuel, (truncateWithin fs d u inum newsize fuel).isSome
  iterations : addr2PageUp newsize.toNat < oldPages fs d u inum → ∀ fuel,
    (shrink fs (oldInode fs d u inum) u.shrink (addr2PageUp newsize.toNat) fuel
      (oldPages fs d u inum - 1) d).isSome ↔
      oldPages fs d u inum - addr2PageUp newsize.toNat < fuel

end Ends

section Shrink

variable {fs : Filesystem} {inode : Inode} {u : Nat → ShrinkLocals}

/-- No index is below `0`. -/
theorem shrink_zero (fuel id : Nat) (d : Disk) : shrink fs inode u 0 fuel id d = none := by
  induction fuel generalizing id d with
  | zero => rfl
  | succ fuel ih =>
      rw [shrink, if_pos (Nat.zero_le id)]
      exact ih _ _

/-- With a page left the loop counts down to it. -/
theorem shrink_isSome_iff {newPages : Nat} (hn : 0 < newPages) (fuel : Nat) {id : Nat}
    (hid : id < 2 ^ 64) (d : Disk) :
    (shrink fs inode u newPages fuel id d).isSome ↔ id + 1 - newPages < fuel := by
  induction fuel generalizing id d with
  | zero => simp [shrink]
  | succ fuel ih =>
      rw [shrink]
      by_cases hge : newPages ≤ id
      · have hdown : u64 (id + 2 ^ 64 - 1) = id - 1 := by
          simp only [u64]
          omega
        rw [if_pos hge, hdown, ih (by omega)]
        omega
      · rw [if_neg hge]
        simp only [Option.isSome_some, true_iff]
        omega

end Shrink

theorem addr2PageUp_eq_zero {x : Nat} : addr2PageUp x = 0 ↔ x = 0 := by
  have h₁ := le_addr2PageUp x
  have h₂ := addr2PageUp_lt x
  simp only [pageSize] at h₁ h₂
  omega

theorem addr2PageUp_lt_word (x : UInt64) : addr2PageUp x.toNat < 2 ^ 64 := by
  have hx := x.toNat_lt
  have h := addr2PageUp_lt x.toNat
  simp only [pageSize] at h
  omega

section Ends

variable {fs : Filesystem} {d : Disk} {u : TruncateLocals} {inum : Nat} {newsize : UInt64}

/-- A file that has pages does not become empty. -/
theorem truncateWithin_zero (hsize : (oldInode fs d u inum).sizeBytes ≠ 0) (fuel : Nat) :
    truncateWithin fs d u inum 0 fuel = none := by
  have hold : oldPages fs d u inum > addr2PageUp (0 : UInt64).toNat := by
    have hne : oldPages fs d u inum ≠ 0 := fun h =>
      hsize (UInt64.toNat_inj.mp (addr2PageUp_eq_zero.mp h))
    exact Nat.pos_of_ne_zero hne
  rw [truncateWithin]
  simp only [if_neg hsize, if_pos hold]
  rw [show addr2PageUp (0 : UInt64).toNat = 0 from rfl, shrink_zero]
  rfl

theorem Ends.of_pages (hnew : 0 < addr2PageUp newsize.toNat) : Ends fs d u inum newsize := by
  have hlt : oldPages fs d u inum < 2 ^ 64 := addr2PageUp_lt_word _
  have hiff : addr2PageUp newsize.toNat < oldPages fs d u inum → ∀ fuel,
      (shrink fs (oldInode fs d u inum) u.shrink (addr2PageUp newsize.toNat) fuel
        (oldPages fs d u inum - 1) d).isSome ↔
        oldPages fs d u inum - addr2PageUp newsize.toNat < fuel := by
    intro hgt fuel
    rw [shrink_isSome_iff hnew fuel (by omega),
      Nat.sub_add_cancel (Nat.one_le_of_lt hgt)]
  refine ⟨⟨oldPages fs d u inum + 1, ?_⟩, hiff⟩
  rw [truncateWithin]
  split
  · rfl
  · split
    · rename_i hgt
      rw [Option.isSome_map]
      exact (hiff hgt _).mpr (by omega)
    · rename_i hle
      rw [truncatePages]
      split
      · split <;> rfl
      · rfl

/-- `fs_file_truncate` ends, with one iteration per page that goes, exactly if the
new size is not `0` or the file is empty already. -/
theorem truncate_ends_iff (fs : Filesystem) (d : Disk) (u : TruncateLocals) (inum : Nat)
    (newsize : UInt64) :
    Ends fs d u inum newsize ↔ newsize ≠ 0 ∨ (oldInode fs d u inum).sizeBytes = 0 := by
  constructor
  · intro h
    by_contra hn
    obtain ⟨rfl, hsize⟩ := not_or.mp hn |>.imp_left not_not.mp
    obtain ⟨fuel, hfuel⟩ := h.returns
    rw [truncateWithin_zero hsize] at hfuel
    cases hfuel
  · intro h
    by_cases hnew : newsize = 0
    · subst hnew
      have hsize := h.resolve_left fun hn => hn rfl
      refine ⟨⟨0, by rw [truncateWithin, if_pos hsize]; rfl⟩, fun hlt => ?_⟩
      rw [oldPages, hsize] at hlt
      exact absurd hlt (Nat.not_lt_zero _)
    · refine Ends.of_pages (Nat.pos_of_ne_zero fun h0 => hnew ?_)
      exact UInt64.toNat_inj.mp (addr2PageUp_eq_zero.mp h0)

end Ends

/-- A file of 1050 pages is to become empty. -/
theorem truncate_to_zero_diverges :
    ¬ ∃ fuel, (truncateWithin sampleFs fullDisk zeroLocals 2 0 fuel).isSome := by
  rintro ⟨fuel, h⟩
  have hsize : (oldInode sampleFs fullDisk zeroLocals 2).sizeBytes ≠ 0 := by decide
  rw [truncateWithin_zero hsize] at h
  cases h

/-! ## Failure -/

/-- The computation fails only where `allocate_block` finds no clear bit. -/
def FailsFull (fs : Filesystem) {α : Type} (x : Except Disk α) : Prop :=
  ∀ d, x = .error d → allocateBlock fs d = none

namespace FailsFull

variable {fs : Filesystem}

theorem ok {α : Type} (a : α) : FailsFull fs (.ok a : Except Disk α) := nofun

theorem bind {α β : Type} {x : Except Disk α} {f : α → Except Disk β} (hx : FailsFull fs x)
    (hf : ∀ a, FailsFull fs (f a)) : FailsFull fs (x >>= f) := by
  intro d h
  rcases bind_error h with h | ⟨a, -, h⟩
  · exact hx d h
  · exact hf a d h

theorem allocate (s : GrowState) : FailsFull fs (s.allocate fs) := by
  intro d h
  rw [GrowState.allocate] at h
  split at h
  · rename_i hnone
    cases h
    exact hnone
  · cases h

theorem allocateIf (c : Bool) (f : Nat → GrowState → GrowState) (s : GrowState) :
    FailsFull fs (s.allocateIf fs c f) := by
  rw [GrowState.allocateIf]
  split
  · exact (allocate s).bind fun _ => ok _
  · exact ok _

theorem growPage (page : Nat) (s : GrowState) : FailsFull fs (GrowState.growPage fs page s) := by
  rw [GrowState.growPage]
  split
  · exact (allocate s).bind fun _ => ok _
  · split
    · exact (allocateIf _ _ _).bind fun s => (allocate s).bind fun _ => ok _
    · split
      · exact (allocateIf _ _ _).bind fun _ => (allocateIf _ _ _).bind fun _ =>
          (allocate _).bind fun _ => ok _
      · exact (allocateIf _ _ _).bind fun _ => (allocateIf _ _ _).bind fun _ =>
          (allocateIf _ _ _).bind fun _ => (allocate _).bind fun _ => ok _

theorem grow (oldPages newPages : Nat) (s : GrowState) :
    FailsFull fs (GrowState.grow fs oldPages newPages s) := by
  intro d h
  obtain ⟨i, s', h⟩ := loop_error h
  exact growPage _ _ d h

end FailsFull

section Full

variable {fs : Filesystem} {s : GrowState}

theorem GrowState.allocate_full (h : allocateBlock fs s.disk = none) :
    s.allocate fs = .error s.disk := by
  rw [GrowState.allocate, h]

theorem GrowState.allocateIf_full (h : allocateBlock fs s.disk = none) (c : Bool)
    (f : Nat → GrowState → GrowState) :
    s.allocateIf fs c f = if c then .error s.disk else .ok s := by
  rw [GrowState.allocateIf, GrowState.allocate_full h]
  rfl

theorem GrowState.readSecond_disk (off : Nat) : (s.readSecond off).disk = s.disk := by
  rw [GrowState.readSecond]
  split <;> rfl

theorem GrowState.readThird_disk (off : Nat) : (s.readThird off).disk = s.disk := by
  rw [GrowState.readThird]
  split <;> rfl

/-- The first thing that changes the disk is an allocation. -/
theorem GrowState.growPage_full (h : allocateBlock fs s.disk = none) (page : Nat) :
    GrowState.growPage fs page s = .error s.disk := by
  have hsecond : ∀ off, (s.readSecond off).allocate fs = .error s.disk := fun off => by
    rw [GrowState.allocate_full (by rw [readSecond_disk]; exact h), readSecond_disk]
  have hthird : ∀ off off', ((s.readSecond off).readThird off').allocate fs = .error s.disk :=
    fun off off' => by
      rw [GrowState.allocate_full (by rw [readThird_disk, readSecond_disk]; exact h),
        readThird_disk, readSecond_disk]
  rw [GrowState.growPage]
  split
  · rw [growDirect, allocate_full h]
    rfl
  split
  · rw [growSingle, allocateIf_full h]
    split
    · rfl
    · rw [ok_bind, allocate_full h]
      rfl
  split
  · rw [growDouble, allocateIf_full h]
    split
    · rfl
    rw [ok_bind]
    dsimp only
    rw [allocateIf_full h]
    split
    · rfl
    rw [ok_bind, hsecond]
    rfl
  · rw [growTriple, allocateIf_full h]
    split
    · rfl
    rw [ok_bind]
    dsimp only
    rw [allocateIf_full h]
    split
    · rfl
    rw [ok_bind, allocateIf_full (by rw [readSecond_disk]; exact h), readSecond_disk]
    split
    · rfl
    rw [ok_bind, hthird]
    rfl

theorem GrowState.grow_full {old new : Nat} (h : allocateBlock fs s.disk = none) (hlt : old < new) :
    GrowState.grow fs old new s = .error s.disk :=
  loop_first_error (GrowState.growPage_full h old) (by omega)

theorem allocateBlock_eq_none {fs : Filesystem} {d : Disk} :
    allocateBlock fs d = none ↔ ∀ b, b < 8 * fs.bitmapBytes → marked fs d b = true := by
  have hc := allocateBlock_cases fs d
  cases ha : allocateBlock fs d with
  | none =>
      rw [ha] at hc
      exact ⟨fun _ => hc, fun _ => rfl⟩
  | some r =>
      rw [ha] at hc
      refine ⟨nofun, fun h => ?_⟩
      have hfree := hc.free
      rw [h _ hc.lt] at hfree
      cases hfree

/-- A call that returns `-1` needs a page, and its loop fails. -/
theorem fsFileTruncate_needs {d d' : Disk} {u : TruncateLocals} {inum : Nat} {newsize : UInt64}
    (h : fsFileTruncate fs d u inum newsize = some (-1, d')) :
    oldPages fs d u inum < addr2PageUp newsize.toNat ∧
      GrowState.grow fs (oldPages fs d u inum) (addr2PageUp newsize.toNat)
        ⟨d, oldInode fs d u inum, u.block2nd, u.block3rd⟩ = .error d' := by
  rw [fsFileTruncate, ← oldInode, truncateInode] at h
  split at h
  · cases h
  rw [← oldPages, truncatePages] at h
  split at h
  · rename_i hlt
    split at h
    · rename_i e he
      cases h
      exact ⟨hlt, he⟩
    · cases h
  split at h
  · obtain ⟨r, -, hr⟩ := Option.map_eq_some_iff.mp h
    cases hr
  · cases h

/-- A call that needs a page and finds no block for it. -/
theorem fsFileTruncate_full {d : Disk} {u : TruncateLocals} {inum : Nat} {newsize : UInt64}
    (hlt : oldPages fs d u inum < addr2PageUp newsize.toNat)
    (hfull : ∀ b, b < 8 * fs.bitmapBytes → marked fs d b = true) :
    fsFileTruncate fs d u inum newsize = some (-1, d) := by
  have hne : (oldInode fs d u inum).sizeBytes ≠ newsize := fun h => by
    rw [oldPages, h] at hlt
    exact Nat.lt_irrefl _ hlt
  rw [fsFileTruncate, ← oldInode, truncateInode, if_neg hne, ← oldPages, truncatePages, if_pos hlt,
    GrowState.grow_full (allocateBlock_eq_none.mpr hfull) hlt]

end Full

/-- The data bitmap, the inodes, and the maps and the contents of all files are
the same. -/
structure Unchanged (fs : Filesystem) (d d' : Disk) : Prop where
  bitmap : ∀ b, b < 8 * fs.bitmapBytes → marked fs d' b = marked fs d b
  inode : ∀ g, inodeOf fs d' g = inodeOf fs d g
  map : ∀ g junk i, lookup d' (inodeOf fs d' g) junk i = lookup d (inodeOf fs d g) junk i
  contents : ∀ g u junk off buffer size,
    fsFileRead fs d' u junk g off buffer size = fsFileRead fs d u junk g off buffer size

/-- A truncation that fails has changed nothing exactly if there was no clear bit
in the bitmap to start with. -/
theorem failed_truncate_unchanged_iff {fs : Filesystem} {d d' : Disk} {u : TruncateLocals}
    {inum : Nat} {newsize : UInt64} (h : fsFileTruncate fs d u inum newsize = some (-1, d')) :
    Unchanged fs d d' ↔ ∀ b, b < 8 * fs.bitmapBytes → marked fs d b = true := by
  obtain ⟨hlt, hgrow⟩ := fsFileTruncate_needs h
  constructor
  · intro hsame b hb
    rw [← hsame.bitmap b hb]
    exact allocateBlock_eq_none.mp (FailsFull.grow _ _ _ d' hgrow) b hb
  · intro hfull
    rw [GrowState.grow_full (allocateBlock_eq_none.mpr hfull) hlt] at hgrow
    cases hgrow
    exact ⟨fun _ _ => rfl, fun _ => rfl, fun _ _ _ => rfl, fun _ _ _ _ _ _ => rfl⟩

/-- The disk of the empty file with the blocks below `2040` marked, and behind them
those with a bit in `last`. -/
def tightDisk (last : UInt8) : Disk :=
  (emptyDisk.write (2 * 4096) 255 fun _ => 0xff).write (2 * 4096 + 255) 1 fun _ => last

/-- Two pages for the empty file, and no free block. -/
theorem failed_truncate_unchanged_full : ∃ d',
    fsFileTruncate sampleFs (tightDisk 0xff) zeroLocals 2 8192 = some (-1, d') ∧
      Unchanged sampleFs (tightDisk 0xff) d' := by
  have hres : (fsFileTruncate sampleFs (tightDisk 0xff) zeroLocals 2 8192).map (·.1) =
      some (-1) := by decide +kernel
  obtain ⟨⟨v, d'⟩, h, rfl⟩ := Option.map_eq_some_iff.mp hres
  have hbyte : ∀ k, k < 256 → (tightDisk 0xff).bytes (2 * 4096 + k) = 0xff := by decide +kernel
  refine ⟨d', h, (failed_truncate_unchanged_iff h).mpr fun b hb => ?_⟩
  have hb : b < 8 * 256 := hb
  show bitmapGet ((tightDisk 0xff).bytes (2 * 4096 + b / 8)) b = true
  rw [hbyte (b / 8) (by omega)]
  exact bitmapGet_full b

/-- Two pages for the empty file, and one free block: it is marked, and stays so. -/
theorem failed_truncate_marks_block :
    (WellFormed sampleFs (tightDisk 0x7f) (files sampleFs (tightDisk 0x7f)) ∧
      Covered sampleFs (tightDisk 0x7f) (files sampleFs (tightDisk 0x7f)) ∧
      IsFile sampleFs (tightDisk 0x7f) 2) ∧
    marked sampleFs (tightDisk 0x7f) 2047 = false ∧
      (fsFileTruncate sampleFs (tightDisk 0x7f) zeroLocals 2 8192).map
        (fun r => (r.1, marked sampleFs r.2 2047)) = some (-1, true) := by
  have hfile : ∀ g, IsFile sampleFs (tightDisk 0x7f) g → g = 2 := by
    have hall : ∀ g, g < 32 → bitmapGet ((tightDisk 0x7f).bytes (inodeBitmapByte g)) g = true →
        g = 2 := by decide
    exact fun g h => hall g h.lt h.marked
  have hpages : pages sampleFs (tightDisk 0x7f) 2 = 0 := by decide
  have hempty : ∀ g, IsFile sampleFs (tightDisk 0x7f) g → pages sampleFs (tightDisk 0x7f) g = 0 :=
    fun g h => by rw [hfile g h, hpages]
  have hdev : OnDevice sampleFs (tightDisk 0x7f) := ⟨by decide, by decide⟩
  exact ⟨⟨wellFormed_of_empty hempty, covered_of_empty hempty hdev (by decide),
    by decide, by decide +kernel⟩, by decide +kernel, by decide +kernel⟩

end Fs
