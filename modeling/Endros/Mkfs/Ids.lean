import Endros.Fs.Bitmap
import Endros.Mkfs.Blocks

/-!
# Ids on an image of the script

`main` writes the sizes of the bitmaps and of the inode table into the superblock,
computed from the size of the image and the number of inodes, and the kernel
reads them back (`start_super`).  The two searches of the kernel for a free bit go
through a bit for every block, rounded up to bytes, whatever they search.  So what
they return can be behind the last block, or behind the inode table, and the bit
that is set can be behind the inode bitmap.  It is not exactly if there is a clear
bit in front, or none to be found.
-/

namespace Mkfs

open Lib Fs Mem

/-! ## The superblock -/

/-- The sizes in the superblock, as the kernel holds them. -/
structure SuperBlock where
  inodeBitmapBlocks : UInt32
  dataBitmapBlocks : UInt32
  inodeTableBlocks : UInt32
  sizeBlocks : UInt32
  deriving DecidableEq

namespace SuperBlock

/-- What `create_filesystem` reads from the disk. -/
def read (f : Nat → UInt8) : SuperBlock := ⟨le32 f 4, le32 f 8, le32 f 12, le32 f 16⟩

/-- The sizes of a file system of the kernel. -/
def ofFilesystem (fs : Filesystem) : SuperBlock :=
  ⟨fs.inodeBitmapBlocks, fs.dataBitmapBlocks, fs.inodeTableBlocks, fs.sizeBlocks⟩

/-- `allocate_block`, of a superblock that need not be consistent. -/
def allocateBlock (sb : SuperBlock) (d : Disk) : Option (Nat × Disk) :=
  allocateBit d ((1 + sb.inodeBitmapBlocks).toNat * pageSize) (searchBytes sb.sizeBlocks)

/-- The inodes the table has room for. -/
def inodeCapacity (sb : SuperBlock) : Nat := sb.inodeTableBlocks.toNat * pageSize / 128

theorem allocateBlock_ofFilesystem (fs : Filesystem) (d : Disk) :
    (ofFilesystem fs).allocateBlock d = Fs.allocateBlock fs d :=
  (Fs.allocateBlock_eq fs d).symm

end SuperBlock

/-- The sizes `main` computes. -/
def Geometry.super (geo : Geometry) : SuperBlock :=
  ⟨UInt32.ofNat geo.inodeBitmapBlocks, UInt32.ofNat geo.dataBitmapBlocks,
    UInt32.ofNat geo.inodeTableBlocks, UInt32.ofNat geo.totalBlocks⟩

/-- The writes of `main` behind the superblock leave its words alone. -/
theorem start_word {geo : Geometry} {g : Globals} (h : start geo = .ok g) {k : Nat} (hk : k < 6) :
    le32 g.mm.bytes (4 * k) = geo.superWords k := by
  obtain ⟨mm₀, hw₀, h⟩ := bind_ok h
  obtain ⟨mm₁, ha, h⟩ := bind_ok h
  obtain ⟨mm₂, hw₂, h⟩ := bind_ok h
  cases h
  obtain ⟨-, rfl⟩ := write_ok hw₀
  obtain ⟨-, rfl⟩ := write_ok hw₂
  have hpos : geo.metadataBlocks ≠ 0 := by
    rw [Geometry.metadataBlocks]
    omega
  obtain ⟨hmark, -⟩ := allocate_marked hpos ha
  have hptr : pageSize ≤ geo.dataBitmapPtr := by
    rw [Geometry.dataBitmapPtr, Nat.add_mul, Nat.one_mul]
    exact Nat.le_add_right ..
  simp only [pageSize] at hptr
  dsimp only
  rw [le32_patch_disjoint (by rw [Geometry.inodeBitmapPtr, pageSize]; omega)]
  refine (le32_congr fun j hj => hmark.bytes _ (.inl ?_)).trans ?_
  · show 4 * k + j < geo.dataBitmapPtr
    omega
  · have hw := le32_patch_words (f := fun _ => 0) (a := 0) (w := geo.superWords) hk
    rw [Nat.zero_add] at hw
    exact hw

/-- The kernel reads back the sizes that `main` has computed. -/
theorem start_super {geo : Geometry} {g : Globals} (h : start geo = .ok g) :
    SuperBlock.read g.mm.bytes = geo.super := by
  have h₁ := start_word h (k := 1) (by decide)
  have h₂ := start_word h (k := 2) (by decide)
  have h₃ := start_word h (k := 3) (by decide)
  have h₄ := start_word h (k := 4) (by decide)
  rw [SuperBlock.read, h₁, h₂, h₃, h₄]
  rfl

/-! ## Where a search ends -/

/-- There is a clear bit in front of `limit`, or none in all the `n` bytes. -/
def SearchEnds (d : Disk) (base n limit : Nat) : Prop :=
  (∃ b, b < limit ∧ bitAt d base b = false) ∨ ∀ b, b < 8 * n → bitAt d base b = true

theorem allocateBit_lt_iff (d : Disk) (base n limit : Nat) :
    (∀ b d', allocateBit d base n = some (b, d') → b < limit) ↔ SearchEnds d base n limit := by
  have hcases := allocateBit_cases d base n
  constructor
  · intro h
    cases ha : allocateBit d base n with
    | none =>
        rw [ha] at hcases
        exact .inr hcases
    | some r =>
        rw [ha] at hcases
        exact .inl ⟨r.1, h r.1 r.2 ha, hcases.clear⟩
  · intro h b d' ha
    rw [ha] at hcases
    rcases h with ⟨c, hc, hclear⟩ | hall
    · have hle : b ≤ c := by
        by_contra hlt
        rw [hcases.least c (by omega)] at hclear
        cases hclear
      omega
    · have hset := hall b hcases.lt
      rw [hcases.clear] at hset
      cases hset

/-- The byte of the bit does change. -/
theorem firstBit_changes {d d' : Disk} {base n b : Nat} (h : FirstBit d base n b d') :
    d'.bytes (base + b / 8) ≠ d.bytes (base + b / 8) := by
  intro he
  have hbit := h.bit b
  rw [bitAt, he, ← bitAt, h.clear] at hbit
  simp at hbit

/-- The search changes bytes of the first `m` only, exactly if it ends there. -/
theorem allocateBit_bytes_iff (d : Disk) (base n m : Nat) :
    (∀ b d', allocateBit d base n = some (b, d') →
      ∀ a, a < base ∨ base + m ≤ a → d'.bytes a = d.bytes a) ↔ SearchEnds d base n (8 * m) := by
  rw [← allocateBit_lt_iff]
  have hcases := allocateBit_cases d base n
  refine forall_congr' fun b => forall_congr' fun d' => forall_congr' fun ha => ?_
  rw [ha] at hcases
  constructor
  · intro h
    by_contra hge
    exact firstBit_changes hcases (h _ (.inr (by omega)))
  · intro hlt a ha
    exact hcases.bytes a (by omega)

/-! ## Ids inside the disk -/

/-- What the searches return is inside the disk and the inode table, and that for
an inode keeps to the inode bitmap. -/
structure IdsInside (sb : SuperBlock) (d : Disk) : Prop where
  block : ∀ b d', sb.allocateBlock d = some (b, d') → b < sb.sizeBlocks.toNat
  inode : ∀ i d', allocateInode sb.sizeBlocks d = some (i, d') → i < sb.inodeCapacity
  bytes : ∀ i d', allocateInode sb.sizeBlocks d = some (i, d') → ∀ a,
    a < pageSize ∨ pageSize + sb.inodeBitmapBlocks.toNat * pageSize ≤ a → d'.bytes a = d.bytes a

/-- The ids stay inside, on every image and in every state of the bitmaps, exactly
if each search ends in front of its limit or finds nothing at all. -/
theorem ids_inside_iff (geo : Geometry) (d : Disk) :
    IdsInside geo.super d ↔
      SearchEnds d ((1 + geo.super.inodeBitmapBlocks).toNat * pageSize)
          (searchBytes geo.super.sizeBlocks) geo.super.sizeBlocks.toNat ∧
        SearchEnds d pageSize (searchBytes geo.super.sizeBlocks) geo.super.inodeCapacity ∧
        SearchEnds d pageSize (searchBytes geo.super.sizeBlocks)
          (8 * (geo.super.inodeBitmapBlocks.toNat * pageSize)) := by
  have hbase : Filesystem.inodeBitmapOffset * pageSize = pageSize := Nat.one_mul _
  rw [← allocateBit_lt_iff, ← allocateBit_lt_iff, ← allocateBit_bytes_iff, ← hbase]
  constructor
  · intro h
    exact ⟨h.block, h.inode, h.bytes⟩
  · rintro ⟨hblock, hinode, hbytes⟩
    exact ⟨hblock, hinode, hbytes⟩

/-- An image of 44 blocks with 32 inodes. -/
def tightGeometry : Geometry := ⟨44 * 4096, 32⟩

/-- The image with the first 32 inodes and all of its blocks in use. -/
def fullDisk : Disk :=
  ⟨fun a =>
    if 4096 ≤ a ∧ a < 4096 + 4 ∨ 8192 ≤ a ∧ a < 8192 + 5 then 0xff
    else if a = 8192 + 5 then 0x0f
    else 0, 44 * 4096⟩

/-- `main` makes the image.  In this state of the bitmaps the search for a block
returns 44, behind the last one, and that for an inode 32, behind the table. -/
theorem full_ids_outside :
    (start tightGeometry).toOption.isSome ∧
      (tightGeometry.super.allocateBlock fullDisk).map Prod.fst = some 44 ∧
      tightGeometry.super.sizeBlocks.toNat = 44 ∧
      (allocateInode tightGeometry.super.sizeBlocks fullDisk).map Prod.fst = some 32 ∧
      tightGeometry.super.inodeCapacity = 32 := by
  refine ⟨by decide, by decide, by decide, by decide, by decide⟩

end Mkfs
