import Endros.Fs.Inode
import Endros.Lib.Run
import Endros.Mkfs.Layout

/-!
# Building an image

`main` computes the geometry of the image from its size and the number of
inodes, writes the superblock and marks the metadata blocks.  `create_file` then
marks an inode, lays out the blocks of the file and writes the inode into the
table.

`Recorded` says which blocks a file has by its inode: the direct ones, and for
each level the index blocks and data blocks on the way to every page, as they
are found in the image.
-/

namespace Mkfs

open Lib Fs Mem

/-! ## The geometry -/

/-- `INODE_SIZE`. -/
def inodeSize : Nat := 128

structure Geometry where
  /-- The bytes of the image. -/
  size : Nat
  totalInodes : Nat

namespace Geometry

variable (geo : Geometry)

def totalBlocks : Nat := ceilDiv geo.size pageSize

def inodeBitmapSizeBytes : Nat := ceilDiv geo.totalInodes 8

def dataBitmapSizeBytes : Nat := ceilDiv geo.totalBlocks 8

def inodeBitmapBlocks : Nat := ceilDiv geo.inodeBitmapSizeBytes pageSize

def dataBitmapBlocks : Nat := ceilDiv geo.dataBitmapSizeBytes pageSize

def inodeTableBlocks : Nat := ceilDiv (geo.totalInodes * inodeSize) pageSize

def inodeBitmapPtr : Nat := pageSize

def dataBitmapPtr : Nat := (1 + geo.inodeBitmapBlocks) * pageSize

def inodeTablePtr : Nat := (1 + geo.inodeBitmapBlocks + geo.dataBitmapBlocks) * pageSize

/-- The first value of `current_block`. -/
def metadataBlocks : Nat :=
  1 + geo.inodeBitmapBlocks + geo.dataBitmapBlocks + geo.inodeTableBlocks

/-- The words of the superblock. -/
def superWords (k : Nat) : UInt32 :=
  if k = 0 then 0x0a050f05
  else if k = 1 then UInt32.ofNat geo.inodeBitmapBlocks
  else if k = 2 then UInt32.ofNat geo.dataBitmapBlocks
  else if k = 3 then UInt32.ofNat geo.inodeTableBlocks
  else if k = 4 then UInt32.ofNat geo.totalBlocks
  else 2

end Geometry

/-! ## `main` and `create_file` -/

/-- `main`, up to the walk of the directory. -/
def start (geo : Geometry) : Except Error Globals := do
  let mm ← Image.write ⟨fun _ => 0, geo.size⟩ 0 (4 * 6) (bytesOfWords geo.superWords)
  let g : Globals :=
    { mm, currentBlock := geo.metadataBlocks, dataBitmapPtr := geo.dataBitmapPtr,
      dataBitmapSizeBytes := geo.dataBitmapSizeBytes }
  let mm ← allocateContiguousBlocks g 0 g.currentBlock
  -- the inodes 0 and 1 are not free
  let mm ← mm.write Geometry.inodeBitmapPtr 1 fun _ => 0x3
  return { g with mm }

/-- The arguments of `create_file`. -/
structure NewFile where
  inode : Nat
  type : UInt32
  permission : UInt32
  size : Nat
  data : Nat → UInt8

/-- `Inode(type, permission, size_bytes)`. -/
def NewFile.inodeObj (f : NewFile) : Fs.Inode :=
  { type := f.type, permission := f.permission, sizeBytes := UInt64.ofNat f.size,
    direct := fun _ => 0, singleInd := 0, doubleInd := 0, tripleInd := 0 }

/-- `create_file`, with the inode it writes. -/
def createFile (geo : Geometry) (g : Globals) (f : NewFile) : Except Error (Fs.Inode × Globals) :=
  let ptr := f.inode / 8
  let offset := f.inode % 8
  if ptr ≥ geo.inodeBitmapSizeBytes then .error .excessiveInode
  else do
    let byte ← g.mm.readByte (Geometry.inodeBitmapPtr + ptr)
    let mm ← g.mm.write (Geometry.inodeBitmapPtr + ptr) 1 fun _ => byte ||| (1 <<< UInt8.ofNat offset)
    let (inode, g) ← allocateFileBlocks { g with mm } f.inodeObj f.size f.data
    let mm ← g.mm.write (geo.inodeTablePtr + f.inode * inodeSize) inodeSize
      (bytesOfWords inode.words)
    return (inode, { g with mm })

/-- The script between two calls of `create_file`, with the inodes of the files
that were made, newest first. -/
structure Build where
  g : Globals
  files : List Fs.Inode

/-- One more file.  `none` is an exception, which ends the script. -/
def Build.step (geo : Geometry) (s : Build) (f : NewFile) : Option Build :=
  (createFile geo s.g f).toOption.map fun r => ⟨r.2, r.1 :: s.files⟩

/-! ## What is recorded -/

/-- The bit of the block `b` in a bitmap at `base`. -/
def Image.bit (m : Image) (base b : Nat) : Bool := bitmapGet (m.bytes (base + b / 8)) b

/-- The pointer `i` in an index block. -/
def Image.ptr (m : Image) (block i : Nat) : Nat := (le32 m.bytes (block * pageSize + 4 * i)).toNat

/-- The blocks on the way from the root `r` of an index of `k` levels to its
page `i`, the page included. -/
def path (m : Image) : Nat → Nat → Nat → List Nat
  | 0, r, _ => [r]
  | k + 1, r, i => r :: path m k (m.ptr r (i / ptrPerPage ^ k)) (i % ptrPerPage ^ k)

/-- `b` is on the way to one of the pages of a file of `n` pages that are reached
from `r` by `k` levels.  `first` is the first of them. -/
def OnLevel (m : Image) (k r first n b : Nat) : Prop :=
  ∃ i < ptrPerPage ^ k, first + i < n ∧ b ∈ path m k r i

/-- `b` is one of the direct blocks of a file of `n` pages. -/
def OnDirect (inode : Fs.Inode) (n b : Nat) : Prop :=
  ∃ i, ∃ h : i < directPtrs, i < n ∧ b = (inode.direct ⟨i, h⟩).toNat

/-- The block `b`, data or index, is recorded for the file. -/
def Recorded (m : Image) (inode : Fs.Inode) (b : Nat) : Prop :=
  let n := ceilDiv inode.sizeBytes.toNat pageSize
  OnDirect inode n b ∨
  OnLevel m 1 inode.singleInd.toNat directPtrs n b ∨
  OnLevel m 2 inode.doubleInd.toNat (directPtrs + ptrPerPage) n b ∨
  OnLevel m 3 inode.tripleInd.toNat (directPtrs + ptrPerPage + ptrPerPage * ptrPerPage) n b

/-- The allocation map is right: no block belongs to two files or to a file and
the metadata, and the bitmap has the blocks that are in use. -/
structure Consistent (geo : Geometry) (s : Build) : Prop where
  disjoint : s.files.Pairwise fun f f' => ∀ b, ¬ (Recorded s.g.mm f b ∧ Recorded s.g.mm f' b)
  metadata : ∀ f ∈ s.files, ∀ b, Recorded s.g.mm f b → geo.metadataBlocks ≤ b
  bitmap : ∀ b, b < 8 * (geo.dataBitmapBlocks * pageSize) →
    (s.g.mm.bit geo.dataBitmapPtr b = true ↔
      b < geo.metadataBlocks ∨ ∃ f ∈ s.files, Recorded s.g.mm f b)

/-- An empty file is not made at a multiple of eight blocks, and no file with
blocks behind one with a triple indirect part. -/
def Regular (s : Build) (f : NewFile) (_ : Build) : Prop :=
  (f.size = 0 → s.g.currentBlock % 8 ≠ 0) ∧
  (f.size ≠ 0 → ∀ f' ∈ s.files,
    ceilDiv f'.sizeBytes.toNat pageSize ≤ directPtrs + ptrPerPage + ptrPerPage * ptrPerPage)

instance (s : Build) (f : NewFile) (s' : Build) : Decidable (Regular s f s') :=
  inferInstanceAs (Decidable ((f.size = 0 → s.g.currentBlock % 8 ≠ 0) ∧ (f.size ≠ 0 →
    ∀ f' ∈ s.files, ceilDiv f'.sizeBytes.toNat pageSize ≤
      directPtrs + ptrPerPage + ptrPerPage * ptrPerPage)))

end Mkfs
