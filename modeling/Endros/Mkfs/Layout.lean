import Endros.Fs.File
import Endros.Lib.Loop

/-!
# Laying out a file

`mkfs.py` writes a file system image through a memory map.  A write or a seek
past the end of the map raises an exception, and so do a full bitmap, a block
number that does not fit four bytes, a file too large for a triple indirect
block and an inode behind the inode bitmap.  Assignments to the fields of a `ctypes` structure keep the low 32 bits.

A file gets contiguous blocks: the direct ones, then for each level the index
blocks in front of the data blocks.  The number of a data block within the file
is computed from the lengths of the lists before it, in which the index blocks
count.

Numbers are exact: `math.ceil(size / BLOCK_SIZE)` is, for the sizes of files that
can be read into memory.
-/

namespace Mkfs

open Lib Fs Mem

inductive Error where
  /-- `Unable to allocate, disk is full`. -/
  | diskFull
  /-- A seek, a read or a write out of the map. -/
  | outOfRange
  /-- `int too big to convert`. -/
  | overflow
  /-- `filesize_to_blocks` returned `None`. -/
  | tooLarge
  /-- `Unable to allocate excessive inode`. -/
  | excessiveInode
deriving DecidableEq, Repr

structure Image where
  bytes : Nat → UInt8
  length : Nat

/-- The globals that laying out a file uses. -/
structure Globals where
  mm : Image
  currentBlock : Nat
  dataBitmapPtr : Nat
  dataBitmapSizeBytes : Nat

namespace Image

/-- `mm.seek(pos)` and `mm.write` of `n` bytes. -/
def write (m : Image) (pos n : Nat) (data : Nat → UInt8) : Except Error Image :=
  if pos + n ≤ m.length then .ok { m with bytes := patch m.bytes pos n data }
  else .error .outOfRange

def readByte (m : Image) (pos : Nat) : Except Error UInt8 :=
  if pos < m.length then .ok (m.bytes pos) else .error .outOfRange

/-- `data[i * BLOCK_SIZE : (i + 1) * BLOCK_SIZE]` of `size` bytes, at `pos`. -/
def writeSlice (m : Image) (pos : Nat) (data : Nat → UInt8) (size i : Nat) : Except Error Image :=
  m.write pos (min ((i + 1) * pageSize) size - i * pageSize) fun j => data (i * pageSize + j)

/-- `block.to_bytes(4, 'little')` at `pos`. -/
def writePtr (m : Image) (pos block : Nat) : Except Error Image :=
  if block < 2 ^ 32 then m.write pos 4 (bytes32 (UInt32.ofNat block)) else .error .overflow

end Image

/-! ## The bitmap -/

/-- The byte with the bits from `lo` to `hi` set. -/
def setBits (byte : UInt8) (lo hi : Nat) : UInt8 :=
  (List.range' lo (hi + 1 - lo)).foldl (fun b i => b ||| (1 <<< UInt8.ofNat i)) byte

def allocateContiguousBlocks (g : Globals) (fromId size : Nat) : Except Error Image :=
  let ptrFrom := fromId / 8
  let offsetFrom := fromId % 8
  let ptrTo := (fromId + size - 1) / 8
  let offsetTo := (fromId + size - 1) % 8
  let base := g.dataBitmapPtr
  if ptrTo ≥ g.dataBitmapSizeBytes then .error .diskFull
  else do
    let byte ← g.mm.readByte (base + ptrFrom)
    if ptrFrom = ptrTo then
      g.mm.write (base + ptrFrom) 1 fun _ => setBits byte offsetFrom offsetTo
    else
      let mm ← g.mm.write (base + ptrFrom) 1 fun _ => byte ||| (0xff <<< UInt8.ofNat offsetFrom)
      let mm ← mm.write (base + ptrFrom + 1) (ptrTo - (ptrFrom + 1)) fun _ => 0xff
      -- the position of the map is behind the bytes just written
      let byte ← mm.readByte (base + max (ptrFrom + 1) ptrTo)
      mm.write (base + ptrTo) 1 fun _ => byte ||| (0xff >>> UInt8.ofNat (7 - offsetTo))

/-! ## The blocks of a file -/

def ceilDiv (a b : Nat) : Nat := (a + b - 1) / b

/-- The numbers of blocks: `[direct]`, `[1, direct]`, `[1, second, direct]` and
`[1, third, second, direct]`, as far as they are needed. -/
def filesizeToBlocks (size : Nat) : Option (List (List Nat)) :=
  let totalBlocks := ceilDiv size pageSize
  if totalBlocks ≤ directPtrs then some [[totalBlocks]]
  else if totalBlocks ≤ directPtrs + ptrPerPage then
    some [[directPtrs], [1, totalBlocks - directPtrs]]
  else if totalBlocks ≤ directPtrs + ptrPerPage + ptrPerPage * ptrPerPage then
    let uncovered := totalBlocks - (directPtrs + ptrPerPage)
    some [[directPtrs], [1, ptrPerPage], [1, ceilDiv uncovered ptrPerPage, uncovered]]
  else if totalBlocks ≤ directPtrs + ptrPerPage + ptrPerPage * ptrPerPage +
      ptrPerPage * ptrPerPage * ptrPerPage then
    let uncovered := totalBlocks - (directPtrs + ptrPerPage + ptrPerPage * ptrPerPage)
    let second := ceilDiv uncovered ptrPerPage
    some [[directPtrs], [1, ptrPerPage], [1, ptrPerPage, ptrPerPage * ptrPerPage],
      [1, ceilDiv second ptrPerPage, second, uncovered]]
  else none

/-- `blocks[i][j]`. -/
def entry (blocks : List (List Nat)) (i j : Nat) : Nat := (blocks.getD i []).getD j 0

/-- `sum(blocks[i][:n])`. -/
def rowSum (blocks : List (List Nat)) (i n : Nat) : Nat := ((blocks.getD i []).take n).sum

/-- `sum([sum(j) for j in blocks[:n]])`. -/
def sumBefore (blocks : List (List Nat)) (n : Nat) : Nat := ((blocks.take n).map List.sum).sum

section File

variable (blocks : List (List Nat)) (size : Nat) (data : Nat → UInt8) (c : Nat)

/-- The direct block `i`. -/
def writeDirectBlock (i : Nat) (s : Fs.Inode × Image) : Except Error (Fs.Inode × Image) := do
  let mm ← s.2.writeSlice ((c + i) * pageSize) data size i
  pure (Inode.setDirect s.1 i (UInt32.ofNat (c + i)), mm)

/-- The direct blocks, from the block `c` on. -/
def writeDirect (s : Fs.Inode × Image) : Except Error (Fs.Inode × Image) :=
  loop (writeDirectBlock size data c) (entry blocks 0 0) s

/-- A run of `n` pointers to the blocks from `first` on, at `pos`. -/
def writePtrs (mm : Image) (pos first n : Nat) : Except Error Image :=
  loop (fun i mm => mm.writePtr (pos + i * 4) (first + i)) n mm

/-- The data blocks of the level `k`, with the pointers to them at `pos`. -/
def writeLevel (k : Nat) (mm : Image) (pos : Nat) : Except Error Image :=
  loop (fun i mm => do
    let block := c + rowSum blocks k k + i
    let index := sumBefore blocks k + rowSum blocks k k + i
    let mm ← mm.writePtr (pos + i * 4) block
    mm.writeSlice (block * pageSize) data size index) (entry blocks k k) mm

/-- The single indirect part. -/
def writeSingle (s : Fs.Inode × Image) : Except Error (Fs.Inode × Image) := do
  let inode := { s.1 with singleInd := UInt32.ofNat c }
  let mm ← writeLevel blocks size data c 1 s.2 (inode.singleInd.toNat * pageSize)
  pure (inode, mm)

/-- The double indirect part. -/
def writeDouble (s : Fs.Inode × Image) : Except Error (Fs.Inode × Image) := do
  let inode := { s.1 with doubleInd := UInt32.ofNat c }
  let mm ← writePtrs s.2 (inode.doubleInd.toNat * pageSize) (c + rowSum blocks 2 1) (entry blocks 2 1)
  let mm ← writeLevel blocks size data c 2 mm ((c + rowSum blocks 2 1) * pageSize)
  pure (inode, mm)

/-- The triple indirect part. -/
def writeTriple (s : Fs.Inode × Image) : Except Error (Fs.Inode × Image) := do
  let inode := { s.1 with tripleInd := UInt32.ofNat c }
  let mm ← writePtrs s.2 (inode.tripleInd.toNat * pageSize) (c + rowSum blocks 3 1) (entry blocks 3 1)
  let mm ← writePtrs mm ((c + rowSum blocks 3 1) * pageSize) (c + rowSum blocks 3 2) (entry blocks 3 2)
  let mm ← writeLevel blocks size data c 3 mm ((c + rowSum blocks 3 2) * pageSize)
  pure (inode, mm)

end File

/-- `allocate_file_blocks`.  `current_block` is not advanced behind the triple
indirect part. -/
def allocateFileBlocks (g : Globals) (inode : Fs.Inode) (size : Nat) (data : Nat → UInt8) :
    Except Error (Fs.Inode × Globals) :=
  match filesizeToBlocks size with
  | none => .error .tooLarge
  | some blocks => do
      let level := blocks.length - 1
      let mm ← allocateContiguousBlocks g g.currentBlock (blocks.map List.sum).sum
      let s ← writeDirect blocks size data g.currentBlock (inode, mm)
      let c := g.currentBlock + (blocks.getD 0 []).sum
      if level < 1 then return (s.1, { g with mm := s.2, currentBlock := c })
      let s ← writeSingle blocks size data c s
      let c := c + (blocks.getD 1 []).sum
      if level < 2 then return (s.1, { g with mm := s.2, currentBlock := c })
      let s ← writeDouble blocks size data c s
      let c := c + (blocks.getD 2 []).sum
      if level < 3 then return (s.1, { g with mm := s.2, currentBlock := c })
      let s ← writeTriple blocks size data c s
      return (s.1, { g with mm := s.2, currentBlock := c })

end Mkfs
