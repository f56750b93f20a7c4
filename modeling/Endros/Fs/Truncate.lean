import Endros.Fs.Inode
import Endros.Lib.Loop

/-!
# `fs_file_truncate`

A file grows page by page.  Index blocks are allocated when their first entry
is needed, and the inode is written at the end.  The locals `block_2nd` and
`block_3rd` are not initialised and keep their values from page to page.  They
are 64-bit, so an address made of them does not wrap at `2 ^ 32`, and a
`wrapped_read` into one of them replaces its low half.  A failed allocation
returns `-1` with the disk as it is then.

The loop that shrinks a file counts down in 64 bits, and with no page left it
does not end: `fsFileTruncate` is `none` then.
-/

namespace Fs

open Lib Mem

/-- `ADDR` of a 64-bit block number. -/
def addr64 (pn : UInt64) (off : Nat) : Nat := u64 (pn.toNat * pageSize + off)

/-- `wrapped_write` of a `u32`. -/
def writePtr (d : Disk) (off : Nat) (v : UInt32) : Disk := wrappedWrite d off 4 (bytes32 v) 0

/-- `wrapped_read` of four bytes into a 64-bit variable that holds `old`. -/
def readLow (d : Disk) (off : Nat) (old : UInt64) : UInt64 :=
  UInt64.ofNat (old.toNat / 2 ^ 32 * 2 ^ 32 + (readPtr d off (UInt32.ofNat old.toNat)).toNat)

theorem readPtr_of_le {d : Disk} {off : Nat} {old : UInt32} (h : off + 4 ≤ d.size)
    (h64 : d.size < 2 ^ 64) : readPtr d off old = le32 d.bytes off := by
  rw [readPtr, u64_of_lt (by omega), if_neg (by omega)]

theorem writePtr_of_le {d : Disk} {off : Nat} {v : UInt32} (h : off + 4 ≤ d.size)
    (h64 : d.size < 2 ^ 64) : writePtr d off v = d.write off 4 (bytes32 v) :=
  wrappedWrite_of_le h h64

/-- A pointer that was written is read back. -/
theorem readPtr_writePtr {d : Disk} {off : Nat} {v old : UInt32} (h : off + 4 ≤ d.size)
    (h64 : d.size < 2 ^ 64) : readPtr (writePtr d off v) off old = v := by
  rw [writePtr_of_le h h64, readPtr_of_le (d := d.write off 4 (bytes32 v)) h h64]
  exact le32_patch_self

theorem readPtr_writePtr_disjoint {d : Disk} {off a : Nat} {v old : UInt32}
    (h : off + 4 ≤ d.size) (h64 : d.size < 2 ^ 64) (ha : a + 4 ≤ off ∨ off + 4 ≤ a) :
    readPtr (writePtr d off v) a old = readPtr d a old := by
  rw [writePtr_of_le h h64, readPtr, readPtr, Disk.write_size, Disk.write_bytes,
    le32_patch_disjoint ha]

/-! ## Growing -/

/-- What the loop that grows a file works on. -/
structure GrowState where
  disk : Disk
  inode : Inode
  block2nd : UInt64
  block3rd : UInt64

namespace GrowState

variable (fs : Filesystem)

/-- `allocate_block` or a return of `-1`. -/
def allocate (s : GrowState) : Except Disk (Nat × GrowState) :=
  match allocateBlock fs s.disk with
  | none => .error s.disk
  | some (b, disk) => .ok (b, { s with disk })

theorem allocate_eq {fs : Filesystem} {s : GrowState} {b : Nat} {d : Disk}
    (h : allocateBlock fs s.disk = some (b, d)) : s.allocate fs = .ok (b, { s with disk := d }) := by
  rw [allocate, h]

def writePtr (s : GrowState) (off : Nat) (v : Nat) : GrowState :=
  { s with disk := Fs.writePtr s.disk off (UInt32.ofNat v) }

/-- Allocate a block and store it with `f`, if it is needed. -/
def allocateIf (c : Bool) (f : Nat → GrowState → GrowState) (s : GrowState) :
    Except Disk GrowState :=
  if c then do
    let (b, s) ← s.allocate fs
    .ok (f b s)
  else .ok s

def setSingle (b : Nat) (s : GrowState) : GrowState :=
  { s with inode := { s.inode with singleInd := UInt32.ofNat b } }

def setDouble (b : Nat) (s : GrowState) : GrowState :=
  { s with inode := { s.inode with doubleInd := UInt32.ofNat b } }

def setTriple (b : Nat) (s : GrowState) : GrowState :=
  { s with inode := { s.inode with tripleInd := UInt32.ofNat b } }

/-- A new second level block, its pointer at `off`. -/
def setSecond (off : Nat) (b : Nat) (s : GrowState) : GrowState :=
  { s with block2nd := UInt64.ofNat b }.writePtr off b

/-- A new third level block, its pointer at `off`. -/
def setThird (off : Nat) (b : Nat) (s : GrowState) : GrowState :=
  { s with block3rd := UInt64.ofNat b }.writePtr off b

/-- `if (!block_2nd) wrapped_read(.., &block_2nd, ..)`. -/
def readSecond (s : GrowState) (off : Nat) : GrowState :=
  if s.block2nd = 0 then { s with block2nd := readLow s.disk off s.block2nd } else s

/-- `if (!block_3rd) wrapped_read(.., &block_3rd, ..)`. -/
def readThird (s : GrowState) (off : Nat) : GrowState :=
  if s.block3rd = 0 then { s with block3rd := readLow s.disk off s.block3rd } else s

def growDirect (page : Nat) (s : GrowState) : Except Disk GrowState := do
  let (t, s) ← s.allocate fs
  .ok { s with inode := s.inode.setDirect page (UInt32.ofNat t) }

def growSingle (id : Nat) (s : GrowState) : Except Disk GrowState := do
  let s ← s.allocateIf fs (id == 0) setSingle
  let (t, s) ← s.allocate fs
  .ok (s.writePtr (addr32 s.inode.singleInd (id * 4)) t)

def growDouble (id : Nat) (s : GrowState) : Except Disk GrowState := do
  let s ← s.allocateIf fs (id == 0) setDouble
  let off := addr32 s.inode.doubleInd (id / ptrPerPage)
  let s ← s.allocateIf fs (id % ptrPerPage == 0) (setSecond off)
  let s := s.readSecond off
  let (t, s) ← s.allocate fs
  .ok (s.writePtr (addr64 s.block2nd (id % ptrPerPage)) t)

def growTriple (id : Nat) (s : GrowState) : Except Disk GrowState := do
  let s ← s.allocateIf fs (id == 0) setTriple
  let off := addr32 s.inode.tripleInd (id / ptrPerPage / ptrPerPage)
  let s ← s.allocateIf fs (id % (ptrPerPage * ptrPerPage) == 0) (setSecond off)
  let s := s.readSecond off
  let off := addr64 s.block2nd (id / ptrPerPage % ptrPerPage)
  let s ← s.allocateIf fs (id % ptrPerPage == 0) (setThird off)
  let s := s.readThird off
  let (t, s) ← s.allocate fs
  .ok (s.writePtr (addr64 s.block3rd (id % ptrPerPage)) t)

/-- The body of the loop, for the page `page`. -/
def growPage (page : Nat) (s : GrowState) : Except Disk GrowState :=
  if page < directPtrs then growDirect fs page s
  else if page < directPtrs + ptrPerPage then growSingle fs (page - directPtrs) s
  else if page < directPtrs + ptrPerPage + ptrPerPage * ptrPerPage then
    growDouble fs (page - (directPtrs + ptrPerPage)) s
  else growTriple fs (page - (directPtrs + ptrPerPage + ptrPerPage * ptrPerPage)) s

/-- The loop from the page `oldPages` on. -/
def grow (oldPages newPages : Nat) (s : GrowState) : Except Disk GrowState :=
  loop (fun i => growPage fs (oldPages + i)) (newPages - oldPages) s

end GrowState

/-! ## Shrinking -/

/-- The locals of the loop that shrinks a file, and of `free_block`. -/
structure ShrinkLocals where
  block2nd : UInt32
  block3rd : UInt32
  tempBlock : UInt32
  buf : UInt8

section Shrink

variable (fs : Filesystem) (inode : Inode)

/-- `free_block` if it is needed. -/
def freeBlockIf (junk : UInt8) (c : Bool) (block : UInt32) (d : Disk) : Disk :=
  if c then (freeBlock fs d junk block.toNat).1 else d

/-- The body of the loop, for the page `id`. -/
def freePage (u : ShrinkLocals) (id : Nat) (d : Disk) : Disk :=
  if h : id < directPtrs then freeBlockIf fs u.buf true (inode.direct ⟨id, h⟩) d
  else if id < directPtrs + ptrPerPage then
    let readId := id - directPtrs
    let tempBlock := readPtr d (addr32 inode.singleInd (readId * 4)) u.tempBlock
    let d := freeBlockIf fs u.buf true tempBlock d
    freeBlockIf fs u.buf (readId == 0) inode.singleInd d
  else if id < directPtrs + ptrPerPage + ptrPerPage * ptrPerPage then
    let readId := id - (directPtrs + ptrPerPage)
    let block2nd := readPtr d (addr32 inode.doubleInd (readId / ptrPerPage)) u.block2nd
    let tempBlock := readPtr d (addr32 block2nd (readId % ptrPerPage)) u.tempBlock
    let d := freeBlockIf fs u.buf true tempBlock d
    let d := freeBlockIf fs u.buf (readId % ptrPerPage == 0) block2nd d
    freeBlockIf fs u.buf (readId == 0) inode.doubleInd d
  else
    let readId := id - (directPtrs + ptrPerPage + ptrPerPage * ptrPerPage)
    let block2nd := readPtr d (addr32 inode.tripleInd (readId / ptrPerPage / ptrPerPage)) u.block2nd
    let block3rd := readPtr d (addr32 block2nd (readId / ptrPerPage % ptrPerPage)) u.block3rd
    let tempBlock := readPtr d (addr32 block3rd (readId % ptrPerPage)) u.tempBlock
    let d := freeBlockIf fs u.buf true tempBlock d
    let d := freeBlockIf fs u.buf (readId % ptrPerPage == 0) block3rd d
    let d := freeBlockIf fs u.buf (readId % (ptrPerPage * ptrPerPage) == 0) block2nd d
    freeBlockIf fs u.buf (readId == 0) inode.tripleInd d

/-- The loop from the page `id` down to `newPages`, for at most `fuel` tests of
its condition. -/
def shrink (u : Nat → ShrinkLocals) (newPages : Nat) : Nat → Nat → Disk → Option Disk
  | 0, _, _ => none
  | fuel + 1, id, d =>
      if id ≥ newPages then
        shrink u newPages fuel (u64 (id + 2 ^ 64 - 1)) (freePage fs inode (u id) id d)
      else some d

end Shrink

/-- The uninitialised locals of `fs_file_truncate`. -/
structure TruncateLocals extends Uninit where
  block2nd : UInt64
  block3rd : UInt64
  shrink : Nat → ShrinkLocals

/-- `fs_file_truncate` behind the test for a change. -/
def truncatePages (fs : Filesystem) (d : Disk) (u : TruncateLocals) (inum : Nat) (newsize : UInt64)
    (inode : Inode) (oldPages newPages : Nat) : Option (Int × Disk) :=
  if oldPages < newPages then
    match GrowState.grow fs oldPages newPages ⟨d, inode, u.block2nd, u.block3rd⟩ with
    | .error d => some (-1, d)
    | .ok s => some (0, fsFileSync fs s.disk inum { s.inode with sizeBytes := newsize })
  else if oldPages > newPages then
    (shrink fs inode u.shrink newPages (oldPages + 1) (oldPages - 1) d).map fun d =>
      (0, fsFileSync fs d inum { inode with sizeBytes := newsize })
  else some (0, fsFileSync fs d inum { inode with sizeBytes := newsize })

/-- `fs_file_truncate` once it has the inode. -/
def truncateInode (fs : Filesystem) (d : Disk) (u : TruncateLocals) (inum : Nat) (newsize : UInt64)
    (inode : Inode) : Option (Int × Disk) :=
  if inode.sizeBytes = newsize then some (0, d)
  else
    truncatePages fs d u inum newsize inode (addr2PageUp inode.sizeBytes.toNat)
      (addr2PageUp newsize.toNat)

/-- `fs_file_truncate`, with its result. -/
def fsFileTruncate (fs : Filesystem) (d : Disk) (u : TruncateLocals) (inum : Nat)
    (newsize : UInt64) : Option (Int × Disk) :=
  truncateInode fs d u inum newsize (getInode fs d u.toUninit inum).1

end Fs
