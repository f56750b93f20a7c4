import Mathlib.Logic.Function.Basic
import Endros.Lib.Patch
import Endros.Mem

/-!
# The buffered block device

`block_device.c` keeps up to `CACHE_BLOCKS` disk blocks in memory.  The buffers
are slots of `buffer_list`, linked in the order of their last use from
`buffer_head`, and a buffer is named by its slot.  The page of a buffer comes
from `dmalloc` and is never given back: `Host` has the frames it hands out, all
different, and what the device does on a read that fails.

A transfer copies the 4096 bytes at a sector of the disk to a page, or back.
`translateBytes` returns `none` where the source dereferences a null pointer,
follows a cyclic list for ever, or copies a negative number of bytes.
-/

namespace Block

open Lib Mem

/-- `CACHE_BLOCKS`. -/
def cacheBlocks : Nat := 64

/-- `SECTOR_SIZE`. -/
def sectorSize : Nat := 512

structure BlockBuffer where
  valid : Bool
  dirty : Bool
  blockId : Nat
  vpn : Nat
  pfn : Nat
  next : Option Nat

structure BufferedBlockDevice where
  bufferHead : Option Nat
  cacheSize : Nat
  bufferList : Nat → BlockBuffer

/-- What surrounds the cache: the page that the `n`-th `dmalloc` returns, and
what the `n`-th read leaves in a page if it fails. -/
structure Host where
  vpn : Nat → Nat
  pfn : Nat → Nat
  fault : Nat → Option (Nat → UInt8)
  vpn_inj : ∀ m n, vpn m = vpn n → m = n

structure State where
  dev : BufferedBlockDevice
  /-- The bytes of a page, by its kernel page number. -/
  mem : Nat → Nat → UInt8
  /-- The bytes of the disk. -/
  disk : Nat → UInt8
  /-- How many reads the device has served. -/
  reads : Nat

namespace State

/-- Change a buffer. -/
def modify (s : State) (i : Nat) (f : BlockBuffer → BlockBuffer) : State :=
  { s with dev.bufferList := Function.update s.dev.bufferList i (f (s.dev.bufferList i)) }

def setHead (s : State) (h : Option Nat) : State := { s with dev.bufferHead := h }

def buf (s : State) (i : Nat) : BlockBuffer := s.dev.bufferList i

/-- The page of a buffer. -/
def page (s : State) (i : Nat) : Nat → UInt8 := s.mem (s.buf i).vpn

def setPage (s : State) (i : Nat) (p : Nat → UInt8) : State :=
  { s with mem := Function.update s.mem (s.buf i).vpn p }

end State

/-- `write_block` of the buffer `i`. -/
def writeBlock (s : State) (i : Nat) : State :=
  { s with
    disk := patch s.disk (sectorSize * ((s.buf i).blockId * (pageSize / sectorSize))) pageSize
      (s.page i) }

/-- `read_block` of a block into the buffer `i`, and whether it returned `0`. -/
def readBlock (H : Host) (s : State) (i blockId : Nat) : State × Bool :=
  match H.fault s.reads with
  | none =>
      ({ s.setPage i (patch (s.page i) 0 pageSize fun j =>
          s.disk (sectorSize * (blockId * (pageSize / sectorSize)) + j)) with reads := s.reads + 1 },
        true)
  | some junk => ({ s.setPage i (patch (s.page i) 0 pageSize junk) with reads := s.reads + 1 }, false)

/-! ## `get_block_buffer` -/

inductive Found where
  | hit (prev : Option Nat) (ptr : Nat)
  | miss (prev ptr : Option Nat)

/-- The search loop, from `ptr` with its predecessor. -/
def find (bufferList : Nat → BlockBuffer) (blockId : Nat) :
    Nat → Option Nat → Option Nat → Option Found
  | 0, _, _ => none
  | _ + 1, prev, none => some (.miss prev none)
  | fuel + 1, prev, some i =>
      if (bufferList i).blockId = blockId then some (.hit prev i)
      else
        match (bufferList i).next with
        | none => some (.miss prev (some i))
        | some j => find bufferList blockId fuel (some i) (some j)

/-- A hit becomes the head of the list. -/
def touch (s : State) (prev : Option Nat) (i : Nat) : State :=
  match prev with
  | none => s
  | some p =>
      let s := s.modify p fun b => { b with next := (s.buf i).next }
      let s := s.modify i fun b => { b with next := s.dev.bufferHead }
      s.setHead (some i)

/-- A new buffer at the head of the list. -/
def addBuffer (H : Host) (s : State) (blockId : Nat) : State :=
  let i := s.dev.cacheSize
  { s with
    dev :=
      { bufferHead := some i
        cacheSize := i + 1
        bufferList := Function.update s.dev.bufferList i
          { valid := false, dirty := false, blockId, vpn := H.vpn i, pfn := H.pfn i,
            next := s.dev.bufferHead } } }

/-- The last buffer becomes the head.  Its label and its flags stay. -/
def evict (s : State) (prev i : Nat) : State :=
  let s := if (s.buf i).valid ∧ (s.buf i).dirty then writeBlock s i else s
  let s := s.modify i fun b => { b with next := s.dev.bufferHead }
  let s := s.modify prev fun b => { b with next := none }
  s.setHead (some i)

def getBlockBuffer (H : Host) (s : State) (blockId : Nat) : Option (State × Nat) :=
  match find s.dev.bufferList blockId (cacheBlocks + 1) none s.dev.bufferHead with
  | none => none
  | some (.hit prev i) => some (touch s prev i, i)
  | some (.miss prev ptr) =>
      if s.dev.cacheSize < cacheBlocks then some (addBuffer H s blockId, s.dev.cacheSize)
      else
        match prev, ptr with
        | some p, some i => some (evict s p i, i)
        | _, _ => none

/-! ## `translate_bytes` -/

/-- `valid = true` if the read returned `0`. -/
def load (H : Host) (s : State) (i blockId : Nat) : State :=
  let r := readBlock H s i blockId
  if r.2 then r.1.modify i fun b => { b with valid := true } else r.1

/-- The part `[pageOffset, tempPage)` of a block goes from the buffer, or to it
from `pos` on. -/
def transfer (H : Host) (s : State) (i blockId : Nat) (buffer : Nat → UInt8)
    (pos pageOffset tempPage : Nat) (write : Bool) : State × (Nat → UInt8) :=
  if write then
    let s :=
      if (s.buf i).valid = false ∧ (pageOffset ≠ 0 ∨ tempPage ≠ pageSize) then load H s i blockId
      else s
    let s := s.modify i fun b => { b with dirty := true }
    (s.setPage i (patch (s.page i) pageOffset (tempPage - pageOffset) fun j => buffer (pos + j)),
      buffer)
  else
    let s := if (s.buf i).valid = false then load H s i blockId else s
    (s, patch buffer pos (tempPage - pageOffset) fun j => s.page i (pageOffset + j))

/-- The loop of `translate_bytes`, for `n` more blocks from `blockId` on. -/
def translate (H : Host) (write : Bool) : Nat → State → Nat → (Nat → UInt8) → Nat → Nat → Nat →
    Option (State × (Nat → UInt8))
  | 0, s, _, buffer, _, _, _ => some (s, buffer)
  | n + 1, s, blockId, buffer, pos, pageOffset, pageMax =>
      let tempPage := if pageMax > pageSize then pageSize else pageMax
      let pageMax := if pageMax > pageSize then pageMax - pageSize else pageMax
      match getBlockBuffer H s blockId with
      | none => none
      | some (s, i) =>
          if tempPage < pageOffset then none
          else
            let r := transfer H s i blockId buffer pos pageOffset tempPage write
            translate H write n r.1 (blockId + 1) r.2 (pos + (tempPage - pageOffset)) 0 pageMax

def translateBytes (H : Host) (s : State) (off : Nat) (buffer : Nat → UInt8) (size : Nat)
    (write : Bool) : Option (State × (Nat → UInt8)) :=
  translate H write (addr2PageUp (u64 (off + size)) - addr2Page off) s (addr2Page off) buffer 0
    (offset off) (u64 (offset off + size))

/-- `read_bytes`, with the buffer it fills. -/
def readBytes (H : Host) (s : State) (off : Nat) (buffer : Nat → UInt8) (size : Nat) :
    Option (State × (Nat → UInt8)) :=
  translateBytes H s off buffer size false

def writeBytes (H : Host) (s : State) (off : Nat) (buffer : Nat → UInt8) (size : Nat) :
    Option State :=
  (translateBytes H s off buffer size true).map (·.1)

/-! ## `sync_filesystem` -/

/-- The flush loop from `ptr` on. -/
def flush : Nat → State → Option Nat → Option State
  | _, s, none => some s
  | 0, _, some _ => none
  | fuel + 1, s, some i =>
      flush fuel (if (s.buf i).valid ∧ (s.buf i).dirty then writeBlock s i else s) (s.buf i).next

def syncFilesystem (s : State) : Option State := flush cacheBlocks s s.dev.bufferHead

/-- The state `wrap_virtio_blk_device` leaves. -/
def start (disk : Nat → UInt8) (mem : Nat → Nat → UInt8) : State :=
  { dev :=
      { bufferHead := none, cacheSize := 0,
        bufferList := fun _ => ⟨false, false, 0, 0, 0, none⟩ }
    mem, disk, reads := 0 }

end Block
