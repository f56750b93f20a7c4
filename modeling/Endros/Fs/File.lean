import Endros.Lib.Word
import Endros.Mem

/-!
# Files of the file system

The block device under the file system is taken as a flat array of bytes.
`wrapped_read` and `wrapped_write` check the end of the range, in 64 bits, and a
call that fails the check leaves everything as it is: its result is not looked
at.

The blocks of a file are found through its inode.  `lookup` is the walk of
`translate_fs`.  A block number is a `u32`, so `ADDR` multiplies it by the page
size in 32 bits, and the indices into double and triple indirect blocks are not
multiplied by the size of an entry.  The local `phy_page` is not initialised:
`junk` is what it holds.
-/

namespace Fs

open Lib Mem

/-- A block device, as the file `rootfs.device`. -/
structure Disk where
  bytes : Nat → UInt8
  size : Nat

/-- `DIRECT_PTRS`. -/
def directPtrs : Nat := 25

/-- `PAGESIZE / sizeof(u32)`. -/
def ptrPerPage : Nat := 1024

structure Inode where
  type : UInt32
  permission : UInt32
  sizeBytes : UInt64
  direct : Fin directPtrs → UInt32
  singleInd : UInt32
  doubleInd : UInt32
  tripleInd : UInt32

/-- `inode.direct[i] = v`. -/
def Inode.setDirect (inode : Inode) (i : Nat) (v : UInt32) : Inode :=
  { inode with direct := fun j => if j.val = i then v else inode.direct j }

theorem Inode.setDirect_self {inode : Inode} {i : Nat} {v : UInt32} (h : i < directPtrs) :
    (inode.setDirect i v).direct ⟨i, h⟩ = v :=
  if_pos rfl

theorem Inode.setDirect_of_ne {inode : Inode} {i : Nat} {v : UInt32} {j : Fin directPtrs}
    (h : j.val ≠ i) : (inode.setDirect i v).direct j = inode.direct j :=
  if_neg h

/-- `wrapped_read` of `n` bytes into a buffer, at `pos` of it. -/
def wrappedRead (d : Disk) (off n : Nat) (buffer : Nat → UInt8) (pos : Nat) : Nat → UInt8 :=
  if u64 (off + n) > d.size then buffer else patch buffer pos n fun j => d.bytes (off + j)

/-- `d` with other bytes from `a` on. -/
def Disk.write (d : Disk) (a n : Nat) (g : Nat → UInt8) : Disk :=
  { d with bytes := patch d.bytes a n g }

/-- `wrapped_write` of `n` bytes of a buffer, from `pos` of it on. -/
def wrappedWrite (d : Disk) (off n : Nat) (buffer : Nat → UInt8) (pos : Nat) : Disk :=
  if u64 (off + n) > d.size then d else d.write off n fun j => buffer (pos + j)

/-- `wrapped_read` of a `u32` into a variable that holds `old`. -/
def readPtr (d : Disk) (off : Nat) (old : UInt32) : UInt32 :=
  if u64 (off + 4) > d.size then old else le32 d.bytes off

/-- `ADDR` of a `u32` block number. -/
def addr32 (pn : UInt32) (off : Nat) : Nat := (pn * UInt32.ofNat pageSize).toNat + off

/-- The block of the page `id` of a file. -/
def lookup (d : Disk) (inode : Inode) (junk : UInt32) (id : Nat) : UInt32 :=
  if h : id < directPtrs then inode.direct ⟨id, h⟩
  else if id < directPtrs + ptrPerPage then
    let readId := id - directPtrs
    readPtr d (addr32 inode.singleInd (readId * 4)) junk
  else if id < directPtrs + ptrPerPage + ptrPerPage * ptrPerPage then
    let readId := id - (directPtrs + ptrPerPage)
    let phyPage := readPtr d (addr32 inode.doubleInd (readId / ptrPerPage)) junk
    readPtr d (addr32 phyPage (readId % ptrPerPage)) phyPage
  else
    let readId := id - (directPtrs + ptrPerPage + ptrPerPage * ptrPerPage)
    let phyPage := readPtr d (addr32 inode.tripleInd (readId / ptrPerPage / ptrPerPage)) junk
    let phyPage := readPtr d (addr32 phyPage (readId / ptrPerPage % ptrPerPage)) phyPage
    readPtr d (addr32 phyPage (readId % ptrPerPage)) phyPage

/-- The loop of `translate_fs`, for `n` more pages from `id` on. -/
def translate (inode : Inode) (junk : Nat → UInt32) (write : Bool) :
    Nat → Disk → Nat → (Nat → UInt8) → Nat → Nat → Nat → Disk × (Nat → UInt8)
  | 0, d, _, buffer, _, _, _ => (d, buffer)
  | n + 1, d, id, buffer, pos, pageOffset, pageMax =>
      let tempPage := if pageMax > pageSize then pageSize else pageMax
      let pageMax := if pageMax > pageSize then pageMax - pageSize else pageMax
      let phyPage := lookup d inode (junk id) id
      let len := u64 (tempPage + 2 ^ 64 - pageOffset)
      let r :=
        if write then (wrappedWrite d (addr32 phyPage pageOffset) len buffer pos, buffer)
        else (d, wrappedRead d (addr32 phyPage pageOffset) len buffer pos)
      translate inode junk write n r.1 (id + 1) r.2 (pos + len) 0 pageMax

/-- `translate_fs` once it has the inode. -/
def translateFs (d : Disk) (inode : Inode) (junk : Nat → UInt32) (off : Nat)
    (buffer : Nat → UInt8) (size : Nat) (write : Bool) : Disk × (Nat → UInt8) :=
  translate inode junk write (addr2PageUp (u64 (off + size)) - addr2Page off) d (addr2Page off)
    buffer 0 (offset off) (u64 (offset off + size))

@[simp] theorem Disk.write_bytes (d : Disk) (a n : Nat) (g : Nat → UInt8) :
    (d.write a n g).bytes = patch d.bytes a n g :=
  rfl

@[simp] theorem Disk.write_size (d : Disk) (a n : Nat) (g : Nat → UInt8) :
    (d.write a n g).size = d.size :=
  rfl

/-- A write that passes the check. -/
theorem wrappedWrite_of_le {d : Disk} {off n : Nat} {buffer : Nat → UInt8} (h : off + n ≤ d.size)
    (h64 : d.size < 2 ^ 64) : wrappedWrite d off n buffer 0 = d.write off n buffer := by
  rw [wrappedWrite, u64_of_lt (by omega), if_neg (by omega)]
  simp only [Nat.zero_add]

/-- A byte that passes the check. -/
theorem wrappedRead_byte {d : Disk} {off : Nat} {junk : Nat → UInt8} (h : off < d.size)
    (h64 : d.size < 2 ^ 64) : wrappedRead d off 1 junk 0 0 = d.bytes off := by
  rw [wrappedRead, u64_of_lt (by omega), if_neg (by omega),
    patch_of_mem (Nat.le_refl 0) (by decide), Nat.sub_self, Nat.add_zero]

/-! ## What a read returns -/

theorem addr32_add (pn : UInt32) (off n : Nat) : addr32 pn off + n = addr32 pn (off + n) :=
  Nat.add_assoc ..

theorem addr32_le (pn : UInt32) (off : Nat) : addr32 pn off ≤ pn.toNat * pageSize + off := by
  rw [addr32, UInt32.toNat_mul]
  exact Nat.add_le_add_right (Nat.mod_le ..) off

/-- `ADDR` of a block below `2 ^ 20` is its address. -/
theorem addr32_of_lt {pn : UInt32} (h : pn.toNat < 2 ^ 20) (off : Nat) :
    addr32 pn off = pn.toNat * pageSize + off := by
  rw [addr32, UInt32.toNat_mul]
  have hp : (UInt32.ofNat pageSize).toNat = pageSize := rfl
  rw [hp, Nat.mod_eq_of_lt (by simp only [pageSize]; omega)]

/-- The byte at `y` of a file in a read that ends at `top`: from the disk, unless
the check of `wrapped_read` fails for its page. -/
def readByte (d : Disk) (inode : Inode) (junk : Nat → UInt32) (top y : Nat) (old : UInt8) : UInt8 :=
  let phyPage := lookup d inode (junk (addr2Page y)) (addr2Page y)
  if u64 (addr32 phyPage (min pageSize (top - addr2Page y * pageSize))) > d.size then old
  else d.bytes (addr32 phyPage (offset y))

theorem addr2Page_add {b x : Nat} (h : x < pageSize) : addr2Page (b * pageSize + x) = b := by
  simp only [addr2Page, pageSize] at *
  omega

theorem offset_add {b x : Nat} (h : x < pageSize) : offset (b * pageSize + x) = x := by
  simp only [offset, pageSize] at *
  omega

theorem addr2Page_mul (b : Nat) : addr2Page (b * pageSize) = b := by
  simp only [addr2Page, pageSize]
  omega

theorem offset_mul (b : Nat) : offset (b * pageSize) = 0 := by
  simp only [offset, pageSize]
  omega

/-- The part of one page. -/
theorem wrappedRead_apply {d : Disk} {inode : Inode} {junk : Nat → UInt32}
    {buffer : Nat → UInt8} {id pos po tp x : Nat} (top : Nat) (htp : tp = min pageSize (top - id * pageSize))
    (hpo : po ≤ tp) :
    wrappedRead d (addr32 (lookup d inode (junk id) id) po) (tp - po) buffer pos x =
      if pos ≤ x ∧ x < pos + (tp - po) then
        readByte d inode junk top (id * pageSize + po + (x - pos)) (buffer x)
      else buffer x := by
  rw [wrappedRead, addr32_add, Nat.add_sub_cancel' hpo]
  by_cases hx : pos ≤ x ∧ x < pos + (tp - po)
  · have hlt : po + (x - pos) < pageSize := by omega
    rw [if_pos hx, readByte, Nat.add_assoc, addr2Page_add hlt, offset_add hlt, ← htp]
    split
    · rfl
    · rw [patch_of_mem hx.1 hx.2, addr32_add]
  · rw [if_neg hx]
    split
    · rfl
    · rw [patch, if_neg hx]

/-- What the loop of `translate_fs` reads. -/
theorem translate_read {d : Disk} {inode : Inode} {junk : Nat → UInt32} {buffer : Nat → UInt8}
    {n id pos po pageMax : Nat} (hpo : po ≤ pageMax) (hlt : po < pageSize)
    (hmax : pageMax ≤ n * pageSize) (hmin : n * pageSize < pageMax + pageSize) (x : Nat) :
    (translate inode junk false n d id buffer pos po pageMax).2 x =
      if pos ≤ x ∧ x < pos + (pageMax - po) then
        readByte d inode junk (id * pageSize + pageMax) (id * pageSize + po + (x - pos)) (buffer x)
      else buffer x := by
  induction n generalizing id buffer pos po pageMax with
  | zero => rw [if_neg (by omega)]; rfl
  | succ n ih =>
      have hlen : ∀ {t : Nat}, po ≤ t → t ≤ pageSize → u64 (t + 2 ^ 64 - po) = t - po := by
        intro t h₁ h₂
        simp only [u64, pageSize] at *
        omega
      rw [translate]
      by_cases hbig : pageMax > pageSize
      · simp only [if_pos hbig, Bool.false_eq_true, if_false]
        rw [hlen (Nat.le_of_lt hlt) (Nat.le_refl _),
          ih (Nat.zero_le _) (by decide) (by rw [Nat.add_mul] at hmax; omega)
            (by rw [Nat.add_mul] at hmin; omega),
          wrappedRead_apply (id * pageSize + pageMax) (by omega) (Nat.le_of_lt hlt)]
        have htop : (id + 1) * pageSize + (pageMax - pageSize) = id * pageSize + pageMax := by
          rw [Nat.add_mul]; omega
        rw [htop]
        by_cases h₁ : pos ≤ x ∧ x < pos + (pageSize - po)
        · rw [if_neg (by omega), if_pos h₁, if_pos (by omega)]
        · rw [if_neg h₁]
          by_cases h₂ : pos ≤ x ∧ x < pos + (pageMax - po)
          · have hy : (id + 1) * pageSize + 0 + (x - (pos + (pageSize - po))) =
                id * pageSize + po + (x - pos) := by
              rw [Nat.add_mul]; omega
            rw [if_pos (by omega), if_pos h₂, hy]
          · rw [if_neg (by omega), if_neg h₂]
      · obtain rfl : n = 0 := by
          rcases Nat.eq_zero_or_pos n with hn | hn
          · exact hn
          · have : pageSize ≤ n * pageSize := Nat.le_mul_of_pos_left _ hn
            rw [Nat.add_mul] at hmin
            omega
        simp only [if_neg hbig, Bool.false_eq_true, if_false, translate]
        rw [hlen hpo (by omega)]
        exact wrappedRead_apply _ (by omega) hpo

/-- What `translate_fs` reads, byte by byte. -/
theorem translateFs_read {d : Disk} {inode : Inode} {junk : Nat → UInt32} {off size : Nat}
    {buffer : Nat → UInt8} (hlt : off + size < 2 ^ 64) {x : Nat} (hx : x < size) :
    (translateFs d inode junk off buffer size false).2 x =
      readByte d inode junk (off + size) (off + x) (buffer x) := by
  have hoff := addr2Page_add_offset off
  have hup := le_addr2PageUp (off + size)
  have hup' := addr2PageUp_lt (off + size)
  have hn : (addr2PageUp (off + size) - addr2Page off) * pageSize =
      addr2PageUp (off + size) * pageSize - addr2Page off * pageSize := Nat.sub_mul ..
  rw [translateFs, u64_of_lt hlt, u64_of_lt (by omega),
    translate_read (Nat.le_add_right ..) (offset_lt off) (by omega) (by omega),
    if_pos ⟨Nat.zero_le _, by omega⟩, hoff, ← Nat.add_assoc, hoff, Nat.sub_zero]

end Fs
