import Endros.Fs.File
import Mathlib.Data.Nat.Count

/-!
# The data bitmap

A file system is its super block.  The fields that a mounted file system relies
on come with it: the metadata blocks are on the disk, the data bitmap has a bit
for every block and the inode bitmap one for every inode of the table.

`allocate_block` looks for the first clear bit, byte by byte.  It reads and
writes the bytes of the bitmap without the check of `wrapped_read`.  The last
byte may have bits for blocks beyond `size_blocks`, and the search includes
them.  `allocateBlock_cases` says what it does in terms of `marked`, and
`freeBelow` counts what is left.  `allocate_inode` is the same search in the
inode bitmap, and goes as far.
-/

namespace Fs

open Lib Mem

/-- `Filesystem`, with the parts of its `SuperBlock` that are used. -/
structure Filesystem where
  inodeBitmapBlocks : UInt32
  dataBitmapBlocks : UInt32
  inodeTableBlocks : UInt32
  sizeBlocks : UInt32
  metadata : 1 + inodeBitmapBlocks.toNat + dataBitmapBlocks.toNat + inodeTableBlocks.toNat ≤
    sizeBlocks.toNat
  bitmap : sizeBlocks.toNat ≤ dataBitmapBlocks.toNat * (8 * pageSize)
  inodes : inodeTableBlocks.toNat * 32 ≤ inodeBitmapBlocks.toNat * (8 * pageSize)

namespace Filesystem

variable (fs : Filesystem)

/-- `inode_bitmap_offset`, in blocks. -/
def inodeBitmapOffset : Nat := 1

def dataBitmapOffset : Nat := (1 + fs.inodeBitmapBlocks).toNat

def inodeTableOffset : Nat := (1 + fs.inodeBitmapBlocks + fs.dataBitmapBlocks).toNat

/-- The first block behind the metadata. -/
def dataStart : Nat :=
  1 + fs.inodeBitmapBlocks.toNat + fs.dataBitmapBlocks.toNat + fs.inodeTableBlocks.toNat

theorem dataBitmapOffset_eq : fs.dataBitmapOffset = 1 + fs.inodeBitmapBlocks.toNat := by
  have h := fs.metadata
  have hs := fs.sizeBlocks.toNat_lt
  rw [dataBitmapOffset, UInt32.toNat_add]
  exact Nat.mod_eq_of_lt (by rw [show (1 : UInt32).toNat = 1 from rfl]; omega)

theorem inodeTableOffset_eq :
    fs.inodeTableOffset = 1 + fs.inodeBitmapBlocks.toNat + fs.dataBitmapBlocks.toNat := by
  have h := fs.metadata
  have hs := fs.sizeBlocks.toNat_lt
  have hd := fs.dataBitmapOffset_eq
  rw [dataBitmapOffset] at hd
  rw [inodeTableOffset, UInt32.toNat_add, hd]
  exact Nat.mod_eq_of_lt (by omega)

/-- The number of bytes `allocate_block` searches. -/
def bitmapBytes : Nat := fs.sizeBlocks.toNat / 8 + if fs.sizeBlocks.toNat % 8 ≠ 0 then 1 else 0

theorem le_bitmapBytes : fs.sizeBlocks.toNat ≤ 8 * fs.bitmapBytes := by
  rw [bitmapBytes]
  split <;> omega

theorem bitmapBytes_le : fs.bitmapBytes ≤ fs.dataBitmapBlocks.toNat * pageSize := by
  have h := fs.bitmap
  have hm : fs.dataBitmapBlocks.toNat * (8 * pageSize) =
      8 * (fs.dataBitmapBlocks.toNat * pageSize) := Nat.mul_left_comm ..
  rw [bitmapBytes]
  split <;> omega

end Filesystem

/-! ## Bits of a byte -/

/-- `BITMAP_GET`. -/
def bitmapGet (byte : UInt8) (x : Nat) : Bool := byte.toNat.testBit (x % 8)

/-- `BITMAP_SET`. -/
def bitmapSet (byte : UInt8) (x : Nat) : UInt8 := byte ||| 1 <<< UInt8.ofNat (x % 8)

/-- `BITMAP_CLEAR`. -/
def bitmapClear (byte : UInt8) (x : Nat) : UInt8 := byte &&& ~~~ (1 <<< UInt8.ofNat (x % 8))

theorem one_shiftLeft_toNat (x : Nat) :
    ((1 : UInt8) <<< UInt8.ofNat (x % 8)).toNat = 2 ^ (x % 8) := by
  have hx : x % 8 < 8 := Nat.mod_lt _ (by decide)
  generalize x % 8 = k at hx
  match k, hx with
  | 0, _ | 1, _ | 2, _ | 3, _ | 4, _ | 5, _ | 6, _ | 7, _ => rfl

theorem bitmapGet_set (byte : UInt8) (x y : Nat) :
    bitmapGet (bitmapSet byte x) y = (decide (x % 8 = y % 8) || bitmapGet byte y) := by
  rw [bitmapGet, bitmapSet, UInt8.toNat_or, Nat.testBit_or, one_shiftLeft_toNat,
    Nat.testBit_two_pow, Bool.or_comm]
  rfl

/-! ## `allocate_block` -/

/-- The address of the byte with the bit of a block. -/
def bitmapByte (fs : Filesystem) (b : Nat) : Nat := fs.dataBitmapOffset * pageSize + b / 8

/-- The block is marked in the data bitmap. -/
def marked (fs : Filesystem) (d : Disk) (b : Nat) : Bool :=
  bitmapGet (d.bytes (bitmapByte fs b)) b

/-- `d` with another byte at `a`. -/
def Disk.setByte (d : Disk) (a : Nat) (v : UInt8) : Disk := d.write a 1 fun _ => v

/-- The loops of `allocate_block`, over `n` more bytes from `offset` on: the
offset and the bit. -/
def scanBitmap (fs : Filesystem) (d : Disk) : Nat → Nat → Option (Nat × Nat)
  | 0, _ => none
  | n + 1, offset =>
      let buf := d.bytes (fs.dataBitmapOffset * pageSize + offset)
      if buf = 0xff then scanBitmap fs d n (offset + 1)
      else
        match (List.range 8).find? fun bit => !bitmapGet buf bit with
        | none => scanBitmap fs d n (offset + 1)
        | some bit => some (offset, bit)

/-- `allocate_block`: the block and the disk, or `none` for `-1`. -/
def allocateBlock (fs : Filesystem) (d : Disk) : Option (Nat × Disk) :=
  (scanBitmap fs d fs.bitmapBytes 0).map fun (offset, bit) =>
    let a := fs.dataBitmapOffset * pageSize + offset
    (offset <<< 3 ||| bit % 8, d.setByte a (bitmapSet (d.bytes a) bit))

/-- `free_block`, with its result. -/
def freeBlock (fs : Filesystem) (d : Disk) (junk : UInt8) (block : Nat) : Disk × Int :=
  let a := fs.dataBitmapOffset * pageSize + block / 8
  let buf := wrappedRead d a 1 (fun _ => junk) 0 0
  if bitmapGet buf block then (wrappedWrite d a 1 (fun _ => bitmapClear buf block) 0, 0)
  else (d, -1)

theorem bitmapGet_full (i : Nat) : bitmapGet 0xff i = true := by
  have hx : i % 8 < 8 := Nat.mod_lt _ (by decide)
  rw [bitmapGet]
  generalize i % 8 = k at hx
  match k, hx with
  | 0, _ | 1, _ | 2, _ | 3, _ | 4, _ | 5, _ | 6, _ | 7, _ => rfl

theorem setByte_of_ne {d : Disk} {a x : Nat} {v : UInt8} (h : x ≠ a) :
    (d.setByte a v).bytes x = d.bytes x := by
  show patch d.bytes a 1 (fun _ => v) x = d.bytes x
  rcases Nat.lt_or_gt_of_ne h with h | h
  · exact patch_of_lt h
  · exact patch_of_ge h

theorem setByte_self {d : Disk} {a : Nat} {v : UInt8} : (d.setByte a v).bytes a = v := by
  show patch d.bytes a 1 (fun _ => v) a = v
  exact patch_of_mem (Nat.le_refl a) (Nat.lt_succ_self a)

/-! ## The first clear bit

`allocate_block` and `allocate_inode` are the same search, over the bytes from
another address on. -/

/-- A bit of the bitmap at `base`. -/
def bitAt (d : Disk) (base b : Nat) : Bool := bitmapGet (d.bytes (base + b / 8)) b

/-- The two loops of the search, over `n` more bytes from `offset` on. -/
def scanBytes (d : Disk) (base : Nat) : Nat → Nat → Option (Nat × Nat)
  | 0, _ => none
  | n + 1, offset =>
      let buf := d.bytes (base + offset)
      if buf = 0xff then scanBytes d base n (offset + 1)
      else
        match (List.range 8).find? fun bit => !bitmapGet buf bit with
        | none => scanBytes d base n (offset + 1)
        | some bit => some (offset, bit)

/-- Search `n` bytes and set the bit that is found. -/
def allocateBit (d : Disk) (base n : Nat) : Option (Nat × Disk) :=
  (scanBytes d base n 0).map fun (offset, bit) =>
    let a := base + offset
    (offset <<< 3 ||| bit % 8, d.setByte a (bitmapSet (d.bytes a) bit))

section FirstBit

variable {d : Disk} {base : Nat}

theorem bitAt_eq {offset bit : Nat} (h : bit < 8) :
    bitAt d base (offset * 8 + bit) = bitmapGet (d.bytes (base + offset)) bit := by
  have hdiv : (offset * 8 + bit) / 8 = offset := by omega
  have hmod : (offset * 8 + bit) % 8 = bit % 8 := by omega
  rw [bitAt, hdiv, bitmapGet, bitmapGet, hmod]

/-- A byte the search leaves has no clear bit. -/
theorem bitAt_of_skipped {offset : Nat}
    (h : d.bytes (base + offset) = 0xff ∨
      ((List.range 8).find? fun bit => !bitmapGet (d.bytes (base + offset)) bit) = none)
    {b : Nat} (hb : b / 8 = offset) : bitAt d base b = true := by
  have heq : b = offset * 8 + b % 8 := by omega
  have hlt : b % 8 < 8 := Nat.mod_lt _ (by decide)
  rw [heq, bitAt_eq hlt]
  rcases h with h | h
  · rw [h]
    exact bitmapGet_full _
  · have := List.find?_eq_none.mp h (b % 8) (List.mem_range.mpr hlt)
    simpa using this

/-- The result of a search of the bits below `top`. -/
def ScanResult (d : Disk) (base top : Nat) : Option (Nat × Nat) → Prop
  | none => ∀ b, b < top * 8 → bitAt d base b = true
  | some (o, bit) => bit < 8 ∧ o < top ∧ bitAt d base (o * 8 + bit) = false ∧
      ∀ b, b < o * 8 + bit → bitAt d base b = true

/-- What the search finds is the first clear bit. -/
theorem scanBytes_spec {n : Nat} (offset : Nat)
    (h : ∀ b, b < offset * 8 → bitAt d base b = true) :
    ScanResult d base (offset + n) (scanBytes d base n offset) := by
  induction n generalizing offset with
  | zero => exact h
  | succ n ih =>
      have hskip : (∀ b, b / 8 = offset → bitAt d base b = true) →
          ∀ b, b < (offset + 1) * 8 → bitAt d base b = true := by
        intro hs b hb
        by_cases hlt : b < offset * 8
        · exact h b hlt
        · exact hs b (by omega)
      rw [scanBytes, show offset + (n + 1) = offset + 1 + n by omega]
      by_cases hff : d.bytes (base + offset) = 0xff
      · rw [if_pos hff]
        exact ih _ (hskip fun b hb => bitAt_of_skipped (.inl hff) hb)
      · rw [if_neg hff]
        cases hf : (List.range 8).find? fun bit => !bitmapGet (d.bytes (base + offset)) bit with
        | none => exact ih _ (hskip fun b hb => bitAt_of_skipped (.inr hf) hb)
        | some bit =>
            obtain ⟨hbit, hmem, hbefore⟩ := List.find?_range_eq_some.mp hf
            have hlt : bit < 8 := List.mem_range.mp hmem
            refine ⟨hlt, by omega, ?_, fun b hb => ?_⟩
            · rw [bitAt_eq hlt]
              simpa using hbit
            · by_cases hb' : b < offset * 8
              · exact h b hb'
              · have heq : b = offset * 8 + (b - offset * 8) := by omega
                rw [heq, bitAt_eq (by omega)]
                simpa using hbefore (b - offset * 8) (by omega)

/-- The bit of `b` is set, and nothing else has changed. -/
theorem bitAt_setByte {b c : Nat} :
    bitAt (d.setByte (base + b / 8) (bitmapSet (d.bytes (base + b / 8)) b)) base c =
      (decide (b = c) || bitAt d base c) := by
  rw [bitAt, bitAt]
  by_cases ha : base + c / 8 = base + b / 8
  · rw [ha, setByte_self, bitmapGet_set]
    have hdiv : c / 8 = b / 8 := by omega
    by_cases hm : b % 8 = c % 8
    · have : b = c := by omega
      simp [this]
    · have : b ≠ c := fun h => hm (by rw [h])
      simp [hm, this]
  · have hne : b ≠ c := fun h => ha (by rw [h])
    rw [setByte_of_ne ha]
    simp [hne]

/-- What the search does when it succeeds: `b` was the first clear bit, and it is
set. -/
structure FirstBit (d : Disk) (base n b : Nat) (d' : Disk) : Prop where
  lt : b < 8 * n
  clear : bitAt d base b = false
  least : ∀ c, c < b → bitAt d base c = true
  size : d'.size = d.size
  bytes : ∀ a, a ≠ base + b / 8 → d'.bytes a = d.bytes a
  bit : ∀ c, bitAt d' base c = (decide (b = c) || bitAt d base c)

theorem allocateBit_cases (d : Disk) (base n : Nat) :
    match allocateBit d base n with
    | none => ∀ b, b < 8 * n → bitAt d base b = true
    | some (b, d') => FirstBit d base n b d' := by
  have h := @scanBytes_spec d base n 0 fun b hb => absurd hb (by omega)
  rw [allocateBit]
  cases hs : scanBytes d base n 0 with
  | none =>
      rw [hs] at h
      intro b hb
      exact h b (by omega)
  | some r =>
      obtain ⟨o, bit⟩ := r
      rw [hs] at h
      obtain ⟨hbit, ho, hfree, hleast⟩ := h
      have hid : o <<< 3 ||| bit % 8 = o * 8 + bit := by
        rw [Nat.mod_eq_of_lt hbit, Nat.shiftLeft_eq, Nat.mul_comm,
          ← Nat.two_pow_add_eq_or_of_lt (i := 3) hbit, Nat.mul_comm]
      have ha : base + o = base + (o * 8 + bit) / 8 := by omega
      have hset : bitmapSet (d.bytes (base + (o * 8 + bit) / 8)) bit =
          bitmapSet (d.bytes (base + (o * 8 + bit) / 8)) (o * 8 + bit) := by
        rw [bitmapSet, bitmapSet, show (o * 8 + bit) % 8 = bit % 8 by omega]
      dsimp only [Option.map]
      rw [hid, ha, hset]
      exact ⟨by omega, hfree, hleast, rfl, fun a h => setByte_of_ne h, fun c => bitAt_setByte⟩

end FirstBit

theorem marked_eq {fs : Filesystem} {d : Disk} {offset bit : Nat} (h : bit < 8) :
    marked fs d (offset * 8 + bit) =
      bitmapGet (d.bytes (fs.dataBitmapOffset * pageSize + offset)) bit :=
  bitAt_eq h

theorem scanBitmap_eq (fs : Filesystem) (d : Disk) (n offset : Nat) :
    scanBitmap fs d n offset = scanBytes d (fs.dataBitmapOffset * pageSize) n offset := by
  induction n generalizing offset with
  | zero => rfl
  | succ n ih => rw [scanBitmap, scanBytes, ih]

/-- `allocate_block` is the search of the data bitmap. -/
theorem allocateBlock_eq (fs : Filesystem) (d : Disk) :
    allocateBlock fs d = allocateBit d (fs.dataBitmapOffset * pageSize) fs.bitmapBytes := by
  rw [allocateBlock, allocateBit, scanBitmap_eq]

/-- What `allocate_block` does when it succeeds: `b` was the first free block,
and its bit is set. -/
structure Allocated (fs : Filesystem) (d : Disk) (b : Nat) (d' : Disk) : Prop where
  lt : b < 8 * fs.bitmapBytes
  free : marked fs d b = false
  least : ∀ c, c < b → marked fs d c = true
  size : d'.size = d.size
  bytes : ∀ a, a ≠ bitmapByte fs b → d'.bytes a = d.bytes a
  marked : ∀ c, marked fs d' c = (decide (b = c) || marked fs d c)

theorem allocateBlock_cases (fs : Filesystem) (d : Disk) :
    match allocateBlock fs d with
    | none => ∀ b, b < 8 * fs.bitmapBytes → marked fs d b = true
    | some (b, d') => Allocated fs d b d' := by
  have h := allocateBit_cases d (fs.dataBitmapOffset * pageSize) fs.bitmapBytes
  rw [← allocateBlock_eq] at h
  cases ha : allocateBlock fs d with
  | none =>
      rw [ha] at h
      exact h
  | some r =>
      rw [ha] at h
      exact ⟨h.lt, h.clear, h.least, h.size, h.bytes, h.bit⟩

/-- The bytes that both searches go through: a bit for every block, rounded up. -/
def searchBytes (sizeBlocks : UInt32) : Nat :=
  sizeBlocks.toNat / 8 + if sizeBlocks.toNat % 8 ≠ 0 then 1 else 0

/-- `allocate_inode`.  Its search goes as far as that for a block. -/
def allocateInode (sizeBlocks : UInt32) (d : Disk) : Option (Nat × Disk) :=
  allocateBit d (Filesystem.inodeBitmapOffset * pageSize) (searchBytes sizeBlocks)

/-! ## Counting free blocks -/

/-- The number of free blocks below `n`. -/
def freeBelow (fs : Filesystem) (d : Disk) (n : Nat) : Nat :=
  Nat.count (fun b => marked fs d b = false) n

theorem freeBelow_congr {fs : Filesystem} {d d' : Disk} {n : Nat}
    (h : ∀ b, b < n → marked fs d' b = marked fs d b) : freeBelow fs d' n = freeBelow fs d n := by
  refine Nat.le_antisymm (Nat.count_mono_left fun b hb hm => ?_) (Nat.count_mono_left fun b hb hm => ?_)
  · rwa [h b hb] at hm
  · rwa [h b hb]

/-- With a free block in the bitmap the allocation succeeds. -/
theorem allocateBlock_of_free {fs : Filesystem} {d : Disk} {n : Nat} (hn : n ≤ 8 * fs.bitmapBytes)
    (h : 0 < freeBelow fs d n) : ∃ b d', allocateBlock fs d = some (b, d') ∧ b < n := by
  have hc := allocateBlock_cases fs d
  obtain ⟨c, hcn, hfree⟩ : ∃ c, c < n ∧ marked fs d c = false := by
    rw [freeBelow, Nat.count_eq_card_filter_range] at h
    obtain ⟨c, hc⟩ := Finset.card_pos.mp h
    rw [Finset.mem_filter, Finset.mem_range] at hc
    exact ⟨c, hc⟩
  cases ha : allocateBlock fs d with
  | none =>
      rw [ha] at hc
      rw [hc c (by omega)] at hfree
      cases hfree
  | some r =>
      obtain ⟨b, d'⟩ := r
      rw [ha] at hc
      refine ⟨b, d', rfl, Nat.lt_of_not_le fun hle => ?_⟩
      rw [hc.least c (by omega)] at hfree
      cases hfree

/-- An allocation takes one block of the free ones below `n`, if there is one. -/
theorem Allocated.freeBelow {fs : Filesystem} {d d' : Disk} {b : Nat} (h : Allocated fs d b d')
    (n : Nat) : Fs.freeBelow fs d' n = Fs.freeBelow fs d n - 1 := by
  have hbelow : ∀ m, m ≤ b → Fs.freeBelow fs d m = 0 := by
    intro m hm
    rw [Fs.freeBelow, Nat.count_iff_forall_not]
    intro c hc
    rw [h.least c (by omega)]
    decide
  induction n with
  | zero => rfl
  | succ n ih =>
      rw [Fs.freeBelow, Fs.freeBelow, Nat.count_succ, Nat.count_succ, h.marked n]
      rw [Fs.freeBelow, Fs.freeBelow] at ih
      rcases Nat.lt_trichotomy b n with hlt | heq | hgt
      · have hpos : 0 < Nat.count (fun c => Fs.marked fs d c = false) n := by
          rw [Nat.count_eq_card_filter_range]
          refine Finset.card_pos.mpr ⟨b, ?_⟩
          rw [Finset.mem_filter, Finset.mem_range]
          exact ⟨hlt, h.free⟩
        have hne : b ≠ n := Nat.ne_of_lt hlt
        rw [ih]
        simp only [hne, decide_false, Bool.false_or]
        omega
      · have h0 := hbelow n (by omega)
        rw [Fs.freeBelow] at h0
        subst heq
        rw [ih, h0, h.free]
        simp
      · have h0 := hbelow (n + 1) hgt
        have h1 := h.least n hgt
        rw [Fs.freeBelow, Nat.count_succ] at h0
        rw [ih, h1]
        simp

end Fs
