import Endros.Fs.Flat
import Endros.Fs.Grow

/-!
# Shrinking undoes growing

The blocks a growth takes are a stack: the blocks of the new pages, and under the
first single indirect page the index block.  `grow` pushes them one by one and
`shrink` pops them in the opposite order, so the bitmap is the old one in the end.

This needs no more of the disk than that the growth finds its blocks, but for one
point.  A pointer is written where `ADDR` says, and `ADDR` wraps at `2 ^ 32`.  The
words written must not be in the data bitmap, not in the inode of the file and
not on its bit (`IndexApart`).
-/

namespace Fs

open Lib Mem

/-! ## `free_block` -/

theorem bitmapGet_clear (byte : UInt8) (x y : Nat) :
    bitmapGet (bitmapClear byte x) y = (bitmapGet byte y && !decide (x % 8 = y % 8)) := by
  have hx : x % 8 < 8 := Nat.mod_lt _ (by decide)
  have hy : y % 8 < 8 := Nat.mod_lt _ (by decide)
  have hpow : 2 ^ (x % 8) < 2 ^ 8 := Nat.pow_lt_pow_right (by decide) hx
  have hnot : (~~~ ((1 : UInt8) <<< UInt8.ofNat (x % 8))).toNat = 2 ^ 8 - (2 ^ (x % 8) + 1) := by
    rw [UInt8.toNat_not, one_shiftLeft_toNat]
    simp only [UInt8.size]
    omega
  rw [bitmapGet, bitmapClear, UInt8.toNat_and, Nat.testBit_and, hnot,
    Nat.testBit_two_pow_sub_succ hpow, Nat.testBit_two_pow]
  simp only [hy, decide_true, Bool.true_and]
  rfl

/-- Two bytes with the same bits are equal. -/
theorem byte_ext {v w : UInt8} (h : ∀ x, x < 8 → bitmapGet v x = bitmapGet w x) : v = w := by
  apply UInt8.toNat_inj.mp
  refine Nat.eq_of_testBit_eq fun i => ?_
  by_cases hi : i < 8
  · have := h i hi
    rw [bitmapGet, bitmapGet, Nat.mod_eq_of_lt hi] at this
    exact this
  · have hpow : 2 ^ 8 ≤ 2 ^ i := Nat.pow_le_pow_right (by decide) (by omega)
    rw [Nat.testBit_lt_two_pow (Nat.lt_of_lt_of_le v.toNat_lt hpow),
      Nat.testBit_lt_two_pow (Nat.lt_of_lt_of_le w.toNat_lt hpow)]

/-- What `free_block` does with a marked block: its bit is cleared. -/
structure Freed (fs : Filesystem) (d : Disk) (b : Nat) (d' : Disk) : Prop where
  size : d'.size = d.size
  bytes : ∀ a, a ≠ bitmapByte fs b → d'.bytes a = d.bytes a
  marked : ∀ c, marked fs d' c = (marked fs d c && !decide (b = c))

theorem marked_clearByte {fs : Filesystem} {d : Disk} {b c : Nat} :
    marked fs (d.setByte (bitmapByte fs b) (bitmapClear (d.bytes (bitmapByte fs b)) b)) c =
      (marked fs d c && !decide (b = c)) := by
  rw [marked, marked]
  by_cases ha : bitmapByte fs c = bitmapByte fs b
  · have hdiv : c / 8 = b / 8 := by
      rw [bitmapByte, bitmapByte] at ha
      omega
    have hiff : b % 8 = c % 8 ↔ b = c := by omega
    rw [ha, setByte_self, bitmapGet_clear]
    simp only [hiff]
  · have hne : b ≠ c := fun h => ha (by rw [h])
    rw [setByte_of_ne ha]
    simp only [hne, decide_false, Bool.not_false, Bool.and_true]

theorem freeBlock_freed {fs : Filesystem} {d : Disk} {b : Nat} (hb : bitmapByte fs b < d.size)
    (h64 : d.size < 2 ^ 64) (hm : marked fs d b = true) (junk : UInt8) :
    Freed fs d b (freeBlock fs d junk b).1 := by
  have hread : wrappedRead d (bitmapByte fs b) 1 (fun _ => junk) 0 0 = d.bytes (bitmapByte fs b) :=
    wrappedRead_byte hb h64
  have heq : (freeBlock fs d junk b).1 =
      d.setByte (bitmapByte fs b) (bitmapClear (d.bytes (bitmapByte fs b)) b) := by
    rw [freeBlock]
    show (if bitmapGet (wrappedRead d (bitmapByte fs b) 1 (fun _ => junk) 0 0) b = true then
      (wrappedWrite d (bitmapByte fs b) 1 (fun _ => bitmapClear
        (wrappedRead d (bitmapByte fs b) 1 (fun _ => junk) 0 0) b) 0, (0 : Int)) else (d, -1)).1 = _
    rw [marked] at hm
    rw [hread, if_pos hm, wrappedWrite_of_le hb h64]
    rfl
  rw [heq]
  exact ⟨rfl, fun a ha => setByte_of_ne ha, fun c => marked_clearByte⟩

/-! ## A stack of blocks -/

/-- A byte of the data bitmap that `allocate_block` searches. -/
def InBitmap (fs : Filesystem) (a : Nat) : Prop :=
  fs.dataBitmapOffset * pageSize ≤ a ∧ a < fs.dataBitmapOffset * pageSize + fs.bitmapBytes

/-- The disk `d` has the marks of `d₀` and those of the blocks of `new`, which are
free on `d₀`. -/
structure Marks (fs : Filesystem) (d₀ d : Disk) (new : List Nat) : Prop where
  nodup : new.Nodup
  lt : ∀ b, b ∈ new → b < 8 * fs.bitmapBytes
  free : ∀ b, b ∈ new → marked fs d₀ b = false
  marked_iff : ∀ b, b < 8 * fs.bitmapBytes →
    (marked fs d b = true ↔ marked fs d₀ b = true ∨ b ∈ new)

section Stack

variable {fs : Filesystem} {d₀ d d' : Disk} {new : List Nat} {b : Nat}

theorem bitmapByte_inBitmap (h : b < 8 * fs.bitmapBytes) : InBitmap fs (bitmapByte fs b) := by
  rw [InBitmap, bitmapByte]
  omega

theorem InBitmap.bounds {a : Nat} (h : InBitmap fs a) :
    fs.dataBitmapOffset * pageSize ≤ a ∧ a < fs.inodeTableOffset * pageSize := by
  obtain ⟨h₁, h₂⟩ := h
  have hlast := (bitmapByte_lt (by omega) :
    fs.dataBitmapOffset * pageSize ≤ bitmapByte fs (8 * (a - fs.dataBitmapOffset * pageSize)) ∧ _)
  rw [bitmapByte] at hlast
  omega

theorem Marks.congr (h : Marks fs d₀ d new) (hb : ∀ a, InBitmap fs a → d'.bytes a = d.bytes a) :
    Marks fs d₀ d' new := by
  refine ⟨h.nodup, h.lt, h.free, fun b hlt => ?_⟩
  rw [marked, hb _ (bitmapByte_inBitmap hlt)]
  exact h.marked_iff b hlt

/-- An allocation pushes its block. -/
theorem Marks.push (h : Marks fs d₀ d new) (ha : Allocated fs d b d') :
    Marks fs d₀ d' (b :: new) := by
  have hnot : ¬ (marked fs d₀ b = true ∨ b ∈ new) := fun hm => by
    have := (h.marked_iff b ha.lt).mpr hm
    rw [ha.free] at this
    cases this
  refine ⟨List.nodup_cons.mpr ⟨fun hm => hnot (.inr hm), h.nodup⟩, ?_, ?_, ?_⟩
  · intro c hc
    rcases List.mem_cons.mp hc with rfl | hc
    · exact ha.lt
    · exact h.lt c hc
  · intro c hc
    rcases List.mem_cons.mp hc with rfl | hc
    · exact Bool.eq_false_iff.mpr fun hm => hnot (.inl hm)
    · exact h.free c hc
  · intro c hc
    rw [ha.marked c, Bool.or_eq_true, decide_eq_true_iff, h.marked_iff c hc, List.mem_cons, eq_comm]
    exact or_left_comm

/-- `free_block` of the block on top pops it. -/
theorem Marks.pop (h : Marks fs d₀ d (b :: new)) (hf : Freed fs d b d') : Marks fs d₀ d' new := by
  obtain ⟨hb, hnodup⟩ := List.nodup_cons.mp h.nodup
  refine ⟨hnodup, fun c hc => h.lt c (List.mem_cons_of_mem _ hc),
    fun c hc => h.free c (List.mem_cons_of_mem _ hc), fun c hlt => ?_⟩
  have hfree := h.free b List.mem_cons_self
  rw [hf.marked c, Bool.and_eq_true, h.marked_iff c hlt, List.mem_cons, Bool.not_eq_true',
    decide_eq_false_iff_not]
  constructor
  · rintro ⟨hm | rfl | hc, hne⟩
    · exact .inl hm
    · exact absurd rfl hne
    · exact .inr hc
  · rintro (hm | hc)
    · exact ⟨.inl hm, fun he => by rw [← he, hfree] at hm; cases hm⟩
    · exact ⟨.inr (.inr hc), fun he => hb (he ▸ hc)⟩

/-- With nothing on the stack the bytes of the bitmap are the old ones. -/
theorem Marks.bytes (h : Marks fs d₀ d []) {a : Nat} (ha : InBitmap fs a) :
    d.bytes a = d₀.bytes a := by
  refine byte_ext fun x hx => ?_
  have hadd : fs.dataBitmapOffset * pageSize + (a - fs.dataBitmapOffset * pageSize) = a := by
    have := ha.1
    omega
  have hm := h.marked_iff ((a - fs.dataBitmapOffset * pageSize) * 8 + x) (by
    have := ha.2
    omega)
  rw [marked_eq hx, marked_eq hx, hadd] at hm
  simp only [List.not_mem_nil, or_false] at hm
  exact Bool.eq_iff_iff.mpr hm

end Stack

/-! ## The pages of a growth -/

/-- The address of the pointer to a single indirect page. -/
def pointerAddr (q : UInt32) (i : Nat) : Nat := addr32 q ((i - directPtrs) * 4)

/-- The blocks of `k` pages behind `n`, the last one first: those of the pages, and
the index block under the first single indirect one. -/
def pageStack (d : Disk) (inode : Inode) (n : Nat) : Nat → List Nat
  | 0 => []
  | k + 1 =>
      (lookup d inode 0 (n + k)).toNat ::
        ((if n + k = directPtrs then [inode.singleInd.toNat] else []) ++ pageStack d inode n k)

section Pages

variable {d d' : Disk} {inode inode' : Inode} {n k i : Nat}

theorem lookup_direct (h : i < directPtrs) (junk : UInt32) :
    lookup d inode junk i = inode.direct ⟨i, h⟩ := by
  rw [lookup, dif_pos h]

theorem pageStack_congr
    (hl : ∀ i, n ≤ i → i < n + k → lookup d' inode' 0 i = lookup d inode 0 i)
    (hq : directPtrs < n + k → inode'.singleInd = inode.singleInd) :
    pageStack d' inode' n k = pageStack d inode n k := by
  induction k with
  | zero => rfl
  | succ k ih =>
      rw [pageStack, pageStack, hl (n + k) (by omega) (by omega),
        ih (fun i h₁ h₂ => hl i h₁ (by omega)) (fun h => hq (by omega))]
      by_cases he : n + k = directPtrs
      · rw [if_pos he, if_pos he, hq (by omega)]
      · rw [if_neg he, if_neg he]

/-- A lookup up to the last single indirect page depends on one word. -/
theorem lookup_of_bytes (hsize : d'.size = d.size) (hi : i < directPtrs + ptrPerPage)
    (hq : inode'.singleInd = inode.singleInd)
    (hd : ∀ h : i < directPtrs, inode'.direct ⟨i, h⟩ = inode.direct ⟨i, h⟩)
    (hb : directPtrs ≤ i → ∀ j, j < 4 →
      d'.bytes (pointerAddr inode.singleInd i + j) = d.bytes (pointerAddr inode.singleInd i + j))
    (junk : UInt32) : lookup d' inode' junk i = lookup d inode junk i := by
  by_cases h : i < directPtrs
  · rw [lookup_direct h, lookup_direct h, hd h]
  · have h' : directPtrs ≤ i := by omega
    have hw : le32 d'.bytes (pointerAddr inode.singleInd i) =
        le32 d.bytes (pointerAddr inode.singleInd i) := le32_congr (hb h')
    rw [pointerAddr] at hw
    rw [lookup_single h' hi, lookup_single h' hi, readPtr, readPtr, hsize, hq, hw]

/-- Pointers do not overlap. -/
theorem pointerAddr_lt {q : UInt32} {i j : Nat} (hi : directPtrs ≤ i) (h : i < j) :
    pointerAddr q i + 4 ≤ pointerAddr q j := by
  rw [pointerAddr, pointerAddr, addr32, addr32]
  omega

/-- The pointers of an index block of the file system are on the device. -/
theorem pointerAddr_le {fs : Filesystem} {q : UInt32} (hd : OnDevice fs d)
    (hq : q.toNat < fs.sizeBlocks.toNat) (h₁ : directPtrs ≤ i) (h₂ : i < directPtrs + ptrPerPage) :
    pointerAddr q i + 4 ≤ d.size := by
  have hmul : addr32 q 0 ≤ q.toNat * pageSize := by
    rw [addr32, UInt32.toNat_mul]
    exact Nat.mod_le ..
  have hle : (q.toNat + 1) * pageSize ≤ fs.sizeBlocks.toNat * pageSize :=
    Nat.mul_le_mul_right _ hq
  have hdev := hd.le
  rw [addr32] at hmul
  rw [pointerAddr, addr32]
  simp only [directPtrs, ptrPerPage, pageSize] at *
  omega

end Pages

/-- A byte that is not in the data bitmap, not the bit of the file and not in its
inode. -/
structure Spare (fs : Filesystem) (f a : Nat) : Prop where
  bitmap : a < fs.dataBitmapOffset * pageSize ∨ fs.inodeTableOffset * pageSize ≤ a
  bit : a ≠ inodeBitmapByte f
  inode : a < inodeAddr fs f ∨ inodeAddr fs f + 4 * inodeWords ≤ a

/-- The pointers of the pages from `n` to `m` in the index block `q` are on spare
bytes. -/
def PointersApart (fs : Filesystem) (f n m : Nat) (q : UInt32) : Prop :=
  ∀ i, n ≤ i → directPtrs ≤ i → i < m → ∀ j, j < 4 → Spare fs f (pointerAddr q i + j)

theorem Spare.notInBitmap {fs : Filesystem} {f a : Nat} (h : Spare fs f a) : ¬ InBitmap fs a := by
  intro hb
  have := hb.bounds
  have := h.bitmap
  omega

/-- A growth from `n` pages to `m` writes its pointers to spare bytes.  The index
block is the one the file has, or the one that the growth will take for it: the
block that is free and has as many free blocks below it as direct pages are
added. -/
structure IndexApart (fs : Filesystem) (d : Disk) (f n m : Nat) : Prop where
  own : directPtrs < n → PointersApart fs f n m (inodeOf fs d f).singleInd
  next : n ≤ directPtrs → directPtrs < m → ∀ b, b < fs.sizeBlocks.toNat → marked fs d b = false →
    freeBelow fs d b = directPtrs - n → PointersApart fs f n m (UInt32.ofNat b)

/-- Pointers in a data block that `ADDR` reaches are on spare bytes. -/
theorem pointersApart_of_data {fs : Filesystem} {f n m : Nat} {q : UInt32}
    (hf : f < fs.inodeTableBlocks.toNat * 32) (hq : fs.dataStart ≤ q.toNat)
    (h20 : q.toNat < 2 ^ 20) : PointersApart fs f n m q := by
  intro i _ _ _ j _
  have hmul : fs.dataStart * pageSize ≤ q.toNat * pageSize := Nat.mul_le_mul_right _ hq
  have hbit := inodeBitmapByte_lt hf
  have hoff := dataBitmapOffset_le fs
  have htable := inodeTableOffset_le fs
  have hinode := inodeAddr_le hf
  rw [pointerAddr, addr32_of_lt h20]
  exact ⟨.inr (by omega), by omega, .inr (by omega)⟩

/-- On a device of at most `2 ^ 20` blocks whose metadata is marked the condition
holds. -/
theorem indexApart_of_small {fs : Filesystem} {d : Disk} {f n m : Nat}
    (hsize : fs.sizeBlocks.toNat ≤ 2 ^ 20) (hf : f < fs.inodeTableBlocks.toNat * 32)
    (hmeta : ∀ b, b < fs.dataStart → marked fs d b = true)
    (hown : directPtrs < n → fs.dataStart ≤ (inodeOf fs d f).singleInd.toNat ∧
      (inodeOf fs d f).singleInd.toNat < fs.sizeBlocks.toNat) : IndexApart fs d f n m := by
  constructor
  · intro h
    exact pointersApart_of_data hf (hown h).1 (Nat.lt_of_lt_of_le (hown h).2 hsize)
  · intro _ _ b hlt hfree _
    have hnat : (UInt32.ofNat b).toNat = b := by
      rw [UInt32.toNat_ofNat']
      exact Nat.mod_eq_of_lt (Nat.lt_trans hlt fs.sizeBlocks.toNat_lt)
    have hdata : fs.dataStart ≤ b := Nat.le_of_not_lt fun h => by
      rw [hmeta b h] at hfree
      cases hfree
    exact pointersApart_of_data hf (by rw [hnat]; exact hdata) (by rw [hnat]; omega)

/-! ## Growing -/

section Grow

variable {fs : Filesystem} {d₀ : Disk} {f n m k c : Nat} {d d' : Disk} {inode : Inode}
  {new : List Nat}

/-- `k` pages behind the first `n` are there, `new` is the stack of blocks taken and
`c` their number. -/
structure Raised (fs : Filesystem) (d₀ : Disk) (f n m k : Nat) (new : List Nat) (c : Nat) (d : Disk)
    (inode : Inode) : Prop where
  size : d.size = d₀.size
  marks : Marks fs d₀ d new
  count : ∀ x, x ≤ fs.sizeBlocks.toNat → freeBelow fs d x = freeBelow fs d₀ x - c
  direct : ∀ i : Fin directPtrs, i.val < n → inode.direct i = (inodeOf fs d₀ f).direct i
  single : directPtrs < n → inode.singleInd = (inodeOf fs d₀ f).singleInd
  rest : inode.type = (inodeOf fs d₀ f).type ∧ inode.permission = (inodeOf fs d₀ f).permission ∧
    inode.doubleInd = (inodeOf fs d₀ f).doubleInd ∧ inode.tripleInd = (inodeOf fs d₀ f).tripleInd
  index : directPtrs < n + k →
    PointersApart fs f n m inode.singleInd ∧ inode.singleInd.toNat < fs.sizeBlocks.toNat
  frame : ∀ a, ¬ InBitmap fs a →
    (∀ i, n ≤ i → directPtrs ≤ i → i < n + k →
      a < pointerAddr inode.singleInd i ∨ pointerAddr inode.singleInd i + 4 ≤ a) →
    d.bytes a = d₀.bytes a

theorem Raised.allocate (h : Raised fs d₀ f n m k new c d inode) {b : Nat}
    (ha : Allocated fs d b d') : Raised fs d₀ f n m k (b :: new) (c + 1) d' inode := by
  refine ⟨ha.size.trans h.size, h.marks.push ha, fun x hx => ?_, h.direct, h.single, h.rest,
    h.index, fun a hb hw => ?_⟩
  · rw [ha.freeBelow, h.count x hx]
    omega
  · rw [ha.bytes a fun he => hb (he ▸ bitmapByte_inBitmap ha.lt)]
    exact h.frame a hb hw

/-- There is a block to allocate. -/
theorem Raised.exists_block (h : Raised fs d₀ f n m k new c d inode)
    (hfree : c < freeBelow fs d₀ fs.sizeBlocks.toNat) :
    ∃ b d', allocateBlock fs d = some (b, d') ∧ b < fs.sizeBlocks.toNat ∧ Allocated fs d b d' := by
  obtain ⟨b, d', hb, hlt⟩ := allocateBlock_of_free fs.le_bitmapBytes (by
    rw [h.count _ (Nat.le_refl _)]
    omega : 0 < freeBelow fs d fs.sizeBlocks.toNat)
  have hc := allocateBlock_cases fs d
  rw [hb] at hc
  exact ⟨b, d', hb, hlt, hc⟩

/-- The block that is allocated next has as many free blocks below it on `d₀` as
were taken. -/
theorem Raised.next_free (h : Raised fs d₀ f n m k new c d inode) {b : Nat}
    (ha : Allocated fs d b d') (hlt : b < fs.sizeBlocks.toNat) :
    marked fs d₀ b = false ∧ freeBelow fs d₀ b = c := by
  have hm : marked fs d₀ b = false := by
    refine Bool.eq_false_iff.mpr fun hm => ?_
    have := (h.marks.marked_iff b ha.lt).mpr (.inl hm)
    rw [ha.free] at this
    cases this
  have h₀ : freeBelow fs d b = 0 := by
    rw [freeBelow, Nat.count_iff_forall_not]
    intro c hc
    rw [ha.least c hc]
    decide
  have h₁ : freeBelow fs d (b + 1) = 1 := by
    rw [freeBelow, Nat.count_succ, if_pos ha.free]
    rw [freeBelow] at h₀
    omega
  have h₂ : freeBelow fs d₀ (b + 1) = freeBelow fs d₀ b + 1 := by
    rw [freeBelow, Nat.count_succ, if_pos hm]
    rfl
  have hb := h.count b (Nat.le_of_lt hlt)
  have hb' := h.count (b + 1) hlt
  exact ⟨hm, by omega⟩

/-- A direct page. -/
theorem Raised.growDirect {s : GrowState}
    (h : Raised fs d₀ f n m k (pageStack s.disk s.inode n k) c s.disk s.inode)
    (hp : n + k < directPtrs) (hfree : c < freeBelow fs d₀ fs.sizeBlocks.toNat) :
    ∃ s', GrowState.growDirect fs (n + k) s = .ok s' ∧
      Raised fs d₀ f n m (k + 1) (pageStack s'.disk s'.inode n (k + 1)) (c + 1) s'.disk s'.inode := by
  obtain ⟨b, d', hb, hlt, ha⟩ := h.exists_block hfree
  have hnat : (UInt32.ofNat b).toNat = b := by
    rw [UInt32.toNat_ofNat']
    exact Nat.mod_eq_of_lt (Nat.lt_trans hlt fs.sizeBlocks.toNat_lt)
  refine ⟨{ s with disk := d', inode := s.inode.setDirect (n + k) (UInt32.ofNat b) }, ?_, ?_⟩
  · rw [GrowState.growDirect, GrowState.allocate_eq hb, ok_bind]
  have hstack : pageStack d' (s.inode.setDirect (n + k) (UInt32.ofNat b)) n (k + 1) =
      b :: pageStack s.disk s.inode n k := by
    rw [pageStack, lookup_direct hp, Inode.setDirect_self hp, hnat, if_neg (by omega),
      List.nil_append]
    refine congrArg _ (pageStack_congr (fun i _ hi => ?_) fun _ => rfl)
    have hne : i ≠ n + k := by omega
    rw [lookup_direct (by omega), lookup_direct (by omega), Inode.setDirect_of_ne hne]
  have hg := h.allocate ha
  show Raised fs d₀ f n m (k + 1) (pageStack d' (s.inode.setDirect (n + k) (UInt32.ofNat b)) n (k + 1))
    (c + 1) d' (s.inode.setDirect (n + k) (UInt32.ofNat b))
  rw [hstack]
  refine ⟨hg.size, hg.marks, hg.count, fun i hi => ?_, hg.single, hg.rest, fun h' => ?_,
    fun a ha _ => hg.frame a ha fun i _ _ _ => ?_⟩
  · have hne : i.val ≠ n + k := by omega
    rw [Inode.setDirect_of_ne hne, hg.direct i hi]
  · omega
  · omega

/-- A single indirect page, once its index block is there. -/
theorem Raised.addPointer {t : Nat}
    (h : Raised fs d₀ f n m k ((if n + k = directPtrs then [inode.singleInd.toNat] else []) ++
      pageStack d inode n k) c d inode)
    (hd : OnDevice fs d) (h₁ : directPtrs ≤ n + k) (h₂ : n + k < directPtrs + ptrPerPage)
    (hi : PointersApart fs f n m inode.singleInd ∧ inode.singleInd.toNat < fs.sizeBlocks.toNat)
    (hm : n + k < m) (ha : Allocated fs d t d') (ht : t < fs.sizeBlocks.toNat) :
    Raised fs d₀ f n m (k + 1)
      (pageStack (writePtr d' (pointerAddr inode.singleInd (n + k)) (UInt32.ofNat t)) inode n (k + 1))
      (c + 1) (writePtr d' (pointerAddr inode.singleInd (n + k)) (UInt32.ofNat t)) inode := by
  have hnat : (UInt32.ofNat t).toNat = t := by
    rw [UInt32.toNat_ofNat']
    exact Nat.mod_eq_of_lt (Nat.lt_trans ht fs.sizeBlocks.toNat_lt)
  have h64 : d'.size < 2 ^ 64 := by rw [ha.size]; exact hd.lt
  have hle : pointerAddr inode.singleInd (n + k) + 4 ≤ d'.size := by
    rw [ha.size]
    exact pointerAddr_le hd hi.2 h₁ h₂
  have hg := h.allocate ha
  -- the pointers of the pages before are read as before
  have hold : ∀ i, n ≤ i → i < n + k →
      lookup (writePtr d' (pointerAddr inode.singleInd (n + k)) (UInt32.ofNat t)) inode 0 i =
        lookup d inode 0 i := by
    intro i hni hik
    refine lookup_of_bytes ?_ (by omega) rfl (fun _ => rfl) (fun h25 j hj => ?_) 0
    · rw [writePtr_of_le hle h64]
      exact ha.size
    · have hlt := pointerAddr_lt (q := inode.singleInd) h25 hik
      have hspare := hi.1 i hni h25 (by omega) j hj
      rw [writePtr_of_le hle h64, Disk.write_bytes, patch_of_lt (by omega)]
      exact ha.bytes _ fun he => hspare.notInBitmap (he ▸ bitmapByte_inBitmap ha.lt)
  have hnew : lookup (writePtr d' (pointerAddr inode.singleInd (n + k)) (UInt32.ofNat t)) inode 0
      (n + k) = UInt32.ofNat t := by
    rw [lookup_single h₁ h₂]
    exact readPtr_writePtr hle h64
  rw [pageStack, hnew, hnat, pageStack_congr hold fun _ => rfl]
  have houtside : ∀ a, (a < pointerAddr inode.singleInd (n + k) ∨
      pointerAddr inode.singleInd (n + k) + 4 ≤ a) →
      (writePtr d' (pointerAddr inode.singleInd (n + k)) (UInt32.ofNat t)).bytes a = d'.bytes a := by
    intro a hout
    rw [writePtr_of_le hle h64, Disk.write_bytes]
    rcases hout with hout | hout
    · exact patch_of_lt hout
    · exact patch_of_ge hout
  have hbitmap : ∀ a, InBitmap fs a →
      (writePtr d' (pointerAddr inode.singleInd (n + k)) (UInt32.ofNat t)).bytes a = d'.bytes a := by
    intro a hb
    refine houtside a (Nat.lt_or_ge _ _ |>.imp_right fun hge => Nat.le_of_not_lt fun hlt => ?_)
    have hspare := hi.1 (n + k) (by omega) h₁ hm (a - pointerAddr inode.singleInd (n + k)) (by omega)
    rw [Nat.add_sub_cancel' hge] at hspare
    exact hspare.notInBitmap hb
  refine ⟨?_, hg.marks.congr hbitmap, fun x hx => ?_, hg.direct, hg.single, hg.rest, fun _ => hi,
    fun a hb hw => ?_⟩
  · rw [writePtr_of_le hle h64]
    exact hg.size
  · refine (freeBelow_congr fun b hb => ?_).trans (hg.count x hx)
    have := fs.le_bitmapBytes
    rw [marked, hbitmap _ (bitmapByte_inBitmap (by omega)), ← marked]
  · rw [houtside a (hw (n + k) (by omega) h₁ (by omega))]
    exact hg.frame a hb fun i h₁ h₂ h₃ => hw i h₁ h₂ (by omega)

/-- A single indirect page. -/
theorem Raised.growSingle {s : GrowState}
    (h : Raised fs d₀ f n m k (pageStack s.disk s.inode n k) (needed n (n + k)) s.disk s.inode)
    (hd : OnDevice fs s.disk) (hc : IndexApart fs d₀ f n m) (h₁ : directPtrs ≤ n + k)
    (h₂ : n + k < directPtrs + ptrPerPage) (hm : n + k < m)
    (hfree : needed n (n + k + 1) ≤ freeBelow fs d₀ fs.sizeBlocks.toNat) :
    ∃ s', GrowState.growSingle fs (n + k - directPtrs) s = .ok s' ∧
      Raised fs d₀ f n m (k + 1) (pageStack s'.disk s'.inode n (k + 1)) (needed n (n + k + 1))
        s'.disk s'.inode := by
  rw [needed_single (Nat.le_add_right n k) h₁ h₂] at hfree ⊢
  rw [GrowState.growSingle]
  by_cases hp : n + k = directPtrs
  · have hid : (n + k - directPtrs == 0) = true := by simp [hp]
    rw [if_pos hp] at hfree ⊢
    obtain ⟨q, d₁, hq, hqlt, hqa⟩ := h.exists_block (by omega)
    have hnat : (UInt32.ofNat q).toNat = q := by
      rw [UInt32.toNat_ofNat']
      exact Nat.mod_eq_of_lt (Nat.lt_trans hqlt fs.sizeBlocks.toNat_lt)
    have hneed : needed n (n + k) = directPtrs - n := by
      rw [hp, needed]
      split_ifs <;> omega
    -- the new index block is the one of the condition
    obtain ⟨hqfree, hqcount⟩ := h.next_free hqa hqlt
    have hap := hc.next (by omega) (by omega) q hqlt hqfree (hqcount.trans hneed)
    have hstack : pageStack d₁ { s.inode with singleInd := UInt32.ofNat q } n k =
        pageStack s.disk s.inode n k :=
      pageStack_congr (fun i _ hi => by rw [lookup_direct (by omega), lookup_direct (by omega)])
        fun h' => absurd h' (by omega)
    have hr := h.allocate hqa
    have hg : Raised fs d₀ f n m k
        ((if n + k = directPtrs then
            [({ s.inode with singleInd := UInt32.ofNat q } : Inode).singleInd.toNat] else []) ++
          pageStack d₁ { s.inode with singleInd := UInt32.ofNat q } n k) (needed n (n + k) + 1) d₁
        { s.inode with singleInd := UInt32.ofNat q } := by
      rw [if_pos hp, hstack, hnat]
      exact ⟨hr.size, hr.marks, hr.count, hr.direct, fun h' => absurd h' (by omega), hr.rest,
        fun h' => absurd h' (by omega), fun a ha _ => hr.frame a ha fun i _ _ _ => by omega⟩
    obtain ⟨t, d₂, ht, htlt, hta⟩ := hg.exists_block (by omega)
    have hd₁ : OnDevice fs d₁ := ⟨by rw [hqa.size]; exact hd.le, by rw [hqa.size]; exact hd.lt⟩
    have hg' := hg.addPointer hd₁ h₁ h₂ ⟨hap, by rw [hnat]; exact hqlt⟩ hm hta htlt
    refine ⟨⟨_, _, s.block2nd, s.block3rd⟩, ?_, hg'⟩
    rw [GrowState.allocateIf, if_pos hid, GrowState.allocate_eq hq, ok_bind, ok_bind,
      GrowState.allocate_eq (s := GrowState.setSingle q { s with disk := d₁ }) ht, ok_bind]
    rfl
  · have hid : ¬ (n + k - directPtrs == 0) = true := by
      simp only [beq_iff_eq]
      omega
    simp only [if_neg hp, Nat.add_zero] at hfree ⊢
    obtain ⟨t, d₁, ht, htlt, hta⟩ := h.exists_block (by omega)
    have hg : Raised fs d₀ f n m k
        ((if n + k = directPtrs then [s.inode.singleInd.toNat] else []) ++
          pageStack s.disk s.inode n k) (needed n (n + k)) s.disk s.inode := by
      rw [if_neg hp]
      exact h
    have hg' := hg.addPointer hd h₁ h₂ (h.index (by omega)) hm hta htlt
    refine ⟨⟨_, _, s.block2nd, s.block3rd⟩, ?_, hg'⟩
    rw [GrowState.allocateIf, if_neg hid, ok_bind, GrowState.allocate_eq ht, ok_bind]
    rfl

/-- The loop that grows the file takes its blocks one by one. -/
theorem Raised.grow {s : GrowState} (hd : OnDevice fs d₀)
    (hs : Raised fs d₀ f n m 0 [] 0 s.disk s.inode) (hc : IndexApart fs d₀ f n m)
    (hlt : n < m) (hmax : m ≤ directPtrs + ptrPerPage)
    (hfree : needed n m ≤ freeBelow fs d₀ fs.sizeBlocks.toNat) :
    ∃ s', GrowState.grow fs n m s = .ok s' ∧
      Raised fs d₀ f n m (m - n) (pageStack s'.disk s'.inode n (m - n)) (needed n m) s'.disk
        s'.inode := by
  have hloop := loop_total (f := fun i => GrowState.growPage fs (n + i)) (s := s) (n := m - n)
    (P := fun k s => Raised fs d₀ f n m k (pageStack s.disk s.inode n k) (needed n (n + k)) s.disk
      s.inode) (by rw [Nat.add_zero, needed_self]; exact hs) fun k s hk h => ?_
  · rw [Nat.add_sub_cancel' (Nat.le_of_lt hlt)] at hloop
    exact hloop
  have hfree' := Nat.le_trans (needed_mono n (show n + k + 1 ≤ m by omega)) hfree
  have hd' : OnDevice fs s.disk := ⟨by rw [h.size]; exact hd.le, by rw [h.size]; exact hd.lt⟩
  rw [GrowState.growPage]
  by_cases hp : n + k < directPtrs
  · rw [if_pos hp]
    rw [needed_direct (Nat.le_add_right n k) hp] at hfree'
    obtain ⟨s', hs', hr⟩ := h.growDirect hp hfree'
    rw [← needed_direct (Nat.le_add_right n k) hp] at hr
    exact ⟨s', hs', hr⟩
  · rw [if_neg hp, if_pos (by omega)]
    exact h.growSingle hd' hc (by omega) (by omega) (by omega) hfree'

end Grow

/-! ## Shrinking -/

/-- The blocks of `new` are still marked, and but for the bitmap the disk is `d₁`. -/
structure Lowered (fs : Filesystem) (d₀ d₁ : Disk) (new : List Nat) (d : Disk) : Prop where
  size : d.size = d₁.size
  marks : Marks fs d₀ d new
  bytes : ∀ a, ¬ InBitmap fs a → d.bytes a = d₁.bytes a

section Shrink

variable {fs : Filesystem} {d₀ d₁ d : Disk} {f n m k : Nat} {inode : Inode} {new : List Nat}
  {u : Nat → ShrinkLocals}

theorem Lowered.free (h : Lowered fs d₀ d₁ new d) (hd : OnDevice fs d₁) {b : UInt32}
    {below : List Nat} (hnew : new = b.toNat :: below) (junk : UInt8) :
    Lowered fs d₀ d₁ below (freeBlockIf fs junk true b d) := by
  have hlt := h.marks.lt b.toNat (hnew ▸ List.mem_cons_self)
  have hm : marked fs d b.toNat = true :=
    (h.marks.marked_iff _ hlt).mpr (.inr (hnew ▸ List.mem_cons_self))
  have hsize : bitmapByte fs b.toNat < d.size := by
    have h₁ := (bitmapByte_lt hlt).2
    have h₂ := inodeTableOffset_le fs
    have h₃ := dataStart_le fs
    have h₄ := hd.le
    rw [h.size]
    omega
  have hf := freeBlock_freed hsize (by rw [h.size]; exact hd.lt) hm junk
  rw [freeBlockIf, if_pos rfl]
  refine ⟨hf.size.trans h.size, (hnew ▸ h.marks).pop hf, fun a ha => ?_⟩
  rw [hf.bytes a fun he => ha (he ▸ bitmapByte_inBitmap hlt), h.bytes a ha]

/-- The body of the loop pops the blocks of its page. -/
theorem Lowered.freePage (h : Lowered fs d₀ d₁ (pageStack d₁ inode n (k + 1)) d)
    (hd : OnDevice fs d₁) (hmax : n + k < directPtrs + ptrPerPage) (hm : n + k < m)
    (hi : directPtrs < m →
      PointersApart fs f n m inode.singleInd ∧ inode.singleInd.toNat < fs.sizeBlocks.toNat)
    (v : ShrinkLocals) :
    Lowered fs d₀ d₁ (pageStack d₁ inode n k) (Fs.freePage fs inode v (n + k) d) := by
  rw [Fs.freePage]
  by_cases hp : n + k < directPtrs
  · rw [dif_pos hp]
    refine h.free hd ?_ v.buf
    rw [pageStack, lookup_direct hp, if_neg (by omega), List.nil_append]
  rw [dif_neg hp, if_pos hmax]
  have h₁ : directPtrs ≤ n + k := by omega
  obtain ⟨hap, hlt⟩ := hi (by omega)
  have hle := pointerAddr_le hd hlt h₁ hmax
  -- the pointer is the one that was stored
  have hread : readPtr d (addr32 inode.singleInd ((n + k - directPtrs) * 4)) v.tempBlock =
      lookup d₁ inode 0 (n + k) := by
    rw [pointerAddr] at hle
    rw [lookup_single h₁ hmax, readPtr_of_le hle hd.lt,
      readPtr_of_le (by rw [h.size]; exact hle) (by rw [h.size]; exact hd.lt)]
    exact le32_congr fun j hj => h.bytes _ (hap (n + k) (by omega) h₁ hm j hj).notInBitmap
  dsimp only
  rw [hread]
  have hpop := h.free hd (b := lookup d₁ inode 0 (n + k)) rfl v.buf
  by_cases he : n + k = directPtrs
  · have hid : (n + k - directPtrs == 0) = true := by simp [he]
    rw [hid]
    refine hpop.free hd ?_ v.buf
    rw [if_pos he]
    rfl
  · have hid : (n + k - directPtrs == 0) = false := by
      rw [beq_eq_false_iff_ne]
      omega
    rw [hid, freeBlockIf, if_neg (by decide)]
    rw [if_neg he] at hpop
    exact hpop

/-- The loop that shrinks the file pops all of them. -/
theorem Lowered.shrink (hd : OnDevice fs d₁) (hn : 0 < n)
    (hi : directPtrs < m →
      PointersApart fs f n m inode.singleInd ∧ inode.singleInd.toNat < fs.sizeBlocks.toNat)
    (hmax : m ≤ directPtrs + ptrPerPage) (k : Nat) (hm : n + k ≤ m) {fuel : Nat} (hfuel : k < fuel)
    {d : Disk} (h : Lowered fs d₀ d₁ (pageStack d₁ inode n k) d) :
    ∃ d', Fs.shrink fs inode u n fuel (n + k - 1) d = some d' ∧ Lowered fs d₀ d₁ [] d' := by
  induction k generalizing fuel d with
  | zero =>
      obtain ⟨fuel, rfl⟩ : ∃ x, fuel = x + 1 := ⟨fuel - 1, by omega⟩
      refine ⟨d, ?_, h⟩
      rw [Fs.shrink, if_neg (by omega)]
  | succ k ih =>
      obtain ⟨fuel, rfl⟩ : ∃ x, fuel = x + 1 := ⟨fuel - 1, by omega⟩
      have hid : n + (k + 1) - 1 = n + k := by omega
      have hnext : u64 (n + k + 2 ^ 64 - 1) = n + k - 1 := by
        have : directPtrs + ptrPerPage < 2 ^ 64 := by decide
        rw [u64]
        omega
      rw [Fs.shrink, hid, if_pos (by omega), hnext]
      exact ih (by omega) (by omega) (h.freePage hd (by omega) (by omega) hi (u (n + k)))

end Shrink

/-! ## The two calls -/

/-- The data bitmap, the size of the file and its pages are those of `d`. -/
structure Restored (fs : Filesystem) (d : Disk) (f : Nat) (d' : Disk) : Prop where
  bitmap : ∀ a, fs.dataBitmapOffset * pageSize ≤ a → a < fs.inodeTableOffset * pageSize →
    d'.bytes a = d.bytes a
  size : (inodeOf fs d' f).sizeBytes = (inodeOf fs d f).sizeBytes
  mapping : ∀ i, i < pages fs d f → ∀ junk,
    lookup d' (inodeOf fs d' f) junk i = lookup d (inodeOf fs d f) junk i

section Calls

variable {fs : Filesystem} {d d₁ d' : Disk} {f n m c : Nat} {inode : Inode} {new : List Nat}

theorem inodeTable_le_inodeAddr (fs : Filesystem) (f : Nat) :
    fs.inodeTableOffset * pageSize ≤ inodeAddr fs f :=
  Nat.le_add_right ..

theorem Raised.start (hindex : directPtrs < n → (inodeOf fs d f).singleInd.toNat < fs.sizeBlocks.toNat)
    (hc : IndexApart fs d f n m) : Raised fs d f n m 0 [] 0 d (inodeOf fs d f) :=
  { size := rfl
    marks := ⟨List.nodup_nil, nofun, nofun, fun b _ => by simp⟩
    count := fun _ _ => (Nat.sub_zero _).symm
    direct := fun _ _ => rfl
    single := fun _ => rfl
    rest := ⟨rfl, rfl, rfl, rfl⟩
    index := fun h => ⟨hc.own h, hindex h⟩
    frame := fun _ _ _ => rfl }

/-- A byte that is not spare is not written to while the file grows, unless it is
in the bitmap. -/
theorem Raised.unspared (h : Raised fs d f n m (m - n) new c d' inode) (hnm : n ≤ m) {a : Nat}
    (ha : ¬ InBitmap fs a) (hs : ¬ Spare fs f a) : d'.bytes a = d.bytes a := by
  refine h.frame a ha fun i hni h25 him => ?_
  have him' : i < m := by omega
  refine Nat.lt_or_ge _ _ |>.imp_right fun hge => Nat.le_of_not_lt fun hlt => hs ?_
  have hspare := (h.index (by omega)).1 i hni h25 him' (a - pointerAddr inode.singleInd i) (by omega)
  rwa [Nat.add_sub_cancel' hge] at hspare

/-- The disk after the growth is one to shrink the file on. -/
theorem Raised.lowered (h : Raised fs d f n m (m - n) (pageStack d' inode n (m - n)) c d' inode)
    (hd : OnDevice fs d') (hf : f < fs.inodeTableBlocks.toNat * 32) (hnm : n ≤ m)
    (hmax : m ≤ directPtrs + ptrPerPage) (newsize : UInt64) :
    Lowered fs d (fsFileSync fs d' f { inode with sizeBytes := newsize })
      (pageStack (fsFileSync fs d' f { inode with sizeBytes := newsize })
        { inode with sizeBytes := newsize } n (m - n))
      (fsFileSync fs d' f { inode with sizeBytes := newsize }) := by
  have hstack : pageStack (fsFileSync fs d' f { inode with sizeBytes := newsize })
      { inode with sizeBytes := newsize } n (m - n) = pageStack d' inode n (m - n) := by
    refine pageStack_congr (fun i hni him => ?_) fun _ => rfl
    refine lookup_of_bytes (fsFileSync_size hd hf _) (by omega) rfl (fun _ => rfl)
      (fun h25 j hj => ?_) 0
    exact fsFileSync_bytes hd hf _ ((h.index (by omega)).1 i hni h25 (by omega) j hj).inode
  rw [hstack]
  refine ⟨rfl, h.marks.congr fun a ha => ?_, fun _ _ => rfl⟩
  have hlt := ha.bounds.2
  have hle := inodeTable_le_inodeAddr fs f
  exact fsFileSync_bytes hd hf _ (.inl (by omega))

/-- The number is still that of a file after the growth. -/
theorem Raised.isFile (h : Raised fs d f n m (m - n) new c d' inode) (hd : OnDevice fs d')
    (hf : IsFile fs d f) (hnm : n ≤ m) (inode' : Inode) :
    IsFile fs (fsFileSync fs d' f inode') f := by
  have hlt := inodeBitmapByte_lt hf.lt
  have hle := Nat.le_trans (dataBitmapOffset_le fs) (inodeTable_le_inodeAddr fs f)
  refine ⟨hf.lt, ?_⟩
  rw [fsFileSync_bytes hd hf.lt _ (.inl (by omega)),
    h.unspared hnm (fun hb => absurd hb.1 (by omega)) fun hs => hs.bit rfl]
  exact hf.marked

/-- What is left on the disk once the blocks are freed and the inode has its old
size. -/
theorem Raised.restored
    (h : Raised fs d f (pages fs d f) m (m - pages fs d f) new c d' inode) (hd : OnDevice fs d)
    (hf : f < fs.inodeTableBlocks.toNat * 32) (hnm : pages fs d f ≤ m)
    (hmax : m ≤ directPtrs + ptrPerPage) {newsize oldsize : UInt64} {d₂ : Disk}
    (hl : Lowered fs d (fsFileSync fs d' f { inode with sizeBytes := newsize }) [] d₂)
    (hold : oldsize = (inodeOf fs d f).sizeBytes) :
    Restored fs d f (fsFileSync fs d₂ f { inode with sizeBytes := oldsize }) := by
  have hd' : OnDevice fs d' := ⟨by rw [h.size]; exact hd.le, by rw [h.size]; exact hd.lt⟩
  have hsize₂ : d₂.size = d.size := by rw [hl.size, fsFileSync_size hd' hf, h.size]
  have hd₂ : OnDevice fs d₂ := ⟨by rw [hsize₂]; exact hd.le, by rw [hsize₂]; exact hd.lt⟩
  have hle := inodeTable_le_inodeAddr fs f
  have hinode : inodeOf fs (fsFileSync fs d₂ f { inode with sizeBytes := oldsize }) f =
      { inode with sizeBytes := oldsize } := by
    rw [inodeOf_sync hd₂ hf, if_pos rfl]
  -- the disk outside the inode
  have hbytes : ∀ a, (a < inodeAddr fs f ∨ inodeAddr fs f + 4 * inodeWords ≤ a) →
      (¬ InBitmap fs a → d'.bytes a = d.bytes a) →
      (fsFileSync fs d₂ f { inode with sizeBytes := oldsize }).bytes a = d.bytes a := by
    intro a ha hframe
    rw [fsFileSync_bytes hd₂ hf _ ha]
    by_cases hb : InBitmap fs a
    · exact hl.marks.bytes hb
    · rw [hl.bytes a hb, fsFileSync_bytes hd' hf _ ha, hframe hb]
  refine ⟨fun a h₁ h₂ => ?_, by rw [hinode, ← hold], fun i hi junk => ?_⟩
  · refine hbytes a (.inl (by omega)) fun hb => h.unspared hnm hb fun hs => ?_
    have := hs.bitmap
    omega
  · rw [hinode]
    by_cases h25 : i < directPtrs
    · rw [lookup_direct h25, lookup_direct h25, ← h.direct ⟨i, h25⟩ hi]
    have hsingle := h.single (by omega)
    refine lookup_of_bytes ((fsFileSync_size hd₂ hf _).trans hsize₂) (by omega) hsingle
      (fun h => absurd h h25) (fun _ j hj => ?_) junk
    by_cases ha : pointerAddr (inodeOf fs d f).singleInd i + j < inodeAddr fs f ∨
        inodeAddr fs f + 4 * inodeWords ≤ pointerAddr (inodeOf fs d f).singleInd i + j
    · refine hbytes _ ha fun hb => h.frame _ hb fun i' h₁ _ _ => .inl ?_
      have := pointerAddr_lt (q := inode.singleInd) (show directPtrs ≤ i by omega)
        (show i < i' by omega)
      rw [← hsingle]
      omega
    · -- an old pointer inside the inode: all of the inode is as it was
      have hdirect : inode.direct = (inodeOf fs d f).direct :=
        funext fun x => h.direct x (by omega)
      have hsame : inodeOf fs (fsFileSync fs d₂ f { inode with sizeBytes := oldsize }) f =
          inodeOf fs d f := by
        rw [hinode, hdirect, hsingle, h.rest.1, h.rest.2.1, h.rest.2.2.1, h.rest.2.2.2, hold]
      exact bytes_of_inodeOf hsame (by omega) (by omega)

/-- A file that grows within the direct and single indirect pages and is cut back
to its old size leaves the bitmap, its size and its pages as they were. -/
theorem truncate_undoes_growth (hd : OnDevice fs d) (hf : IsFile fs d f) (hpos : 1 ≤ pages fs d f)
    {newsize : UInt64} (hlt : pages fs d f < addr2PageUp newsize.toNat)
    (hmax : addr2PageUp newsize.toNat ≤ directPtrs + ptrPerPage)
    (hfree : needed (pages fs d f) (addr2PageUp newsize.toNat) ≤
      freeBelow fs d fs.sizeBlocks.toNat)
    (hindex : directPtrs < pages fs d f → (inodeOf fs d f).singleInd.toNat < fs.sizeBlocks.toNat)
    (hc : IndexApart fs d f (pages fs d f) (addr2PageUp newsize.toNat)) (u u' : TruncateLocals) :
    ∃ d₁ d₂, fsFileTruncate fs d u f newsize = some (0, d₁) ∧
      fsFileTruncate fs d₁ u' f (inodeOf fs d f).sizeBytes = some (0, d₂) ∧
      Restored fs d f d₂ := by
  have hne : (inodeOf fs d f).sizeBytes ≠ newsize := fun h => by
    rw [pages, h] at hlt
    exact absurd hlt (Nat.lt_irrefl _)
  obtain ⟨⟨d', inode, b₂, b₃⟩, hs, hr⟩ := (Raised.start hindex hc).grow
    (s := ⟨d, inodeOf fs d f, u.block2nd, u.block3rd⟩) hd hc hlt hmax hfree
  dsimp only at hr
  have hsd : OnDevice fs d' := ⟨by rw [hr.size]; exact hd.le, by rw [hr.size]; exact hd.lt⟩
  have hsync := fsFileSync_size hsd hf.lt { inode with sizeBytes := newsize }
  have hd₁ : OnDevice fs (fsFileSync fs d' f { inode with sizeBytes := newsize }) :=
    ⟨by rw [hsync]; exact hsd.le, by rw [hsync]; exact hsd.lt⟩
  have hinode : inodeOf fs (fsFileSync fs d' f { inode with sizeBytes := newsize }) f =
      { inode with sizeBytes := newsize } := by
    rw [inodeOf_sync hsd hf.lt, if_pos rfl]
  have hlow := hr.lowered hsd hf.lt (Nat.le_of_lt hlt) hmax newsize
  have hi : directPtrs < addr2PageUp newsize.toNat →
      PointersApart fs f (pages fs d f) (addr2PageUp newsize.toNat)
        ({ inode with sizeBytes := newsize } : Inode).singleInd ∧
      ({ inode with sizeBytes := newsize } : Inode).singleInd.toNat < fs.sizeBlocks.toNat :=
    fun h => hr.index (by omega)
  obtain ⟨d₂, hd₂, hend⟩ := hlow.shrink (u := u'.shrink) hd₁ hpos hi hmax (addr2PageUp newsize.toNat - pages fs d f) (by omega)
    (show _ < addr2PageUp newsize.toNat + 1 by omega)
  refine ⟨fsFileSync fs d' f { inode with sizeBytes := newsize }, _, ?_, ?_,
    hr.restored hd hf.lt (Nat.le_of_lt hlt) hmax hend rfl⟩
  · rw [fsFileTruncate_eq hd hf hne, truncatePages, if_pos hlt, hs]
  · have hpages : pages fs (fsFileSync fs d' f { inode with sizeBytes := newsize }) f =
        addr2PageUp newsize.toNat := by
      rw [pages, hinode]
    have hid : addr2PageUp newsize.toNat - 1 =
        pages fs d f + (addr2PageUp newsize.toNat - pages fs d f) - 1 := by omega
    have hback : addr2PageUp (inodeOf fs d f).sizeBytes.toNat = pages fs d f := rfl
    rw [fsFileTruncate_eq hd₁ (hr.isFile hsd hf (Nat.le_of_lt hlt) _)
      (by rw [hinode]; exact fun h => hne h.symm), hpages, hinode, hback, truncatePages,
      if_neg (by omega), if_pos hlt, hid, hd₂]
    rfl

end Calls

/-! ## At the last direct page -/

theorem freeBelow_mono {fs : Filesystem} {d : Disk} {x y : Nat} (h : x ≤ y) :
    freeBelow fs d x ≤ freeBelow fs d y :=
  Nat.count_monotone _ h

theorem two_le_freeBelow {fs : Filesystem} {d : Disk} {b : Nat} (h₁ : marked fs d b = false)
    (h₂ : marked fs d (b + 1) = false) : 2 ≤ freeBelow fs d (b + 2) := by
  rw [freeBelow, Nat.count_succ, Nat.count_succ, if_pos h₁, if_pos h₂]
  omega

/-- A file of 25 pages in the blocks from `base` on. -/
def directInode (base : Nat) : Inode :=
  { type := 1, permission := 6, sizeBytes := 25 * 4096, direct := fun i => UInt32.ofNat (base + i)
    singleInd := 0, doubleInd := 0, tripleInd := 0 }

/-- The small file system with this file as file `2`; the blocks below `29` are
marked. -/
def smallDisk : Disk :=
  ((((Disk.mk (fun _ => 0) (2048 * 4096)).write 4096 1 fun _ => 4).write (2 * 4096) 3 fun _ =>
    0xff).write (2 * 4096 + 3) 1 fun _ => 0x1f).write (3 * 4096 + 256) 128
    (bytesOfWords (directInode 4).words)

theorem smallDisk_pages : pages sampleFs smallDisk 2 = 25 := by decide

/-- One page more takes two blocks, and they are freed again. -/
theorem truncate_undoes_growth_edge : ∃ d₁ d₂,
    fsFileTruncate sampleFs smallDisk zeroLocals 2 106496 = some (0, d₁) ∧
      fsFileTruncate sampleFs d₁ zeroLocals 2 (inodeOf sampleFs smallDisk 2).sizeBytes =
        some (0, d₂) ∧
      Restored sampleFs smallDisk 2 d₂ := by
  have hnew : addr2PageUp (106496 : UInt64).toNat = 26 := by decide
  have hfree : needed 25 26 ≤ freeBelow sampleFs smallDisk sampleFs.sizeBlocks.toNat :=
    Nat.le_trans (by decide : needed 25 26 ≤ freeBelow sampleFs smallDisk 31)
      (freeBelow_mono (by decide))
  have hmeta : ∀ b, b < sampleFs.dataStart → marked sampleFs smallDisk b = true := by
    decide
  refine truncate_undoes_growth ⟨by decide, by decide⟩ ⟨by decide, by decide⟩
    (by rw [smallDisk_pages]; decide) (by rw [smallDisk_pages, hnew]; decide)
    (by rw [hnew]; decide) (by rw [smallDisk_pages, hnew]; exact hfree)
    (by rw [smallDisk_pages]; exact fun h => absurd h (by decide))
    (indexApart_of_small (by decide) (by decide) hmeta ?_) zeroLocals zeroLocals
  rw [smallDisk_pages]
  exact fun h => absurd h (by decide)

/-- The large file system with a file of 25 pages as file `2`; the blocks below
`2 ^ 20 + 2` are marked. -/
def edgeDisk : Disk :=
  ((((Disk.mk (fun _ => 0) (1048640 * 4096)).write 4096 1 fun _ => 4).write (2 * 4096) 131072 fun _ =>
    0xff).write (2 * 4096 + 131072) 1 fun _ => 0x03).write (35 * 4096 + 256) 128
    (bytesOfWords (directInode 36).words)

theorem edgeDisk_full {a : Nat} (h₁ : 2 * 4096 ≤ a) (h₂ : a < 2 * 4096 + 131072) :
    edgeDisk.bytes a = 0xff := by
  rw [edgeDisk, Disk.write_bytes, patch_of_lt (by omega), Disk.write_bytes, patch_of_lt (by omega),
    Disk.write_bytes, patch_of_mem h₁ h₂]

theorem edgeDisk_last : edgeDisk.bytes (2 * 4096 + 131072) = 0x03 := by
  decide

theorem edgeDisk_inode : inodeOf largeFs edgeDisk 2 = directInode 36 := by
  have hw : ∀ k, k < inodeWords →
      le32 edgeDisk.bytes (inodeAddr largeFs 2 + 4 * k) = (directInode 36).words k := by
    decide
  rw [inodeOf, Inode.ofWords_congr hw, Inode.ofWords_words]

theorem edgeDisk_marked {b : Nat} (h : b < 2 ^ 20 + 2) : marked largeFs edgeDisk b = true := by
  have hoff : largeFs.dataBitmapOffset * pageSize = 2 * 4096 := by decide
  by_cases hb : b < 2 ^ 20
  · rw [marked, bitmapByte, hoff, edgeDisk_full (by omega) (by omega)]
    exact bitmapGet_full b
  · rw [marked, bitmapByte, hoff, show b / 8 = 131072 by omega, edgeDisk_last]
    rcases (by omega : b = 2 ^ 20 ∨ b = 2 ^ 20 + 1) with rfl | rfl <;> decide

theorem edgeDisk_free {b : Nat} (h₁ : 2 ^ 20 + 2 ≤ b) (h₂ : b < 2 ^ 20 + 8) :
    marked largeFs edgeDisk b = false := by
  have hoff : largeFs.dataBitmapOffset * pageSize = 2 * 4096 := by decide
  rw [marked, bitmapByte, hoff, show b / 8 = 131072 by omega, edgeDisk_last]
  rcases (by omega : b = 2 ^ 20 + 2 ∨ b = 2 ^ 20 + 3 ∨ b = 2 ^ 20 + 4 ∨ b = 2 ^ 20 + 5 ∨
    b = 2 ^ 20 + 6 ∨ b = 2 ^ 20 + 7) with rfl | rfl | rfl | rfl | rfl | rfl <;> decide

theorem edgeDisk_page {g i : Nat} (hp : (files largeFs edgeDisk).Page g i) :
    g = 2 ∧ i < directPtrs := by
  have hall : ∀ g, g < 32 → bitmapGet (edgeDisk.bytes (inodeBitmapByte g)) g = true → g = 2 := by
    decide
  obtain rfl := hall g (IsFile.lt hp.file) (IsFile.marked hp.file)
  have hlt : i < addr2PageUp (inodeOf largeFs edgeDisk 2).sizeBytes.toNat := hp.lt
  rw [edgeDisk_inode] at hlt
  exact ⟨rfl, hlt⟩

theorem edgeDisk_lookup {g i : Nat} (hp : (files largeFs edgeDisk).Page g i) (junk : UInt32) :
    (lookup edgeDisk ((files largeFs edgeDisk).inode g) junk i).toNat = 36 + i := by
  obtain ⟨rfl, hi⟩ := edgeDisk_page hp
  have hall : ∀ i : Fin directPtrs, ((directInode 36).direct i).toNat = 36 + i.val := by decide
  show (lookup edgeDisk (inodeOf largeFs edgeDisk 2) junk i).toNat = 36 + i
  rw [edgeDisk_inode, lookup_direct hi]
  exact hall ⟨i, hi⟩

theorem edgeDisk_notIndex {b : Nat} : ¬ (files largeFs edgeDisk).IsIndex edgeDisk b := by
  rintro ⟨g, i, junk, hp, q, hq, -⟩
  obtain ⟨rfl, hi⟩ := edgeDisk_page hp
  rw [indexBlocks, offsets, if_pos hi] at hq
  exact absurd hq List.not_mem_nil

theorem edgeDisk_wellFormed : WellFormed largeFs edgeDisk (files largeFs edgeDisk) := by
  have h25 : directPtrs = 25 := rfl
  constructor
  · intro g i hp junk
    have hi := (edgeDisk_page hp).2
    rw [edgeDisk_lookup hp]
    exact Nat.lt_trans (by omega : 36 + i < 61) (by decide)
  · intro g i hp junk
    have hi := (edgeDisk_page hp).2
    rw [edgeDisk_lookup hp]
    exact edgeDisk_marked (by omega)
  · exact fun _ _ => edgeDisk_notIndex
  · intro g i hp junk
    rw [edgeDisk_lookup hp]
    exact Nat.le_add_right 36 i
  · intro g i g' i' hp hp' junk junk' he
    have heq := congrArg UInt32.toNat he
    rw [edgeDisk_lookup hp, edgeDisk_lookup hp'] at heq
    exact ⟨(edgeDisk_page hp).1.trans (edgeDisk_page hp').1.symm, by omega⟩

theorem edgeDisk_covered : Covered largeFs edgeDisk (files largeFs edgeDisk) := by
  refine ⟨⟨by decide, by decide⟩, fun b hb => ?_, fun h => absurd h edgeDisk_notIndex,
    fun h => absurd h edgeDisk_notIndex, fun h => absurd h edgeDisk_notIndex, fun {g} hg => ?_⟩
  · have hb' : b < 36 := hb
    exact edgeDisk_marked (by omega)
  · refine Nat.le_of_not_lt fun hlt => ?_
    have hi := (edgeDisk_page ⟨hg, hlt⟩).2
    exact absurd hi (by decide)

/-- The first free block is the one that is allocated. -/
theorem allocateBlock_first (fs : Filesystem) (d : Disk) {b : Nat} (hlt : b < 8 * fs.bitmapBytes)
    (hfree : marked fs d b = false) (hleast : ∀ c, c < b → marked fs d c = true) :
    ∃ d', allocateBlock fs d = some (b, d') ∧ Allocated fs d b d' := by
  have hc := allocateBlock_cases fs d
  cases ha : allocateBlock fs d with
  | none =>
      rw [ha] at hc
      rw [hc b hlt] at hfree
      cases hfree
  | some r =>
      obtain ⟨c, d'⟩ := r
      rw [ha] at hc
      rcases Nat.lt_trichotomy b c with h | rfl | h
      · rw [hc.least b h] at hfree
        cases hfree
      · exact ⟨d', rfl, hc⟩
      · have := hleast c h
        rw [hc.free] at this
        cases this

/-- `free_block` changes no byte but that of its bit. -/
theorem freeBlockIf_bytes (fs : Filesystem) (junk : UInt8) (c : Bool) (b : UInt32) (d : Disk) {a : Nat}
    (ha : a ≠ bitmapByte fs b.toNat) : (freeBlockIf fs junk c b d).bytes a = d.bytes a := by
  rw [freeBlockIf, freeBlock]
  split
  · split
    · rw [wrappedWrite]
      split
      · rfl
      · exact setByte_of_ne ha
    · rfl
  · rfl

theorem freeBlockIf_size (fs : Filesystem) (junk : UInt8) (c : Bool) (b : UInt32) (d : Disk) :
    (freeBlockIf fs junk c b d).size = d.size := by
  rw [freeBlockIf, freeBlock]
  split
  · split
    · rw [wrappedWrite]
      split <;> rfl
    · rfl
  · rfl

theorem grow_firstSingle {fs : Filesystem} {s : GrowState} {q t : Nat} {d₁ d₂ : Disk}
    (hq : allocateBlock fs s.disk = some (q, d₁)) (ht : allocateBlock fs d₁ = some (t, d₂)) :
    GrowState.grow fs 25 26 s = .ok { s with
      disk := writePtr d₂ (addr32 (UInt32.ofNat q) 0) (UInt32.ofNat t)
      inode := { s.inode with singleInd := UInt32.ofNat q } } := by
  show GrowState.growSingle fs 0 s = _
  rw [GrowState.growSingle, GrowState.allocateIf, if_pos (by decide), GrowState.allocate_eq hq,
    ok_bind, ok_bind, GrowState.allocate_eq (s := GrowState.setSingle q { s with disk := d₁ }) ht,
    ok_bind]
  rfl

/-- The first single indirect page is cut off: the disk stays as it is but for the
bits of two blocks. -/
theorem shrink_firstSingle (fs : Filesystem) (inode : Inode) (u : Nat → ShrinkLocals) (d : Disk) :
    ∃ d', shrink fs inode u 25 27 25 d = some d' ∧ d'.size = d.size ∧
      ∀ a, a ≠ bitmapByte fs (readPtr d (addr32 inode.singleInd 0) (u 25).tempBlock).toNat →
        a ≠ bitmapByte fs inode.singleInd.toNat → d'.bytes a = d.bytes a := by
  refine ⟨freePage fs inode (u 25) 25 d, ?_, ?_, fun a h₁ h₂ => ?_⟩
  · rw [shrink, if_pos (Nat.le_refl _), shrink, if_neg (by decide)]
  · rw [freePage, dif_neg (by decide), if_pos (by decide)]
    rw [freeBlockIf_size, freeBlockIf_size]
  · rw [freePage, dif_neg (by decide), if_pos (by decide)]
    rw [freeBlockIf_bytes _ _ _ _ _ h₂]
    exact freeBlockIf_bytes _ _ _ _ _ h₁

/-- With the index block `2 ^ 20 + 2` the pointer to page 25 is written over the
first bytes of the data bitmap.  After the file is cut back block 8 of the
metadata is free. -/
theorem growth_over_bitmap_not_undone :
    edgeDisk.size = largeFs.sizeBlocks.toNat * pageSize ∧ largeFs.sizeBlocks.toNat % 8 = 0 ∧
      WellFormed largeFs edgeDisk (files largeFs edgeDisk) ∧
      Covered largeFs edgeDisk (files largeFs edgeDisk) ∧ IsFile largeFs edgeDisk 2 ∧
      pages largeFs edgeDisk 2 = 25 ∧
      needed 25 26 ≤ freeBelow largeFs edgeDisk largeFs.sizeBlocks.toNat ∧
      ∃ d₁ d₂, fsFileTruncate largeFs edgeDisk zeroLocals 2 (26 * 4096) = some (0, d₁) ∧
        fsFileTruncate largeFs d₁ zeroLocals 2 (25 * 4096) = some (0, d₂) ∧
        marked largeFs edgeDisk 8 = true ∧ marked largeFs d₂ 8 = false := by
  have hf : IsFile largeFs edgeDisk 2 := ⟨by decide, by decide⟩
  have hd : OnDevice largeFs edgeDisk := ⟨by decide, by decide⟩
  have hpages : pages largeFs edgeDisk 2 = 25 := by
    rw [pages, edgeDisk_inode]
    decide
  have htop : 2 ^ 20 + 8 ≤ 8 * largeFs.bitmapBytes := by decide
  obtain ⟨dq, hq, hqa⟩ := allocateBlock_first largeFs edgeDisk (b := 2 ^ 20 + 2)
    (by omega) (edgeDisk_free (by omega) (by omega)) fun c hc => edgeDisk_marked hc
  obtain ⟨dt, ht, hta⟩ := allocateBlock_first largeFs dq (b := 2 ^ 20 + 3)
    (by omega)
    (by rw [hqa.marked, edgeDisk_free (by omega) (by omega)]; decide)
    (fun c hc => by
      rw [hqa.marked, Bool.or_eq_true, decide_eq_true_iff]
      rcases Nat.lt_or_ge c (2 ^ 20 + 2) with h | h
      · exact .inr (edgeDisk_marked h)
      · exact .inl (by omega))
  have hdt : OnDevice largeFs dt := by
    have hsize : dt.size = edgeDisk.size := hta.size.trans hqa.size
    exact ⟨by rw [hsize]; exact hd.le, by rw [hsize]; exact hd.lt⟩
  -- the pointer goes to the first bytes of the bitmap
  obtain ⟨dw, hdw⟩ : ∃ dw, dw = writePtr dt (2 * 4096) (UInt32.ofNat (2 ^ 20 + 3)) := ⟨_, rfl⟩
  have hle : 2 * 4096 + 4 ≤ dt.size := Nat.le_trans (by decide) hdt.le
  have hwrite : dw = dt.write (2 * 4096) 4 (bytes32 (UInt32.ofNat (2 ^ 20 + 3))) :=
    hdw.trans (writePtr_of_le hle hdt.lt)
  have hdwd : OnDevice largeFs dw := by rw [hwrite]; exact ⟨hdt.le, hdt.lt⟩
  obtain ⟨inode, hinode⟩ : ∃ inode : Inode, inode = { directInode 36 with
    singleInd := UInt32.ofNat (2 ^ 20 + 2), sizeBytes := 26 * 4096 } := ⟨_, rfl⟩
  obtain ⟨d₁, hd₁⟩ : ∃ d₁, d₁ = fsFileSync largeFs dw 2 inode := ⟨_, rfl⟩
  have hsync : ∀ a, a < 35 * 4096 → d₁.bytes a = dw.bytes a := fun a ha => by
    rw [hd₁]
    exact fsFileSync_bytes hdwd hf.lt _ (.inl (Nat.lt_of_lt_of_le ha (by decide)))
  have hsize : d₁.size = dt.size := by
    rw [hd₁, fsFileSync_size hdwd hf.lt, hwrite, Disk.write_size]
  have hd₁d : OnDevice largeFs d₁ := ⟨by rw [hsize]; exact hdt.le, by rw [hsize]; exact hdt.lt⟩
  have hof : inodeOf largeFs d₁ 2 = inode := by rw [hd₁, inodeOf_sync hdwd hf.lt, if_pos rfl]
  have hf₁ : IsFile largeFs d₁ 2 := by
    have hbit : inodeBitmapByte 2 = 4096 := by decide
    have hb₂ : bitmapByte largeFs (2 ^ 20 + 2) = 139264 := by decide
    have hb₃ : bitmapByte largeFs (2 ^ 20 + 3) = 139264 := by decide
    refine ⟨by decide, ?_⟩
    rw [hbit, hsync _ (by decide), hwrite, Disk.write_bytes, patch_of_lt (by decide),
      hta.bytes _ (by rw [hb₃]; decide), hqa.bytes _ (by rw [hb₂]; decide)]
    exact hf.marked
  have hread : readPtr d₁ (addr32 inode.singleInd 0) (zeroLocals.shrink 25).tempBlock =
      UInt32.ofNat (2 ^ 20 + 3) := by
    have haddr : addr32 inode.singleInd 0 = 2 * 4096 := by rw [hinode]; decide
    rw [haddr, readPtr_of_le (by rw [hsize]; exact hle) hd₁d.lt]
    refine (le32_congr fun j hj => hsync _ (by omega)).trans ?_
    rw [hwrite]
    exact le32_patch_self
  obtain ⟨d₂, hd₂, hsize₂, hbytes⟩ := shrink_firstSingle largeFs inode zeroLocals.shrink d₁
  rw [hread] at hbytes
  have hd₂d : OnDevice largeFs d₂ :=
    ⟨by rw [hsize₂]; exact hd₁d.le, by rw [hsize₂]; exact hd₁d.lt⟩
  have hneq : (inodeOf largeFs edgeDisk 2).sizeBytes ≠ 26 * 4096 := by
    rw [edgeDisk_inode]
    decide
  have hneq₁ : (inodeOf largeFs d₁ 2).sizeBytes ≠ 25 * 4096 := by
    rw [hof, hinode]
    decide
  have hpages₁ : pages largeFs d₁ 2 = 26 := by
    rw [pages, hof, hinode]
    decide
  have h26 : addr2PageUp (26 * 4096 : UInt64).toNat = 26 := by decide
  have h25 : addr2PageUp (25 * 4096 : UInt64).toNat = 25 := by decide
  refine ⟨rfl, by decide, edgeDisk_wellFormed, edgeDisk_covered, hf, hpages, ?_, d₁,
    fsFileSync largeFs d₂ 2 { inode with sizeBytes := 25 * 4096 }, ?_, ?_,
    edgeDisk_marked (by omega), ?_⟩
  · have hneed : needed 25 26 = 2 := by decide
    have hfree := two_le_freeBelow (edgeDisk_free (Nat.le_refl (2 ^ 20 + 2)) (by omega))
      (edgeDisk_free (by omega) (by omega))
    rw [hneed]
    exact Nat.le_trans hfree (freeBelow_mono (by decide))
  · have hgrow := grow_firstSingle (s := ⟨edgeDisk, inodeOf largeFs edgeDisk 2, zeroLocals.block2nd,
      zeroLocals.block3rd⟩) hq ht
    rw [fsFileTruncate_eq hd hf hneq, hpages, h26, truncatePages, if_pos (by decide), hgrow]
    have haddr : addr32 (UInt32.ofNat (2 ^ 20 + 2)) 0 = 2 * 4096 := by decide
    show some ((0 : Int), fsFileSync largeFs (writePtr dt (addr32 (UInt32.ofNat (2 ^ 20 + 2)) 0)
      (UInt32.ofNat (2 ^ 20 + 3))) 2 { inodeOf largeFs edgeDisk 2 with
        singleInd := UInt32.ofNat (2 ^ 20 + 2), sizeBytes := 26 * 4096 }) = some (0, d₁)
    rw [hd₁, hdw, hinode, haddr, edgeDisk_inode]
  · rw [fsFileTruncate_eq hd₁d hf₁ hneq₁, hpages₁, h25, hof, truncatePages, if_neg (by decide),
      if_pos (by decide), hd₂]
    rfl
  · have hbyte : bitmapByte largeFs 8 = 8193 := by decide
    have hb₂ : bitmapByte largeFs inode.singleInd.toNat = 139264 := by rw [hinode]; decide
    have hb₃ : bitmapByte largeFs (UInt32.ofNat (2 ^ 20 + 3)).toNat = 139264 := by decide
    rw [marked, hbyte, fsFileSync_bytes hd₂d hf.lt _ (.inl (by decide)),
      hbytes _ (by rw [hb₃]; decide) (by rw [hb₂]; decide), hsync _ (by decide), hwrite,
      Disk.write_bytes, patch_of_mem (by decide) (by decide)]
    decide

end Fs
