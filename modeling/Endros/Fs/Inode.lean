import Endros.Fs.Bitmap

/-!
# The inode table

An `Inode` is 128 bytes, 32 words: the type, the permission, the two halves of
the size, the direct blocks and the three indirect ones.  `get_inode` leaves the
caller's variable as it is when the inode is not marked or the read fails.
-/

namespace Fs

open Lib Mem

/-- `sizeof(Inode) / 4`. -/
def inodeWords : Nat := 32

/-- The words of an inode. -/
def Inode.words (inode : Inode) (k : Nat) : UInt32 :=
  if k = 0 then inode.type
  else if k = 1 then inode.permission
  else if k = 2 then UInt32.ofNat inode.sizeBytes.toNat
  else if k = 3 then UInt32.ofNat (inode.sizeBytes.toNat / 2 ^ 32)
  else if h : k - 4 < directPtrs then inode.direct ⟨k - 4, h⟩
  else if k = 29 then inode.singleInd
  else if k = 30 then inode.doubleInd
  else inode.tripleInd

/-- The inode with these words. -/
def Inode.ofWords (w : Nat → UInt32) : Inode :=
  { type := w 0
    permission := w 1
    sizeBytes := UInt64.ofNat ((w 2).toNat + (w 3).toNat * 2 ^ 32)
    direct := fun i => w (4 + i.val)
    singleInd := w 29
    doubleInd := w 30
    tripleInd := w 31 }

theorem Inode.ofWords_words (inode : Inode) : Inode.ofWords inode.words = inode := by
  obtain ⟨type, permission, size, direct, single, double, triple⟩ := inode
  have hsize : UInt64.ofNat ((UInt32.ofNat size.toNat).toNat +
      (UInt32.ofNat (size.toNat / 2 ^ 32)).toNat * 2 ^ 32) = size := by
    apply UInt64.toNat_inj.mp
    have h := size.toNat_lt
    rw [UInt64.toNat_ofNat', UInt32.toNat_ofNat', UInt32.toNat_ofNat']
    omega
  have hdirect : ∀ i : Fin directPtrs, Inode.words
      ⟨type, permission, size, direct, single, double, triple⟩ (4 + i.val) = direct i := by
    intro i
    have hi : 4 + i.val - 4 < directPtrs := by omega
    have hsub : 4 + i.val - 4 = i.val := by omega
    rw [Inode.words, if_neg (by omega), if_neg (by omega), if_neg (by omega), if_neg (by omega),
      dif_pos hi]
    simp only [hsub]
  rw [Inode.ofWords, Inode.mk.injEq]
  exact ⟨rfl, rfl, hsize, funext hdirect, rfl, rfl, rfl⟩

theorem Inode.ofWords_congr {w w' : Nat → UInt32} (h : ∀ k, k < inodeWords → w k = w' k) :
    Inode.ofWords w = Inode.ofWords w' := by
  have hd : ∀ i : Fin directPtrs, w (4 + i.val) = w' (4 + i.val) := fun i =>
    h _ (by have := i.isLt; simp only [directPtrs, inodeWords] at *; omega)
  simp only [Inode.ofWords, hd, h 0 (by decide), h 1 (by decide), h 2 (by decide), h 3 (by decide),
    h 29 (by decide), h 30 (by decide), h 31 (by decide)]

theorem Inode.words_ofWords {w : Nat → UInt32} {k : Nat} (hk : k < inodeWords) :
    (Inode.ofWords w).words k = w k := by
  have hsize : (UInt64.ofNat ((w 2).toNat + (w 3).toNat * 2 ^ 32)).toNat =
      (w 2).toNat + (w 3).toNat * 2 ^ 32 := by
    have h₂ := (w 2).toNat_lt
    have h₃ := (w 3).toNat_lt
    rw [UInt64.toNat_ofNat']
    exact Nat.mod_eq_of_lt (by omega)
  rw [Inode.words]
  by_cases h : 4 ≤ k ∧ k - 4 < directPtrs
  · rw [if_neg (by omega), if_neg (by omega), if_neg (by omega), if_neg (by omega), dif_pos h.2]
    exact congrArg w (by show 4 + (k - 4) = k; omega)
  · simp only [directPtrs, inodeWords] at h hk
    rcases (by omega : k = 0 ∨ k = 1 ∨ k = 2 ∨ k = 3 ∨ k = 29 ∨ k = 30 ∨ k = 31) with
      rfl | rfl | rfl | rfl | rfl | rfl | rfl
    · rfl
    · rfl
    · apply UInt32.toNat_inj.mp
      show (UInt32.ofNat (UInt64.ofNat ((w 2).toNat + (w 3).toNat * 2 ^ 32)).toNat).toNat = _
      have h₂ := (w 2).toNat_lt
      rw [hsize, UInt32.toNat_ofNat']
      omega
    · apply UInt32.toNat_inj.mp
      show (UInt32.ofNat ((UInt64.ofNat ((w 2).toNat + (w 3).toNat * 2 ^ 32)).toNat / 2 ^ 32)).toNat =
        _
      have h₂ := (w 2).toNat_lt
      have h₃ := (w 3).toNat_lt
      rw [hsize, UInt32.toNat_ofNat']
      omega
    · rfl
    · rfl
    · rfl

/-- What the uninitialised locals of `get_inode` and of its caller hold. -/
structure Uninit where
  bitmapByte : UInt8
  inode : Inode

/-- The address of the byte with the bit of an inode. -/
def inodeBitmapByte (inum : Nat) : Nat := Filesystem.inodeBitmapOffset * pageSize + inum / 8

/-- The address of an inode. -/
def inodeAddr (fs : Filesystem) (inum : Nat) : Nat :=
  fs.inodeTableOffset * pageSize + inum * (4 * inodeWords)

/-- The inode in the table. -/
def inodeOf (fs : Filesystem) (d : Disk) (inum : Nat) : Inode :=
  Inode.ofWords fun k => le32 d.bytes (inodeAddr fs inum + 4 * k)

/-- `get_inode`, with its result. -/
def getInode (fs : Filesystem) (d : Disk) (u : Uninit) (inum : Nat) : Inode × Int :=
  let byte := wrappedRead d (inodeBitmapByte inum) 1 (fun _ => u.bitmapByte) 0 0
  if bitmapGet byte inum then
    if u64 (inodeAddr fs inum + 4 * inodeWords) > d.size then (u.inode, -1)
    else (inodeOf fs d inum, 0)
  else (u.inode, -1)

/-- `fs_file_sync`. -/
def fsFileSync (fs : Filesystem) (d : Disk) (inum : Nat) (inode : Inode) : Disk :=
  wrappedWrite d (inodeAddr fs inum) (4 * inodeWords) (bytesOfWords inode.words) 0

/-! ## On a device that holds the file system -/

/-- The blocks of the file system are on the device. -/
structure OnDevice (fs : Filesystem) (d : Disk) : Prop where
  le : fs.sizeBlocks.toNat * pageSize ≤ d.size
  lt : d.size < 2 ^ 64

/-- The number is that of a file: it is in the table and marked. -/
structure IsFile (fs : Filesystem) (d : Disk) (inum : Nat) : Prop where
  lt : inum < fs.inodeTableBlocks.toNat * 32
  marked : bitmapGet (d.bytes (inodeBitmapByte inum)) inum = true

variable {fs : Filesystem} {d : Disk} {inum : Nat}

theorem inodeAddr_le (h : inum < fs.inodeTableBlocks.toNat * 32) :
    inodeAddr fs inum + 4 * inodeWords ≤ fs.dataStart * pageSize := by
  have hoff := fs.inodeTableOffset_eq
  have hmul : fs.dataStart * pageSize =
      fs.inodeTableOffset * pageSize + fs.inodeTableBlocks.toNat * pageSize := by
    rw [← Nat.add_mul, hoff]
    rfl
  rw [inodeAddr, hmul]
  simp only [inodeWords, pageSize] at *
  omega

theorem dataStart_le (fs : Filesystem) : fs.dataStart * pageSize ≤ fs.sizeBlocks.toNat * pageSize :=
  Nat.mul_le_mul_right _ fs.metadata

theorem getInode_of_le (hsize : fs.dataStart * pageSize ≤ d.size) (h64 : d.size < 2 ^ 64)
    (hf : IsFile fs d inum) (u : Uninit) : getInode fs d u inum = (inodeOf fs d inum, 0) := by
  have hle := inodeAddr_le hf.lt
  have hbyte : inodeBitmapByte inum < d.size := by
    have hlt := hf.lt
    have hi := fs.inodes
    rw [Filesystem.dataStart] at hsize
    simp only [inodeBitmapByte, Filesystem.inodeBitmapOffset, pageSize] at *
    omega
  rw [getInode, wrappedRead_byte hbyte h64, if_pos hf.marked, u64_of_lt (by omega),
    if_neg (by omega)]

theorem getInode_eq (hd : OnDevice fs d) (hf : IsFile fs d inum) (u : Uninit) :
    getInode fs d u inum = (inodeOf fs d inum, 0) :=
  getInode_of_le (Nat.le_trans (dataStart_le fs) hd.le) hd.lt hf u

theorem fsFileSync_eq (hd : OnDevice fs d) (h : inum < fs.inodeTableBlocks.toNat * 32)
    (inode : Inode) :
    fsFileSync fs d inum inode =
      d.write (inodeAddr fs inum) (4 * inodeWords) (bytesOfWords inode.words) := by
  have hle := inodeAddr_le h
  have hmeta := dataStart_le fs
  exact wrappedWrite_of_le (by have := hd.le; omega) hd.lt

theorem inodeOf_congr {d' : Disk} (h : ∀ a, inodeAddr fs inum ≤ a →
    a < inodeAddr fs inum + 4 * inodeWords → d'.bytes a = d.bytes a) :
    inodeOf fs d' inum = inodeOf fs d inum := by
  refine Inode.ofWords_congr fun k hk => le32_congr fun j hj => h _ (by omega) ?_
  simp only [inodeWords] at *
  omega

/-- An inode determines its bytes. -/
theorem bytes_of_inodeOf {d' : Disk} (h : inodeOf fs d' inum = inodeOf fs d inum) {a : Nat}
    (h₁ : inodeAddr fs inum ≤ a) (h₂ : a < inodeAddr fs inum + 4 * inodeWords) :
    d'.bytes a = d.bytes a := by
  have hk : (a - inodeAddr fs inum) / 4 < inodeWords := by omega
  have hw := congrFun (congrArg Inode.words h) ((a - inodeAddr fs inum) / 4)
  rw [inodeOf, inodeOf, Inode.words_ofWords hk, Inode.words_ofWords hk] at hw
  have ha := le32_inj hw (j := (a - inodeAddr fs inum) % 4) (by omega)
  rwa [show inodeAddr fs inum + 4 * ((a - inodeAddr fs inum) / 4) + (a - inodeAddr fs inum) % 4 = a
    by omega] at ha

/-- Only the inode changes. -/
theorem fsFileSync_bytes (hd : OnDevice fs d) (h : inum < fs.inodeTableBlocks.toNat * 32)
    (inode : Inode) {a : Nat} (ha : a < inodeAddr fs inum ∨ inodeAddr fs inum + 4 * inodeWords ≤ a) :
    (fsFileSync fs d inum inode).bytes a = d.bytes a := by
  rw [fsFileSync_eq hd h, Disk.write_bytes]
  rcases ha with ha | ha
  · exact patch_of_lt ha
  · exact patch_of_ge ha

theorem fsFileSync_size (hd : OnDevice fs d) (h : inum < fs.inodeTableBlocks.toNat * 32)
    (inode : Inode) : (fsFileSync fs d inum inode).size = d.size := by
  rw [fsFileSync_eq hd h, Disk.write_size]

/-- The inode that was written is read back, and no other inode has changed. -/
theorem inodeOf_sync (hd : OnDevice fs d) (h : inum < fs.inodeTableBlocks.toNat * 32)
    (inode : Inode) (g : Nat) :
    inodeOf fs (fsFileSync fs d inum inode) g = if g = inum then inode else inodeOf fs d g := by
  rw [fsFileSync_eq hd h]
  by_cases hg : g = inum
  · subst hg
    have hw : ∀ k, k < inodeWords → le32 (d.write (inodeAddr fs g) (4 * inodeWords)
        (bytesOfWords inode.words)).bytes (inodeAddr fs g + 4 * k) = inode.words k :=
      fun k hk => le32_patch_words hk
    rw [if_pos rfl, inodeOf, Inode.ofWords_congr hw, Inode.ofWords_words]
  · rw [if_neg hg]
    refine inodeOf_congr fun a h₁ h₂ => ?_
    rw [Disk.write_bytes]
    simp only [inodeAddr, inodeWords] at *
    rcases Nat.lt_or_gt_of_ne hg with hlt | hgt
    · exact patch_of_lt (by omega)
    · exact patch_of_ge (by omega)

/-- The byte of an inode is in front of the data bitmap. -/
theorem inodeBitmapByte_lt (h : inum < fs.inodeTableBlocks.toNat * 32) :
    inodeBitmapByte inum < fs.dataBitmapOffset * pageSize := by
  have hi := fs.inodes
  rw [fs.dataBitmapOffset_eq]
  simp only [inodeBitmapByte, Filesystem.inodeBitmapOffset, pageSize] at *
  omega

/-- The files do not change while the inode bitmap does not. -/
theorem isFile_congr {d' : Disk}
    (h : ∀ a, a < fs.dataBitmapOffset * pageSize → d'.bytes a = d.bytes a) :
    IsFile fs d' inum ↔ IsFile fs d inum := by
  have hbyte : inum < fs.inodeTableBlocks.toNat * 32 →
      d'.bytes (inodeBitmapByte inum) = d.bytes (inodeBitmapByte inum) :=
    fun hlt => h _ (inodeBitmapByte_lt hlt)
  constructor
  · intro hf
    exact ⟨hf.lt, hbyte hf.lt ▸ hf.marked⟩
  · intro hf
    exact ⟨hf.lt, (hbyte hf.lt).symm ▸ hf.marked⟩

end Fs
