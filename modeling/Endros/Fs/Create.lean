import Endros.Fs.Extend
import Endros.Fs.Resolve

/-!
# New files

`create_file` makes room for an entry at the end of the directory, takes an inode
and writes both.

*No inode.*  The result of `allocate_inode` goes into an unsigned field, so `-1` is
not seen as one: the entry is written with the number `2 ^ 32 - 1`.  The call fails
only if the directory cannot grow, and it has changed nothing then only if this was
for want of the first block (`create_fails_clean_iff`).

*An inode.*  The name is cut off behind 60 bytes, and one of 60 bytes has no zero
behind it.  With a shorter name, and blocks and an inode that are in reach, the new
file is found again, and so is every other name (`created_found_again`).
-/

namespace Fs

open Lib Mem

/-! ## Without an inode -/

/-- The size and the entries of the directory, the bitmaps and the inode table are
the same. -/
structure Unaltered (fs : Filesystem) (d d' : Disk) (parent : Nat) : Prop where
  size : (inodeOf fs d' parent).sizeBytes = (inodeOf fs d parent).sizeBytes
  entries : ∀ u junk off buffer size,
    fsFileRead fs d' u junk parent off buffer size = fsFileRead fs d u junk parent off buffer size
  inodeBitmap : ∀ a, pageSize ≤ a → a < fs.dataBitmapOffset * pageSize → d'.bytes a = d.bytes a
  dataBitmap : ∀ b, b < 8 * fs.bitmapBytes → marked fs d' b = marked fs d b
  inodes : ∀ g, inodeOf fs d' g = inodeOf fs d g

/-- The result is `-1`, and nothing has changed. -/
def FailsClean (fs : Filesystem) (d : Disk) (parent : Nat) {α : Type} (r : Option (Option α × Disk)) :
    Prop :=
  ∃ d', r = some (none, d') ∧ Unaltered fs d d' parent

/-- The size of the directory with the new entry. -/
def grownSize (fs : Filesystem) (d : Disk) (u : CreateLocals) (parent : UInt32) : UInt64 :=
  (getInode fs d u.parent parent.toNat).1.sizeBytes + UInt64.ofNat dirEntrySize

/-- The entry needs a page, and no block is free. -/
structure NoRoom (fs : Filesystem) (d : Disk) (u : CreateLocals) (parent : UInt32) : Prop where
  page : oldPages fs d u.truncate parent.toNat < addr2PageUp (grownSize fs d u parent).toNat
  full : ∀ b, b < 8 * fs.bitmapBytes → marked fs d b = true

section NoInode

variable {fs : Filesystem} {d : Disk} {u : CreateLocals} {parent : UInt32} {filename : List Chr}

/-- The result of `fs_file_truncate`. -/
theorem fsFileTruncate_result {u : TruncateLocals} {inum : Nat} {newsize : UInt64} {r : Int}
    {d' : Disk} (h : fsFileTruncate fs d u inum newsize = some (r, d')) : r = 0 ∨ r = -1 := by
  rw [fsFileTruncate, truncateInode] at h
  split at h
  · cases h
    exact .inl rfl
  rw [truncatePages] at h
  split at h
  · split at h
    · cases h
      exact .inr rfl
    · cases h
      exact .inl rfl
  split at h
  · obtain ⟨r, -, hr⟩ := Option.map_eq_some_iff.mp h
    cases hr
    exact .inl rfl
  · cases h
    exact .inl rfl

theorem createFile_of_fails {d₁ : Disk}
    (h : fsFileTruncate fs d u.truncate parent.toNat (grownSize fs d u parent) = some (-1, d₁)) :
    createFile fs d u parent filename = some (none, d₁) := by
  rw [createFile, ← grownSize, h]
  rfl

/-- Behind a growth that succeeds there is no way to fail. -/
theorem createFile_of_grows {d₁ : Disk}
    (h : fsFileTruncate fs d u.truncate parent.toNat (grownSize fs d u parent) = some (0, d₁)) :
    createFile fs d u parent filename =
      some (some (newInode fs d₁).1,
        fsFileSync fs (fsFileWrite fs (newInode fs d₁).2 u.write u.pages parent.toNat
          (getInode fs d u.parent parent.toNat).1.sizeBytes.toNat
          (dirEntry filename (newInode fs d₁).1) dirEntrySize) (newInode fs d₁).1.toNat u.fileInode) := by
  rw [createFile, ← grownSize, h]
  dsimp only
  rw [if_neg (Int.lt_irrefl 0), if_neg (Nat.not_lt_zero _)]

/-- `create_file` fails cleanly exactly if there is no block for a page that the
entry needs. -/
theorem createFile_failsClean_iff :
    FailsClean fs d parent.toNat (createFile fs d u parent filename) ↔ NoRoom fs d u parent := by
  constructor
  · rintro ⟨d', h, hsame⟩
    cases htrunc : fsFileTruncate fs d u.truncate parent.toNat (grownSize fs d u parent) with
    | none =>
        rw [createFile, ← grownSize, htrunc] at h
        cases h
    | some r =>
        obtain ⟨r, d₁⟩ := r
        rcases fsFileTruncate_result htrunc with rfl | rfl
        · rw [createFile_of_grows htrunc] at h
          cases h
        · rw [createFile_of_fails htrunc] at h
          cases h
          obtain ⟨hpage, hgrow⟩ := fsFileTruncate_needs htrunc
          refine ⟨hpage, fun b hb => ?_⟩
          rw [← hsame.dataBitmap b hb]
          exact allocateBlock_eq_none.mp (FailsFull.grow _ _ _ d' hgrow) b hb
  · intro h
    refine ⟨d, createFile_of_fails (fsFileTruncate_full h.page h.full), ?_⟩
    exact ⟨rfl, fun _ _ _ _ _ => rfl, fun _ _ _ => rfl, fun _ _ => rfl, fun _ => rfl⟩

end NoInode

/-- The path leads to a name that is missing, and to be created. -/
structure CreatesAt (m : Mount) (d : Disk) (u : GetfileLocals) (cwd : UInt32) (path : List Chr)
    (s : Walk) : Prop where
  leads : Leads m d u (firstRound m u cwd path) s
  ptr : s.ptr ≠ []
  isDirectory : (s.inode m d u).type = directory
  last : s.rest = []
  missing : s.found m d u = none

/-- There `getfile` is `create_file`. -/
theorem CreatesAt.getfile_eq {m : Mount} {d : Disk} {u : GetfileLocals} {cwd : UInt32}
    {path : List Chr} {s : Walk} (h : CreatesAt m d u cwd path s) :
    getfile m d u cwd path true =
      (createFile m.fs d u.create s.cwd s.ptr).map fun r => (r.1.map Target.file, r.2) := by
  have hfirst : (firstRound m u cwd path).ptr ≠ [] := by
    have hleads := h.leads
    generalize firstRound m u cwd path = s₀ at *
    cases hleads with
    | here => exact h.ptr
    | enter hptr => exact hptr
  obtain ⟨n, hn, heq⟩ := h.leads.loop_eq (Nat.le_refl _)
  have hpos := List.length_pos_of_ne_nil h.ptr
  obtain ⟨k, rfl⟩ : ∃ k, n = k + 1 := ⟨n - 1, by omega⟩
  rw [getfile, if_neg hfirst, heq]
  exact Walk.loop_create h.ptr h.isDirectory h.last h.missing

/-- Creating a file fails cleanly exactly if there is no block for a page that the
entry needs, whether there is an inode or not.  This goes for `create_file` and for
every path that makes `getfile` call it. -/
theorem create_fails_clean_iff (m : Mount) (d : Disk) (u : GetfileLocals) :
    (∀ parent filename, FailsClean m.fs d parent.toNat (createFile m.fs d u.create parent filename) ↔
      NoRoom m.fs d u.create parent) ∧
    ∀ cwd path s, CreatesAt m d u cwd path s →
      (FailsClean m.fs d s.cwd.toNat (getfile m d u cwd path true) ↔ NoRoom m.fs d u.create s.cwd) := by
  refine ⟨fun parent filename => createFile_failsClean_iff, fun cwd path s h => ?_⟩
  rw [h.getfile_eq, ← @createFile_failsClean_iff _ _ _ _ s.ptr]
  refine exists_congr fun d' => and_congr_left fun _ => ?_
  rw [Option.map_eq_some_iff]
  constructor
  · rintro ⟨⟨r, d₁⟩, hr, he⟩
    obtain ⟨hnone, hd⟩ := Prod.mk.inj he
    rw [hr, show r = none from Option.map_eq_none_iff.mp hnone, show d₁ = d' from hd]
  · intro h
    exact ⟨_, h, rfl⟩

/-- With no free block, the empty directory gets no entry. -/
theorem create_fails_clean_full :
    FailsClean sampleFs (tightDisk 0xff) 2
      (getfile ⟨sampleFs, 2, 5⟩ (tightDisk 0xff) zeroGetfileLocals 2 (literal "a") true) := by
  have hbyte : ∀ k, k < 256 → (tightDisk 0xff).bytes (2 * 4096 + k) = 0xff := by decide +kernel
  refine ((create_fails_clean_iff ⟨sampleFs, 2, 5⟩ (tightDisk 0xff) zeroGetfileLocals).2 2
    (literal "a") ⟨0, 2, zeroUninit.inode, literal "a"⟩ ?_).mpr ⟨by decide, fun b hb => ?_⟩
  · exact ⟨.here _, by decide, by decide, by decide, by decide⟩
  · have hb : b < 8 * 256 := hb
    show bitmapGet ((tightDisk 0xff).bytes (2 * 4096 + b / 8)) b = true
    rw [hbyte (b / 8) (by omega)]
    exact bitmapGet_full b

/-- The empty disk with all its inodes in use. -/
def noInodeDisk : Disk := emptyDisk.write 4096 256 fun _ => 0xff

theorem noInodeDisk_empty (g : Nat) (h : IsFile sampleFs noInodeDisk g) :
    pages sampleFs noInodeDisk g = 0 := by
  have hall : ∀ g, g < 32 → pages sampleFs noInodeDisk g = 0 := by decide
  exact hall g h.lt

/-- There is no inode left, and `create_file` still makes an entry, for the inode
`2 ^ 32 - 1`. -/
theorem created_without_inode :
    (WellFormed sampleFs noInodeDisk (files sampleFs noInodeDisk) ∧
      Covered sampleFs noInodeDisk (files sampleFs noInodeDisk)) ∧
    allocateInode sampleFs.sizeBlocks noInodeDisk = none ∧
      (createFile sampleFs noInodeDisk zeroCreateLocals 2 (literal "a")).map
          (fun r => (r.1, (inodeOf sampleFs r.2 2).sizeBytes)) = some (some 0xffffffff, 64) ∧
      (inodeOf sampleFs noInodeDisk 2).sizeBytes = 0 := by
  have hdev : OnDevice sampleFs noInodeDisk := ⟨by decide, by decide⟩
  exact ⟨⟨wellFormed_of_empty noInodeDisk_empty,
    covered_of_empty noInodeDisk_empty hdev (by decide)⟩, by decide +kernel, by decide +kernel,
    by decide⟩

/-! ## With an inode -/

section Inode

variable {fs : Filesystem} {d d' : Disk} {f i : Nat}

/-- `d'` is `d` with the inode `i` of the table marked, which was free. -/
structure InodeTaken (fs : Filesystem) (d : Disk) (i : Nat) (d' : Disk) : Prop where
  lt : i < fs.inodeTableBlocks.toNat * 32
  first : FirstBit d (Filesystem.inodeBitmapOffset * pageSize) (searchBytes fs.sizeBlocks) i d'

/-- `allocate_inode` takes an inode of the table if one is free that it gets to. -/
theorem newInode_taken {j : Nat} (hj : j < fs.inodeTableBlocks.toNat * 32)
    (hsearch : j < 8 * searchBytes fs.sizeBlocks)
    (hfree : bitmapGet (d.bytes (inodeBitmapByte j)) j = false) :
    ∃ i d', newInode fs d = (UInt32.ofNat i, d') ∧ (UInt32.ofNat i).toNat = i ∧
      InodeTaken fs d i d' := by
  have hcases := allocateBit_cases d (Filesystem.inodeBitmapOffset * pageSize)
    (searchBytes fs.sizeBlocks)
  rw [newInode, allocateInode]
  cases ha : allocateBit d (Filesystem.inodeBitmapOffset * pageSize) (searchBytes fs.sizeBlocks) with
  | none =>
      rw [ha] at hcases
      have hset := hcases j hsearch
      rw [bitAt, ← inodeBitmapByte, hfree] at hset
      cases hset
  | some r =>
      obtain ⟨i, d'⟩ := r
      rw [ha] at hcases
      have hle : i ≤ j := by
        refine Nat.le_of_not_lt fun hlt => ?_
        have hset := hcases.least j hlt
        rw [bitAt, ← inodeBitmapByte, hfree] at hset
        cases hset
      refine ⟨i, d', rfl, ?_, by omega, hcases⟩
      have hsize := fs.sizeBlocks.toNat_lt
      rw [UInt32.toNat_ofNat', Nat.mod_eq_of_lt]
      rw [searchBytes] at hsearch
      split at hsearch <;> omega

namespace InodeTaken

variable (h : InodeTaken fs d i d')
include h

theorem bytes {a : Nat} (ha : fs.dataBitmapOffset * pageSize ≤ a) : d'.bytes a = d.bytes a := by
  have hlt := inodeBitmapByte_lt h.lt
  refine h.first.bytes a fun he => ?_
  rw [← inodeBitmapByte] at he
  omega

theorem inode (g : Nat) : inodeOf fs d' g = inodeOf fs d g := by
  refine inodeOf_congr fun a ha _ => h.bytes (Nat.le_trans (dataBitmapOffset_le fs) ?_)
  exact Nat.le_trans (Nat.le_add_right ..) ha

theorem free : bitmapGet (d.bytes (inodeBitmapByte i)) i = false := h.first.clear

theorem isFile {g : Nat} (hg : IsFile fs d g) : IsFile fs d' g := by
  refine ⟨hg.lt, ?_⟩
  have hbit := h.first.bit g
  rw [bitAt, bitAt, ← inodeBitmapByte, hg.marked, Bool.or_true] at hbit
  exact hbit

theorem new_isFile : IsFile fs d' i := by
  refine ⟨h.lt, ?_⟩
  have hbit := h.first.bit i
  rw [bitAt, ← inodeBitmapByte, decide_eq_true rfl, Bool.true_or] at hbit
  exact hbit

theorem ne (hf : IsFile fs d f) : f ≠ i := by
  rintro rfl
  have hm := hf.marked
  rw [h.free] at hm
  cases hm

end InodeTaken

/-- The directory can grow by an entry, into blocks that are in reach, and there is
an inode that `allocate_inode` gets to. -/
structure Room (fs : Filesystem) (d : Disk) (f : Nat) : Prop where
  blocks : pages fs d f = addr2PageUp ((inodeOf fs d f).sizeBytes.toNat + dirEntrySize) ∨
    CanGrow fs d f (addr2PageUp ((inodeOf fs d f).sizeBytes.toNat + dirEntrySize))
  low : needed (pages fs d f) (addr2PageUp ((inodeOf fs d f).sizeBytes.toNat + dirEntrySize)) ≤
    freeBelow fs d (min fs.sizeBlocks.toNat (2 ^ 20))
  old : LowBlocks fs d f
  inode : ∃ j, j < fs.inodeTableBlocks.toNat * 32 ∧ j < 8 * searchBytes fs.sizeBlocks ∧
    bitmapGet (d.bytes (inodeBitmapByte j)) j = false

/-- What `create_file` leaves behind. -/
structure Created (fs : Filesystem) (d : Disk) (f : Nat) (filename : List Chr) (inode : Inode)
    (c : Nat → UInt8) (i : UInt32) (d' : Disk) : Prop where
  free : bitmapGet (d.bytes (inodeBitmapByte i.toNat)) i.toNat = false
  newFile : IsFile fs d' i.toNat
  newInode : inodeOf fs d' i.toNat = inode
  device : OnDevice fs d'
  file : IsFile fs d' f
  type : (inodeOf fs d' f).type = (inodeOf fs d f).type
  size : (inodeOf fs d' f).sizeBytes.toNat = (inodeOf fs d f).sizeBytes.toNat + dirEntrySize
  contents : Contents fs d' f
    (patch c (inodeOf fs d f).sizeBytes.toNat dirEntrySize (dirEntry filename i))

/-- A size that the inode has pointers for is far from the end of 64 bits. -/
theorem size_add_lt (hc : Covered fs d (files fs d)) (hf : IsFile fs d f) :
    (inodeOf fs d f).sizeBytes.toNat + dirEntrySize < 2 ^ 64 := by
  have hpages : pages fs d f ≤ maxPages := hc.pages hf
  have hup := le_addr2PageUp (inodeOf fs d f).sizeBytes.toNat
  have hmul := Nat.mul_le_mul_right pageSize hpages
  rw [pages] at hmul
  simp only [maxPages, directPtrs, ptrPerPage, pageSize, dirEntrySize] at *
  omega

/-- The bytes of the blocks of a file are behind the metadata. -/
theorem FileMap.le_byteAddr {inode : Inode} {blk : Nat → UInt32} {n y : Nat}
    (h : FileMap fs d inode blk n) (hy : y < n * pageSize) :
    fs.dataStart * pageSize ≤ byteAddr blk y := by
  have hmeta := Nat.mul_le_mul_right pageSize (h.notMeta (FileMap.page_lt hy))
  rw [h.byteAddr_eq hy]
  omega

/-- The entry and the inode are written. -/
theorem writes_created (u : CreateLocals) (filename : List Chr) {d₁ d₂ : Disk} {c : Nat → UInt8}
    {inum : UInt32} {n size : Nat} (hdev : OnDevice fs d₂) (hf : IsFile fs d₁ f)
    (hmap : FileMap fs d₁ (inodeOf fs d₁ f) (blockOf fs d₁ f) n)
    (hsize : (inodeOf fs d₁ f).sizeBytes.toNat = size + dirEntrySize)
    (hn : size + dirEntrySize ≤ n * pageSize)
    (hc : ∀ y, y < size → d₁.bytes (byteAddr (blockOf fs d₁ f) y) = c y)
    (htaken : InodeTaken fs d₁ inum.toNat d₂) :
    let d' := fsFileSync fs (fsFileWrite fs d₂ u.write u.pages f size (dirEntry filename inum)
      dirEntrySize) inum.toNat u.fileInode
    IsFile fs d' inum.toNat ∧ inodeOf fs d' inum.toNat = u.fileInode ∧ OnDevice fs d' ∧
      IsFile fs d' f ∧ inodeOf fs d' f = inodeOf fs d₁ f ∧
      Contents fs d' f (patch c size dirEntrySize (dirEntry filename inum)) := by
  have hlt64 : size + dirEntrySize < 2 ^ 64 := hsize ▸ (inodeOf fs d₁ f).sizeBytes.toNat_lt
  have hdata : fs.dataBitmapOffset * pageSize ≤ fs.dataStart * pageSize :=
    Nat.le_trans (dataBitmapOffset_le fs) (inodeTableOffset_le fs)
  -- the entry is written while the new inode has no contents
  have hmap₂ : FileMap fs d₂ (inodeOf fs d₂ f) (blockOf fs d₁ f) n := by
    rw [htaken.inode]
    exact hmap.congr htaken.first.size fun a ha _ => htaken.bytes (Nat.le_trans hdata ha)
  have hf₂ := htaken.isFile hf
  obtain ⟨d₃, hd₃⟩ : ∃ d₃, d₃ = fsFileWrite fs d₂ u.write u.pages f size (dirEntry filename inum)
    dirEntrySize := ⟨_, rfl⟩
  have hw : Wrote (blockOf fs d₁ f) d₂ d₃ size (size + dirEntrySize) (dirEntry filename inum) := by
    rw [hd₃, fsFileWrite, getInode_eq hdev hf₂]
    exact hmap₂.write u.pages (dirEntry filename inum) (Nat.le_refl _) hn hlt64
  have hmeta₃ : ∀ {a}, a < fs.dataStart * pageSize → d₃.bytes a = d₂.bytes a :=
    fun ha => hmap₂.wrote_meta hw hn ha
  have hdev₃ : OnDevice fs d₃ := ⟨hw.size ▸ hdev.le, hw.size ▸ hdev.lt⟩
  have hinode₃ : ∀ g, g < fs.inodeTableBlocks.toNat * 32 → inodeOf fs d₃ g = inodeOf fs d₂ g :=
    fun g hg => inodeOf_congr fun a _ ha => hmeta₃ (Nat.lt_of_lt_of_le ha (inodeAddr_le hg))
  -- then the inode, which is not that of the directory
  have hinode₄ := inodeOf_sync hdev₃ htaken.lt u.fileInode
  have hbytes₄ := @fsFileSync_bytes fs d₃ inum.toNat hdev₃ htaken.lt u.fileInode
  have hsize₄ := fsFileSync_size hdev₃ htaken.lt u.fileInode
  rw [← hd₃]
  generalize fsFileSync fs d₃ inum.toNat u.fileInode = d₄ at *
  have hend := inodeAddr_le htaken.lt
  have hstart : fs.inodeTableOffset * pageSize ≤ inodeAddr fs inum.toNat := Nat.le_add_right ..
  have hfile₄ : ∀ {g}, IsFile fs d₄ g ↔ IsFile fs d₂ g := isFile_congr fun a ha => by
    have := dataBitmapOffset_le fs
    rw [hbytes₄ (.inl (by omega)), hmeta₃ (by omega)]
  have hself : inodeOf fs d₄ f = inodeOf fs d₂ f := by
    rw [hinode₄, if_neg (htaken.ne hf), hinode₃ f hf.lt]
  have hmap₄ : FileMap fs d₄ (inodeOf fs d₄ f) (blockOf fs d₁ f) n := by
    rw [hself]
    refine hmap₂.congr (hsize₄.trans hw.size) fun a ha hblk => ?_
    rw [hbytes₄ (.inr (Nat.le_trans hend ha))]
    exact hmap₂.wrote_bytes hw hn hblk
  have hdev₄ : OnDevice fs d₄ := ⟨hsize₄ ▸ hdev₃.le, hsize₄ ▸ hdev₃.lt⟩
  refine ⟨hfile₄.mpr htaken.new_isFile, by rw [hinode₄, if_pos rfl], hdev₄, hfile₄.mpr hf₂,
    by rw [hself, htaken.inode], ?_⟩
  have hsize' : (inodeOf fs d₄ f).sizeBytes.toNat = size + dirEntrySize := by
    rw [hself, htaken.inode, hsize]
  have hcontents := hmap₄.contents (Nat.le_trans (dataStart_le fs) hdev₄.le) (hfile₄.mpr hf₂)
    (by rw [hsize']; exact hn)
  refine hcontents.congr fun y hy => ?_
  rw [hsize'] at hy
  have hle := hmap₂.le_byteAddr (y := y) (by omega)
  rw [hbytes₄ (.inr (Nat.le_trans hend hle)), hmap₂.wrote_byteAddr hw hn (by omega),
    Nat.add_sub_cancel_left, patch, patch]
  split
  · rfl
  · rw [htaken.bytes (Nat.le_trans hdata hle)]
    exact hc y (by omega)

/-- With room, `create_file` makes the file. -/
theorem createFile_creates {u : CreateLocals} {cwd : UInt32} {filename : List Chr}
    {c : Nat → UInt8} (hw : WellFormed fs d (files fs d)) (hc : Covered fs d (files fs d))
    (hf : IsFile fs d cwd.toNat) (hroom : Room fs d cwd.toNat) (hcont : Contents fs d cwd.toNat c) :
    ∃ i d', createFile fs d u cwd filename = some (some i, d') ∧
      Created fs d cwd.toNat filename u.fileInode c i d' := by
  have hlt64 := size_add_lt hc hf
  have hinode := getInode_eq hc.device hf u.parent
  have hnew : (grownSize fs d u cwd).toNat =
      (inodeOf fs d cwd.toNat).sizeBytes.toNat + dirEntrySize := by
    rw [grownSize, hinode, UInt64.toNat_add, Nat.mod_eq_of_lt]
    · rfl
    · exact hlt64
  have hgrow : (inodeOf fs d cwd.toNat).sizeBytes < grownSize fs d u cwd := by
    rw [UInt64.lt_iff_toNat_lt, hnew]
    exact Nat.lt_add_of_pos_right (by decide)
  obtain ⟨hblocks, hlow, hold, j, hj, hsearch, hfree⟩ := hroom
  rw [← hnew] at hblocks hlow
  -- the directory grows
  obtain ⟨d₁, htrunc, hext⟩ := fsFileTruncate_extends hw hc hf hgrow hblocks u.truncate
  have hf₁ : IsFile fs d₁ cwd.toNat := hext.isFile.mpr hf
  have hmap := hext.grown.wellFormed.fileMap hext.grown.covered hf₁ (hext.lowBlocks hold hlow)
  -- an inode is taken
  obtain ⟨i, d₂, hi, hi32, htaken⟩ := newInode_taken (d := d₁) hj hsearch
    (by rw [hext.table _ (inodeBitmapByte_lt hj)]; exact hfree)
  have hdev : OnDevice fs d₂ := by
    have hdev₁ := hext.grown.covered.device
    exact ⟨htaken.first.size ▸ hdev₁.le, htaken.first.size ▸ hdev₁.lt⟩
  have hsize : (inodeOf fs d₁ cwd.toNat).sizeBytes.toNat =
      (inodeOf fs d cwd.toNat).sizeBytes.toNat + dirEntrySize := by
    rw [hext.sizeBytes, hnew]
  have hpages : (inodeOf fs d cwd.toNat).sizeBytes.toNat + dirEntrySize ≤
      pages fs d₁ cwd.toNat * pageSize := by
    rw [← hsize]
    exact le_addr2PageUp _
  have hbytes : ∀ y, y < (inodeOf fs d cwd.toNat).sizeBytes.toNat →
      d₁.bytes (byteAddr (blockOf fs d₁ cwd.toNat) y) = c y := by
    intro y hy
    have hup : (inodeOf fs d cwd.toNat).sizeBytes.toNat ≤ pages fs d cwd.toNat * pageSize :=
      le_addr2PageUp _
    rw [hext.byte hold (by omega)]
    exact ((hw.fileMap hc hf hold).contents (Nat.le_trans (dataStart_le fs) hc.device.le) hf hup).eq
      hcont hy
  have htaken' : InodeTaken fs d₁ (UInt32.ofNat i).toNat d₂ := hi32.symm ▸ htaken
  obtain ⟨hfile, hnewInode, hdev', hf', hself, hcontents⟩ := writes_created u filename
    hdev hf₁ hmap hsize hpages hbytes htaken'
  refine ⟨UInt32.ofNat i, _, ?_, ?_, hfile, hnewInode, hdev', hf', ?_, ?_, hcontents⟩
  · rw [createFile_of_grows htrunc, hi, hinode]
  · rw [hi32, ← hext.table _ (inodeBitmapByte_lt htaken.lt)]
    exact htaken.free
  · rw [hself]
    exact hext.header.1
  · rw [hself, hsize]

end Inode

/-! ## Lookups of one name -/

section Name

variable {m : Mount} {d : Disk} {cwd : UInt32} {c : Nat → UInt8} {name : List Chr}

/-- The directory `cwd` has the entries in `c`, whose names end within their fields. -/
structure HasEntries (m : Mount) (d : Disk) (cwd : UInt32) (c : Nat → UInt8) : Prop where
  device : OnDevice m.fs d
  file : IsFile m.fs d cwd.toNat
  isDirectory : (inodeOf m.fs d cwd.toNat).type = directory
  contents : Contents m.fs d cwd.toNat c
  terminated : ∀ j, j < entryCount m.fs d cwd → ∃ k, k < nameSize ∧ c (j * dirEntrySize + k) = 0

theorem takeWhile_name (hslash : slash ∉ name) : name.takeWhile Walk.notSlash = name :=
  List.takeWhile_eq_self_iff.mpr fun _ hx => bne_iff_ne.mpr fun he => hslash (he ▸ hx)

theorem dropWhile_name (hslash : slash ∉ name) : name.dropWhile Walk.notSlash = [] :=
  List.dropWhile_eq_nil_iff.mpr fun _ hx => bne_iff_ne.mpr fun he => hslash (he ▸ hx)

/-- A name is looked up in one round. -/
theorem firstRound_name (hslash : slash ∉ name) (u : GetfileLocals) :
    firstRound m u cwd name = ⟨0, cwd, u.inode, name⟩ := by
  refine if_neg fun hhead => hslash ?_
  exact List.mem_of_head? hhead

/-- What the round finds. -/
theorem HasEntries.found_eq (h : HasEntries m d cwd c) (hslash : slash ∉ name) (u : GetfileLocals) :
    (⟨0, cwd, u.inode, name⟩ : Walk).found m d u =
      findStored c (entryCount m.fs d cwd) name := by
  have hinode : (⟨0, cwd, u.inode, name⟩ : Walk).inode m d u = inodeOf m.fs d cwd.toNat := by
    rw [Walk.inode, getInode_eq h.device h.file]
  have hfound := found_eq_findStored (s := ⟨0, cwd, u.inode, name⟩) (u := u) (by rw [hinode])
    (fun a ha => Walk.entries_eq hinode h.contents ha) h.terminated
  rw [hfound, Walk.name, takeWhile_name hslash]
  rfl

theorem HasEntries.type_eq (h : HasEntries m d cwd c) (u : GetfileLocals) :
    ((⟨0, cwd, u.inode, name⟩ : Walk).inode m d u).type = directory := by
  rw [Walk.inode, getInode_eq h.device h.file]
  exact h.isDirectory

/-- A lookup of a name, outside of `/dev`. -/
theorem HasEntries.getfile_eq (h : HasEntries m d cwd c) (hdev : cwd ≠ m.dev) (hname : name ≠ [])
    (hslash : slash ∉ name) (u : GetfileLocals) :
    getfile m d u cwd name false =
      some ((findStored c (entryCount m.fs d cwd) name).map Target.file, d) := by
  have hfound := h.found_eq hslash u
  have hnodev : (⟨0, cwd, u.inode, name⟩ : Walk).device m d u = none := if_neg hdev
  obtain ⟨ch, rest, rfl⟩ := List.exists_cons_of_ne_nil hname
  rw [getfile, firstRound_name hslash, if_neg hname]
  cases hs : findStored c (entryCount m.fs d cwd) (ch :: rest) with
  | none =>
      rw [hs] at hfound
      exact Walk.loop_missing hname (h.type_eq u) hnodev hfound
  | some inum =>
      rw [hs] at hfound
      have hlast : ((⟨0, cwd, u.inode, ch :: rest⟩ : Walk).next m d u inum).ptr = [] := by
        rw [Walk.next, Walk.rest, dropWhile_name hslash]
        rfl
      exact (Walk.loop_enter hname (h.type_eq u) hnodev hfound).trans (Walk.loop_done hlast)

/-- A name that is missing is created. -/
theorem HasEntries.createsAt (h : HasEntries m d cwd c) (hname : name ≠ []) (hslash : slash ∉ name)
    (hmissing : findStored c (entryCount m.fs d cwd) name = none) (u : GetfileLocals) :
    CreatesAt m d u cwd name ⟨0, cwd, u.inode, name⟩ := by
  refine ⟨?_, hname, h.type_eq u, dropWhile_name hslash, ?_⟩
  · rw [firstRound_name hslash]
    exact .here _
  · rw [h.found_eq hslash, hmissing]

/-! ## The new entry -/

theorem storedName_dirEntry {i : UInt32} (hlen : name.length < nameSize) (c : Nat → UInt8) (n : Nat) :
    storedName (patch c (n * dirEntrySize) dirEntrySize (dirEntry name i)) n =
      name.map Subtype.val := by
  have hbytes : ∀ k, k < nameSize →
      patch c (n * dirEntrySize) dirEntrySize (dirEntry name i) (n * dirEntrySize + k) =
        ((name[k]?).map Subtype.val).getD 0 := by
    intro k hk
    rw [patch_add (Nat.lt_trans hk (by decide)), dirEntry, if_pos hk]
  have hmap : (List.range nameSize).map (fun k =>
      patch c (n * dirEntrySize) dirEntrySize (dirEntry name i) (n * dirEntrySize + k)) =
      (List.range nameSize).map fun k => ((name[k]?).map Subtype.val).getD 0 :=
    List.map_congr_left fun k hk => hbytes k (List.mem_range.mp hk)
  rw [storedName, hmap, takeWhile_range hlen]
  · refine List.ext_getElem (by simp) fun k h₁ h₂ => ?_
    simp only [List.length_map] at h₂
    simp [h₂]
  · intro k hk
    simp only [List.getElem?_eq_getElem hk, Option.map_some, Option.getD_some]
    exact (name[k]).property
  · simp

theorem entryInode_dirEntry (i : UInt32) (c : Nat → UInt8) (n : Nat) :
    entryInode (patch c (n * dirEntrySize) dirEntrySize (dirEntry name i)) n = i := by
  rw [entryInode]
  refine (le32_congr fun j hj => ?_).trans (le32_bytes32 i)
  rw [Nat.add_assoc, patch_add (by simp only [nameSize, dirEntrySize]; omega), dirEntry,
    if_neg (by omega), Nat.add_sub_cancel_left, Nat.zero_add]

/-- The entries that were there are there still. -/
theorem patch_entry {data : Nat → UInt8} {n j k : Nat} (hj : j < n) (hk : k < dirEntrySize) :
    patch c (n * dirEntrySize) dirEntrySize data (j * dirEntrySize + k) =
      c (j * dirEntrySize + k) := by
  refine patch_of_lt ?_
  have := Nat.mul_le_mul_right dirEntrySize (Nat.succ_le_of_lt hj)
  rw [Nat.succ_mul] at this
  omega

/-- The search for a name comes to the new entry last. -/
theorem findStored_created {i : UInt32} (hlen : name.length < nameSize) (n : Nat)
    (other : List Chr) :
    findStored (patch c (n * dirEntrySize) dirEntrySize (dirEntry name i)) (n + 1) other =
      (findStored c n other).or (if name.map Subtype.val = other.map Subtype.val then some i
        else none) := by
  have hold : ((List.range n).find? fun j =>
      storedName (patch c (n * dirEntrySize) dirEntrySize (dirEntry name i)) j =
        other.map Subtype.val).map
        (entryInode (patch c (n * dirEntrySize) dirEntrySize (dirEntry name i))) =
      findStored c n other := by
    refine find_entry_congr (fun j hj => ?_) fun j hj => le32_congr fun k hk => ?_
    · have hstored : storedName (patch c (n * dirEntrySize) dirEntrySize (dirEntry name i)) j =
          storedName c j := by
        rw [storedName, storedName]
        congr 1
        exact List.map_congr_left fun k hk =>
          patch_entry hj (Nat.lt_trans (List.mem_range.mp hk) (by decide))
      rw [hstored]
    · rw [Nat.add_assoc]
      exact patch_entry hj (by simp only [nameSize, dirEntrySize]; omega)
  rw [findStored, List.range_succ, List.find?_append, Option.map_or, hold]
  congr 1
  rw [List.find?_singleton, storedName_dirEntry hlen]
  split
  · rename_i he
    rw [if_pos (of_decide_eq_true he)]
    exact congrArg some (entryInode_dirEntry i c n)
  · rename_i he
    rw [if_neg fun h => he (decide_eq_true h)]
    rfl

/-- The directory with the new entry. -/
theorem HasEntries.created {u : GetfileLocals} {i : UInt32} {d' : Disk} (h : HasEntries m d cwd c)
    (haligned : (inodeOf m.fs d cwd.toNat).sizeBytes.toNat = entryCount m.fs d cwd * dirEntrySize)
    (hlen : name.length < nameSize)
    (hcreated : Created m.fs d cwd.toNat name u.create.fileInode c i d') :
    entryCount m.fs d' cwd = entryCount m.fs d cwd + 1 ∧
      HasEntries m d' cwd
        (patch c (entryCount m.fs d cwd * dirEntrySize) dirEntrySize (dirEntry name i)) := by
  have hcount : entryCount m.fs d' cwd = entryCount m.fs d cwd + 1 := by
    rw [entryCount, hcreated.size, haligned, ← Nat.succ_mul, Nat.mul_div_cancel _ (by decide)]
  refine ⟨hcount, hcreated.device, hcreated.file, hcreated.type.trans h.isDirectory, ?_, ?_⟩
  · rw [← haligned]
    exact hcreated.contents
  · intro j hj
    rw [hcount] at hj
    rcases Nat.lt_succ_iff_lt_or_eq.mp hj with hlt | rfl
    · obtain ⟨k, hk, hzero⟩ := h.terminated j hlt
      exact ⟨k, hk, (patch_entry hlt (Nat.lt_trans hk (by decide))).trans hzero⟩
    · refine ⟨name.length, hlen, ?_⟩
      rw [patch_add (Nat.lt_trans hlen (by decide)), dirEntry, if_pos hlen]
      simp

end Name

/-- A file that was created is found again, under its name and with the inode that
was taken for it, and all the other names lead where they did. -/
theorem created_found_again {m : Mount} {d : Disk} {cwd : UInt32} {c : Nat → UInt8}
    {name : List Chr} (hw : WellFormed m.fs d (files m.fs d)) (hc : Covered m.fs d (files m.fs d))
    (h : HasEntries m d cwd c)
    (haligned : (inodeOf m.fs d cwd.toNat).sizeBytes.toNat = entryCount m.fs d cwd * dirEntrySize)
    (hdev : cwd ≠ m.dev) (hname : name ≠ []) (hslash : slash ∉ name)
    (hmissing : ∀ j, j < entryCount m.fs d cwd → storedName c j ≠ name.map Subtype.val)
    (hlen : name.length < nameSize) (hroom : Room m.fs d cwd.toNat) (u : GetfileLocals) :
    ∃ i d', getfile m d u cwd name true = some (some (.file i), d') ∧
      (∀ u', getfile m d' u' cwd name false = some (some (.file i), d')) ∧
      ¬ IsFile m.fs d i.toNat ∧ IsFile m.fs d' i.toNat ∧
      (inodeOf m.fs d' i.toNat).type = file ∧ (inodeOf m.fs d' i.toNat).sizeBytes = 0 ∧
      ∀ other j u' u'', other ≠ [] → slash ∉ other →
        getfile m d u' cwd other false = some (some (.file j), d) →
        getfile m d' u'' cwd other false = some (some (.file j), d') := by
  have hnone : findStored c (entryCount m.fs d cwd) name = none := by
    rw [findStored, Option.map_eq_none_iff, List.find?_eq_none]
    intro j hj
    exact fun he => hmissing j (List.mem_range.mp hj) (of_decide_eq_true he)
  obtain ⟨i, d', hcreate, hcreated⟩ :=
    createFile_creates (u := u.create) hw hc h.file hroom h.contents
  obtain ⟨hcount, h'⟩ := h.created haligned hlen hcreated
  refine ⟨i, d', ?_, fun u' => ?_, fun hfile => ?_, hcreated.newFile, ?_, ?_, ?_⟩
  · rw [(h.createsAt hname hslash hnone u).getfile_eq, hcreate]
    rfl
  · rw [h'.getfile_eq hdev hname hslash, hcount, findStored_created hlen, hnone, if_pos rfl]
    rfl
  · have hm := hfile.marked
    rw [hcreated.free] at hm
    cases hm
  · rw [hcreated.newInode]
    rfl
  · rw [hcreated.newInode]
    rfl
  · intro other j u' u'' hother hslash' hold
    rw [h.getfile_eq hdev hother hslash'] at hold
    have hfound : (findStored c (entryCount m.fs d cwd) other).map Target.file = some (.file j) :=
      (Prod.mk.inj (Option.some.inj hold)).1
    rw [h'.getfile_eq hdev hother hslash', hcount, findStored_created hlen]
    obtain ⟨j', hj', he⟩ := Option.map_eq_some_iff.mp hfound
    rw [hj', Option.some_or, Option.map_some, he]

/-- The first entry of the empty directory. -/
theorem created_found_again_empty :
    ∃ i d', getfile ⟨sampleFs, 2, 5⟩ emptyDisk zeroGetfileLocals 2 (literal "a") true =
        some (some (.file i), d') ∧
      ∀ u', getfile ⟨sampleFs, 2, 5⟩ d' u' 2 (literal "a") false = some (some (.file i), d') := by
  have hf : IsFile sampleFs emptyDisk (2 : UInt32).toNat := ⟨by decide, by decide⟩
  have hentries : HasEntries ⟨sampleFs, 2, 5⟩ emptyDisk 2 fun _ => 0 := by
    refine ⟨⟨by decide, by decide⟩, hf, by decide, ?_, fun j hj => absurd hj (by decide +revert)⟩
    intro u junk off size buffer hle x hx
    have hempty : (inodeOf sampleFs emptyDisk (2 : UInt32).toNat).sizeBytes.toNat = 0 := by decide
    have hzero : off + size ≤ 0 := hempty ▸ hle
    omega
  have hroom : Room sampleFs emptyDisk (2 : UInt32).toNat := by
    refine ⟨.inr ⟨by decide, ?_, fun _ h => absurd h (by decide), fun _ h => absurd h (by decide)⟩,
      ?_, fun i hi => absurd hi (by decide +revert), 0, by decide, by decide, by decide⟩
    · exact (by decide +kernel : needed 0 1 ≤ freeBelow sampleFs emptyDisk 2048)
    · exact (by decide +kernel : needed 0 1 ≤ freeBelow sampleFs emptyDisk (min 2048 (2 ^ 20)))
  obtain ⟨i, d', hcreate, hfound, -⟩ := created_found_again (m := ⟨sampleFs, 2, 5⟩)
    emptyDisk_wellFormed emptyDisk_covered hentries (by decide) (by decide)
    (show literal "a" ≠ [] by decide) (by decide) (fun j hj => absurd hj (by decide +revert))
    (by decide) hroom zeroGetfileLocals
  exact ⟨i, d', hcreate, hfound⟩

/-- The empty directory, on a disk where the inode 0 is in use. -/
def usedDisk : Disk := emptyDisk.write 4096 1 fun _ => 5

theorem usedDisk_empty (g : Nat) (h : IsFile sampleFs usedDisk g) : pages sampleFs usedDisk g = 0 := by
  have hall : ∀ g, g < 32 → pages sampleFs usedDisk g = 0 := by decide
  exact hall g h.lt

/-- A name of 60 characters. -/
def longName : List Chr := List.replicate 60 ⟨97, by decide⟩

/-- A file with a name of 60 characters is created and not found again. -/
theorem long_name_lost :
    (WellFormed sampleFs usedDisk (files sampleFs usedDisk) ∧
      Covered sampleFs usedDisk (files sampleFs usedDisk)) ∧
    (getfile ⟨sampleFs, 2, 5⟩ usedDisk zeroGetfileLocals 2 longName true).map Prod.fst =
        some (some (.file 1)) ∧
      ((getfile ⟨sampleFs, 2, 5⟩ usedDisk zeroGetfileLocals 2 longName true).bind fun r =>
        (getfile ⟨sampleFs, 2, 5⟩ r.2 zeroGetfileLocals 2 longName false).map Prod.fst) =
        some none := by
  have hdev : OnDevice sampleFs usedDisk := ⟨by decide, by decide⟩
  exact ⟨⟨wellFormed_of_empty usedDisk_empty, covered_of_empty usedDisk_empty hdev (by decide)⟩,
    by decide +kernel, by decide +kernel⟩

end Fs
