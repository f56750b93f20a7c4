import Endros.Fs.WellFormed

/-!
# Files as flat arrays of bytes

A file system is `Separate` when the lookups of all files end in blocks of their
own: no data block is a block another page maps to, an index block or metadata,
and all these blocks are on the device.  Index blocks are taken as the blocks the
words lie in that a lookup reads.

On such a disk a file is a flat array of bytes (`Contents`).  `fs_file_write`
overwrites an interval of one array, and changes nothing else: not the other
files, not an inode and not the maps.

The address of a data block is computed in 32 bits.  From block `2 ^ 20` on it
is the address of another block, so all this needs the data blocks to lie below.
-/

namespace Fs

open Lib Mem

/-- `fs_file_read`.  `u` and `junk` are what the uninitialised locals hold. -/
def fsFileRead (fs : Filesystem) (d : Disk) (u : Uninit) (junk : Nat → UInt32) (inum off : Nat)
    (buffer : Nat → UInt8) (size : Nat) : Nat → UInt8 :=
  (translateFs d (getInode fs d u inum).1 junk off buffer size false).2

/-- `fs_file_write`. -/
def fsFileWrite (fs : Filesystem) (d : Disk) (u : Uninit) (junk : Nat → UInt32) (inum off : Nat)
    (buffer : Nat → UInt8) (size : Nat) : Disk :=
  (translateFs d (getInode fs d u inum).1 junk off buffer size true).1

/-! ## Blocks of files -/

/-- `b` is a data block of the file `f`. -/
def IsData (fs : Filesystem) (d : Disk) (f b : Nat) : Prop :=
  ∃ i junk, (files fs d).Page f i ∧ b = (lookup d (inodeOf fs d f) junk i).toNat

/-- A lookup of the file `f` reads a byte of the block `b`. -/
def UsesIndex (fs : Filesystem) (d : Disk) (f b : Nat) : Prop :=
  ∃ i junk, (files fs d).Page f i ∧
    ∃ a ∈ indexWords d (inodeOf fs d f) junk i, ∃ j < 4, b = (a + j) / pageSize

/-- The maps of all files are injective, and their blocks and the metadata are
disjoint and on the device. -/
structure Separate (fs : Filesystem) (d : Disk) : Prop where
  size : d.size < 2 ^ 64
  metadata : fs.dataStart * pageSize ≤ d.size
  injective : ∀ {f i i'}, (files fs d).Page f i → (files fs d).Page f i' → ∀ junk junk',
    lookup d (inodeOf fs d f) junk i = lookup d (inodeOf fs d f) junk' i' → i = i'
  data : ∀ {f f' b}, f ≠ f' → IsData fs d f b → ¬ IsData fs d f' b
  index : ∀ {f f' b}, f ≠ f' → UsesIndex fs d f b → ¬ UsesIndex fs d f' b
  dataIndex : ∀ {f f' b}, IsData fs d f b → ¬ UsesIndex fs d f' b
  notMeta : ∀ {f b}, IsData fs d f b ∨ UsesIndex fs d f b → fs.dataStart ≤ b
  inside : ∀ {f b}, IsData fs d f b ∨ UsesIndex fs d f b → (b + 1) * pageSize ≤ d.size

/-- The file `f` is the array `c`: every read within its size returns it. -/
def Contents (fs : Filesystem) (d : Disk) (f : Nat) (c : Nat → UInt8) : Prop :=
  ∀ u junk off size buffer, off + size ≤ (inodeOf fs d f).sizeBytes.toNat →
    ∀ x < size, fsFileRead fs d u junk f off buffer size x = c (off + x)

/-! ## The loop of `translate_fs` when it writes -/

/-- The address of a byte of a file with the blocks `blk`. -/
def byteAddr (blk : Nat → UInt32) (y : Nat) : Nat := addr32 (blk (addr2Page y)) (offset y)

/-- The bytes of the file from `lo` to `hi`, exclusive, are those of `data`. -/
structure Wrote (blk : Nat → UInt32) (d d' : Disk) (lo hi : Nat) (data : Nat → UInt8) : Prop where
  size : d'.size = d.size
  inside : ∀ y, lo ≤ y → y < hi → d'.bytes (byteAddr blk y) = data (y - lo)
  outside : ∀ x, (∀ y, lo ≤ y → y < hi → x ≠ byteAddr blk y) → d'.bytes x = d.bytes x

/-- `d` differs from `d₀` only in bytes of the file below `top`. -/
def SameOutside (blk : Nat → UInt32) (d₀ : Disk) (top : Nat) (d : Disk) : Prop :=
  d.size = d₀.size ∧ ∀ x, (∀ y < top, x ≠ byteAddr blk y) → d.bytes x = d₀.bytes x

/-- A file of `top` bytes whose map does not depend on its own bytes. -/
structure Mapped (d₀ : Disk) (inode : Inode) (blk : Nat → UInt32) (top : Nat) : Prop where
  stable : ∀ d, SameOutside blk d₀ top d → ∀ i junk, i * pageSize < top →
    lookup d inode junk i = blk i
  inj : ∀ y y', y < top → y' < top → byteAddr blk y = byteAddr blk y' → y = y'
  inside : ∀ i, i * pageSize < top → addr32 (blk i) pageSize ≤ d₀.size
  size : d₀.size < 2 ^ 64

section Loop

variable {d₀ d d' d'' : Disk} {inode : Inode} {blk : Nat → UInt32} {top lo mid hi : Nat}

theorem Wrote.sameOutside {data : Nat → UInt8} (h : Wrote blk d d' lo hi data) (hhi : hi ≤ top)
    (hd : SameOutside blk d₀ top d) : SameOutside blk d₀ top d' := by
  refine ⟨h.size.trans hd.1, fun x hx => ?_⟩
  rw [h.outside x fun y _ hy => hx y (by omega)]
  exact hd.2 x hx

/-- Two pieces that follow each other. -/
theorem Wrote.trans {data data' : Nat → UInt8} (hm : Mapped d₀ inode blk top)
    (h₁ : Wrote blk d d' lo mid data) (h₂ : Wrote blk d' d'' mid hi data')
    (hdata : ∀ j, data' j = data (mid - lo + j)) (hlo : lo ≤ mid) (hmid : mid ≤ hi)
    (htop : hi ≤ top) : Wrote blk d d'' lo hi data := by
  refine ⟨h₂.size.trans h₁.size, fun y hy₁ hy₂ => ?_, fun x hx => ?_⟩
  · by_cases hy : y < mid
    · rw [h₂.outside _ fun y' h₁' h₂' he => ?_]
      · exact h₁.inside y hy₁ hy
      · have := hm.inj y y' (by omega) (by omega) he
        omega
    · rw [h₂.inside y (Nat.le_of_not_lt hy) hy₂, hdata]
      exact congrArg data (by omega)
  · rw [h₂.outside x fun y h₁' h₂' => hx y (by omega) h₂',
      h₁.outside x fun y h₁' h₂' => hx y h₁' (by omega)]

/-- The part of one page. -/
theorem wrappedWrite_wrote {id po tp : Nat} (pos : Nat) (buffer : Nat → UInt8) (hpo : po ≤ tp)
    (htp : tp ≤ pageSize) (hin : addr32 (blk id) pageSize ≤ d.size) (h64 : d.size < 2 ^ 64) :
    Wrote blk d (wrappedWrite d (addr32 (blk id) po) (tp - po) buffer pos) (id * pageSize + po)
      (id * pageSize + tp) fun j => buffer (pos + j) := by
  have hbase : ∀ o, addr32 (blk id) o = addr32 (blk id) 0 + o := fun o => by
    rw [addr32_add, Nat.zero_add]
  have haddr : ∀ y, id * pageSize + po ≤ y → y < id * pageSize + tp →
      byteAddr blk y = addr32 (blk id) po + (y - (id * pageSize + po)) := by
    intro y h₁ h₂
    obtain ⟨x, rfl⟩ : ∃ x, y = id * pageSize + x := ⟨y - id * pageSize, by omega⟩
    rw [byteAddr, addr2Page_add (by omega), offset_add (by omega), addr32_add]
    exact congrArg _ (by omega)
  have hcheck : ¬ u64 (addr32 (blk id) po + (tp - po)) > d.size := by
    rw [addr32_add, Nat.add_sub_cancel' hpo]
    rw [hbase] at hin ⊢
    rw [u64_of_lt (by omega)]
    omega
  rw [wrappedWrite, if_neg hcheck]
  refine ⟨rfl, fun y h₁ h₂ => ?_, fun x hx => ?_⟩
  · rw [haddr y h₁ h₂, Disk.write_bytes, patch_add (by omega)]
  · rw [Disk.write_bytes, patch, if_neg]
    rintro ⟨h₁, h₂⟩
    refine hx (id * pageSize + po + (x - addr32 (blk id) po)) (by omega) (by omega) ?_
    rw [haddr _ (by omega) (by omega)]
    omega

theorem translate_write (hm : Mapped d₀ inode blk top) {junk : Nat → UInt32}
    {buffer : Nat → UInt8} {n id po pageMax : Nat} (pos : Nat) (hd : SameOutside blk d₀ top d)
    (hpo : po ≤ pageMax) (hlt : po < pageSize) (hmax : pageMax ≤ n * pageSize)
    (hmin : n * pageSize < pageMax + pageSize) (htop : id * pageSize + pageMax ≤ top) :
    Wrote blk d (translate inode junk true n d id buffer pos po pageMax).1 (id * pageSize + po)
      (id * pageSize + pageMax) fun j => buffer (pos + j) := by
  induction n generalizing d id pos po pageMax with
  | zero =>
      refine ⟨rfl, fun y h₁ h₂ => ?_, fun _ _ => rfl⟩
      omega
  | succ n ih =>
      have hlen : ∀ {t : Nat}, po ≤ t → t ≤ pageSize → u64 (t + 2 ^ 64 - po) = t - po := by
        intro t h₁ h₂
        simp only [u64, pageSize] at *
        omega
      have hid : id * pageSize < top := by
        rw [Nat.add_mul] at hmin
        omega
      have hin : addr32 (blk id) pageSize ≤ d.size := hd.1 ▸ hm.inside id hid
      have h64 : d.size < 2 ^ 64 := hd.1 ▸ hm.size
      rw [translate, hm.stable d hd id _ hid]
      by_cases hbig : pageMax > pageSize
      · simp only [if_pos hbig, if_true]
        rw [hlen (Nat.le_of_lt hlt) (Nat.le_refl _)]
        have h₁ := wrappedWrite_wrote pos buffer (Nat.le_of_lt hlt) (Nat.le_refl _) hin h64
        have hnext : (id + 1) * pageSize = id * pageSize + pageSize := Nat.succ_mul ..
        have hend : (id + 1) * pageSize + (pageMax - pageSize) = id * pageSize + pageMax := by
          omega
        have hfirst : id * pageSize + pageSize ≤ top := by omega
        have h₂ := @ih (wrappedWrite d (addr32 (blk id) po) (pageSize - po) buffer pos) (id + 1) 0
          (pageMax - pageSize) (pos + (pageSize - po)) (h₁.sameOutside hfirst hd) (Nat.zero_le _)
          (by decide) (by rw [Nat.add_mul] at hmax; omega) (by rw [Nat.add_mul] at hmin; omega)
          (Nat.le_trans (Nat.le_of_eq hend) htop)
        rw [hend, hnext, Nat.add_zero (id * pageSize + pageSize)] at h₂
        have hsub : id * pageSize + pageSize - (id * pageSize + po) = pageSize - po := by omega
        refine h₁.trans hm h₂ (fun j => ?_) (by omega) (by omega) htop
        rw [hsub, Nat.add_assoc]
      · obtain rfl : n = 0 := by
          rcases Nat.eq_zero_or_pos n with hn | hn
          · exact hn
          · have : pageSize ≤ n * pageSize := Nat.le_mul_of_pos_left _ hn
            rw [Nat.add_mul] at hmin
            omega
        simp only [if_neg hbig, if_true, translate]
        rw [hlen hpo (by omega)]
        exact wrappedWrite_wrote pos buffer hpo (Nat.le_of_not_lt hbig) hin h64

theorem translateFs_write (hm : Mapped d₀ inode blk top) {junk : Nat → UInt32}
    {buffer : Nat → UInt8} {off size : Nat} (hle : off + size ≤ top) (hlt : top < 2 ^ 64) :
    Wrote blk d₀ (translateFs d₀ inode junk off buffer size true).1 off (off + size) buffer := by
  have hoff := addr2Page_add_offset off
  have hup := le_addr2PageUp (off + size)
  have hup' := addr2PageUp_lt (off + size)
  have hn : (addr2PageUp (off + size) - addr2Page off) * pageSize =
      addr2PageUp (off + size) * pageSize - addr2Page off * pageSize := Nat.sub_mul ..
  rw [translateFs, u64_of_lt (by omega), u64_of_lt (by omega)]
  have h : Wrote blk d₀ (translate inode junk true (addr2PageUp (off + size) - addr2Page off) d₀
      (addr2Page off) buffer 0 (offset off) (offset off + size)).1
      (addr2Page off * pageSize + offset off) (addr2Page off * pageSize + (offset off + size))
      fun j => buffer (0 + j) :=
    translate_write hm 0 ⟨rfl, fun _ _ => rfl⟩ (Nat.le_add_right ..) (offset_lt off) (by omega)
      (by omega) (by omega)
  simp only [Nat.zero_add] at h
  rw [hoff, ← Nat.add_assoc, hoff] at h
  exact h

/-- What a read of a file returns whose blocks are on the device. -/
theorem translateFs_read_blocks
    (hblk : ∀ i junk, i * pageSize < top → lookup d inode junk i = blk i)
    (hin : ∀ i, i * pageSize < top → addr32 (blk i) pageSize ≤ d.size) (h64 : d.size < 2 ^ 64)
    {junk : Nat → UInt32} {buffer : Nat → UInt8} {off size x : Nat} (hle : off + size ≤ top)
    (hlt : top < 2 ^ 64) (hx : x < size) :
    (translateFs d inode junk off buffer size false).2 x = d.bytes (byteAddr blk (off + x)) := by
  have hpage := addr2Page_add_offset (off + x)
  have hid : addr2Page (off + x) * pageSize < top := by omega
  have hle' : addr32 (blk (addr2Page (off + x)))
      (min pageSize (off + size - addr2Page (off + x) * pageSize)) ≤
      addr32 (blk (addr2Page (off + x))) pageSize := Nat.add_le_add_left (Nat.min_le_left ..) _
  rw [translateFs_read (by omega) hx, readByte, hblk _ _ hid, if_neg]
  · rfl
  · have hsize := hin _ hid
    rw [u64_of_lt (by omega)]
    omega

end Loop

/-! ## Separate disks -/

/-- The block of a page of the file `f`. -/
def blockOf (fs : Filesystem) (d : Disk) (f i : Nat) : UInt32 := lookup d (inodeOf fs d f) 0 i

/-- All data blocks are where 32-bit addresses reach them. -/
def Reachable (fs : Filesystem) (d : Disk) : Prop := ∀ f b, IsData fs d f b → b < 2 ^ 20

section Separate

variable {fs : Filesystem} {d d' : Disk} {f g i : Nat}

/-- The bytes of a file are on its pages. -/
theorem page_of_lt (hf : IsFile fs d f) {y : Nat} (hy : y < (inodeOf fs d f).sizeBytes.toNat) :
    (files fs d).Page f (addr2Page y) := by
  have hup := le_addr2PageUp (inodeOf fs d f).sizeBytes.toNat
  have hpage := addr2Page_add_offset y
  refine ⟨hf, Nat.lt_of_not_le fun hle => ?_⟩
  have := Nat.mul_le_mul_right pageSize hle
  simp only [files, pages] at this
  omega

theorem page_of_mul_lt (hf : IsFile fs d f) (h : i * pageSize < (inodeOf fs d f).sizeBytes.toNat) :
    (files fs d).Page f i := by
  have hp := page_of_lt hf h
  rwa [addr2Page_mul] at hp

variable (hs : Separate fs d)
include hs

theorem Separate.word_inside {junk : UInt32} (hp : (files fs d).Page f i) {a : Nat}
    (ha : a ∈ indexWords d (inodeOf fs d f) junk i) : a + 4 ≤ d.size := by
  have h := hs.inside (.inr ⟨i, junk, hp, a, ha, 3, by decide, rfl⟩)
  have hdiv := Nat.div_add_mod (a + 3) pageSize
  have hmod := Nat.mod_lt (a + 3) (show 0 < pageSize by decide)
  rw [Nat.add_mul, Nat.mul_comm] at h
  omega

theorem Separate.lookup_eq (hp : (files fs d).Page f i) (junk : UInt32) :
    lookup d (inodeOf fs d f) junk i = blockOf fs d f i := by
  rw [blockOf, lookup_eq_follow, lookup_eq_follow]
  exact (follow_old hs.size 0 fun a ha => hs.word_inside hp ha).1

omit hs in
theorem isData_blockOf (hp : (files fs d).Page f i) : IsData fs d f (blockOf fs d f i).toNat :=
  ⟨i, 0, hp, rfl⟩

/-- A file of a separate disk is a flat array. -/
theorem Separate.contents (hf : IsFile fs d f) :
    Contents fs d f fun y => d.bytes (byteAddr (blockOf fs d f) y) := by
  intro u junk off size buffer hle x hx
  rw [fsFileRead, getInode_of_le hs.metadata hs.size hf]
  refine translateFs_read_blocks (fun i junk hi => hs.lookup_eq (page_of_mul_lt hf hi) junk)
    (fun i hi => ?_) hs.size hle (inodeOf fs d f).sizeBytes.toNat_lt hx
  have hin := hs.inside (.inl (isData_blockOf (page_of_mul_lt hf hi)))
  rw [Nat.add_mul, Nat.one_mul] at hin
  exact Nat.le_trans (addr32_le ..) hin

section Reachable

variable (hr : Reachable fs d)
include hr

omit hs in
theorem byteAddr_eq {y : Nat} (hp : (files fs d).Page f (addr2Page y)) :
    byteAddr (blockOf fs d f) y = (blockOf fs d f (addr2Page y)).toNat * pageSize + offset y :=
  addr32_of_lt (hr f _ (isData_blockOf hp)) _

omit hs in
/-- A byte of the file `f` lies in a data block of `f`. -/
theorem byteAddr_div {y : Nat} (hp : (files fs d).Page f (addr2Page y)) :
    byteAddr (blockOf fs d f) y / pageSize = (blockOf fs d f (addr2Page y)).toNat := by
  rw [byteAddr_eq hr hp, ← addr2Page, addr2Page_add (offset_lt y)]

/-- The map of a file of a separate disk. -/
theorem Separate.mapped (hf : IsFile fs d f) :
    Mapped d (inodeOf fs d f) (blockOf fs d f) (inodeOf fs d f).sizeBytes.toNat := by
  refine ⟨fun d₁ hd i junk hi => ?_, fun y y' hy hy' he => ?_, fun i hi => ?_, hs.size⟩
  · have hp := page_of_mul_lt hf hi
    -- no byte of the file is in a word that the lookup reads
    have hwords : ∀ a ∈ indexWords d (inodeOf fs d f) junk i, ∀ j, j < 4 →
        d₁.bytes (a + j) = d.bytes (a + j) := by
      intro a ha j hj
      refine hd.2 _ fun y hy he => ?_
      have hpy := page_of_lt hf hy
      refine hs.dataIndex (isData_blockOf hpy) ⟨i, junk, hp, a, ha, j, hj, ?_⟩
      rw [he, byteAddr_div hr hpy]
    rw [← hs.lookup_eq hp junk, lookup_eq_follow, lookup_eq_follow]
    exact (follow_congr hd.1 _ _ _ hwords).1
  · have hp := page_of_lt hf hy
    have hp' := page_of_lt hf hy'
    have hblock : blockOf fs d f (addr2Page y) = blockOf fs d f (addr2Page y') := by
      apply UInt32.toNat_inj.mp
      rw [← byteAddr_div hr hp, ← byteAddr_div hr hp', he]
    have hpage : addr2Page y = addr2Page y' := hs.injective hp hp' 0 0 hblock
    rw [byteAddr_eq hr hp, byteAddr_eq hr hp', hblock] at he
    have h₁ := addr2Page_add_offset y
    have h₂ := addr2Page_add_offset y'
    rw [hpage] at h₁
    omega
  · have hp := page_of_mul_lt hf hi
    have hin := hs.inside (.inl (isData_blockOf hp))
    rw [addr32_of_lt (hr f _ (isData_blockOf hp))]
    rw [Nat.add_mul, Nat.one_mul] at hin
    exact hin

end Reachable

omit hs in
theorem Contents.congr {c c' : Nat → UInt8} (h : Contents fs d f c)
    (hc : ∀ y < (inodeOf fs d f).sizeBytes.toNat, c y = c' y) : Contents fs d f c' := by
  intro u junk off size buffer hle x hx
  rw [h u junk off size buffer hle x hx]
  exact hc _ (by omega)

/-! ## What a write keeps -/

/-- `d'` differs from `d` only in data blocks of the file `f`. -/
structure DataOf (fs : Filesystem) (d : Disk) (f : Nat) (d' : Disk) : Prop where
  size : d'.size = d.size
  bytes : ∀ x, ¬ IsData fs d f (x / pageSize) → d'.bytes x = d.bytes x

namespace DataOf

variable (h : DataOf fs d f d')
include h

theorem metadata {x : Nat} (hx : x < fs.dataStart * pageSize) : d'.bytes x = d.bytes x := by
  refine h.bytes x fun hdata => ?_
  have hle := hs.notMeta (.inl hdata)
  have hlt : x / pageSize < fs.dataStart := Nat.div_lt_of_lt_mul (by rw [Nat.mul_comm]; exact hx)
  omega

theorem inode (hg : g < fs.inodeTableBlocks.toNat * 32) : inodeOf fs d' g = inodeOf fs d g :=
  inodeOf_congr fun _ _ ha => h.metadata hs (Nat.lt_of_lt_of_le ha (inodeAddr_le hg))

theorem isFile : IsFile fs d' g ↔ IsFile fs d g := by
  refine isFile_congr fun a ha => h.metadata hs (Nat.lt_of_lt_of_le ha ?_)
  refine Nat.mul_le_mul_right _ ?_
  rw [fs.dataBitmapOffset_eq, Filesystem.dataStart]
  omega

theorem page : (files fs d').Page g i ↔ (files fs d).Page g i := by
  have hpages : IsFile fs d g → (files fs d').pages g = (files fs d).pages g := fun hg => by
    show pages fs d' g = pages fs d g
    rw [pages, pages, h.inode hs hg.lt]
  constructor
  · rintro ⟨hf, hlt⟩
    have hf' : IsFile fs d g := (h.isFile hs).mp hf
    exact ⟨hf', hpages hf' ▸ hlt⟩
  · rintro ⟨hf, hlt⟩
    exact ⟨(h.isFile hs).mpr hf, (hpages hf).symm ▸ hlt⟩

/-- No lookup has changed. -/
theorem lookups (hp : (files fs d).Page g i) (junk : UInt32) :
    lookup d' (inodeOf fs d' g) junk i = lookup d (inodeOf fs d g) junk i ∧
      indexWords d' (inodeOf fs d' g) junk i = indexWords d (inodeOf fs d g) junk i := by
  have hwords : ∀ a ∈ indexWords d (inodeOf fs d g) junk i, ∀ j, j < 4 →
      d'.bytes (a + j) = d.bytes (a + j) := fun a ha j hj =>
    h.bytes _ fun hdata => hs.dataIndex hdata ⟨i, junk, hp, a, ha, j, hj, rfl⟩
  obtain ⟨hf, -, hw⟩ := follow_congr h.size _ _ _ hwords
  rw [h.inode hs (IsFile.lt hp.file), lookup_eq_follow, lookup_eq_follow]
  exact ⟨hf, hw⟩

theorem isData {b : Nat} : IsData fs d' g b ↔ IsData fs d g b := by
  constructor
  · rintro ⟨i, junk, hp, rfl⟩
    have hp' := (h.page hs).mp hp
    exact ⟨i, junk, hp', by rw [(h.lookups hs hp' junk).1]⟩
  · rintro ⟨i, junk, hp, rfl⟩
    exact ⟨i, junk, (h.page hs).mpr hp, by rw [(h.lookups hs hp junk).1]⟩

theorem usesIndex {b : Nat} : UsesIndex fs d' g b ↔ UsesIndex fs d g b := by
  constructor
  · rintro ⟨i, junk, hp, a, ha, j, hj, rfl⟩
    have hp' := (h.page hs).mp hp
    exact ⟨i, junk, hp', a, (h.lookups hs hp' junk).2 ▸ ha, j, hj, rfl⟩
  · rintro ⟨i, junk, hp, a, ha, j, hj, rfl⟩
    exact ⟨i, junk, (h.page hs).mpr hp, a, (h.lookups hs hp junk).2.symm ▸ ha, j, hj, rfl⟩

theorem separate : Separate fs d' := by
  constructor
  · rw [h.size]
    exact hs.size
  · rw [h.size]
    exact hs.metadata
  · intro g i i' hp hp' junk junk' he
    have hp := (h.page hs).mp hp
    have hp' := (h.page hs).mp hp'
    rw [(h.lookups hs hp junk).1, (h.lookups hs hp' junk').1] at he
    exact hs.injective hp hp' junk junk' he
  · intro g g' b hne
    rw [h.isData hs, h.isData hs]
    exact hs.data hne
  · intro g g' b hne
    rw [h.usesIndex hs, h.usesIndex hs]
    exact hs.index hne
  · intro g g' b
    rw [h.isData hs, h.usesIndex hs]
    exact hs.dataIndex
  · intro g b
    rw [h.isData hs, h.usesIndex hs]
    exact hs.notMeta
  · intro g b
    rw [h.isData hs, h.usesIndex hs, h.size]
    exact hs.inside

/-- The array a file is afterwards. -/
theorem contents (hg : IsFile fs d g) :
    Contents fs d' g fun y => d'.bytes (byteAddr (blockOf fs d g) y) := by
  refine ((h.separate hs).contents ((h.isFile hs).mpr hg)).congr fun y hy => ?_
  rw [h.inode hs hg.lt] at hy
  rw [byteAddr, byteAddr, blockOf, blockOf, (h.lookups hs (page_of_lt hg hy) 0).1]

end DataOf

end Separate

/-- Writing to a file.  On a separate disk whose data blocks are below `2 ^ 20`,
`fs_file_write` overwrites an interval of the array that the file is, and keeps
the other files, the inodes and the maps. -/
theorem fsFileWrite_flat {fs : Filesystem} {d : Disk} (hs : Separate fs d) (hr : Reachable fs d)
    {f off size : Nat} (hf : IsFile fs d f)
    (hle : off + size ≤ (inodeOf fs d f).sizeBytes.toNat) (u : Uninit) (junk : Nat → UInt32)
    (buffer : Nat → UInt8) :
    let d' := fsFileWrite fs d u junk f off buffer size
    (∃ c, Contents fs d f c ∧ Contents fs d' f (patch c off size buffer)) ∧
      (∀ g, IsFile fs d g → g ≠ f → ∃ c, Contents fs d g c ∧ Contents fs d' g c) ∧
      (∀ g, IsFile fs d' g ↔ IsFile fs d g) ∧
      (∀ g < fs.inodeTableBlocks.toNat * 32, inodeOf fs d' g = inodeOf fs d g) ∧
      Separate fs d' := by
  intro d'
  have hw : Wrote (blockOf fs d f) d d' off (off + size) buffer := by
    have hwrite : d' = (translateFs d (inodeOf fs d f) junk off buffer size true).1 := by
      show (translateFs d (getInode fs d u f).1 junk off buffer size true).1 = _
      rw [getInode_of_le hs.metadata hs.size hf]
    rw [hwrite]
    exact translateFs_write (hs.mapped hr hf) hle (inodeOf fs d f).sizeBytes.toNat_lt
  have hd : DataOf fs d f d' := by
    refine ⟨hw.size, fun x hx => hw.outside x fun y h₁ h₂ he => hx ?_⟩
    have hp := page_of_lt hf (Nat.lt_of_lt_of_le h₂ hle)
    rw [he, byteAddr_div hr hp]
    exact isData_blockOf hp
  refine ⟨⟨_, hs.contents hf, (hd.contents hs hf).congr fun y hy => ?_⟩, fun g hg hne => ?_,
    fun g => hd.isFile hs, fun g hg => hd.inode hs hg, hd.separate hs⟩
  · rw [hd.inode hs hf.lt] at hy
    by_cases hin : off ≤ y ∧ y < off + size
    · rw [patch_of_mem hin.1 hin.2]
      exact hw.inside y hin.1 hin.2
    · rw [patch, if_neg hin]
      refine hw.outside _ fun y' h₁ h₂ he => hin ?_
      rw [(hs.mapped hr hf).inj y y' hy (by omega) he]
      exact ⟨h₁, h₂⟩
  · refine ⟨_, hs.contents hg, (hd.contents hs hg).congr fun y hy => hd.bytes _ fun hdata => ?_⟩
    rw [hd.inode hs hg.lt] at hy
    have hp := page_of_lt hg hy
    rw [byteAddr_div hr hp] at hdata
    exact hs.data hne (isData_blockOf hp) hdata

/-! ## Two files of one byte -/

/-- A file system with a few more than `2 ^ 20` blocks. -/
def largeFs : Filesystem :=
  { inodeBitmapBlocks := 1
    dataBitmapBlocks := 33
    inodeTableBlocks := 1
    sizeBlocks := 1048640
    metadata := by decide
    bitmap := by decide
    inodes := by decide }

/-- The inode of a file of one byte in the block `b`. -/
def byteInode (b : UInt32) : Inode :=
  { type := 0
    permission := 0
    sizeBytes := 1
    direct := fun _ => b
    singleInd := 0
    doubleInd := 0
    tripleInd := 0 }

/-- The files `2`, in block 40, and `3`, in block `b`. -/
def pairDisk (b : UInt32) : Disk :=
  (((Disk.mk (fun _ => 0) (1048640 * 4096)).write 4096 1 fun _ => 12).write (35 * 4096 + 256) 128
    (bytesOfWords (byteInode 40).words)).write (35 * 4096 + 384) 128
    (bytesOfWords (byteInode b).words)

/-- The block of the byte of a file. -/
def pairBlock (b : UInt32) (f : Nat) : UInt32 := if f = 2 then 40 else b

section Pair

variable {b : UInt32} (hb : b = 41 ∨ b = 1048616)
include hb

theorem pairDisk_page {f i : Nat} (hp : (files largeFs (pairDisk b)).Page f i) :
    (f = 2 ∨ f = 3) ∧ i = 0 ∧ inodeOf largeFs (pairDisk b) f = byteInode (pairBlock b f) := by
  have hfile : ∀ f, f < 32 → bitmapGet ((pairDisk b).bytes (inodeBitmapByte f)) f = true →
      f = 2 ∨ f = 3 := by
    rcases hb with rfl | rfl <;> decide
  have hwords : ∀ f, f = 2 ∨ f = 3 → ∀ k, k < inodeWords →
      le32 (pairDisk b).bytes (inodeAddr largeFs f + 4 * k) = (byteInode (pairBlock b f)).words k := by
    rcases hb with rfl | rfl <;> rintro f (rfl | rfl) <;> decide
  have hf := hfile f (IsFile.lt hp.file) (IsFile.marked hp.file)
  have hinode : inodeOf largeFs (pairDisk b) f = byteInode (pairBlock b f) := by
    rw [inodeOf, Inode.ofWords_congr (hwords f hf), Inode.ofWords_words]
  have hlt : i < addr2PageUp (inodeOf largeFs (pairDisk b) f).sizeBytes.toNat := hp.lt
  rw [hinode] at hlt
  have hone : addr2PageUp (byteInode (pairBlock b f)).sizeBytes.toNat = 1 :=
    show addr2PageUp 1 = 1 by decide
  exact ⟨hf, by omega, hinode⟩

theorem pairDisk_isData {f n : Nat} (h : IsData largeFs (pairDisk b) f n) :
    (f = 2 ∨ f = 3) ∧ n = (pairBlock b f).toNat := by
  obtain ⟨i, junk, hp, rfl⟩ := h
  obtain ⟨hf, rfl, hinode⟩ := pairDisk_page hb hp
  rw [hinode]
  exact ⟨hf, rfl⟩

theorem pairDisk_usesIndex {f n : Nat} : ¬ UsesIndex largeFs (pairDisk b) f n := by
  rintro ⟨i, junk, hp, a, ha, -⟩
  obtain ⟨-, rfl, -⟩ := pairDisk_page hb hp
  exact absurd ha List.not_mem_nil

theorem pairDisk_separate : Separate largeFs (pairDisk b) := by
  have hsize : (pairDisk b).size = 1048640 * 4096 := rfl
  refine ⟨by rw [hsize]; decide, by rw [hsize]; decide, fun {f i i'} hp hp' _ _ _ => ?_, fun {f f' n} hne hd hd' => ?_,
    fun _ h => absurd h (pairDisk_usesIndex hb), fun _ => pairDisk_usesIndex hb,
    fun {f n} h => ?_, fun {f n} h => ?_⟩
  · rw [(pairDisk_page hb hp).2.1, (pairDisk_page hb hp').2.1]
  · obtain ⟨hf, rfl⟩ := pairDisk_isData hb hd
    obtain ⟨hf', he⟩ := pairDisk_isData hb hd'
    rcases hb with rfl | rfl <;> rcases hf with rfl | rfl <;> rcases hf' with rfl | rfl <;>
      first | exact hne rfl | exact absurd he (by decide)
  · rcases h with h | h
    · obtain ⟨hf, rfl⟩ := pairDisk_isData hb h
      rcases hb with rfl | rfl <;> rcases hf with rfl | rfl <;> decide
    · exact absurd h (pairDisk_usesIndex hb)
  · rcases h with h | h
    · obtain ⟨hf, rfl⟩ := pairDisk_isData hb h
      rcases hb with rfl | rfl <;> rcases hf with rfl | rfl <;> decide
    · exact absurd h (pairDisk_usesIndex hb)

end Pair

/-- Locals of `get_inode` that happen to hold zeros. -/
def zeroUninit : Uninit := { bitmapByte := 0, inode := byteInode 0 }

/-- With the files in the blocks 40 and 41. -/
theorem fsFileWrite_flat_pair :
    ∃ c, Contents largeFs (pairDisk 41) 3 c ∧
      Contents largeFs (fsFileWrite largeFs (pairDisk 41) zeroUninit (fun _ => 0) 3 0 (fun _ => 7) 1)
        3 (patch c 0 1 fun _ => 7) := by
  have hr : Reachable largeFs (pairDisk 41) := fun f n h => by
    obtain ⟨hf, rfl⟩ := pairDisk_isData (.inl rfl) h
    rcases hf with rfl | rfl <;> decide
  have hf : IsFile largeFs (pairDisk 41) 3 := ⟨by decide, by decide⟩
  have hinode := (pairDisk_page (.inl rfl) (page_of_mul_lt (i := 0) hf (by decide))).2.2
  exact (fsFileWrite_flat (pairDisk_separate (.inl rfl)) hr hf (by rw [hinode]; decide) _ _ _).1

/-- The address of block `2 ^ 20 + 40` is that of block 40: the byte that is
written to the file `3` is then read from the file `2`. -/
theorem write_reaches_other_file :
    Separate largeFs (pairDisk 1048616) ∧ IsFile largeFs (pairDisk 1048616) 2 ∧
      IsFile largeFs (pairDisk 1048616) 3 ∧
      fsFileRead largeFs (pairDisk 1048616) zeroUninit (fun _ => 0) 2 0 (fun _ => 0) 1 0 = 0 ∧
      fsFileRead largeFs
        (fsFileWrite largeFs (pairDisk 1048616) zeroUninit (fun _ => 0) 3 0 (fun _ => 7) 1)
        zeroUninit (fun _ => 0) 2 0 (fun _ => 0) 1 0 = 7 := by
  refine ⟨pairDisk_separate (.inr rfl), ⟨by decide, by decide⟩, ⟨by decide, by decide⟩,
    ?_, ?_⟩ <;> decide

end Fs
