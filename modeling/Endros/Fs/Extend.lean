import Endros.Fs.Flat
import Endros.Fs.Grow

/-!
# One file, grown and written

`FileMap` is the map of one file: where its pages are, and that reading the map
touches neither its data nor the metadata.  It says nothing about other files, so
it holds while the inode table has an entry that is not filled in yet.  With it
`fs_file_read` and `fs_file_write` are those of an array.

A file that grows keeps its type, its permission and its bytes (`Extended`), and
gets blocks from the low end of the disk.
-/

namespace Fs

open Lib Mem

/-! ## The map of a file -/

/-- The first `n` pages of the file are the blocks `blk`, below `2 ^ 20`. -/
structure FileMap (fs : Filesystem) (d : Disk) (inode : Inode) (blk : Nat → UInt32) (n : Nat) :
    Prop where
  size : d.size < 2 ^ 64
  lookup : ∀ {i}, i < n → ∀ junk, lookup d inode junk i = blk i
  word : ∀ {i}, i < n → ∀ junk, ∀ a ∈ indexWords d inode junk i, ∀ j, j < 4 →
    fs.dataStart * pageSize ≤ a + j ∧ ∀ i', i' < n → (a + j) / pageSize ≠ (blk i').toNat
  inj : ∀ {i i'}, i < n → i' < n → blk i = blk i' → i = i'
  low : ∀ {i}, i < n → (blk i).toNat < 2 ^ 20
  notMeta : ∀ {i}, i < n → fs.dataStart ≤ (blk i).toNat
  inside : ∀ {i}, i < n → ((blk i).toNat + 1) * pageSize ≤ d.size

namespace FileMap

variable {fs : Filesystem} {d d' : Disk} {inode : Inode} {blk : Nat → UInt32} {n top : Nat}

/-- The map stays the same while only metadata and bytes of the file change. -/
theorem congr (h : FileMap fs d inode blk n) (hsize : d'.size = d.size)
    (hbytes : ∀ a, fs.dataStart * pageSize ≤ a → (∀ i, i < n → a / pageSize ≠ (blk i).toNat) →
      d'.bytes a = d.bytes a) : FileMap fs d' inode blk n := by
  have hfollow : ∀ {i}, i < n → ∀ junk, Fs.lookup d' inode junk i = Fs.lookup d inode junk i ∧
      indexWords d' inode junk i = indexWords d inode junk i := by
    intro i hi junk
    obtain ⟨hf, -, hw⟩ := follow_congr hsize _ _ _ fun a ha j hj =>
      hbytes (a + j) (h.word hi junk a ha j hj).1 (h.word hi junk a ha j hj).2
    rw [lookup_eq_follow, lookup_eq_follow]
    exact ⟨hf, hw⟩
  refine ⟨hsize ▸ h.size, fun hi junk => ?_, fun hi junk => ?_, h.inj, h.low, h.notMeta,
    fun hi => hsize ▸ h.inside hi⟩
  · rw [(hfollow hi junk).1]
    exact h.lookup hi junk
  · rw [(hfollow hi junk).2]
    exact h.word hi junk

theorem page_lt {y : Nat} (hy : y < n * pageSize) : addr2Page y < n :=
  Nat.div_lt_of_lt_mul (by rw [Nat.mul_comm]; exact hy)

theorem byteAddr_eq (h : FileMap fs d inode blk n) {y : Nat} (hy : y < n * pageSize) :
    byteAddr blk y = (blk (addr2Page y)).toNat * pageSize + offset y :=
  addr32_of_lt (h.low (page_lt hy)) _

theorem byteAddr_div (h : FileMap fs d inode blk n) {y : Nat} (hy : y < n * pageSize) :
    byteAddr blk y / pageSize = (blk (addr2Page y)).toNat := by
  rw [h.byteAddr_eq hy, ← addr2Page, addr2Page_add (offset_lt y)]

theorem mapped (h : FileMap fs d inode blk n) (htop : top ≤ n * pageSize) :
    Mapped d inode blk top := by
  have hpage : ∀ {i}, i * pageSize < top → i < n := fun {i} hi =>
    Nat.lt_of_mul_lt_mul_right (a := pageSize) (by omega)
  refine ⟨fun d₁ hd i junk hi => ?_, fun y y' hy hy' he => ?_, fun i hi => ?_, h.size⟩
  · refine (h.congr hd.1 fun a _ hblk => hd.2 a fun y hy he => ?_).lookup (hpage hi) junk
    rw [he, h.byteAddr_div (by omega)] at hblk
    exact hblk _ (page_lt (by omega)) rfl
  · have hdiv : byteAddr blk y / pageSize = byteAddr blk y' / pageSize := by rw [he]
    rw [h.byteAddr_div (by omega), h.byteAddr_div (by omega)] at hdiv
    have hsame := h.inj (page_lt (by omega)) (page_lt (by omega)) (UInt32.toNat_inj.mp hdiv)
    rw [h.byteAddr_eq (by omega), h.byteAddr_eq (by omega), hsame] at he
    have h₁ := addr2Page_add_offset y
    have h₂ := addr2Page_add_offset y'
    rw [hsame] at h₁
    omega
  · have hin := h.inside (hpage hi)
    rw [addr32_of_lt (h.low (hpage hi))]
    rw [Nat.add_mul, Nat.one_mul] at hin
    exact hin

/-- What a read of the file returns. -/
theorem read (h : FileMap fs d inode blk n) {junk : Nat → UInt32} {buffer : Nat → UInt8}
    {off size x : Nat} (hle : off + size ≤ top) (htop : top ≤ n * pageSize) (hlt : top < 2 ^ 64)
    (hx : x < size) :
    (translateFs d inode junk off buffer size false).2 x = d.bytes (byteAddr blk (off + x)) := by
  have hm := h.mapped htop
  exact translateFs_read_blocks (hm.stable d ⟨rfl, fun _ _ => rfl⟩) hm.inside h.size hle hlt hx

/-- What a write to the file does. -/
theorem write (h : FileMap fs d inode blk n) (junk : Nat → UInt32) (buffer : Nat → UInt8)
    {off size : Nat} (hle : off + size ≤ top) (htop : top ≤ n * pageSize) (hlt : top < 2 ^ 64) :
    Wrote blk d (translateFs d inode junk off buffer size true).1 off (off + size) buffer :=
  translateFs_write (h.mapped htop) hle hlt

/-- A write leaves the bytes of other blocks alone. -/
theorem wrote_bytes (h : FileMap fs d inode blk n) {lo hi : Nat} {data : Nat → UInt8}
    (hw : Wrote blk d d' lo hi data) (htop : hi ≤ n * pageSize) {a : Nat}
    (ha : ∀ i, i < n → a / pageSize ≠ (blk i).toNat) : d'.bytes a = d.bytes a := by
  refine hw.outside a fun y h₁ h₂ he => ha _ (page_lt (by omega : y < n * pageSize)) ?_
  rw [he, h.byteAddr_div (by omega)]

/-- The file is an array, and the write overwrites a part of it. -/
theorem wrote_byteAddr (h : FileMap fs d inode blk n) {lo hi : Nat} {data : Nat → UInt8}
    (hw : Wrote blk d d' lo hi data) (htop : hi ≤ n * pageSize) {y : Nat} (hy : y < n * pageSize) :
    d'.bytes (byteAddr blk y) =
      patch (fun y => d.bytes (byteAddr blk y)) lo (hi - lo) data y := by
  rw [patch]
  split
  · rename_i hin
    exact hw.inside y hin.1 (by omega)
  · rename_i hout
    refine hw.outside _ fun y' h₁ h₂ he => hout ?_
    rw [(h.mapped (Nat.le_refl _)).inj y y' hy (by omega) he]
    exact ⟨h₁, by omega⟩

/-- A write to a file keeps the metadata. -/
theorem wrote_meta (h : FileMap fs d inode blk n) {lo hi : Nat} {data : Nat → UInt8}
    (hw : Wrote blk d d' lo hi data) (htop : hi ≤ n * pageSize) {a : Nat}
    (ha : a < fs.dataStart * pageSize) : d'.bytes a = d.bytes a := by
  refine h.wrote_bytes hw htop fun j hj he => ?_
  have hmeta := h.notMeta hj
  have hlt : a / pageSize < fs.dataStart :=
    Nat.div_lt_of_lt_mul (by rw [Nat.mul_comm]; exact ha)
  omega

end FileMap

section WellFormed

variable {fs : Filesystem} {d : Disk} {f : Nat}

/-- The data blocks of a file are where 32-bit addresses reach them. -/
def LowBlocks (fs : Filesystem) (d : Disk) (f : Nat) : Prop :=
  ∀ i, i < pages fs d f → ∀ junk, (lookup d (inodeOf fs d f) junk i).toNat < 2 ^ 20

/-- The map of a file of a well-formed disk. -/
theorem WellFormed.fileMap (hw : WellFormed fs d (files fs d)) (hc : Covered fs d (files fs d))
    (hf : IsFile fs d f) (hlow : LowBlocks fs d f) :
    FileMap fs d (inodeOf fs d f) (blockOf fs d f) (pages fs d f) := by
  have hpage : ∀ {i}, i < pages fs d f → (files fs d).Page f i := fun hi => ⟨hf, hi⟩
  refine ⟨hc.device.lt, fun {i} hi junk => ?_, fun {i} hi junk a ha j hj => ?_,
    fun hi hi' he => (hw.distinct (hpage hi) (hpage hi') 0 0 he).2, fun hi => hlow _ hi 0,
    fun hi => hw.notMeta (hpage hi) 0, fun {i} hi => ?_⟩
  · rw [blockOf, lookup_eq_follow, lookup_eq_follow]
    refine (follow_old hc.device.lt 0 fun a ha => ?_).1
    obtain ⟨q, hq, o, -, rfl, ho⟩ := hc.word (hpage hi) ha
    exact hc.device.block_le (hc.indexLt ⟨f, i, junk, hpage hi, q, hq, rfl⟩).1 ho
  · obtain ⟨q, hq, o, -, rfl, ho⟩ := hc.word (hpage hi) ha
    have hindex : (files fs d).IsIndex d q.toNat := ⟨f, i, junk, hpage hi, q, hq, rfl⟩
    have hdiv : (q.toNat * pageSize + o + j) / pageSize = q.toNat := by
      rw [Nat.add_assoc, ← addr2Page, addr2Page_add (by omega)]
    have hmeta := Nat.mul_le_mul_right pageSize (hc.indexNotMeta hindex)
    refine ⟨by omega, fun i' hi' he => ?_⟩
    rw [hdiv] at he
    exact hw.notIndex (hpage hi') 0 (he ▸ hindex)
  · exact Nat.le_trans (Nat.mul_le_mul_right pageSize (hw.lt (hpage hi) 0)) hc.device.le

/-! ## Growth -/

/-- Free blocks are taken from the low end: with enough of them below `n` all the
blocks that were taken are below `n`. -/
theorem Growing.taken_lt {d' : Disk} {p k : Nat} {inode : Inode}
    (h : Growing fs d f p k d' inode) {n b : Nat} (hn : n ≤ fs.sizeBlocks.toNat)
    (hk : k ≤ freeBelow fs d n) (hb : b < fs.sizeBlocks.toNat) (hfree : Fs.marked fs d b = false)
    (hmarked : Fs.marked fs d' b = true) : b < n := by
  refine Nat.lt_of_not_le fun hle => ?_
  obtain ⟨m, hm⟩ := Nat.exists_eq_add_of_le hn
  -- behind `n` there are fewer free blocks than before, but as many were taken below
  have hless : Nat.count (fun c => Fs.marked fs d' (n + c) = false) m <
      Nat.count (fun c => Fs.marked fs d (n + c) = false) m := by
    rw [Nat.count_eq_card_filter_range, Nat.count_eq_card_filter_range]
    have hsub : (Finset.range m).filter (fun c => Fs.marked fs d' (n + c) = false) ⊆
        (Finset.range m).filter fun c => Fs.marked fs d (n + c) = false := by
      intro c hc
      rw [Finset.mem_filter, Finset.mem_range] at hc ⊢
      refine ⟨hc.1, Bool.eq_false_iff.mpr fun hold => ?_⟩
      rw [h.marked _ (by omega) hold] at hc
      cases hc.2
    refine Finset.card_lt_card ((Finset.ssubset_iff_of_subset hsub).mpr ⟨b - n, ?_, ?_⟩)
    · rw [Finset.mem_filter, Finset.mem_range, Nat.add_sub_cancel' hle]
      exact ⟨by omega, hfree⟩
    · rw [Finset.mem_filter, Nat.add_sub_cancel' hle, hmarked]
      exact fun hc => Bool.noConfusion hc.2
  have hbelow := h.count n hn
  have hall := h.count _ (Nat.le_refl _)
  rw [freeBelow, freeBelow, hm, Nat.count_add, Nat.count_add] at hall
  rw [freeBelow, freeBelow] at hbelow
  rw [freeBelow] at hk
  omega

/-- What the growth of a file to a new size keeps, and where the new blocks are. -/
structure Extended (fs : Filesystem) (d : Disk) (f : Nat) (newsize : UInt64) (d' : Disk) : Prop where
  grown : Grown fs d f (addr2PageUp newsize.toNat) d'
  sizeBytes : (inodeOf fs d' f).sizeBytes = newsize
  header : SameHeader (inodeOf fs d f) (inodeOf fs d' f)
  table : ∀ a, a < fs.dataBitmapOffset * pageSize → d'.bytes a = d.bytes a
  kept : KeepsPages fs d f d d'
  low : ∀ n, n ≤ fs.sizeBlocks.toNat →
    needed (pages fs d f) (addr2PageUp newsize.toNat) ≤ freeBelow fs d n →
    ∀ i, pages fs d f ≤ i → i < addr2PageUp newsize.toNat → ∀ junk,
      (lookup d' (inodeOf fs d' f) junk i).toNat < n

theorem fsFileTruncate_extends (hw : WellFormed fs d (files fs d)) (hc : Covered fs d (files fs d))
    (hf : IsFile fs d f) {newsize : UInt64} (hgrow : (inodeOf fs d f).sizeBytes < newsize)
    (hok : pages fs d f = addr2PageUp newsize.toNat ∨ CanGrow fs d f (addr2PageUp newsize.toNat))
    (u : TruncateLocals) :
    ∃ d', fsFileTruncate fs d u f newsize = some (0, d') ∧ Extended fs d f newsize d' := by
  obtain ⟨d₁, inode, htrunc, hg, hkept, hheader⟩ := fsFileTruncate_sync hw hc hf hgrow hok u
  have hdev := hg.covered.device
  have hinode := inodeOf_sync hdev hf.lt { inode with sizeBytes := newsize } f
  have hgrown : Grown fs d f (addr2PageUp newsize.toNat)
      (fsFileSync fs d₁ f { inode with sizeBytes := newsize }) := hg.sync rfl
  have hbytes := @fsFileSync_bytes fs d₁ f hdev hf.lt { inode with sizeBytes := newsize }
  rw [if_pos rfl] at hinode
  generalize fsFileSync fs d₁ f { inode with sizeBytes := newsize } = d' at *
  have htable : fs.inodeTableOffset * pageSize ≤ inodeAddr fs f := Nat.le_add_right ..
  have hoff := dataBitmapOffset_le fs
  have hoff' := inodeTableOffset_le fs
  have hend := inodeAddr_le hf.lt
  have htab : ∀ a, a < fs.dataBitmapOffset * pageSize → d'.bytes a = d.bytes a := fun a ha => by
    rw [hbytes (.inl (by omega))]
    exact hg.table a (by omega) (.inl ha)
  refine ⟨d', htrunc, hgrown, by rw [hinode], ?_, htab, ?_, ?_⟩
  · rw [hinode]
    exact hheader
  · intro i hi junk o ho
    have hmeta : fs.dataStart * pageSize ≤ (lookup d (inodeOf fs d f) junk i).toNat * pageSize :=
      Nat.mul_le_mul_right pageSize (hw.notMeta ⟨hf, hi⟩ junk)
    rw [hbytes (.inr (Nat.le_trans hend (Nat.le_trans hmeta (Nat.le_add_right ..))))]
    exact hkept i hi junk o ho
  · intro n hn hneed i h₁ h₂ junk
    have hp : (files fs d').Page f i :=
      ⟨(isFile_congr htab).mpr hf, Nat.lt_of_lt_of_eq h₂ hgrown.pages.symm⟩
    have hbits := fs.le_bitmapBytes
    have hlt : (lookup d' (inodeOf fs d' f) junk i).toNat < fs.sizeBlocks.toNat :=
      hgrown.wellFormed.lt hp junk
    have hm := hgrown.wellFormed.marked hp junk
    refine hg.taken_lt hn hneed hlt (hgrown.free i h₁ h₂ junk) ?_
    rw [marked, ← hbytes (.inl (Nat.lt_of_lt_of_le (bitmapByte_lt (by omega)).2 htable))]
    exact hm

theorem Extended.isFile {d' : Disk} {newsize : UInt64} (h : Extended fs d f newsize d') {g : Nat} :
    IsFile fs d' g ↔ IsFile fs d g := isFile_congr h.table

/-- With low blocks enough for the growth, the file has low blocks only. -/
theorem Extended.lowBlocks {d' : Disk} {newsize : UInt64} (h : Extended fs d f newsize d')
    (hlow : LowBlocks fs d f)
    (hfree : needed (pages fs d f) (addr2PageUp newsize.toNat) ≤
      freeBelow fs d (min fs.sizeBlocks.toNat (2 ^ 20))) : LowBlocks fs d' f := by
  intro i hi junk
  rw [h.grown.pages] at hi
  rcases Nat.lt_or_ge i (pages fs d f) with hold | hnew
  · rw [h.grown.same i hold]
    exact hlow i hold junk
  · have := h.low _ (Nat.min_le_left ..) hfree i hnew hi junk
    omega

/-- The bytes that the file had are where they were. -/
theorem Extended.byte {d' : Disk} {newsize : UInt64} (h : Extended fs d f newsize d')
    (hlow : LowBlocks fs d f) {y : Nat} (hy : y < pages fs d f * pageSize) :
    d'.bytes (byteAddr (blockOf fs d' f) y) = d.bytes (byteAddr (blockOf fs d f) y) := by
  have hpage : addr2Page y < pages fs d f := FileMap.page_lt hy
  rw [byteAddr, byteAddr, blockOf, blockOf, h.grown.same _ hpage,
    addr32_of_lt (hlow _ hpage 0)]
  exact h.kept _ hpage 0 _ (offset_lt y)

end WellFormed

/-- A file with a map is an array. -/
theorem FileMap.contents {fs : Filesystem} {d : Disk} {f n : Nat} {blk : Nat → UInt32}
    (h : FileMap fs d (inodeOf fs d f) blk n) (hmeta : fs.dataStart * pageSize ≤ d.size)
    (hf : IsFile fs d f) (hn : (inodeOf fs d f).sizeBytes.toNat ≤ n * pageSize) :
    Contents fs d f fun y => d.bytes (byteAddr blk y) := by
  intro u junk off size buffer hle x hx
  rw [fsFileRead, getInode_of_le hmeta h.size hf]
  exact h.read hle hn (inodeOf fs d f).sizeBytes.toNat_lt hx

/-- A write within a file with a map overwrites a part of the array, and keeps the
inode. -/
theorem FileMap.fsFileWrite {fs : Filesystem} {d : Disk} {f n : Nat} {blk : Nat → UInt32}
    (h : FileMap fs d (inodeOf fs d f) blk n) (hdev : OnDevice fs d) (hf : IsFile fs d f)
    (hn : (inodeOf fs d f).sizeBytes.toNat ≤ n * pageSize) (u : Uninit) (junk : Nat → UInt32)
    (buffer : Nat → UInt8) {off size : Nat} (hle : off + size ≤ (inodeOf fs d f).sizeBytes.toNat) :
    let d' := Fs.fsFileWrite fs d u junk f off buffer size
    IsFile fs d' f ∧ inodeOf fs d' f = inodeOf fs d f ∧
      Contents fs d' f (patch (fun y => d.bytes (byteAddr blk y)) off size buffer) := by
  obtain ⟨d', hd'⟩ : ∃ d', d' = Fs.fsFileWrite fs d u junk f off buffer size := ⟨_, rfl⟩
  have hw : Wrote blk d d' off (off + size) buffer := by
    rw [hd', Fs.fsFileWrite, getInode_eq hdev hf]
    exact h.write junk buffer hle hn (inodeOf fs d f).sizeBytes.toNat_lt
  have hmeta : ∀ {a}, a < fs.dataStart * pageSize → d'.bytes a = d.bytes a :=
    fun ha => h.wrote_meta hw (Nat.le_trans hle hn) ha
  have hinode : inodeOf fs d' f = inodeOf fs d f :=
    inodeOf_congr fun a _ ha => hmeta (Nat.lt_of_lt_of_le ha (inodeAddr_le hf.lt))
  have hf' : IsFile fs d' f := (isFile_congr fun a ha => hmeta (Nat.lt_of_lt_of_le ha
    (Nat.le_trans (dataBitmapOffset_le fs) (inodeTableOffset_le fs)))).mpr hf
  have hmap : FileMap fs d' (inodeOf fs d' f) blk n := by
    rw [hinode]
    exact h.congr hw.size fun a _ ha => h.wrote_bytes hw (Nat.le_trans hle hn) ha
  have hstart : fs.dataStart * pageSize ≤ d'.size := by
    rw [hw.size]
    exact Nat.le_trans (dataStart_le fs) hdev.le
  rw [← hd']
  refine ⟨hf', hinode, (hmap.contents hstart hf' (by rw [hinode]; exact hn)).congr fun y hy => ?_⟩
  rw [hinode] at hy
  rw [h.wrote_byteAddr hw (Nat.le_trans hle hn) (Nat.lt_of_lt_of_le hy hn),
    Nat.add_sub_cancel_left]

/-- An array is determined by what is read. -/
theorem Contents.eq {fs : Filesystem} {d : Disk} {f : Nat} {c c' : Nat → UInt8}
    (h : Contents fs d f c) (h' : Contents fs d f c') {y : Nat}
    (hy : y < (inodeOf fs d f).sizeBytes.toNat) : c y = c' y :=
  (h zeroUninit (fun _ => 0) y 1 (fun _ => 0) hy 0 (by decide)).symm.trans
    (h' zeroUninit (fun _ => 0) y 1 (fun _ => 0) hy 0 (by decide))

end Fs
