import Endros.Mkfs.Layout

/-!
# What `mkfs.py` lays out and what the kernel reads

A file of at most `DIRECT_PTRS` blocks is laid out in one piece and read back, as
long as its blocks are below `2 ^ 20`: from there on the kernel's `ADDR` of a
`u32` block number wraps, and it reads a block in front of the file.

Beyond `DIRECT_PTRS` blocks the encoder loses a page.  The number of the first
data block of the single indirect part counts the index block, so the page
`DIRECT_PTRS` of the file is written nowhere: two files that differ only there
have the same image.
-/

namespace Mkfs

open Lib Fs Mem

/-- The image as the kernel's block device. -/
def Globals.disk (g : Globals) : Disk := ⟨g.mm.bytes, g.mm.length⟩

/-- The kernel reads the file back, whatever the locals and the buffer held. -/
def ReadsBack (g : Globals) (inode : Fs.Inode) (size : Nat) (data : Nat → UInt8) : Prop :=
  ∀ junk buffer j, j < size →
    (translateFs g.disk inode junk 0 buffer size false).2 j = data j

theorem le_ceilDiv {a b : Nat} (hb : 0 < b) : a ≤ ceilDiv a b * b := by
  have h := Nat.div_add_mod' (a + b - 1) b
  have hlt := Nat.mod_lt (a + b - 1) hb
  rw [ceilDiv]
  omega

theorem ceilDiv_lt {a b : Nat} (hb : 0 < b) : ceilDiv a b * b < a + b := by
  have h := Nat.div_add_mod' (a + b - 1) b
  rw [ceilDiv]
  omega

/-! ## Files of direct blocks -/

/-- What the loop over the direct blocks has done after `k` of them. -/
structure Laid (size : Nat) (data : Nat → UInt8) (c : Nat) (mm₀ : Image) (k : Nat)
    (s : Fs.Inode × Image) : Prop where
  direct : ∀ i (h : i < directPtrs), i < k → s.1.direct ⟨i, h⟩ = UInt32.ofNat (c + i)
  length : s.2.length = mm₀.length
  below : ∀ a, a < c * pageSize → s.2.bytes a = mm₀.bytes a
  content : ∀ y, y < size → y < k * pageSize → s.2.bytes (c * pageSize + y) = data y
  fits : ∀ y, y < size → y < k * pageSize → c * pageSize + y < mm₀.length

theorem write_ok {m m' : Image} {pos n : Nat} {data : Nat → UInt8}
    (h : m.write pos n data = .ok m') :
    pos + n ≤ m.length ∧ m' = { m with bytes := patch m.bytes pos n data } := by
  rw [Image.write] at h
  split at h
  · cases h
    exact ⟨by assumption, rfl⟩
  · cases h

theorem laid_step {size : Nat} {data : Nat → UInt8} {c k : Nat} {mm₀ mm' : Image}
    {s : Fs.Inode × Image} (h : Laid size data c mm₀ k s)
    (hw : s.2.writeSlice ((c + k) * pageSize) data size k = .ok mm') :
    Laid size data c mm₀ (k + 1) (Inode.setDirect s.1 k (UInt32.ofNat (c + k)), mm') := by
  obtain ⟨hle, rfl⟩ := write_ok hw
  have hpos : (c + k) * pageSize = c * pageSize + k * pageSize := Nat.add_mul ..
  have hnext : (k + 1) * pageSize = k * pageSize + pageSize := Nat.succ_mul ..
  rw [hpos, hnext] at hle ⊢
  constructor
  · intro i hi hik
    by_cases he : i = k
    · subst he
      exact Inode.setDirect_self hi
    · rw [Inode.setDirect_of_ne he]
      exact h.direct i hi (by omega)
  · exact h.length
  · intro a ha
    dsimp only
    rw [patch_of_lt (by omega)]
    exact h.below a ha
  · intro y hy hyk
    rw [hnext] at hyk
    dsimp only
    by_cases hlt : y < k * pageSize
    · rw [patch_of_lt (by omega)]
      exact h.content y hy hlt
    · rw [patch_of_mem (by omega) (by omega)]
      exact congrArg data (by omega)
  · intro y hy hyk
    rw [hnext] at hyk
    by_cases hlt : y < k * pageSize
    · exact h.fits y hy hlt
    · rw [h.length] at hle
      omega

theorem writeDirect_laid {blocks : List (List Nat)} {size : Nat} {data : Nat → UInt8} {c : Nat}
    {s s' : Fs.Inode × Image} (h : writeDirect blocks size data c s = .ok s') :
    Laid size data c s.2 (entry blocks 0 0) s' := by
  refine loop_invariant (P := Laid size data c s.2) h ⟨?_, rfl, fun _ _ => rfl, ?_, ?_⟩ ?_
  · intro i _ hi
    exact absurd hi (Nat.not_lt_zero i)
  · intro y _ hy
    omega
  · intro y _ hy
    omega
  · intro i s₁ s₂ _ hl hs
    obtain ⟨mm', hw, hp⟩ := bind_ok hs
    cases hp
    exact laid_step hl hw

theorem allocateFileBlocks_direct {g : Globals} {inode : Fs.Inode} {size : Nat}
    {data : Nat → UInt8} (hn : ceilDiv size pageSize ≤ directPtrs) :
    allocateFileBlocks g inode size data = (do
      let mm ← allocateContiguousBlocks g g.currentBlock (ceilDiv size pageSize)
      let s ← writeDirect [[ceilDiv size pageSize]] size data g.currentBlock (inode, mm)
      pure (s.1, { g with mm := s.2, currentBlock := g.currentBlock + ceilDiv size pageSize })) := by
  have hb : filesizeToBlocks size = some [[ceilDiv size pageSize]] := if_pos hn
  rw [allocateFileBlocks, hb]
  rfl

/-- A file of at most `DIRECT_PTRS` blocks lies in one piece at
`current_block`. -/
theorem allocate_direct {g g' : Globals} {inode₀ inode : Fs.Inode} {size : Nat}
    {data : Nat → UInt8} (hn : ceilDiv size pageSize ≤ directPtrs)
    (h : allocateFileBlocks g inode₀ size data = .ok (inode, g')) :
    ∃ mm₀, allocateContiguousBlocks g g.currentBlock (ceilDiv size pageSize) = .ok mm₀ ∧
      Laid size data g.currentBlock mm₀ (ceilDiv size pageSize) (inode, g'.mm) := by
  rw [allocateFileBlocks_direct hn] at h
  obtain ⟨mm₀, hmm, h⟩ := bind_ok h
  obtain ⟨s, hs, h⟩ := bind_ok h
  cases h
  exact ⟨mm₀, hmm, writeDirect_laid hs⟩

/-- The byte the kernel reads at `y` of a file of direct blocks. -/
theorem read_direct {g g' : Globals} {inode : Fs.Inode} {size : Nat} {data : Nat → UInt8}
    {mm₀ : Image} (hn : ceilDiv size pageSize ≤ directPtrs)
    (hl : Laid size data g.currentBlock mm₀ (ceilDiv size pageSize) (inode, g'.mm))
    (junk : Nat → UInt32) (buffer : Nat → UInt8) {y : Nat} (hy : y < size) :
    (translateFs g'.disk inode junk 0 buffer size false).2 y =
      let pn := UInt32.ofNat (g.currentBlock + addr2Page y)
      if u64 (addr32 pn (min pageSize (size - addr2Page y * pageSize))) > mm₀.length then buffer y
      else g'.mm.bytes (addr32 pn (offset y)) := by
  have hle := le_ceilDiv (a := size) (b := pageSize) (by decide)
  have hpage : addr2Page y < ceilDiv size pageSize := by
    have := addr2Page_add_offset y
    simp only [pageSize] at *
    omega
  have hlookup : lookup g'.disk inode (junk (addr2Page y)) (addr2Page y) =
      UInt32.ofNat (g.currentBlock + addr2Page y) := by
    rw [lookup, dif_pos (by omega)]
    exact hl.direct _ _ hpage
  have hsize : 0 + size < 2 ^ 64 := by
    have hmul : ceilDiv size pageSize * pageSize ≤ directPtrs * pageSize :=
      Nat.mul_le_mul_right _ hn
    simp only [pageSize, directPtrs] at *
    omega
  have hlen : g'.mm.length = mm₀.length := hl.length
  rw [translateFs_read hsize hy, readByte, Nat.zero_add, Nat.zero_add, hlookup]
  simp only [Globals.disk, hlen]

/-- Blocks below `2 ^ 20` are read back. -/
theorem readsBack_of_direct {g g' : Globals} {inode : Fs.Inode} {size : Nat} {data : Nat → UInt8}
    {mm₀ : Image} (hn : ceilDiv size pageSize ≤ directPtrs)
    (hc : g.currentBlock + ceilDiv size pageSize ≤ 2 ^ 20)
    (hl : Laid size data g.currentBlock mm₀ (ceilDiv size pageSize) (inode, g'.mm)) :
    ReadsBack g' inode size data := by
  intro junk buffer y hy
  rw [read_direct hn hl junk buffer hy]
  have hle := le_ceilDiv (a := size) (b := pageSize) (by decide)
  have hoff := addr2Page_add_offset y
  have hofflt := offset_lt y
  have hpage : addr2Page y < ceilDiv size pageSize := by
    simp only [pageSize] at *
    omega
  have hpn : (UInt32.ofNat (g.currentBlock + addr2Page y)).toNat = g.currentBlock + addr2Page y := by
    rw [UInt32.toNat_ofNat']
    exact Nat.mod_eq_of_lt (by omega)
  have hmul : (g.currentBlock + addr2Page y) * pageSize =
      g.currentBlock * pageSize + addr2Page y * pageSize := Nat.add_mul ..
  -- the last byte of the page that is read lies in the map
  have hlast := hl.fits (addr2Page y * pageSize +
    min pageSize (size - addr2Page y * pageSize) - 1) (by omega) (by omega)
  dsimp only
  rw [addr32_of_lt (by omega), addr32_of_lt (by omega), hpn, hmul,
    if_neg (by simp only [u64, pageSize] at *; omega)]
  rw [Nat.add_assoc, hoff]
  exact hl.content y hy (by omega)

/-! ## Blocks that the kernel's addresses do not reach -/

theorem addr32_wraps {c n : Nat} (hn : n ≤ directPtrs) (hlt : 2 ^ 20 ≤ c + n) :
    addr32 (UInt32.ofNat (c + n)) 0 < c * pageSize := by
  rw [addr32, UInt32.toNat_mul, UInt32.toNat_ofNat', Nat.add_zero]
  have hp : (UInt32.ofNat pageSize).toNat = pageSize := rfl
  rw [hp, Nat.mod_mul_mod]
  simp only [pageSize, directPtrs] at *
  omega

/-- Whether a file of direct blocks can be laid out does not depend on its
content. -/
theorem allocate_direct_ok {g : Globals} {inode₀ : Fs.Inode} {size : Nat} {data : Nat → UInt8}
    {r : Fs.Inode × Globals} (hn : ceilDiv size pageSize ≤ directPtrs)
    (h : allocateFileBlocks g inode₀ size data = .ok r) (data' : Nat → UInt8) :
    ∃ r', allocateFileBlocks g inode₀ size data' = .ok r' := by
  rw [allocateFileBlocks_direct hn] at h ⊢
  obtain ⟨mm₀, hmm, h⟩ := bind_ok h
  obtain ⟨s, hs, -⟩ := bind_ok h
  obtain ⟨t, ht, -⟩ := loop_simulates (g := writeDirectBlock size data' g.currentBlock)
    (R := fun s t : Fs.Inode × Image => s.2.length = t.2.length) hs rfl (by
      intro i s₁ s₂ t₁ hlen hbody
      obtain ⟨mm', hw, hp⟩ := bind_ok hbody
      cases hp
      obtain ⟨hle, rfl⟩ := write_ok hw
      rw [hlen] at hle
      have hw' : t₁.2.writeSlice ((g.currentBlock + i) * pageSize) data' size i = .ok _ := if_pos hle
      refine ⟨_, by rw [writeDirectBlock, hw']; rfl, ?_⟩
      exact hlen)
  have ht' : writeDirect [[ceilDiv size pageSize]] size data' g.currentBlock (inode₀, mm₀) = .ok t :=
    ht
  rw [hmm, ok_bind, ht', ok_bind]
  exact ⟨_, rfl⟩

/-- With a block from `2 ^ 20` on, the first byte of the last page is read from
in front of the file. -/
theorem read_wrapped {g g' : Globals} {inode : Fs.Inode} {size : Nat} {data : Nat → UInt8}
    {mm₀ : Image} (hn : ceilDiv size pageSize ≤ directPtrs) (hpos : 0 < size)
    (hc : 2 ^ 20 < g.currentBlock + ceilDiv size pageSize)
    (hl : Laid size data g.currentBlock mm₀ (ceilDiv size pageSize) (inode, g'.mm))
    (junk : Nat → UInt32) (buffer : Nat → UInt8) :
    let y := (ceilDiv size pageSize - 1) * pageSize
    y < size ∧ (translateFs g'.disk inode junk 0 buffer size false).2 y =
      let pn := UInt32.ofNat (g.currentBlock + (ceilDiv size pageSize - 1))
      if u64 (addr32 pn (min pageSize (size - y))) > mm₀.length then buffer y
      else mm₀.bytes (addr32 pn 0) := by
  have hle := le_ceilDiv (a := size) (b := pageSize) (by decide)
  have hlt := ceilDiv_lt (a := size) (b := pageSize) (by decide)
  have hone : 1 ≤ ceilDiv size pageSize := by
    rcases Nat.eq_zero_or_pos (ceilDiv size pageSize) with h | h
    · rw [h] at hle
      omega
    · exact h
  have hsub : (ceilDiv size pageSize - 1) * pageSize = ceilDiv size pageSize * pageSize - pageSize := by
    rw [Nat.sub_mul, Nat.one_mul]
  have hy : (ceilDiv size pageSize - 1) * pageSize < size := by omega
  have hwrap := addr32_wraps (c := g.currentBlock) (n := ceilDiv size pageSize - 1)
    (by omega) (by omega)
  refine ⟨hy, ?_⟩
  have hbelow : g'.mm.bytes _ = mm₀.bytes _ := hl.below _ hwrap
  rw [read_direct hn hl junk buffer hy, addr2Page_mul, offset_mul]
  dsimp only
  rw [hbelow]

/-! ## The page that is lost -/

/-- Slices other than the page `p` do not depend on it. -/
theorem writeSlice_congr {data data' : Nat → UInt8} {p : Nat}
    (hd : ∀ y, addr2Page y ≠ p → data y = data' y) (mm : Image) (pos size : Nat) {i : Nat}
    (hi : i ≠ p) : mm.writeSlice pos data size i = mm.writeSlice pos data' size i := by
  have hnext : (i + 1) * pageSize = i * pageSize + pageSize := Nat.succ_mul ..
  rw [Image.writeSlice, Image.writeSlice, Image.write, Image.write, patch_congr]
  intro j hj
  refine hd _ ?_
  rw [addr2Page_add (by omega)]
  exact hi

theorem filesizeToBlocks_indirect {size : Nat} {blocks : List (List Nat)}
    (hn : directPtrs < ceilDiv size pageSize) (h : filesizeToBlocks size = some blocks) :
    ∃ row rest, blocks = [directPtrs] :: (1 :: row) :: rest := by
  rw [filesizeToBlocks, if_neg (by omega)] at h
  dsimp only at h
  split at h
  · cases h
    exact ⟨_, _, rfl⟩
  · split at h
    · cases h
      exact ⟨_, _, rfl⟩
    · split at h
      · cases h
        exact ⟨_, _, rfl⟩
      · cases h

theorem entry_cons_le (row : List Nat) (rest : List (List Nat)) :
    entry ([directPtrs] :: (1 :: row) :: rest) 0 0 ≤ directPtrs :=
  Nat.le_refl directPtrs

/-- The data blocks behind the direct ones are numbered from `DIRECT_PTRS + 1`
on. -/
theorem directPtrs_lt_index {row : List Nat} {rest : List (List Nat)} {k : Nat} (hk : 1 ≤ k) :
    directPtrs < sumBefore ([directPtrs] :: (1 :: row) :: rest) k +
      rowSum ([directPtrs] :: (1 :: row) :: rest) k k := by
  match k, hk with
  | 1, _ => simp [sumBefore, rowSum]
  | k + 2, _ =>
      simp only [sumBefore, List.take_succ_cons, List.map_cons, List.sum_cons, List.sum_nil]
      omega

theorem writeDirect_congr {blocks : List (List Nat)} {data data' : Nat → UInt8}
    (hd : ∀ y, addr2Page y ≠ directPtrs → data y = data' y) (hk : entry blocks 0 0 ≤ directPtrs)
    (size c : Nat) (s : Fs.Inode × Image) :
    writeDirect blocks size data c s = writeDirect blocks size data' c s := by
  refine loop_congr fun i s hi => ?_
  rw [writeDirectBlock, writeDirectBlock, writeSlice_congr hd _ _ _ (by omega)]

theorem writeLevel_congr {blocks : List (List Nat)} {data data' : Nat → UInt8} {k : Nat}
    (hd : ∀ y, addr2Page y ≠ directPtrs → data y = data' y)
    (hk : directPtrs < sumBefore blocks k + rowSum blocks k k) (size c : Nat) (mm : Image)
    (pos : Nat) :
    writeLevel blocks size data c k mm pos = writeLevel blocks size data' c k mm pos := by
  refine loop_congr fun i mm _ => ?_
  dsimp only
  refine bind_congr fun mm' => ?_
  exact writeSlice_congr hd _ _ _ (by omega)

/-- Two files that differ only in the page `DIRECT_PTRS` get the same inode and
the same image. -/
theorem allocate_loses_page {g : Globals} {inode₀ : Fs.Inode} {size : Nat} {data data' : Nat → UInt8}
    (hn : directPtrs < ceilDiv size pageSize)
    (hd : ∀ y, addr2Page y ≠ directPtrs → data y = data' y) :
    allocateFileBlocks g inode₀ size data = allocateFileBlocks g inode₀ size data' := by
  rw [allocateFileBlocks, allocateFileBlocks]
  cases hb : filesizeToBlocks size with
  | none => rfl
  | some blocks =>
      obtain ⟨row, rest, rfl⟩ := filesizeToBlocks_indirect hn hb
      have hlevel : ∀ k c mm pos, 1 ≤ k →
          writeLevel ([directPtrs] :: (1 :: row) :: rest) size data c k mm pos =
            writeLevel ([directPtrs] :: (1 :: row) :: rest) size data' c k mm pos :=
        fun k c mm pos hk => writeLevel_congr hd (directPtrs_lt_index hk) size c mm pos
      have hdirect : ∀ c s, writeDirect ([directPtrs] :: (1 :: row) :: rest) size data c s =
          writeDirect ([directPtrs] :: (1 :: row) :: rest) size data' c s :=
        writeDirect_congr hd (entry_cons_le row rest) size
      simp only [hdirect, writeSingle, writeDouble, writeTriple,
        hlevel _ _ _ _ (Nat.le_refl 1), hlevel 2 _ _ _ (by decide), hlevel 3 _ _ _ (by decide)]

/-! ## When a file is read back -/

theorem ReadsBack.unique {g : Globals} {inode : Fs.Inode} {size : Nat} {data data' : Nat → UInt8}
    (h : ReadsBack g inode size data) (h' : ReadsBack g inode size data') {y : Nat}
    (hy : y < size) : data y = data' y :=
  (h (fun _ => 0) (fun _ => 0) y hy).symm.trans (h' _ _ y hy)

/-- Another content that differs in one byte. -/
theorem exists_update_ne (data : Nat → UInt8) (y : Nat) :
    ∃ data' : Nat → UInt8, data' y ≠ data y ∧ ∀ z, z ≠ y → data' z = data z := by
  refine ⟨fun z => if z = y then data z + 1 else data z, ?_, fun z hz => if_neg hz⟩
  simp

/-- Of a size that fits the image, every content is read back exactly when the
file has only direct blocks, all below `2 ^ 20`, or no block at all. -/
theorem allocateFileBlocks_readsBack_iff {g : Globals} {inode₀ : Fs.Inode} {size : Nat}
    {data₀ : Nat → UInt8} {r₀ : Fs.Inode × Globals}
    (hfit : allocateFileBlocks g inode₀ size data₀ = .ok r₀) :
    (∀ data inode g', allocateFileBlocks g inode₀ size data = .ok (inode, g') →
        ReadsBack g' inode size data) ↔
      ceilDiv size pageSize ≤ directPtrs ∧
        (size = 0 ∨ g.currentBlock + ceilDiv size pageSize ≤ 2 ^ 20) := by
  constructor
  · intro h
    have hn : ceilDiv size pageSize ≤ directPtrs := by
      refine Nat.not_lt.mp fun hlt => ?_
      have hsize : directPtrs * pageSize < size := by
        have hle := le_ceilDiv (a := size) (b := pageSize) (by decide)
        have hup := ceilDiv_lt (a := size) (b := pageSize) (by decide)
        have hmul : (directPtrs + 1) * pageSize ≤ ceilDiv size pageSize * pageSize :=
          Nat.mul_le_mul_right _ hlt
        rw [Nat.add_mul] at hmul
        omega
      obtain ⟨data', hne, hd⟩ := exists_update_ne data₀ (directPtrs * pageSize)
      have heq : allocateFileBlocks g inode₀ size data' = allocateFileBlocks g inode₀ size data₀ := by
        refine allocate_loses_page hlt fun z hz => hd z ?_
        rintro rfl
        exact hz (addr2Page_mul _)
      exact hne ((h data' _ _ (heq.trans hfit)).unique (h data₀ _ _ hfit) hsize)
    refine ⟨hn, ?_⟩
    rcases Nat.eq_zero_or_pos size with h0 | hpos
    · exact .inl h0
    · refine .inr (Nat.not_lt.mp fun hc => ?_)
      obtain ⟨data', hne, -⟩ := exists_update_ne data₀ ((ceilDiv size pageSize - 1) * pageSize)
      obtain ⟨r', hr'⟩ := allocate_direct_ok hn hfit data'
      obtain ⟨mm₀, hmm, hl⟩ := allocate_direct hn hfit
      obtain ⟨mm₁, hmm₁, hl'⟩ := allocate_direct hn hr'
      obtain rfl : mm₀ = mm₁ := by
        rw [hmm] at hmm₁
        exact Except.ok.inj hmm₁
      obtain ⟨hy, hread⟩ := read_wrapped hn hpos hc hl (fun _ => 0) (fun _ => 0)
      obtain ⟨-, hread'⟩ := read_wrapped hn hpos hc hl' (fun _ => 0) (fun _ => 0)
      rw [h data₀ _ _ hfit _ _ _ hy] at hread
      rw [h data' _ _ hr' _ _ _ hy] at hread'
      exact hne (hread'.trans hread.symm)
  · rintro ⟨hn, hc⟩ data inode g' h
    rcases hc with rfl | hc
    · intro junk buffer j hj
      omega
    · obtain ⟨mm₀, -, hl⟩ := allocate_direct hn h
      exact readsBack_of_direct hn hc hl

/-- An image of `n` blocks, its bitmap in block `0`. -/
def blankImage (n : Nat) : Globals :=
  { mm := ⟨fun _ => 0, n * pageSize⟩, currentBlock := 1, dataBitmapPtr := 0,
    dataBitmapSizeBytes := n }

def blankInode : Fs.Inode :=
  { type := 1, permission := 0, sizeBytes := 0, direct := fun _ => 0, singleInd := 0,
    doubleInd := 0, tripleInd := 0 }

/-- A file of two blocks, all bytes `7`, in an image of four. -/
theorem allocateFileBlocks_readsBack_twoBlocks :
    ∃ inode g', allocateFileBlocks (blankImage 4) blankInode 5000 (fun _ => 7) = .ok (inode, g') ∧
      ReadsBack g' inode 5000 fun _ => 7 := by
  have hfit : (allocateFileBlocks (blankImage 4) blankInode 5000 fun _ => 7).toOption.map
      (fun r => r.2.currentBlock) = some 3 := by
    decide
  obtain ⟨⟨inode, g'⟩, hr, -⟩ := map_ok hfit
  refine ⟨inode, g', hr, ?_⟩
  exact (allocateFileBlocks_readsBack_iff hr).mpr ⟨by decide, .inr (by decide)⟩ _ inode g' hr

/-- A file of `25 * 4096 + 1` bytes, all zero but the last one: the kernel reads
a zero there. -/
theorem last_byte_lost :
    ∃ inode g', allocateFileBlocks (blankImage 32) blankInode (25 * 4096 + 1)
        (fun y => if y = 25 * 4096 then 1 else 0) = .ok (inode, g') ∧
      ¬ ReadsBack g' inode (25 * 4096 + 1) (fun y => if y = 25 * 4096 then 1 else 0) := by
  have hread : (allocateFileBlocks (blankImage 32) blankInode (25 * 4096 + 1)
      (fun y => if y = 25 * 4096 then 1 else 0)).toOption.map (fun r =>
        (translateFs r.2.disk r.1 (fun _ => 0) 0 (fun _ => 0) (25 * 4096 + 1) false).2
          (25 * 4096)) = some 0 := by
    decide
  obtain ⟨⟨inode, g'⟩, hr, h0⟩ := map_ok hread
  refine ⟨inode, g', hr, fun h => ?_⟩
  have h1 := h (fun _ => 0) (fun _ => 0) (25 * 4096) (by decide)
  rw [h0] at h1
  exact absurd h1 (by decide)

end Mkfs
