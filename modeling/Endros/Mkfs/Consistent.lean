import Endros.Mkfs.Blocks

/-!
# The allocation map of an image

The blocks of the files that `mkfs.py` makes lie side by side: each file has an
interval behind the one before, the first begins behind the metadata, and the
bitmap has exactly the bits below the end of the last one.  `Tiled` is this
invariant.  It is kept by every `create_file` that is `Regular`.

The other two kinds break it.  For an empty file at a multiple of eight blocks
`allocate_contiguous_blocks` computes a last block in the byte before the first
one, and marks the eight blocks of the first byte.  Behind a triple indirect
part `current_block` is not advanced, so the next file gets the blocks of that
part again.  Block numbers from `2 ^ 32` on do not fit the fields of an inode.
-/

namespace Mkfs

open Lib Fs Mem

/-! ## The geometry -/

section

variable (geo : Geometry)

theorem inodeBitmap_le : Geometry.inodeBitmapPtr + geo.inodeBitmapSizeBytes ≤ geo.dataBitmapPtr := by
  have h := le_ceilDiv (a := geo.inodeBitmapSizeBytes) (b := pageSize) (by decide)
  rw [Geometry.inodeBitmapPtr, Geometry.dataBitmapPtr, Nat.add_mul, Nat.one_mul]
  exact Nat.add_le_add_left h _

theorem dataBitmap_le : geo.dataBitmapSizeBytes ≤ geo.dataBitmapBlocks * pageSize :=
  le_ceilDiv (by decide)

theorem inodeTablePtr_eq :
    geo.inodeTablePtr = geo.dataBitmapPtr + geo.dataBitmapBlocks * pageSize := by
  rw [Geometry.inodeTablePtr, Geometry.dataBitmapPtr, Nat.add_mul]

theorem metadata_eq :
    geo.metadataBlocks * pageSize = geo.inodeTablePtr + geo.inodeTableBlocks * pageSize := by
  rw [Geometry.metadataBlocks, Geometry.inodeTablePtr, Nat.add_mul]

/-- An inode that is in the bitmap is in the table. -/
theorem inodeTable_le {inode : Nat} (h : inode / 8 < geo.inodeBitmapSizeBytes) :
    geo.inodeTablePtr + inode * inodeSize + inodeSize ≤ geo.metadataBlocks * pageSize := by
  have hle := le_ceilDiv (a := geo.totalInodes * inodeSize) (b := pageSize) (by decide)
  rw [metadata_eq, Geometry.inodeTableBlocks]
  rw [Geometry.inodeBitmapSizeBytes, ceilDiv] at h
  simp only [ceilDiv, inodeSize, pageSize] at *
  omega

end

/-! ## The files of an image -/

/-- The blocks of a file do not change when the bytes of these blocks do not. -/
theorem recorded_congr {m m' : Image} {inode : Fs.Inode} {lo hi : Nat}
    (hb : ∀ a, lo * pageSize ≤ a → a < hi * pageSize → m'.bytes a = m.bytes a)
    (h : ∀ b, Recorded m inode b ↔ lo ≤ b ∧ b < hi) (b : Nat) :
    Recorded m' inode b ↔ lo ≤ b ∧ b < hi := by
  rw [← h b, Recorded, Recorded, onLevel_congr hb fun b hl => (h b).mp (.inr (.inl hl)),
    onLevel_congr hb fun b hl => (h b).mp (.inr (.inr (.inl hl))),
    onLevel_congr hb fun b hl => (h b).mp (.inr (.inr (.inr hl)))]

/-- The files, newest first, have adjacent intervals of blocks from `start` up to
`top`. -/
def Tiles (m : Image) (start : Nat) : List Fs.Inode → Nat → Prop
  | [], top => top = start
  | f :: fs, top => ∃ lo ≤ top, Tiles m start fs lo ∧ ∀ b, Recorded m f b ↔ lo ≤ b ∧ b < top

namespace Tiles

variable {m m' : Image} {start : Nat}

theorem start_le : ∀ {fs : List Fs.Inode} {top : Nat}, Tiles m start fs top → start ≤ top
  | [], _, h => Nat.le_of_eq h.symm
  | _ :: _, _, ⟨_, hle, h, _⟩ => Nat.le_trans h.start_le hle

theorem congr {fs : List Fs.Inode} {top : Nat}
    (hb : ∀ a, start * pageSize ≤ a → a < top * pageSize → m'.bytes a = m.bytes a)
    (h : Tiles m start fs top) : Tiles m' start fs top := by
  induction fs generalizing top with
  | nil => exact h
  | cons f fs ih =>
      obtain ⟨lo, hle, h, hf⟩ := h
      refine ⟨lo, hle, ih (fun a h₁ h₂ => hb a h₁ ?_) h,
        recorded_congr (fun a h₁ h₂ => hb a ?_ h₂) hf⟩
      · exact Nat.lt_of_lt_of_le h₂ (Nat.mul_le_mul_right _ hle)
      · exact Nat.le_trans (Nat.mul_le_mul_right _ h.start_le) h₁

theorem mem : ∀ {fs : List Fs.Inode} {top : Nat}, Tiles m start fs top →
    ∀ f ∈ fs, ∀ b, Recorded m f b → start ≤ b ∧ b < top
  | f :: fs, top, ⟨lo, hle, h, hf⟩, f', hmem, b, hb => by
      rcases List.mem_cons.mp hmem with rfl | hmem
      · obtain ⟨h₁, h₂⟩ := (hf b).mp hb
        exact ⟨Nat.le_trans h.start_le h₁, h₂⟩
      · obtain ⟨h₁, h₂⟩ := h.mem f' hmem b hb
        exact ⟨h₁, Nat.lt_of_lt_of_le h₂ hle⟩

theorem exists_of_lt : ∀ {fs : List Fs.Inode} {top : Nat}, Tiles m start fs top →
    ∀ b, start ≤ b → b < top → ∃ f ∈ fs, Recorded m f b
  | [], _, h, b, h₁, h₂ => by
      obtain rfl : _ = start := h
      omega
  | f :: fs, top, ⟨lo, _, h, hf⟩, b, h₁, h₂ => by
      by_cases hlo : lo ≤ b
      · exact ⟨f, List.mem_cons_self, (hf b).mpr ⟨hlo, h₂⟩⟩
      · obtain ⟨f', hmem, hb⟩ := h.exists_of_lt b h₁ (Nat.lt_of_not_le hlo)
        exact ⟨f', List.mem_cons_of_mem _ hmem, hb⟩

theorem pairwise : ∀ {fs : List Fs.Inode} {top : Nat}, Tiles m start fs top →
    fs.Pairwise fun f f' => ∀ b, ¬ (Recorded m f b ∧ Recorded m f' b)
  | [], _, _ => .nil
  | _ :: _, _, ⟨_, _, h, hf⟩ => by
      refine .cons (fun f' hmem b ⟨hb, hb'⟩ => ?_) h.pairwise
      have h₁ := ((hf b).mp hb).1
      have h₂ := (h.mem f' hmem b hb').2
      omega

end Tiles

/-- The state of the script between two files. -/
structure Tiled (geo : Geometry) (s : Build) (top : Nat) : Prop where
  bitmapPtr : s.g.dataBitmapPtr = geo.dataBitmapPtr
  bitmapSize : s.g.dataBitmapSizeBytes = geo.dataBitmapSizeBytes
  bits : ∀ b, b < 8 * (geo.dataBitmapBlocks * pageSize) →
    s.g.mm.bit geo.dataBitmapPtr b = decide (b < top)
  tiles : Tiles s.g.mm geo.metadataBlocks s.files top
  current : (∀ f ∈ s.files, ceilDiv f.sizeBytes.toNat pageSize ≤
    directPtrs + ptrPerPage + ptrPerPage * ptrPerPage) → s.g.currentBlock = top

theorem Tiled.consistent {geo : Geometry} {s : Build} {top : Nat} (h : Tiled geo s top) :
    Consistent geo s := by
  refine ⟨h.tiles.pairwise, fun f hf b hb => (h.tiles.mem f hf b hb).1, fun b hb => ?_⟩
  have hle := h.tiles.start_le
  rw [h.bits b hb, decide_eq_true_iff]
  constructor
  · intro hlt
    by_cases hmeta : b < geo.metadataBlocks
    · exact .inl hmeta
    · exact .inr (h.tiles.exists_of_lt b (Nat.le_of_not_lt hmeta) hlt)
  · rintro (hmeta | ⟨f, hf, hrec⟩)
    · exact Nat.lt_of_lt_of_le hmeta hle
    · exact (h.tiles.mem f hf b hrec).2

/-! ## One file -/

/-- A write behind or in front of the bitmap and outside of the blocks of files
does not matter. -/
theorem Tiled.congr {geo : Geometry} {s : Build} {top : Nat} (h : Tiled geo s top) (mm : Image)
    (hb : ∀ a, (geo.dataBitmapPtr ≤ a ∧ a < geo.inodeTablePtr) ∨ geo.metadataBlocks * pageSize ≤ a →
      mm.bytes a = s.g.mm.bytes a) : Tiled geo { s with g := { s.g with mm } } top := by
  have htab := inodeTablePtr_eq geo
  refine ⟨h.bitmapPtr, h.bitmapSize, fun b hlt => ?_, h.tiles.congr fun a h₁ _ => hb a (.inr h₁),
    h.current⟩
  rw [← h.bits b hlt, Image.bit, Image.bit, hb _ (.inl ⟨by omega, by omega⟩)]

theorem size_lt_of_ok {size : Nat} {g : Globals} {inode₀ : Fs.Inode} {data : Nat → UInt8}
    {r : Fs.Inode × Globals} (h : allocateFileBlocks g inode₀ size data = .ok r) : size < 2 ^ 64 := by
  have hle := le_ceilDiv (a := size) (b := pageSize) (by decide)
  have hpages := pages_le_of_ok h
  simp only [pageSize, directPtrs, ptrPerPage] at hle hpages
  omega

/-- The blocks of an empty file away from the bounds of the bytes. -/
theorem allocateFileBlocks_empty {g g' : Globals} {inode₀ inode : Fs.Inode} {data : Nat → UInt8}
    (hmod : g.currentBlock % 8 ≠ 0) (h : allocateFileBlocks g inode₀ 0 data = .ok (inode, g')) :
    g' = g ∧ inode.sizeBytes = inode₀.sizeBytes := by
  have h0 : ceilDiv 0 pageSize = 0 := by decide
  rw [allocateFileBlocks_direct (by rw [h0]; exact Nat.zero_le _), h0] at h
  obtain ⟨mm, hmm, h⟩ := bind_ok h
  obtain ⟨s, hs, h⟩ := bind_ok h
  cases h
  have hs' : s = (inode₀, mm) := by
    cases hs
    rfl
  rw [hs', allocate_none hmod hmm]
  exact ⟨rfl, rfl⟩

/-- `allocate_file_blocks` of a file that is not left out. -/
theorem Tiled.allocate {geo : Geometry} {s : Build} {top : Nat} {inode₀ inode : Fs.Inode}
    {size : Nat} {data : Nat → UInt8} {g' : Globals} (h : Tiled geo s top)
    (hblocks : geo.totalBlocks ≤ 2 ^ 32) (hbytes : inode₀.sizeBytes = UInt64.ofNat size)
    (hempty : size = 0 → s.g.currentBlock % 8 ≠ 0)
    (hfull : size ≠ 0 → ∀ f ∈ s.files, ceilDiv f.sizeBytes.toNat pageSize ≤
      directPtrs + ptrPerPage + ptrPerPage * ptrPerPage)
    (ha : allocateFileBlocks s.g inode₀ size data = .ok (inode, g')) :
    ∃ top', Tiled geo ⟨g', inode :: s.files⟩ top' := by
  by_cases hsize : size = 0
  · subst hsize
    obtain ⟨rfl, hsz⟩ := allocateFileBlocks_empty (hempty rfl) ha
    have hpages : ceilDiv inode.sizeBytes.toNat pageSize = 0 := by rw [hsz, hbytes]; rfl
    refine ⟨top, h.bitmapPtr, h.bitmapSize, h.bits, ⟨top, Nat.le_refl _, h.tiles, fun b => ?_⟩,
      fun hall => h.current fun f hf => hall f (List.mem_cons_of_mem _ hf)⟩
    rw [Recorded, hpages]
    have h₀ : ¬ OnDirect inode 0 b := by
      rintro ⟨_, _, hlt, _⟩
      exact Nat.not_lt_zero _ hlt
    simp only [h₀, onLevel_nil (Nat.zero_le _), or_self, false_iff]
    omega
  · have hcur : s.g.currentBlock = top := h.current (hfull hsize)
    have hnat : inode₀.sizeBytes.toNat = size := by
      rw [hbytes, UInt64.toNat_ofNat', Nat.mod_eq_of_lt (size_lt_of_ok ha)]
    have hbm : 8 * s.g.dataBitmapSizeBytes ≤ 2 ^ 32 := by
      rw [h.bitmapSize, Geometry.dataBitmapSizeBytes, ceilDiv]
      omega
    obtain ⟨total, hf⟩ := allocateFileBlocks_filled hnat hbm ha hsize
    obtain ⟨mm, hmark, -, hbelow⟩ := hf.marked
    have hstart : geo.metadataBlocks * pageSize ≤ top * pageSize :=
      Nat.mul_le_mul_right _ h.tiles.start_le
    have htab := inodeTablePtr_eq geo
    have hmeta := metadata_eq geo
    have hsizele := dataBitmap_le geo
    have hfits := hf.fits
    rw [hcur] at hmark hbelow hfits
    rw [h.bitmapSize] at hfits
    rw [h.bitmapPtr] at hmark
    refine ⟨top + total, hf.bitmapPtr.trans h.bitmapPtr, hf.bitmapSize.trans h.bitmapSize,
      fun b hb => ?_, ⟨top, Nat.le_add_right .., h.tiles.congr fun a h₁ h₂ => ?_, ?_⟩, fun hall => ?_⟩
    · have hbit : g'.mm.bit geo.dataBitmapPtr b = mm.bit geo.dataBitmapPtr b := by
        rw [Image.bit, Image.bit, hbelow _ (by omega)]
      rw [hbit, hmark.bit, h.bits b hb]
      by_cases hlt : b < top
      · simp [hlt, Nat.lt_add_right total hlt]
      · simp [hlt, Nat.le_of_not_lt hlt]
    · rw [hbelow a h₂]
      exact hmark.bytes a (.inr (by omega))
    · rw [← hcur]
      exact hf.recorded
    · have hsz : ceilDiv size pageSize ≤ directPtrs + ptrPerPage + ptrPerPage * ptrPerPage := by
        have hle := hall inode List.mem_cons_self
        rwa [hf.sizeBytes] at hle
      rw [hf.current hsz, hcur]

/-- `create_file` of a file that is not left out. -/
theorem Tiled.create {geo : Geometry} {s s' : Build} {f : NewFile} {top : Nat} (h : Tiled geo s top)
    (hblocks : geo.totalBlocks ≤ 2 ^ 32) (hreg : Regular s f s')
    (hs : Build.step geo s f = some s') : ∃ top', Tiled geo s' top' := by
  obtain ⟨⟨inode, g'⟩, hc, rfl⟩ := map_ok hs
  have hinode := inodeBitmap_le geo
  have htab := inodeTablePtr_eq geo
  have hmeta := metadata_eq geo
  rw [createFile] at hc
  split at hc
  · cases hc
  · rename_i hptr
    obtain ⟨byte, -, hc⟩ := bind_ok hc
    obtain ⟨mm, hw, hc⟩ := bind_ok hc
    obtain ⟨⟨inode₁, g₁⟩, ha, hc⟩ := bind_ok hc
    obtain ⟨mm₁, hw₁, hc⟩ := bind_ok hc
    cases hc
    obtain ⟨-, rfl⟩ := write_ok hw
    obtain ⟨-, rfl⟩ := write_ok hw₁
    -- the inode bitmap lies in front of the data bitmap
    have h₁ := h.congr { s.g.mm with
      bytes := patch s.g.mm.bytes (Geometry.inodeBitmapPtr + f.inode / 8) 1 fun _ =>
        byte ||| 1 <<< UInt8.ofNat (f.inode % 8) } fun a ha => by
      dsimp only
      rw [patch_of_ge (by omega)]
    obtain ⟨top', h₂⟩ := h₁.allocate hblocks rfl hreg.1 hreg.2 ha
    -- and the inode table behind it
    have htable := @inodeTable_le geo f.inode (by omega)
    refine ⟨top', h₂.congr _ fun a ha => ?_⟩
    dsimp only
    rcases ha with ha | ha
    · rw [patch_of_lt (by omega)]
    · rw [patch_of_ge (by omega)]

/-! ## Whole runs -/

/-- The byte that reserves the inodes 0 and 1 is not one of the data bitmap, or
it is the one that is there already. -/
def HasInodeBitmap (geo : Geometry) : Prop := geo.totalInodes ≠ 0 ∨ geo.dataBitmapBlocks ≤ 1

instance (geo : Geometry) : Decidable (HasInodeBitmap geo) :=
  inferInstanceAs (Decidable (geo.totalInodes ≠ 0 ∨ geo.dataBitmapBlocks ≤ 1))

theorem start_tiled {geo : Geometry} {g : Globals} (hib : HasInodeBitmap geo)
    (h : start geo = .ok g) : Tiled geo ⟨g, []⟩ geo.metadataBlocks := by
  obtain ⟨mm₀, hw₀, h⟩ := bind_ok h
  obtain ⟨mm₁, ha, h⟩ := bind_ok h
  obtain ⟨mm₂, hw₂, h⟩ := bind_ok h
  cases h
  obtain ⟨-, rfl⟩ := write_ok hw₀
  obtain ⟨-, rfl⟩ := write_ok hw₂
  have hpos : geo.metadataBlocks ≠ 0 := by
    rw [Geometry.metadataBlocks]
    omega
  obtain ⟨hmark, hfits⟩ := allocate_marked hpos ha
  rw [Nat.zero_add] at hmark hfits
  have hsize : geo.metadataBlocks ≤ 8 * geo.dataBitmapSizeBytes := hfits
  have hptr : pageSize ≤ geo.dataBitmapPtr := by
    rw [Geometry.dataBitmapPtr, Nat.add_mul, Nat.one_mul]
    exact Nat.le_add_right ..
  -- the image is empty but for the superblock
  have hbit : ∀ b, mm₁.bit geo.dataBitmapPtr b = decide (b < geo.metadataBlocks) := by
    intro b
    rw [hmark.bit, Image.bit]
    dsimp only
    rw [patch_of_ge (by simp only [pageSize] at hptr; omega)]
    simp [bitmapGet]
  refine ⟨rfl, rfl, fun b hb => ?_, rfl, fun _ => rfl⟩
  dsimp only [Image.bit]
  by_cases hover : geo.dataBitmapPtr + b / 8 = Geometry.inodeBitmapPtr
  · -- without inodes the byte is the first one of the data bitmap
    have hblocks : geo.inodeBitmapBlocks = 0 := by
      rw [Geometry.dataBitmapPtr, Geometry.inodeBitmapPtr, Nat.add_mul] at hover
      simp only [pageSize] at hover
      omega
    have hbytes := le_ceilDiv (a := geo.inodeBitmapSizeBytes) (b := pageSize) (by decide)
    have hinodes := le_ceilDiv (a := geo.totalInodes) (b := 8) (by decide)
    rw [← Geometry.inodeBitmapBlocks, hblocks] at hbytes
    rw [← Geometry.inodeBitmapSizeBytes] at hinodes
    have hnone : geo.totalInodes = 0 := by omega
    have htable : geo.inodeTableBlocks = 0 := by
      rw [Geometry.inodeTableBlocks, hnone]
      decide
    have hdata := dataBitmap_le geo
    have hone : geo.dataBitmapBlocks = 1 := by
      rcases hib with hib | hib
      · exact absurd hnone hib
      · rcases Nat.eq_zero_or_pos geo.dataBitmapBlocks with hz | hp
        · rw [hz] at hdata
          omega
        · omega
    have hmeta : geo.metadataBlocks = 2 := by
      rw [Geometry.metadataBlocks, hblocks, hone, htable]
    have hlt : b < 8 := by
      rw [Geometry.inodeBitmapPtr] at hover
      omega
    rw [hover, patch_of_mem (Nat.le_refl _) (by omega), hmeta]
    have hthree : ∀ b : Fin 8, bitmapGet 0x3 b.val = decide (b.val < 2) := by decide
    exact hthree ⟨b, hlt⟩
  · rw [patch_of_ge, ← hbit b, Image.bit]
    rw [Geometry.inodeBitmapPtr] at *
    omega

/-- The allocation map over runs.  Whatever files are made, in an image of at
most `2 ^ 32` blocks, the map stays right as long as no empty file is made at a
multiple of eight blocks and no other one behind a triple indirect part. -/
theorem run_consistent {geo : Geometry} {g : Globals} (hblocks : geo.totalBlocks ≤ 2 ^ 32)
    (hib : HasInodeBitmap geo) (hstart : start geo = .ok g) {r : List (NewFile × Build)}
    (hr : IsRun (fun s f s' => Build.step geo s f = some s') ⟨g, []⟩ r)
    (hreg : EveryStep Regular ⟨g, []⟩ r) : EveryState (Consistent geo) ⟨g, []⟩ r := by
  have hall := hr.everyState (I := fun s => ∃ top, Tiled geo s top)
    (fun s f s' ⟨_, h⟩ hs hc => h.create hblocks hc hs) ⟨_, start_tiled hib hstart⟩ hreg
  exact hall.mono fun s ⟨_, h⟩ => h.consistent

/-- Sixteen blocks and 160 inodes: the metadata are eight blocks. -/
def sampleGeometry : Geometry := ⟨16 * 4096, 160⟩

/-- The file `2`, all zero. -/
def sampleFile (size : Nat) : NewFile := ⟨2, 1, 0, size, fun _ => 0⟩

/-- A file of one byte. -/
theorem run_consistent_oneByte : ∃ g r, start sampleGeometry = .ok g ∧
    runOf (Build.step sampleGeometry) ⟨g, []⟩ [sampleFile 1] = some r ∧
    EveryState (Consistent sampleGeometry) ⟨g, []⟩ r := by
  have hrun : (start sampleGeometry).toOption.map (fun g =>
      ((runOf (Build.step sampleGeometry) ⟨g, []⟩ [sampleFile 1]).isSome,
        decide (∀ r ∈ runOf (Build.step sampleGeometry) ⟨g, []⟩ [sampleFile 1],
          EveryStep Regular ⟨g, []⟩ r))) = some (true, true) := by
    decide
  obtain ⟨g, hstart, hg⟩ := map_ok hrun
  obtain ⟨hsome, hreg⟩ := Prod.mk.inj hg
  obtain ⟨r, hr⟩ := Option.isSome_iff_exists.mp hsome
  exact ⟨g, r, hstart, hr, run_consistent (by decide) (by decide) hstart (isRun_runOf hr)
    (of_decide_eq_true hreg r hr)⟩

/-- An empty file behind eight blocks of metadata: the bit of block 8 is set and
no file has that block. -/
theorem empty_file_marks_blocks : ∃ g r, start sampleGeometry = .ok g ∧
    runOf (Build.step sampleGeometry) ⟨g, []⟩ [sampleFile 0] = some r ∧
    ¬ Consistent sampleGeometry (finalState ⟨g, []⟩ r) := by
  have hrun : (start sampleGeometry).toOption.map (fun g =>
      (runOf (Build.step sampleGeometry) ⟨g, []⟩ [sampleFile 0]).map fun r =>
        ((finalState ⟨g, []⟩ r).g.mm.bit sampleGeometry.dataBitmapPtr 8,
          (finalState ⟨g, []⟩ r).files.map fun f => ceilDiv f.sizeBytes.toNat pageSize)) =
      some (some (true, [0])) := by
    decide
  obtain ⟨g, hstart, hg⟩ := map_ok hrun
  obtain ⟨r, hr, hend⟩ := Option.map_eq_some_iff.mp hg
  obtain ⟨hbit, hfiles⟩ := Prod.mk.inj hend
  refine ⟨g, r, hstart, hr, fun hcons => ?_⟩
  rcases (hcons.bitmap 8 (by decide)).mp hbit with hmeta | ⟨f, hf, hrec⟩
  · exact absurd hmeta (by decide)
  · have hpages : ceilDiv f.sizeBytes.toNat pageSize = 0 := by
      have hmem := List.mem_map_of_mem (f := fun f : Fs.Inode => ceilDiv f.sizeBytes.toNat pageSize) hf
      rw [hfiles] at hmem
      exact List.mem_singleton.mp hmem
    rw [Recorded, hpages] at hrec
    rcases hrec with ⟨_, _, hlt, _⟩ | ⟨_, _, hlt, _⟩ | ⟨_, _, hlt, _⟩ | ⟨_, _, hlt, _⟩ <;>
      exact Nat.not_lt_zero _ hlt

end Mkfs
