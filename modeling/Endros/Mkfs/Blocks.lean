import Endros.Mkfs.Create
import Endros.Mkfs.RoundTrip

/-!
# What laying out a file writes

`Marked` is what `allocate_contiguous_blocks` does to the bitmap: it sets the
bits of the blocks it was given and no others.  `Filled` is what
`allocate_file_blocks` does to the image: the file has exactly the blocks of an
interval, from `current_block` on, and below that interval only the bitmap has
changed.
-/

namespace Mkfs

open Lib Fs Mem

/-! ## Bits of a byte -/

theorem bitmapGet_or (x y : UInt8) (i : Nat) :
    bitmapGet (x ||| y) i = (bitmapGet x i || bitmapGet y i) := by
  rw [bitmapGet, UInt8.toNat_or, Nat.testBit_or]
  rfl

theorem bitmapGet_shiftLeft {lo : Nat} (hlo : lo < 8) (i : Nat) :
    bitmapGet (0xff <<< UInt8.ofNat lo) i = decide (lo ≤ i % 8) := by
  have h : ∀ lo i : Fin 8, ((0xff : UInt8) <<< UInt8.ofNat lo.val).toNat.testBit i.val =
      decide (lo.val ≤ i.val) := by decide
  exact h ⟨lo, hlo⟩ ⟨i % 8, Nat.mod_lt _ (by decide)⟩

theorem bitmapGet_shiftRight {hi : Nat} (hhi : hi < 8) (i : Nat) :
    bitmapGet (0xff >>> UInt8.ofNat (7 - hi)) i = decide (i % 8 ≤ hi) := by
  have h : ∀ hi i : Fin 8, ((0xff : UInt8) >>> UInt8.ofNat (7 - hi.val)).toNat.testBit i.val =
      decide (i.val ≤ hi.val) := by decide
  exact h ⟨hi, hhi⟩ ⟨i % 8, Nat.mod_lt _ (by decide)⟩

theorem bitmapGet_ff (i : Nat) : bitmapGet 0xff i = true := by
  have h : ∀ i : Fin 8, (0xff : UInt8).toNat.testBit i.val = true := by decide
  exact h ⟨i % 8, Nat.mod_lt _ (by decide)⟩

theorem bitmapGet_bit {j : Nat} (hj : j < 8) (i : Nat) :
    bitmapGet (1 <<< UInt8.ofNat j) i = decide (i % 8 = j) := by
  have h : ∀ j i : Fin 8, ((1 : UInt8) <<< UInt8.ofNat j.val).toNat.testBit i.val =
      decide (i.val = j.val) := by decide
  exact h ⟨j, hj⟩ ⟨i % 8, Nat.mod_lt _ (by decide)⟩

theorem bitmapGet_foldl (i : Nat) : ∀ (l : List Nat) (byte : UInt8), (∀ j ∈ l, j < 8) →
    bitmapGet (l.foldl (fun b j => b ||| (1 <<< UInt8.ofNat j)) byte) i =
      (bitmapGet byte i || decide (i % 8 ∈ l))
  | [], byte, _ => by simp
  | j :: l, byte, h => by
      rw [List.foldl_cons, bitmapGet_foldl i l _ fun x hx => h x (List.mem_cons_of_mem _ hx),
        bitmapGet_or, bitmapGet_bit (h j List.mem_cons_self)]
      simp [List.mem_cons, Bool.or_assoc]

theorem bitmapGet_setBits {lo hi : Nat} (hhi : hi < 8) (byte : UInt8) (i : Nat) :
    bitmapGet (setBits byte lo hi) i = (bitmapGet byte i || decide (lo ≤ i % 8 ∧ i % 8 ≤ hi)) := by
  rw [setBits, bitmapGet_foldl]
  · congr 1
    refine decide_eq_decide.mpr ?_
    rw [List.mem_range'_1]
    omega
  · intro j hj
    rw [List.mem_range'_1] at hj
    omega

/-! ## The bitmap -/

/-- `m'` is `m` with the bits from `lo` to `hi`, exclusive, set. -/
structure Marked (base lo hi : Nat) (m m' : Image) : Prop where
  length : m'.length = m.length
  bit : ∀ b, m'.bit base b = (m.bit base b || decide (lo ≤ b ∧ b < hi))
  bytes : ∀ a, a < base ∨ base + (hi + 7) / 8 ≤ a → m'.bytes a = m.bytes a

theorem readByte_ok {m : Image} {pos : Nat} {v : UInt8} (h : m.readByte pos = .ok v) :
    v = m.bytes pos := by
  rw [Image.readByte] at h
  split at h
  · cases h
    rfl
  · cases h

/-- The byte that is written by `f`, at the address of a bit. -/
theorem patch_byte (f : Nat → UInt8) (base p : Nat) (v : UInt8) (b : Nat) :
    patch f (base + p) 1 (fun _ => v) (base + b / 8) = if b / 8 = p then v else f (base + b / 8) := by
  rw [patch]
  by_cases h : b / 8 = p
  · rw [if_pos h, if_pos ⟨by omega, by omega⟩]
  · rw [if_neg h, if_neg (by omega)]

/-- `allocate_contiguous_blocks` of at least one block marks these blocks. -/
theorem allocate_marked {g : Globals} {fromId size : Nat} {mm' : Image} (hsize : size ≠ 0)
    (h : allocateContiguousBlocks g fromId size = .ok mm') :
    Marked g.dataBitmapPtr fromId (fromId + size) g.mm mm' ∧
      fromId + size ≤ 8 * g.dataBitmapSizeBytes := by
  rw [allocateContiguousBlocks] at h
  split at h
  · cases h
  · rename_i hfull
    refine ⟨?_, by omega⟩
    obtain ⟨byte, hbyte, h⟩ := bind_ok h
    obtain rfl := readByte_ok hbyte
    split at h
    · -- all bits in one byte
      rename_i hone
      obtain ⟨-, rfl⟩ := write_ok h
      refine ⟨rfl, fun b => ?_, fun a ha => ?_⟩
      · rw [Image.bit, Image.bit]
        dsimp only
        rw [patch_byte]
        by_cases hb : b / 8 = fromId / 8
        · rw [if_pos hb, bitmapGet_setBits (Nat.mod_lt _ (by decide)), hb]
          congr 1
          refine decide_eq_decide.mpr ?_
          omega
        · rw [if_neg hb]
          have : ¬ (fromId ≤ b ∧ b < fromId + size) := by omega
          simp [this]
      · dsimp only
        rcases ha with ha | ha
        · rw [patch_of_lt (by omega)]
        · rw [patch_of_ge (by omega)]
    · -- a first byte, full bytes and a last byte
      rename_i htwo
      obtain ⟨mm₁, hw₁, h⟩ := bind_ok h
      obtain ⟨-, rfl⟩ := write_ok hw₁
      obtain ⟨mm₂, hw₂, h⟩ := bind_ok h
      obtain ⟨-, rfl⟩ := write_ok hw₂
      obtain ⟨last, hlast, h⟩ := bind_ok h
      obtain rfl := readByte_ok hlast
      obtain ⟨-, rfl⟩ := write_ok h
      have hmax : max (fromId / 8 + 1) ((fromId + size - 1) / 8) = (fromId + size - 1) / 8 := by
        omega
      refine ⟨rfl, fun b => ?_, fun a ha => ?_⟩
      · rw [Image.bit, Image.bit]
        dsimp only
        rw [hmax, patch_byte]
        by_cases hb : b / 8 = (fromId + size - 1) / 8
        · rw [if_pos hb, bitmapGet_or, bitmapGet_shiftRight (Nat.mod_lt _ (by decide)), ← hb,
            patch_of_ge (by omega), patch_byte, if_neg (by omega)]
          congr 1
          refine decide_eq_decide.mpr ?_
          omega
        · rw [if_neg hb]
          by_cases hmid : fromId / 8 + 1 ≤ b / 8 ∧ b / 8 < (fromId + size - 1) / 8
          · have hin : fromId ≤ b ∧ b < fromId + size := by omega
            rw [patch_of_mem (by omega) (by omega), bitmapGet_ff, decide_eq_true hin, Bool.or_true]
          · have hout : patch (patch g.mm.bytes (g.dataBitmapPtr + fromId / 8) 1 fun _ =>
                  g.mm.bytes (g.dataBitmapPtr + fromId / 8) ||| 0xff <<< UInt8.ofNat (fromId % 8))
                (g.dataBitmapPtr + fromId / 8 + 1) ((fromId + size - 1) / 8 - (fromId / 8 + 1))
                (fun _ => 0xff) (g.dataBitmapPtr + b / 8) =
                patch g.mm.bytes (g.dataBitmapPtr + fromId / 8) 1 (fun _ =>
                  g.mm.bytes (g.dataBitmapPtr + fromId / 8) ||| 0xff <<< UInt8.ofNat (fromId % 8))
                (g.dataBitmapPtr + b / 8) := by
              by_cases hlt : b / 8 < fromId / 8 + 1
              · exact patch_of_lt (by omega)
              · exact patch_of_ge (by omega)
            rw [hout, patch_byte]
            by_cases hfirst : b / 8 = fromId / 8
            · rw [if_pos hfirst, bitmapGet_or, bitmapGet_shiftLeft (Nat.mod_lt _ (by decide)), hfirst]
              congr 1
              refine decide_eq_decide.mpr ?_
              omega
            · rw [if_neg hfirst]
              have : ¬ (fromId ≤ b ∧ b < fromId + size) := by omega
              simp [this]
      · dsimp only
        rcases ha with ha | ha
        · rw [patch_of_lt (by omega), patch_of_lt (by omega), patch_of_lt (by omega)]
        · rw [patch_of_ge (by omega), patch_of_ge (by omega), patch_of_ge (by omega)]

/-- No block, away from the bounds of the bytes: nothing is written. -/
theorem allocate_none {g : Globals} {fromId : Nat} {mm' : Image} (hmod : fromId % 8 ≠ 0)
    (h : allocateContiguousBlocks g fromId 0 = .ok mm') : mm' = g.mm := by
  rw [allocateContiguousBlocks] at h
  split at h
  · cases h
  · obtain ⟨byte, hbyte, h⟩ := bind_ok h
    obtain rfl := readByte_ok hbyte
    rw [if_pos (by omega)] at h
    obtain ⟨-, rfl⟩ := write_ok h
    have hset : setBits (g.mm.bytes (g.dataBitmapPtr + fromId / 8)) (fromId % 8)
        ((fromId + 0 - 1) % 8) = g.mm.bytes (g.dataBitmapPtr + fromId / 8) := by
      rw [setBits, show (fromId + 0 - 1) % 8 + 1 - fromId % 8 = 0 by omega]
      rfl
    rw [hset]
    refine congrArg (Image.mk · g.mm.length) (funext fun a => ?_)
    by_cases ha : a = g.dataBitmapPtr + fromId / 8
    · subst ha
      exact patch_of_mem (Nat.le_refl _) (by omega)
    · rcases Nat.lt_or_gt_of_ne ha with hlt | hgt
      · exact patch_of_lt hlt
      · exact patch_of_ge hgt

/-! ## Runs of pointers -/

/-- `n` pointers to the blocks from `first` on, at `pos`. -/
def Pointers (m : Image) (pos first n : Nat) : Prop :=
  ∀ i < n, (le32 m.bytes (pos + 4 * i)).toNat = first + i

theorem writePtr_ok {m m' : Image} {pos block : Nat} (h : m.writePtr pos block = .ok m') :
    block < 2 ^ 32 ∧
      m' = { m with bytes := patch m.bytes pos 4 (bytes32 (UInt32.ofNat block)) } := by
  rw [Image.writePtr] at h
  split at h
  · exact ⟨by assumption, (write_ok h).2⟩
  · cases h

/-- One more pointer behind the ones that are there. -/
theorem Pointers.push {m : Image} {pos first n : Nat} (h : Pointers m pos first n)
    (hlt : first + n < 2 ^ 32) :
    Pointers { m with bytes := patch m.bytes (pos + n * 4) 4 (bytes32 (UInt32.ofNat (first + n))) }
      pos first (n + 1) := by
  intro i hi
  dsimp only
  by_cases he : i = n
  · subst he
    rw [Nat.mul_comm i 4, le32_patch_self, UInt32.toNat_ofNat', Nat.mod_eq_of_lt hlt]
  · rw [le32_patch_disjoint (by omega)]
    exact h i (by omega)

theorem Pointers.congr {m m' : Image} {pos first n : Nat} (h : Pointers m pos first n)
    (hb : ∀ a, pos ≤ a → a < pos + 4 * n → m'.bytes a = m.bytes a) : Pointers m' pos first n := by
  intro i hi
  rw [le32_congr fun j hj => hb (pos + 4 * i + j) (by omega) (by omega)]
  exact h i hi

theorem writePtrs_spec {mm mm' : Image} {pos first n : Nat}
    (h : writePtrs mm pos first n = .ok mm') :
    Pointers mm' pos first n ∧ mm'.length = mm.length ∧
      ∀ a, a < pos ∨ pos + 4 * n ≤ a → mm'.bytes a = mm.bytes a := by
  refine loop_invariant (P := fun k m => Pointers m pos first k ∧ m.length = mm.length ∧
    ∀ a, a < pos ∨ pos + 4 * k ≤ a → m.bytes a = mm.bytes a) h ?_ ?_
  · exact ⟨fun i hi => by omega, rfl, fun _ _ => rfl⟩
  · rintro i m m' - ⟨hp, hlen, hb⟩ hw
    obtain ⟨hlt, rfl⟩ := writePtr_ok hw
    refine ⟨hp.push hlt, hlen, fun a ha => ?_⟩
    dsimp only
    rcases ha with ha | ha
    · rw [patch_of_lt (by omega)]
      exact hb a (.inl ha)
    · rw [patch_of_ge (by omega)]
      exact hb a (.inr (by omega))

/-- The data blocks of a level, with the pointers in front of them. -/
theorem writeLevel_spec {blocks : List (List Nat)} {size c k : Nat} {data : Nat → UInt8}
    {mm mm' : Image} {pos : Nat} (hpos : pos + 4 * entry blocks k k ≤ (c + rowSum blocks k k) * pageSize)
    (h : writeLevel blocks size data c k mm pos = .ok mm') :
    Pointers mm' pos (c + rowSum blocks k k) (entry blocks k k) ∧ mm'.length = mm.length ∧
      ∀ a < pos, mm'.bytes a = mm.bytes a := by
  refine loop_invariant (P := fun j m => Pointers m pos (c + rowSum blocks k k) j ∧
    m.length = mm.length ∧ ∀ a < pos, m.bytes a = mm.bytes a) h ?_ ?_
  · exact ⟨fun i hi => by omega, rfl, fun _ _ => rfl⟩
  · rintro i m m' hi ⟨hp, hlen, hb⟩ hs
    obtain ⟨m₁, hw, hs⟩ := bind_ok hs
    obtain ⟨hlt, rfl⟩ := writePtr_ok hw
    obtain ⟨-, rfl⟩ := write_ok hs
    -- the data block lies behind all pointers of the level
    have hbeyond : pos + 4 * entry blocks k k ≤ (c + rowSum blocks k k + i) * pageSize :=
      Nat.le_trans hpos (Nat.mul_le_mul_right _ (by omega))
    refine ⟨(hp.push hlt).congr fun a _ ha => ?_, hlen, fun a ha => ?_⟩ <;> dsimp only
    · rw [patch_of_lt (by omega)]
    · rw [patch_of_lt (by omega), patch_of_lt (by omega)]
      exact hb a ha

/-! ## The blocks of a level -/

/-- A path reads only the index blocks it goes through. -/
theorem path_congr {m m' : Image} {lo hi : Nat}
    (hb : ∀ a, lo * pageSize ≤ a → a < hi * pageSize → m'.bytes a = m.bytes a) :
    ∀ {k r i : Nat}, i < ptrPerPage ^ k → (∀ b ∈ path m k r i, lo ≤ b ∧ b < hi) →
      path m' k r i = path m k r i
  | 0, _, _, _, _ => rfl
  | k + 1, r, i, hi', h => by
      have hr : lo ≤ r ∧ r < hi := h r List.mem_cons_self
      have hidx : i / ptrPerPage ^ k < ptrPerPage :=
        Nat.div_lt_of_lt_mul (by rw [← Nat.pow_succ]; exact hi')
      have hptr : m'.ptr r (i / ptrPerPage ^ k) = m.ptr r (i / ptrPerPage ^ k) := by
        rw [Image.ptr, Image.ptr, le32_congr fun j hj => hb _ ?_ ?_]
        · have := Nat.mul_le_mul_right pageSize hr.1
          omega
        · have := Nat.mul_le_mul_right pageSize (Nat.succ_le_of_lt hr.2)
          simp only [Nat.succ_mul, ptrPerPage, pageSize] at *
          omega
      rw [path, path, hptr, path_congr hb (Nat.mod_lt _ (Nat.pow_pos (by decide)))
        fun b hmem => h b (List.mem_cons_of_mem _ hmem)]

theorem onLevel_congr {m m' : Image} {lo hi k r first n : Nat}
    (hb : ∀ a, lo * pageSize ≤ a → a < hi * pageSize → m'.bytes a = m.bytes a)
    (h : ∀ b, OnLevel m k r first n b → lo ≤ b ∧ b < hi) (b : Nat) :
    OnLevel m' k r first n b ↔ OnLevel m k r first n b := by
  have hpath : ∀ i, i < ptrPerPage ^ k → first + i < n → path m' k r i = path m k r i :=
    fun i hi hn => path_congr hb hi fun b hmem => h b ⟨i, hi, hn, hmem⟩
  constructor
  · rintro ⟨i, hi, hn, hmem⟩
    exact ⟨i, hi, hn, hpath i hi hn ▸ hmem⟩
  · rintro ⟨i, hi, hn, hmem⟩
    exact ⟨i, hi, hn, (hpath i hi hn).symm ▸ hmem⟩

theorem onLevel_nil {m : Image} {k r first n : Nat} (h : n ≤ first) (b : Nat) :
    ¬ OnLevel m k r first n b := by
  rintro ⟨i, -, hn, -⟩
  omega

theorem ptr_of_pointers {m : Image} {c first n r j i : Nat} (h : Pointers m (c * pageSize) first n)
    (hi : i < n) (hr : r * pageSize + 4 * j = c * pageSize + 4 * i) : m.ptr r j = first + i := by
  rw [Image.ptr, hr]
  exact h i hi

/-- A file that goes on behind a level uses all of it. -/
theorem onLevel_full {m : Image} {k r first n w : Nat} (hw : ptrPerPage ^ k = w) (h : first + w ≤ n)
    (b : Nat) : OnLevel m k r first n b ↔ OnLevel m k r first (first + w) b := by
  constructor
  · rintro ⟨i, hi, -, hmem⟩
    exact ⟨i, hi, by omega, hmem⟩
  · rintro ⟨i, hi, hn, hmem⟩
    exact ⟨i, hi, by omega, hmem⟩

section Levels

variable {m : Image} {c first n : Nat}

/-- An index block and `n` pages. -/
theorem onLevel_single (hn : first < n) (hmax : n ≤ first + ptrPerPage)
    (h : Pointers m (c * pageSize) (c + 1) (n - first)) (b : Nat) :
    OnLevel m 1 c first n b ↔ c ≤ b ∧ b < c + (1 + (n - first)) := by
  have hpath : ∀ i, first + i < n → path m 1 c i = [c, c + 1 + i] := by
    intro i hi
    simp only [path, Nat.pow_zero, Nat.div_one]
    rw [ptr_of_pointers h (by omega) rfl]
  constructor
  · rintro ⟨i, -, hi, hmem⟩
    rw [hpath i hi] at hmem
    simp only [List.mem_cons, List.not_mem_nil, or_false] at hmem
    omega
  · rintro ⟨hlo, hhi⟩
    have hi : first + (b - (c + 1)) < n := by omega
    refine ⟨b - (c + 1), by rw [Nat.pow_one]; omega, hi, ?_⟩
    rw [hpath _ hi]
    simp only [List.mem_cons, List.not_mem_nil, or_false]
    omega

theorem onLevel_full_single (hn : first + ptrPerPage ≤ n)
    (h : Pointers m (c * pageSize) (c + 1) ptrPerPage) (b : Nat) :
    OnLevel m 1 c first n b ↔ c ≤ b ∧ b < c + (1 + ptrPerPage) := by
  have hpos : 0 < ptrPerPage := by decide
  rw [onLevel_full (Nat.pow_one _) hn, onLevel_single (by omega) (Nat.le_refl _)] <;>
    rw [Nat.add_sub_cancel_left]
  exact h

/-- An index block, second level blocks and pages. -/
theorem onLevel_double (hn : first < n) (hmax : n ≤ first + ptrPerPage * ptrPerPage)
    (h₁ : Pointers m (c * pageSize) (c + 1) (ceilDiv (n - first) ptrPerPage))
    (h₂ : Pointers m ((c + 1) * pageSize) (c + (1 + ceilDiv (n - first) ptrPerPage)) (n - first))
    (b : Nat) :
    OnLevel m 2 c first n b ↔
      c ≤ b ∧ b < c + (1 + (ceilDiv (n - first) ptrPerPage + (n - first))) := by
  simp only [ceilDiv, ptrPerPage, pageSize] at *
  have hpath : ∀ i, first + i < n →
      path m 2 c i = [c, c + 1 + i / 1024, c + (1 + (n - first + 1024 - 1) / 1024) + i] := by
    intro i hi
    simp only [path, ptrPerPage, Nat.pow_zero, Nat.pow_one, Nat.div_one]
    rw [ptr_of_pointers (i := i / 1024) h₁ (by omega) rfl,
      ptr_of_pointers (i := i) h₂ (by omega) (by simp only [pageSize]; omega)]
  constructor
  · rintro ⟨i, -, hi, hmem⟩
    rw [hpath i hi] at hmem
    simp only [List.mem_cons, List.not_mem_nil, or_false] at hmem
    omega
  · rintro ⟨hlo, hhi⟩
    -- the page itself, or the first page under the second level block
    have hmem : ∀ i, first + i < n → b ∈ [c, c + 1 + i / 1024,
        c + (1 + (n - first + 1024 - 1) / 1024) + i] → OnLevel m 2 c first n b := by
      intro i hi hb
      exact ⟨i, by simp only [ptrPerPage]; omega, hi, by rw [hpath i hi]; exact hb⟩
    simp only [List.mem_cons, List.not_mem_nil, or_false] at hmem
    by_cases hdata : c + (1 + (n - first + 1024 - 1) / 1024) ≤ b
    · exact hmem (b - (c + (1 + (n - first + 1024 - 1) / 1024))) (by omega) (by omega)
    · exact hmem ((b - (c + 1)) * 1024) (by omega) (by omega)

theorem onLevel_full_double (hn : first + ptrPerPage * ptrPerPage ≤ n)
    (h₁ : Pointers m (c * pageSize) (c + 1) ptrPerPage)
    (h₂ : Pointers m ((c + 1) * pageSize) (c + (1 + ptrPerPage)) (ptrPerPage * ptrPerPage))
    (b : Nat) :
    OnLevel m 2 c first n b ↔
      c ≤ b ∧ b < c + (1 + (ptrPerPage + ptrPerPage * ptrPerPage)) := by
  have hpos : 0 < ptrPerPage * ptrPerPage := by decide
  have hceil : ceilDiv (ptrPerPage * ptrPerPage) ptrPerPage = ptrPerPage := by decide
  rw [onLevel_full (Nat.pow_two _) hn, onLevel_double (by omega) (Nat.le_refl _)] <;>
    rw [Nat.add_sub_cancel_left, hceil]
  · exact h₁
  · exact h₂

/-- An index block, third and second level blocks and pages. -/
theorem onLevel_triple (hn : first < n)
    (hmax : n ≤ first + ptrPerPage * ptrPerPage * ptrPerPage)
    (h₁ : Pointers m (c * pageSize) (c + 1)
      (ceilDiv (ceilDiv (n - first) ptrPerPage) ptrPerPage))
    (h₂ : Pointers m ((c + 1) * pageSize)
      (c + (1 + ceilDiv (ceilDiv (n - first) ptrPerPage) ptrPerPage))
      (ceilDiv (n - first) ptrPerPage))
    (h₃ : Pointers m ((c + (1 + ceilDiv (ceilDiv (n - first) ptrPerPage) ptrPerPage)) * pageSize)
      (c + (1 + (ceilDiv (ceilDiv (n - first) ptrPerPage) ptrPerPage +
        ceilDiv (n - first) ptrPerPage))) (n - first))
    (b : Nat) :
    OnLevel m 3 c first n b ↔
      c ≤ b ∧ b < c + (1 + (ceilDiv (ceilDiv (n - first) ptrPerPage) ptrPerPage +
        (ceilDiv (n - first) ptrPerPage + (n - first)))) := by
  simp only [ceilDiv, ptrPerPage, pageSize] at *
  generalize hs : (n - first + 1024 - 1) / 1024 = s at *
  generalize ht : (s + 1024 - 1) / 1024 = t at *
  have hpath : ∀ i, first + i < n → path m 3 c i =
      [c, c + 1 + i / 1048576, c + (1 + t) + i / 1024, c + (1 + (t + s)) + i] := by
    intro i hi
    simp only [path, ptrPerPage, Nat.pow_zero, Nat.pow_one, Nat.div_one]
    rw [show (1024 : Nat) ^ 2 = 1048576 from rfl,
      ptr_of_pointers (i := i / 1048576) h₁ (by omega) rfl,
      ptr_of_pointers (i := i / 1024) h₂ (by omega) (by simp only [pageSize]; omega),
      ptr_of_pointers (i := i) h₃ (by omega) (by simp only [pageSize]; omega)]
  constructor
  · rintro ⟨i, -, hi, hmem⟩
    rw [hpath i hi] at hmem
    simp only [List.mem_cons, List.not_mem_nil, or_false] at hmem
    omega
  · rintro ⟨hlo, hhi⟩
    have hmem : ∀ i, first + i < n → b ∈ [c, c + 1 + i / 1048576, c + (1 + t) + i / 1024,
        c + (1 + (t + s)) + i] → OnLevel m 3 c first n b := by
      intro i hi hb
      exact ⟨i, by simp only [ptrPerPage]; omega, hi, by rw [hpath i hi]; exact hb⟩
    simp only [List.mem_cons, List.not_mem_nil, or_false] at hmem
    by_cases hdata : c + (1 + (t + s)) ≤ b
    · exact hmem (b - (c + (1 + (t + s)))) (by omega) (by omega)
    · by_cases hsecond : c + (1 + t) ≤ b
      · exact hmem ((b - (c + (1 + t))) * 1024) (by omega) (by omega)
      · exact hmem ((b - (c + 1)) * 1048576) (by omega) (by omega)

end Levels

/-! ## A whole file -/

theorem onDirect_iff {inode : Fs.Inode} {n c k : Nat}
    (hd : ∀ i (h : i < directPtrs), i < k → inode.direct ⟨i, h⟩ = UInt32.ofNat (c + i))
    (hk : min n directPtrs = k) (hlt : c + k ≤ 2 ^ 32) (b : Nat) :
    OnDirect inode n b ↔ c ≤ b ∧ b < c + k := by
  have htoNat : ∀ i (h : i < directPtrs), i < k → (inode.direct ⟨i, h⟩).toNat = c + i := by
    intro i h hi
    rw [hd i h hi, UInt32.toNat_ofNat', Nat.mod_eq_of_lt (by omega)]
  constructor
  · rintro ⟨i, h, hi, rfl⟩
    rw [htoNat i h (by omega)]
    omega
  · rintro ⟨hlo, hhi⟩
    refine ⟨b - c, by omega, by omega, ?_⟩
    rw [htoNat _ _ (by omega)]
    omega

/-- What `allocate_file_blocks` has done when the file got `total` blocks. -/
structure Filled (g : Globals) (size : Nat) (inode : Fs.Inode) (g' : Globals) (total : Nat) :
    Prop where
  sizeBytes : inode.sizeBytes.toNat = size
  recorded : ∀ b, Recorded g'.mm inode b ↔ g.currentBlock ≤ b ∧ b < g.currentBlock + total
  marked : ∃ mm, Marked g.dataBitmapPtr g.currentBlock (g.currentBlock + total) g.mm mm ∧
    mm.length = g'.mm.length ∧ ∀ a < g.currentBlock * pageSize, g'.mm.bytes a = mm.bytes a
  fits : g.currentBlock + total ≤ 8 * g.dataBitmapSizeBytes
  bitmapPtr : g'.dataBitmapPtr = g.dataBitmapPtr
  bitmapSize : g'.dataBitmapSizeBytes = g.dataBitmapSizeBytes
  current_le : g'.currentBlock ≤ g.currentBlock + total
  le_current : g.currentBlock ≤ g'.currentBlock
  current : ceilDiv size pageSize ≤ directPtrs + ptrPerPage + ptrPerPage * ptrPerPage →
    g'.currentBlock = g.currentBlock + total

/-- The direct part keeps the size in the inode. -/
theorem writeDirect_sizeBytes {blocks : List (List Nat)} {size : Nat} {data : Nat → UInt8} {c : Nat}
    {s s' : Fs.Inode × Image} (h : writeDirect blocks size data c s = .ok s') :
    s'.1.sizeBytes = s.1.sizeBytes := by
  refine loop_invariant (P := fun _ t => t.1.sizeBytes = s.1.sizeBytes) h rfl ?_
  intro i s₁ s₂ _ hs hw
  obtain ⟨mm', -, hp⟩ := bind_ok hw
  cases hp
  exact hs

section Parts

variable {blocks : List (List Nat)} {size c : Nat} {data : Nat → UInt8} {s s' : Fs.Inode × Image}

theorem toNat_ofNat_mul {c : Nat} (hc : c < 2 ^ 32) :
    (UInt32.ofNat c).toNat * pageSize = c * pageSize := by
  rw [UInt32.toNat_ofNat', Nat.mod_eq_of_lt hc]

theorem four_mul_le {x : Nat} (hx : x ≤ ptrPerPage) : 4 * x ≤ pageSize := by
  simp only [ptrPerPage, pageSize] at *
  omega

theorem four_mul_le_mul {x y : Nat} (hy : y ≤ x * ptrPerPage) : 4 * y ≤ x * pageSize := by
  simp only [ptrPerPage, pageSize] at *
  omega

theorem writeSingle_spec {x : Nat} (hc : c < 2 ^ 32) (hrow : blocks.getD 1 [] = [1, x])
    (hx : x ≤ ptrPerPage) (h : writeSingle blocks size data c s = .ok s') :
    s'.1 = { s.1 with singleInd := UInt32.ofNat c } ∧ s'.2.length = s.2.length ∧
      (∀ a < c * pageSize, s'.2.bytes a = s.2.bytes a) ∧ Pointers s'.2 (c * pageSize) (c + 1) x := by
  obtain ⟨mm, hl, hp⟩ := bind_ok h
  cases hp
  have hentry : entry blocks 1 1 = x := by rw [entry, hrow]; rfl
  have hsum : rowSum blocks 1 1 = 1 := by rw [rowSum, hrow]; rfl
  rw [toNat_ofNat_mul hc] at hl
  have hx₄ : 4 * x ≤ pageSize := four_mul_le hx
  obtain ⟨hptr, hlen, hb⟩ := writeLevel_spec (by
    rw [hentry, hsum, Nat.add_mul]
    omega) hl
  rw [hentry, hsum] at hptr
  exact ⟨rfl, hlen, hb, hptr⟩

theorem writeDouble_spec {x y : Nat} (hc : c < 2 ^ 32) (hrow : blocks.getD 2 [] = [1, x, y])
    (hx : x ≤ ptrPerPage) (hy : y ≤ x * ptrPerPage) (h : writeDouble blocks size data c s = .ok s') :
    s'.1 = { s.1 with doubleInd := UInt32.ofNat c } ∧ s'.2.length = s.2.length ∧
      (∀ a < c * pageSize, s'.2.bytes a = s.2.bytes a) ∧
      Pointers s'.2 (c * pageSize) (c + 1) x ∧
      Pointers s'.2 ((c + 1) * pageSize) (c + (1 + x)) y := by
  obtain ⟨mm₁, h₁, h⟩ := bind_ok h
  obtain ⟨mm₂, h₂, hp⟩ := bind_ok h
  cases hp
  have hentry₁ : entry blocks 2 1 = x := by rw [entry, hrow]; rfl
  have hentry₂ : entry blocks 2 2 = y := by rw [entry, hrow]; rfl
  have hsum₁ : rowSum blocks 2 1 = 1 := by rw [rowSum, hrow]; rfl
  have hsum₂ : rowSum blocks 2 2 = 1 + x := by rw [rowSum, hrow]; simp
  rw [toNat_ofNat_mul hc, hentry₁, hsum₁] at h₁
  rw [hsum₁] at h₂
  obtain ⟨hptr₁, hlen₁, hb₁⟩ := writePtrs_spec h₁
  have hx₄ : 4 * x ≤ pageSize := four_mul_le hx
  have hy₄ : 4 * y ≤ x * pageSize := four_mul_le_mul hy
  have hnext : (c + 1) * pageSize = c * pageSize + pageSize := Nat.succ_mul ..
  have hdata : (c + (1 + x)) * pageSize = c * pageSize + pageSize + x * pageSize := by
    rw [Nat.add_mul, Nat.add_mul, Nat.one_mul, Nat.add_assoc]
  obtain ⟨hptr₂, hlen₂, hb₂⟩ := writeLevel_spec (by
    rw [hentry₂, hsum₂, hdata]
    omega) h₂
  rw [hentry₂, hsum₂] at hptr₂
  refine ⟨rfl, hlen₂.trans hlen₁, fun a ha => ?_, hptr₁.congr fun a _ ha => hb₂ a ?_, hptr₂⟩
  · exact (hb₂ a (by omega)).trans (hb₁ a (.inl ha))
  · omega

theorem writeTriple_spec {x y z : Nat} (hc : c < 2 ^ 32) (hrow : blocks.getD 3 [] = [1, x, y, z])
    (hx : x ≤ ptrPerPage) (hy : y ≤ x * ptrPerPage) (hz : z ≤ y * ptrPerPage)
    (h : writeTriple blocks size data c s = .ok s') :
    s'.1 = { s.1 with tripleInd := UInt32.ofNat c } ∧ s'.2.length = s.2.length ∧
      (∀ a < c * pageSize, s'.2.bytes a = s.2.bytes a) ∧
      Pointers s'.2 (c * pageSize) (c + 1) x ∧
      Pointers s'.2 ((c + 1) * pageSize) (c + (1 + x)) y ∧
      Pointers s'.2 ((c + (1 + x)) * pageSize) (c + (1 + (x + y))) z := by
  obtain ⟨mm₁, h₁, h⟩ := bind_ok h
  obtain ⟨mm₂, h₂, h⟩ := bind_ok h
  obtain ⟨mm₃, h₃, hp⟩ := bind_ok h
  cases hp
  have hentry₁ : entry blocks 3 1 = x := by rw [entry, hrow]; rfl
  have hentry₂ : entry blocks 3 2 = y := by rw [entry, hrow]; rfl
  have hentry₃ : entry blocks 3 3 = z := by rw [entry, hrow]; rfl
  have hsum₁ : rowSum blocks 3 1 = 1 := by rw [rowSum, hrow]; rfl
  have hsum₂ : rowSum blocks 3 2 = 1 + x := by rw [rowSum, hrow]; simp
  have hsum₃ : rowSum blocks 3 3 = 1 + (x + y) := by rw [rowSum, hrow]; simp
  rw [toNat_ofNat_mul hc, hentry₁, hsum₁] at h₁
  rw [hsum₁, hsum₂, hentry₂] at h₂
  rw [hsum₂] at h₃
  obtain ⟨hptr₁, hlen₁, hb₁⟩ := writePtrs_spec h₁
  obtain ⟨hptr₂, hlen₂, hb₂⟩ := writePtrs_spec h₂
  have hx₄ : 4 * x ≤ pageSize := four_mul_le hx
  have hy₄ : 4 * y ≤ x * pageSize := four_mul_le_mul hy
  have hz₄ : 4 * z ≤ y * pageSize := four_mul_le_mul hz
  have hnext : (c + 1) * pageSize = c * pageSize + pageSize := Nat.succ_mul ..
  have hthird : (c + (1 + x)) * pageSize = c * pageSize + pageSize + x * pageSize := by
    rw [Nat.add_mul, Nat.add_mul, Nat.one_mul, Nat.add_assoc]
  have hdata : (c + (1 + (x + y))) * pageSize =
      c * pageSize + pageSize + x * pageSize + y * pageSize := by
    rw [Nat.add_mul, Nat.add_mul, Nat.add_mul, Nat.one_mul]
    omega
  obtain ⟨hptr₃, hlen₃, hb₃⟩ := writeLevel_spec (by
    rw [hentry₃, hsum₃, hdata, hthird]
    omega) h₃
  rw [hentry₃, hsum₃] at hptr₃
  refine ⟨rfl, hlen₃.trans (hlen₂.trans hlen₁), fun a ha => ?_, hptr₁.congr fun a _ ha => ?_,
    hptr₂.congr fun a _ ha => hb₃ a ?_, hptr₃⟩
  · rw [hb₃ a (by omega), hb₂ a (.inl (by omega)), hb₁ a (.inl ha)]
  · rw [hb₃ a (by omega), hb₂ a (.inl (by omega))]
  · omega

end Parts

section Whole

variable {g g' : Globals} {inode₀ inode : Fs.Inode} {size : Nat} {data : Nat → UInt8}

theorem allocateFileBlocks_single {d x : Nat} (hb : filesizeToBlocks size = some [[d], [1, x]]) :
    allocateFileBlocks g inode₀ size data = (do
      let mm ← allocateContiguousBlocks g g.currentBlock (d + (1 + x))
      let s ← writeDirect [[d], [1, x]] size data g.currentBlock (inode₀, mm)
      let s ← writeSingle [[d], [1, x]] size data (g.currentBlock + d) s
      pure (s.1, { g with mm := s.2, currentBlock := g.currentBlock + d + (1 + x) })) := by
  rw [allocateFileBlocks, hb]
  rfl

theorem allocateFileBlocks_double {d x y z : Nat}
    (hb : filesizeToBlocks size = some [[d], [1, x], [1, y, z]]) :
    allocateFileBlocks g inode₀ size data = (do
      let mm ← allocateContiguousBlocks g g.currentBlock (d + (1 + x + (1 + (y + z))))
      let s ← writeDirect [[d], [1, x], [1, y, z]] size data g.currentBlock (inode₀, mm)
      let s ← writeSingle [[d], [1, x], [1, y, z]] size data (g.currentBlock + d) s
      let s ← writeDouble [[d], [1, x], [1, y, z]] size data (g.currentBlock + d + (1 + x)) s
      pure (s.1, { g with
        mm := s.2, currentBlock := g.currentBlock + d + (1 + x) + (1 + (y + z)) })) := by
  rw [allocateFileBlocks, hb]
  rfl

theorem allocateFileBlocks_triple {d x y z u v w : Nat}
    (hb : filesizeToBlocks size = some [[d], [1, x], [1, y, z], [1, u, v, w]]) :
    allocateFileBlocks g inode₀ size data = (do
      let mm ← allocateContiguousBlocks g g.currentBlock
        (d + (1 + x + (1 + (y + z) + (1 + (u + (v + w))))))
      let s ← writeDirect [[d], [1, x], [1, y, z], [1, u, v, w]] size data g.currentBlock (inode₀, mm)
      let s ← writeSingle [[d], [1, x], [1, y, z], [1, u, v, w]] size data (g.currentBlock + d) s
      let s ← writeDouble [[d], [1, x], [1, y, z], [1, u, v, w]] size data
        (g.currentBlock + d + (1 + x)) s
      let s ← writeTriple [[d], [1, x], [1, y, z], [1, u, v, w]] size data
        (g.currentBlock + d + (1 + x) + (1 + (y + z))) s
      pure (s.1, { g with
        mm := s.2, currentBlock := g.currentBlock + d + (1 + x) + (1 + (y + z)) })) := by
  rw [allocateFileBlocks, hb]
  rfl

theorem ceilDiv_le {a b c : Nat} (hb : 0 < b) (h : a ≤ c * b) : ceilDiv a b ≤ c := by
  rw [ceilDiv, ← Nat.lt_succ_iff]
  refine Nat.div_lt_of_lt_mul ?_
  rw [Nat.mul_comm b, Nat.succ_mul]
  omega

/-- A file that is laid out has no more pages than an inode has pointers for. -/
theorem pages_le_of_ok {r : Fs.Inode × Globals}
    (h : allocateFileBlocks g inode₀ size data = .ok r) :
    ceilDiv size pageSize ≤ directPtrs + ptrPerPage + ptrPerPage * ptrPerPage +
      ptrPerPage * ptrPerPage * ptrPerPage := by
  refine Nat.le_of_not_lt fun hlt => ?_
  rw [allocateFileBlocks, filesizeToBlocks, if_neg (by omega), if_neg (by omega), if_neg (by omega),
    if_neg (Nat.not_le_of_lt hlt)] at h
  cases h

variable (hbytes : inode₀.sizeBytes.toNat = size) (hbits : 8 * g.dataBitmapSizeBytes ≤ 2 ^ 32)
  (h : allocateFileBlocks g inode₀ size data = .ok (inode, g'))

include hbytes hbits h

theorem filled_direct (hsize : size ≠ 0) (hn : ceilDiv size pageSize ≤ directPtrs) :
    Filled g size inode g' (ceilDiv size pageSize) := by
  have hpos : ceilDiv size pageSize ≠ 0 := by
    have hle := le_ceilDiv (a := size) (b := pageSize) (by decide)
    intro h0
    rw [h0] at hle
    omega
  rw [allocateFileBlocks_direct hn] at h
  obtain ⟨mm, hmm, h⟩ := bind_ok h
  obtain ⟨s, hs, h⟩ := bind_ok h
  cases h
  obtain ⟨hmark, hfits⟩ := allocate_marked hpos hmm
  have hlaid : Laid size data g.currentBlock mm (ceilDiv size pageSize) s := writeDirect_laid hs
  have hsz : s.1.sizeBytes.toNat = size := by rw [writeDirect_sizeBytes hs, hbytes]
  refine ⟨hsz, fun b => ?_, ⟨mm, hmark, hlaid.length.symm, hlaid.below⟩, hfits, rfl, rfl,
    Nat.le_refl _, Nat.le_add_right .., fun _ => rfl⟩
  rw [Recorded, hsz, onDirect_iff hlaid.direct (Nat.min_eq_left hn) (by omega)]
  have h₁ := onLevel_nil (m := s.2) (k := 1) (r := s.1.singleInd.toNat) hn b
  have h₂ := onLevel_nil (m := s.2) (k := 2) (r := s.1.doubleInd.toNat)
    (Nat.le_trans hn (Nat.le_add_right directPtrs ptrPerPage)) b
  have h₃ := onLevel_nil (m := s.2) (k := 3) (r := s.1.tripleInd.toNat)
    (Nat.le_trans hn (Nat.le_trans (Nat.le_add_right directPtrs ptrPerPage)
      (Nat.le_add_right _ (ptrPerPage * ptrPerPage)))) b
  simp only [h₁, h₂, h₃, or_false]

theorem filled_single (hlo : directPtrs < ceilDiv size pageSize)
    (hhi : ceilDiv size pageSize ≤ directPtrs + ptrPerPage) :
    Filled g size inode g' (directPtrs + (1 + (ceilDiv size pageSize - directPtrs))) := by
  have hb : filesizeToBlocks size = some [[directPtrs], [1, ceilDiv size pageSize - directPtrs]] := by
    rw [filesizeToBlocks, if_neg (by omega), if_pos hhi]
  rw [allocateFileBlocks_single hb] at h
  obtain ⟨mm, hmm, h⟩ := bind_ok h
  obtain ⟨s, hs, h⟩ := bind_ok h
  obtain ⟨s₁, hs₁, h⟩ := bind_ok h
  cases h
  obtain ⟨hmark, hfits⟩ := allocate_marked (by omega) hmm
  have hlaid : Laid size data g.currentBlock mm directPtrs s := writeDirect_laid hs
  obtain ⟨hin₁, hlen₁, hb₁, hp₁⟩ := writeSingle_spec (by omega) rfl (by omega) hs₁
  have hsz : s₁.1.sizeBytes.toNat = size := by
    rw [hin₁]
    exact (congrArg _ (writeDirect_sizeBytes hs)).trans hbytes
  have hroot : s₁.1.singleInd.toNat = g.currentBlock + directPtrs := by
    rw [hin₁, UInt32.toNat_ofNat', Nat.mod_eq_of_lt (by omega)]
  have hdir : ∀ i (hi : i < directPtrs), i < directPtrs →
      s₁.1.direct ⟨i, hi⟩ = UInt32.ofNat (g.currentBlock + i) := by
    rw [hin₁]
    exact hlaid.direct
  refine ⟨hsz, fun b => ?_, ⟨mm, hmark, (hlen₁.trans hlaid.length).symm, fun a ha => ?_⟩, hfits, rfl, rfl,
    by dsimp only; omega, by dsimp only; omega, fun _ => by dsimp only; omega⟩
  · rw [Recorded, hsz, onDirect_iff hdir (Nat.min_eq_right (Nat.le_of_lt hlo)) (by omega), hroot,
      onLevel_single hlo hhi hp₁]
    have h₂ := onLevel_nil (m := s₁.2) (k := 2) (r := s₁.1.doubleInd.toNat) hhi b
    have h₃ := onLevel_nil (m := s₁.2) (k := 3) (r := s₁.1.tripleInd.toNat)
      (Nat.le_trans hhi (Nat.le_add_right _ (ptrPerPage * ptrPerPage))) b
    simp only [h₂, h₃, or_false]
    omega
  · have hle : a < (g.currentBlock + directPtrs) * pageSize :=
      Nat.lt_of_lt_of_le ha (Nat.mul_le_mul_right _ (Nat.le_add_right ..))
    exact (hb₁ a hle).trans (hlaid.below a ha)

theorem filled_double (hlo : directPtrs + ptrPerPage < ceilDiv size pageSize)
    (hhi : ceilDiv size pageSize ≤ directPtrs + ptrPerPage + ptrPerPage * ptrPerPage) :
    Filled g size inode g' (directPtrs + (1 + ptrPerPage +
      (1 + (ceilDiv (ceilDiv size pageSize - (directPtrs + ptrPerPage)) ptrPerPage +
        (ceilDiv size pageSize - (directPtrs + ptrPerPage)))))) := by
  have hb : filesizeToBlocks size = some [[directPtrs], [1, ptrPerPage],
      [1, ceilDiv (ceilDiv size pageSize - (directPtrs + ptrPerPage)) ptrPerPage,
        ceilDiv size pageSize - (directPtrs + ptrPerPage)]] := by
    rw [filesizeToBlocks, if_neg (by omega), if_neg (by omega), if_pos hhi]
  rw [allocateFileBlocks_double hb] at h
  obtain ⟨mm, hmm, h⟩ := bind_ok h
  obtain ⟨s, hs, h⟩ := bind_ok h
  obtain ⟨s₁, hs₁, h⟩ := bind_ok h
  obtain ⟨s₂, hs₂, h⟩ := bind_ok h
  cases h
  obtain ⟨hmark, hfits⟩ := allocate_marked (by omega) hmm
  have hlaid : Laid size data g.currentBlock mm directPtrs s := writeDirect_laid hs
  obtain ⟨hin₁, hlen₁, hb₁, hp₁⟩ := writeSingle_spec (by omega) rfl (Nat.le_refl _) hs₁
  obtain ⟨hin₂, hlen₂, hb₂, hp₂, hq₂⟩ := writeDouble_spec (by omega) rfl
    (ceilDiv_le (by decide) (by omega)) (le_ceilDiv (by decide)) hs₂
  have hsz : s₂.1.sizeBytes.toNat = size := by
    rw [hin₂, hin₁]
    exact (congrArg _ (writeDirect_sizeBytes hs)).trans hbytes
  have hroot₁ : s₂.1.singleInd.toNat = g.currentBlock + directPtrs := by
    rw [hin₂, hin₁, UInt32.toNat_ofNat', Nat.mod_eq_of_lt (by omega)]
  have hroot₂ : s₂.1.doubleInd.toNat = g.currentBlock + directPtrs + (1 + ptrPerPage) := by
    rw [hin₂, UInt32.toNat_ofNat', Nat.mod_eq_of_lt (by omega)]
  have hdir : ∀ i (hi : i < directPtrs), i < directPtrs →
      s₂.1.direct ⟨i, hi⟩ = UInt32.ofNat (g.currentBlock + i) := by
    rw [hin₂, hin₁]
    exact hlaid.direct
  have hnext : (g.currentBlock + directPtrs + (1 + ptrPerPage)) * pageSize =
      (g.currentBlock + directPtrs) * pageSize + (1 + ptrPerPage) * pageSize := Nat.add_mul ..
  have hp₁' : Pointers s₂.2 ((g.currentBlock + directPtrs) * pageSize)
      (g.currentBlock + directPtrs + 1) ptrPerPage := hp₁.congr fun a _ ha => hb₂ a (by
    have hroom : 4 * ptrPerPage ≤ (1 + ptrPerPage) * pageSize := by decide
    rw [hnext]
    omega)
  refine ⟨hsz, fun b => ?_, ⟨mm, hmark, (hlen₂.trans (hlen₁.trans hlaid.length)).symm, fun a ha => ?_⟩,
    hfits, rfl, rfl, by dsimp only; omega, by dsimp only; omega, fun _ => by dsimp only; omega⟩
  · have hall : OnLevel s₂.2 1 (g.currentBlock + directPtrs) directPtrs (ceilDiv size pageSize) b ↔
        g.currentBlock + directPtrs ≤ b ∧ b < g.currentBlock + directPtrs + (1 + ptrPerPage) :=
      onLevel_full_single (Nat.le_of_lt hlo) hp₁' b
    rw [Recorded, hsz, onDirect_iff hdir (Nat.min_eq_right (by omega)) (by omega), hroot₁, hroot₂,
      hall, onLevel_double hlo hhi hp₂ hq₂]
    have h₃ := onLevel_nil (m := s₂.2) (k := 3) (r := s₂.1.tripleInd.toNat) hhi b
    simp only [h₃, or_false]
    omega
  · have hle : a < (g.currentBlock + directPtrs) * pageSize :=
      Nat.lt_of_lt_of_le ha (Nat.mul_le_mul_right _ (Nat.le_add_right ..))
    rw [hb₂ a (by omega), hb₁ a hle]
    exact hlaid.below a ha

theorem filled_triple
    (hlo : directPtrs + ptrPerPage + ptrPerPage * ptrPerPage < ceilDiv size pageSize)
    (hhi : ceilDiv size pageSize ≤ directPtrs + ptrPerPage + ptrPerPage * ptrPerPage +
      ptrPerPage * ptrPerPage * ptrPerPage) :
    ∃ total, Filled g size inode g' total := by
  generalize hfirst : directPtrs + ptrPerPage + ptrPerPage * ptrPerPage = first at hlo hhi
  have hb : filesizeToBlocks size = some [[directPtrs], [1, ptrPerPage],
      [1, ptrPerPage, ptrPerPage * ptrPerPage],
      [1, ceilDiv (ceilDiv (ceilDiv size pageSize - first) ptrPerPage) ptrPerPage,
        ceilDiv (ceilDiv size pageSize - first) ptrPerPage, ceilDiv size pageSize - first]] := by
    rw [filesizeToBlocks, if_neg (by omega), if_neg (by omega), hfirst, if_neg (by omega), if_pos hhi]
  rw [allocateFileBlocks_triple hb] at h
  obtain ⟨mm, hmm, h⟩ := bind_ok h
  obtain ⟨s, hs, h⟩ := bind_ok h
  obtain ⟨s₁, hs₁, h⟩ := bind_ok h
  obtain ⟨s₂, hs₂, h⟩ := bind_ok h
  obtain ⟨s₃, hs₃, h⟩ := bind_ok h
  cases h
  obtain ⟨hmark, hfits⟩ := allocate_marked (by omega) hmm
  have hlaid : Laid size data g.currentBlock mm directPtrs s := writeDirect_laid hs
  obtain ⟨hin₁, hlen₁, hb₁, hp₁⟩ := writeSingle_spec (by omega) rfl (Nat.le_refl _) hs₁
  obtain ⟨hin₂, hlen₂, hb₂, hp₂, hq₂⟩ := writeDouble_spec (by omega) rfl (Nat.le_refl _)
    (Nat.le_refl _) hs₂
  have hthird : ceilDiv (ceilDiv (ceilDiv size pageSize - first) ptrPerPage) ptrPerPage ≤ ptrPerPage :=
    ceilDiv_le (by decide) (ceilDiv_le (by decide) (by omega))
  obtain ⟨hin₃, hlen₃, hb₃, hp₃, hq₃, hr₃⟩ := writeTriple_spec (by omega) rfl hthird
    (le_ceilDiv (by decide)) (le_ceilDiv (by decide)) hs₃
  have hsz : s₃.1.sizeBytes.toNat = size := by
    rw [hin₃, hin₂, hin₁]
    exact (congrArg _ (writeDirect_sizeBytes hs)).trans hbytes
  have hroot₁ : s₃.1.singleInd.toNat = g.currentBlock + directPtrs := by
    rw [hin₃, hin₂, hin₁, UInt32.toNat_ofNat', Nat.mod_eq_of_lt (by omega)]
  have hroot₂ : s₃.1.doubleInd.toNat = g.currentBlock + directPtrs + (1 + ptrPerPage) := by
    rw [hin₃, hin₂, UInt32.toNat_ofNat', Nat.mod_eq_of_lt (by omega)]
  have hroot₃ : s₃.1.tripleInd.toNat = g.currentBlock + directPtrs + (1 + ptrPerPage) +
      (1 + (ptrPerPage + ptrPerPage * ptrPerPage)) := by
    rw [hin₃, UInt32.toNat_ofNat', Nat.mod_eq_of_lt (by omega)]
  have hdir : ∀ i (hi : i < directPtrs), i < directPtrs →
      s₃.1.direct ⟨i, hi⟩ = UInt32.ofNat (g.currentBlock + i) := by
    rw [hin₃, hin₂, hin₁]
    exact hlaid.direct
  have hnext₁ : (g.currentBlock + directPtrs + (1 + ptrPerPage)) * pageSize =
      (g.currentBlock + directPtrs) * pageSize + (1 + ptrPerPage) * pageSize := Nat.add_mul ..
  have hnext₂ : (g.currentBlock + directPtrs + (1 + ptrPerPage) +
      (1 + (ptrPerPage + ptrPerPage * ptrPerPage))) * pageSize =
      (g.currentBlock + directPtrs + (1 + ptrPerPage)) * pageSize +
        (1 + (ptrPerPage + ptrPerPage * ptrPerPage)) * pageSize := Nat.add_mul ..
  have hsucc : (g.currentBlock + directPtrs + (1 + ptrPerPage) + 1) * pageSize =
      (g.currentBlock + directPtrs + (1 + ptrPerPage)) * pageSize + pageSize := Nat.succ_mul ..
  have hroom₁ : 4 * ptrPerPage ≤ (1 + ptrPerPage) * pageSize := by decide
  have hroom₂ : pageSize + 4 * (ptrPerPage * ptrPerPage) ≤
      (1 + (ptrPerPage + ptrPerPage * ptrPerPage)) * pageSize := by decide
  have hroom₃ : 4 * ptrPerPage ≤ pageSize := by decide
  -- the parts behind a level leave its pointers alone
  have hp₁' := hp₁.congr fun a _ ha => (hb₃ a (by omega)).trans (hb₂ a (by omega))
  have hp₂' := hp₂.congr fun a _ ha => hb₃ a (by omega)
  have hq₂' := hq₂.congr fun a _ ha => hb₃ a (by omega)
  refine ⟨_, hsz, fun b => ?_, ⟨mm, hmark, (hlen₃.trans (hlen₂.trans (hlen₁.trans hlaid.length))).symm,
    fun a ha => ?_⟩, hfits, rfl, rfl, by dsimp only; omega, by dsimp only; omega,
    fun hle => by omega⟩
  · rw [Recorded, hsz, onDirect_iff hdir (Nat.min_eq_right (by omega)) (by omega), hroot₁, hroot₂,
      hroot₃, onLevel_full_single (by omega) hp₁', onLevel_full_double (by omega) hp₂' hq₂', hfirst,
      onLevel_triple hlo hhi hp₃ hq₃ hr₃]
    omega
  · have hle : a < (g.currentBlock + directPtrs) * pageSize :=
      Nat.lt_of_lt_of_le ha (Nat.mul_le_mul_right _ (Nat.le_add_right ..))
    rw [hb₃ a (by omega), hb₂ a (by omega), hb₁ a hle]
    exact hlaid.below a ha

/-- A file with content gets an interval of blocks. -/
theorem allocateFileBlocks_filled (hsize : size ≠ 0) : ∃ total, Filled g size inode g' total := by
  by_cases h₀ : ceilDiv size pageSize ≤ directPtrs
  · exact ⟨_, filled_direct hbytes hbits h hsize h₀⟩
  by_cases h₁ : ceilDiv size pageSize ≤ directPtrs + ptrPerPage
  · exact ⟨_, filled_single hbytes hbits h (Nat.lt_of_not_le h₀) h₁⟩
  by_cases h₂ : ceilDiv size pageSize ≤ directPtrs + ptrPerPage + ptrPerPage * ptrPerPage
  · exact ⟨_, filled_double hbytes hbits h (Nat.lt_of_not_le h₁) h₂⟩
  exact filled_triple hbytes hbits h (Nat.lt_of_not_le h₂) (pages_le_of_ok h)

end Whole

end Mkfs
