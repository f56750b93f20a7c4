import Endros.Io.UserScan
import Endros.Space.Elf
import Endros.Space.Room

/-!
# How much `translate_2_pages` writes

The callers of `translate_2_pages` give it a buffer of two pages.  The loop does not know
how long the buffer is: it writes byte after byte up to the first unit of zeros.  `written`
counts the bytes, whether the loop comes to an end, comes to a page that is not mapped, or
goes on.

It writes no more than two pages exactly if it has to stop in time: one of the bytes is
not mapped, or the first two pages have a unit of zeros (`Ending`).
-/

namespace Io

open Lib Mem

/-- The bytes of the buffers, `2 * PAGESIZE`. -/
def bufBytes : Nat := 2 * pageSize

/-- The state behind a byte. -/
def Scan.next (unitSize : Nat) (b : UInt8) (s : Scan) : Scan where
  buf := Function.update s.buf s.count b
  count := s.count + 1
  consecutiveZeros :=
    if b = 0 ∧ (s.count % unitSize = 0 ∨ s.consecutiveZeros ≠ 0) then s.consecutiveZeros + 1 else 0

/-- One byte.  The error is the `break`, with the state that is left. -/
def Scan.advance (unitSize : Nat) (b : UInt8) (s : Scan) : Except Scan Scan :=
  if (s.next unitSize b).consecutiveZeros = unitSize then .error (s.next unitSize b)
  else .ok (s.next unitSize b)

/-- The loop over the bytes of a page from `off` on. -/
def Scan.advancePage (unitSize : Nat) (p : Nat → UInt8) (off : Nat) (s : Scan) : Except Scan Scan :=
  loop (fun i => Scan.advance unitSize (p (off + i))) (pageSize - off) s

namespace UserMemory

variable (m : UserMemory)

/-- The number of bytes that the loop has written after `fuel` more pages. -/
def writtenLoop (unitSize : Nat) : Nat → Nat → Nat → Scan → Nat
  | 0, _, _, s => s.count
  | fuel + 1, userVpn, off, s =>
      match m.pages (m.walkupt userVpn) with
      | none => s.count
      | some p =>
          match s.advancePage unitSize p off with
          | .error s => s.count
          | .ok s => writtenLoop unitSize fuel (u64 (userVpn + 1)) 0 s

/-- The number of bytes that `translate_2_pages` has written after `fuel` pages. -/
def written (fuel : Nat) (kernelBuf : Nat → UInt8) (userBuf : UInt64) (unitSize : Nat) : Nat :=
  m.writtenLoop unitSize fuel (addr2Page userBuf.toNat) (offset userBuf.toNat) ⟨kernelBuf, 0, 0⟩

end UserMemory

/-! ## The loop of `translate_2_pages` -/

section Advance

variable {unitSize i n : Nat} {kernelBuf data : Nat → UInt8} {s s' : Scan} {b : UInt8}

theorem Scan.step_eq (unitSize : Nat) (b : UInt8) (s : Scan) :
    s.step unitSize b =
      if (s.next unitSize b).consecutiveZeros = unitSize then .error (s.next unitSize b).buf
      else .ok (s.next unitSize b) := rfl

theorem Scan.advance_of_ok (h : s.step unitSize b = .ok s') : s.advance unitSize b = .ok s' := by
  rw [Scan.step_eq] at h
  by_cases hz : (s.next unitSize b).consecutiveZeros = unitSize
  · rw [if_pos hz] at h
    cases h
  · rw [if_neg hz] at h
    cases h
    exact if_neg hz

theorem Scan.advance_of_error {buf : Nat → UInt8} (h : s.step unitSize b = .error buf) :
    s.advance unitSize b = .error (s.next unitSize b) ∧ (s.next unitSize b).buf = buf := by
  rw [Scan.step_eq] at h
  by_cases hz : (s.next unitSize b).consecutiveZeros = unitSize
  · rw [if_pos hz] at h
    exact ⟨if_pos hz, Except.error.inj h⟩
  · rw [if_neg hz] at h
    cases h

/-- A unit of zeros ends in front of `j`. -/
def UnitEnds (unitSize : Nat) (data : Nat → UInt8) (j : Nat) : Prop :=
  ∃ q, j = unitSize * q + unitSize ∧ ∀ x, x < unitSize → data (unitSize * q + x) = 0

theorem ScannedTo.count_eq (h : ScannedTo unitSize kernelBuf data i s) : s.count = i := by
  obtain ⟨q, r, -, rfl, hs⟩ := h
  exact hs.count

/-- The loop goes on unless a unit of zeros ends here. -/
theorem ScannedTo.advance (h : ScannedTo unitSize kernelBuf data i s) :
    (UnitEnds unitSize data (i + 1) ∧ ∃ s', s.advance unitSize (data i) = .error s' ∧ s'.count = i + 1) ∨
    (¬ UnitEnds unitSize data (i + 1) ∧ ∃ s', s.advance unitSize (data i) = .ok s' ∧
      ScannedTo unitSize kernelBuf data (i + 1) s') := by
  obtain ⟨q, r, hr, rfl, hs⟩ := h
  rcases Nat.lt_or_eq_of_le hr with hlt | heq
  · -- inside of a unit
    obtain ⟨s', hstep, hs'⟩ := hs.inside hlt
    refine .inr ⟨?_, s', Scan.advance_of_ok hstep, q, r + 1, hlt, rfl, hs'⟩
    rintro ⟨c, hc, -⟩
    have hmod : (unitSize * q + (r + 1)) % unitSize = r + 1 := by
      rw [Nat.mul_add_mod, Nat.mod_eq_of_lt hlt]
    rw [← Nat.add_assoc, hc, Nat.add_mod_right, Nat.mul_mod_right] at hmod
    omega
  · have hend : unitSize * q + r + 1 = unitSize * q + unitSize := by omega
    by_cases hall : ∀ x, x < unitSize → data (unitSize * q + x) = 0
    · obtain ⟨hs', -⟩ := Scan.advance_of_error (hs.stop heq hall)
      exact .inl ⟨⟨q, hend, hall⟩, _, hs', congrArg (· + 1) hs.count⟩
    · obtain ⟨s', hstep, hs'⟩ := hs.last heq (by
        by_contra hno
        exact hall fun x hx => by_contra fun hne => hno ⟨x, hx, hne⟩)
      refine .inr ⟨?_, s', Scan.advance_of_ok hstep, q + 1, 0, by omega, by rw [Nat.mul_succ]; omega, hs'⟩
      rintro ⟨c, hc, hzero⟩
      have hq : q = c := Nat.eq_of_mul_eq_mul_left (show 0 < unitSize by omega) (by omega)
      exact hall (hq ▸ hzero)

/-- The state of the loop over a page, from the byte `i` on. -/
inductive PageCase (unitSize : Nat) (kernelBuf data : Nat → UInt8) (i n : Nat) : Except Scan Scan → Prop where
  | ok {s : Scan} : ScannedTo unitSize kernelBuf data (i + n) s →
      (∀ j, i < j → j ≤ i + n → ¬ UnitEnds unitSize data j) → PageCase unitSize kernelBuf data i n (.ok s)
  | error {s : Scan} {j : Nat} : i < j → j ≤ i + n → s.count = j → UnitEnds unitSize data j →
      (∀ j', i < j' → j' < j → ¬ UnitEnds unitSize data j') → PageCase unitSize kernelBuf data i n (.error s)

theorem ScannedTo.advancePage {p : Nat → UInt8} {off : Nat} (h : ScannedTo unitSize kernelBuf data i s)
    (hp : ∀ x, x < n → p (off + x) = data (i + x)) :
    PageCase unitSize kernelBuf data i n (loop (fun x => Scan.advance unitSize (p (off + x))) n s) := by
  induction n with
  | zero => exact .ok h fun j hlt hle => by omega
  | succ n ih =>
      have hcase := ih fun x hx => hp x (Nat.lt_succ_of_lt hx)
      rw [loop]
      cases hl : loop (fun x => Scan.advance unitSize (p (off + x))) n s with
      | error s₁ =>
          rw [hl] at hcase
          cases hcase with
          | error hlt hle hcount hend hno => exact .error hlt (by omega) hcount hend hno
      | ok s₁ =>
          rw [hl] at hcase
          cases hcase with
          | ok hs₁ hno =>
              dsimp only
              rw [hp n (Nat.lt_succ_self n)]
              rcases hs₁.advance with ⟨hend, s', hs', hcount⟩ | ⟨hend, s', hs', hscan⟩
              · rw [hs']
                exact .error (by omega) (Nat.le_refl _) hcount hend fun j' h₁ h₂ => hno j' h₁ (by omega)
              · rw [hs']
                refine .ok hscan fun j h₁ h₂ => ?_
                rcases Nat.lt_or_eq_of_le h₂ with h₂ | rfl
                · exact hno j h₁ (by omega)
                · exact hend

end Advance

namespace UserMemory

variable {m : UserMemory} {unitSize i vpn off fuel : Nat} {kernelBuf : Nat → UInt8} {userBuf : UInt64}
  {s : Scan}

/-- The bytes at an address, and zeros where it is not mapped. -/
def bytesAt (m : UserMemory) (a : Nat) (x : Nat) : UInt8 := (m.byte (a + x)).getD 0

/-- A page and its bytes. -/
theorem byte_of_page {p : Nat → UInt8} (hp : m.pages (m.walkupt vpn) = some p)
    (haddr : vpn * pageSize + off = userBuf.toNat + i) {x : Nat} (hx : off + x < pageSize) :
    m.byte (userBuf.toNat + (i + x)) = some (p (off + x)) := by
  obtain ⟨hpage, hoff⟩ := addr_split vpn hx
  rw [← Nat.add_assoc, ← haddr, Nat.add_assoc, byte, hpage, hoff, hp, Option.map_some]

theorem byte_of_no_page (hp : m.pages (m.walkupt vpn) = none)
    (haddr : vpn * pageSize + off = userBuf.toNat + i) (hoff : off < pageSize) :
    m.byte (userBuf.toNat + i) = none := by
  obtain ⟨hpage, -⟩ := addr_split vpn hoff
  rw [← haddr, byte, hpage, hp, Option.map_none]

theorem bytes_of_page {p : Nat → UInt8} (hp : m.pages (m.walkupt vpn) = some p)
    (haddr : vpn * pageSize + off = userBuf.toNat + i) (x : Nat) (hx : x < pageSize - off) :
    p (off + x) = m.bytesAt userBuf.toNat (i + x) := by
  rw [bytesAt, byte_of_page hp haddr (by omega), Option.getD_some]

theorem next_page (haddr : vpn * pageSize + off = userBuf.toNat + i) (hoff : off < pageSize)
    (hi : i ≤ bufBytes) :
    u64 (vpn + 1) * pageSize + 0 = userBuf.toNat + (i + (pageSize - off)) := by
  have hlt := userBuf.toNat_lt
  have hvpn : vpn + 1 < 2 ^ 64 := by
    simp only [pageSize, bufBytes] at *
    omega
  rw [u64_of_lt hvpn, Nat.add_mul]
  omega

/-- What has been written when there is more than two pages of it. -/
theorem writtenLoop_gt (hs : ScannedTo unitSize kernelBuf (m.bytesAt userBuf.toNat) i s)
    (haddr : vpn * pageSize + off = userBuf.toNat + i) (hoff : off < pageSize) (hi : i ≤ bufBytes)
    (hgt : bufBytes < m.writtenLoop unitSize fuel vpn off s) (j : Nat) (hij : i ≤ j) (hj : j ≤ bufBytes) :
    m.byte (userBuf.toNat + j) ≠ none ∧ (i < j → ¬ UnitEnds unitSize (m.bytesAt userBuf.toNat) j) := by
  induction fuel generalizing i vpn off s with
  | zero =>
      rw [writtenLoop, hs.count_eq] at hgt
      omega
  | succ fuel ih =>
      rw [writtenLoop] at hgt
      cases hp : m.pages (m.walkupt vpn) with
      | none =>
          rw [hp] at hgt
          dsimp only at hgt
          rw [hs.count_eq] at hgt
          omega
      | some p =>
          rw [hp] at hgt
          dsimp only at hgt
          have hmapped : j < i + (pageSize - off) → m.byte (userBuf.toNat + j) ≠ none := by
            intro hlt
            obtain ⟨x, rfl⟩ := Nat.exists_eq_add_of_le hij
            rw [byte_of_page hp haddr (by omega)]
            exact Option.some_ne_none _
          have hcase := hs.advancePage (bytes_of_page hp haddr)
          rw [Scan.advancePage] at hgt
          cases hl : loop (fun x => Scan.advance unitSize (p (off + x))) (pageSize - off) s with
          | error s₁ =>
              rw [hl] at hcase hgt
              cases hcase with
              | error hlt hle hc hend hno =>
                  dsimp only at hgt
                  exact ⟨hmapped (by omega), fun h => hno j h (by omega)⟩
          | ok s₁ =>
              rw [hl] at hcase hgt
              cases hcase with
              | ok hs₁ hno =>
                  dsimp only at hgt
                  by_cases hlt : j < i + (pageSize - off)
                  · exact ⟨hmapped hlt, fun h => hno j h (Nat.le_of_lt hlt)⟩
                  · obtain ⟨h₁, h₂⟩ := ih hs₁ (next_page haddr hoff hi) (by decide) (by omega) hgt
                      (by omega)
                    refine ⟨h₁, fun _ => ?_⟩
                    rcases Nat.lt_or_eq_of_le (Nat.le_of_not_lt hlt) with hlt' | heq
                    · exact h₂ hlt'
                    · exact hno j (by omega) (Nat.le_of_eq heq.symm)

/-- With nothing to stop at, more than two pages are written. -/
theorem writtenLoop_gt_of {n : Nat} (hs : ScannedTo unitSize kernelBuf (m.bytesAt userBuf.toNat) i s)
    (haddr : vpn * pageSize + off = userBuf.toNat + i) (hoff : off < pageSize) (hi : i ≤ bufBytes)
    (hn : off + (bufBytes - i) < n * pageSize)
    (hmapped : ∀ j, j ≤ bufBytes → m.byte (userBuf.toNat + j) ≠ none)
    (hno : ∀ j, j ≤ bufBytes → ¬ UnitEnds unitSize (m.bytesAt userBuf.toNat) j) :
    ∃ fuel, bufBytes < m.writtenLoop unitSize fuel vpn off s := by
  induction n generalizing i vpn off s with
  | zero => omega
  | succ n ih =>
      cases hp : m.pages (m.walkupt vpn) with
      | none => exact absurd (byte_of_no_page hp haddr hoff) (hmapped i hi)
      | some p =>
          have hcase := hs.advancePage (bytes_of_page hp haddr)
          cases hl : loop (fun x => Scan.advance unitSize (p (off + x))) (pageSize - off) s with
          | error s₁ =>
              rw [hl] at hcase
              cases hcase with
              | @error _ j hlt hle hc hend _ =>
                  refine ⟨1, ?_⟩
                  rw [writtenLoop, hp]
                  dsimp only
                  rw [Scan.advancePage, hl]
                  dsimp only
                  rw [hc]
                  by_contra hle'
                  exact hno j (Nat.le_of_not_lt hle') hend
          | ok s₁ =>
              rw [hl] at hcase
              cases hcase with
              | ok hs₁ _ =>
                  have hsucc : ∀ fuel, m.writtenLoop unitSize (fuel + 1) vpn off s =
                      m.writtenLoop unitSize fuel (u64 (vpn + 1)) 0 s₁ := by
                    intro fuel
                    rw [writtenLoop, hp]
                    dsimp only
                    rw [Scan.advancePage, hl]
                  by_cases hlt : i + (pageSize - off) ≤ bufBytes
                  · have hn' : 0 + (bufBytes - (i + (pageSize - off))) < n * pageSize := by
                      rw [Nat.add_mul] at hn
                      omega
                    obtain ⟨fuel, hfuel⟩ := ih hs₁ (next_page haddr hoff hi) (by decide) hlt hn'
                    exact ⟨fuel + 1, by rw [hsucc]; exact hfuel⟩
                  · refine ⟨1, ?_⟩
                    rw [hsucc, writtenLoop, hs₁.count_eq]
                    exact Nat.lt_of_not_le hlt

/-- The copy has to stop in its buffer: there is a byte that is not mapped, or a unit of zeros. -/
def Ending (m : UserMemory) (userBuf : UInt64) (unitSize : Nat) : Prop :=
  (∃ x, x ≤ bufBytes ∧ m.byte (userBuf.toNat + x) = none) ∨
  ∃ k, k % unitSize = 0 ∧ k + unitSize ≤ bufBytes ∧
    ∀ x, x < unitSize → m.byte (userBuf.toNat + (k + x)) = some 0

/-- If all is mapped, the copy has to stop exactly if a unit of zeros ends in the buffer. -/
theorem ending_iff (hmapped : ∀ j, j ≤ bufBytes → m.byte (userBuf.toNat + j) ≠ none) :
    m.Ending userBuf unitSize ↔ ∃ j, j ≤ bufBytes ∧ UnitEnds unitSize (m.bytesAt userBuf.toNat) j := by
  constructor
  · rintro (⟨x, hx, hnone⟩ | ⟨k, hk, hle, hzero⟩)
    · exact absurd hnone (hmapped x hx)
    · obtain ⟨q, rfl⟩ := Nat.dvd_of_mod_eq_zero hk
      exact ⟨unitSize * q + unitSize, hle, q, rfl, fun x hx => by rw [bytesAt, hzero x hx, Option.getD_some]⟩
  · rintro ⟨j, hj, q, rfl, hzero⟩
    refine .inr ⟨unitSize * q, Nat.mul_mod_right .., hj, fun x hx => ?_⟩
    have h := hzero x hx
    rw [bytesAt] at h
    cases hb : m.byte (userBuf.toNat + (unitSize * q + x)) with
    | none => exact absurd hb (hmapped _ (by omega))
    | some b =>
        rw [hb, Option.getD_some] at h
        rw [h]

/-- With nothing to stop at, `translate_2_pages` writes more than two pages. -/
theorem written_gt (kernelBuf : Nat → UInt8) (hpos : 0 < unitSize)
    (hmapped : ∀ j, j ≤ bufBytes → m.byte (userBuf.toNat + j) ≠ none)
    (hno : ∀ j, j ≤ bufBytes → ¬ UnitEnds unitSize (m.bytesAt userBuf.toNat) j) :
    ∃ fuel, bufBytes < m.written fuel kernelBuf userBuf unitSize := by
  have hoff := offset_lt userBuf.toNat
  refine writtenLoop_gt_of (n := 3) ⟨0, 0, hpos, rfl, scanned_start unitSize kernelBuf _⟩
    (addr2Page_add_offset _) hoff (Nat.zero_le _) ?_ hmapped hno
  simp only [bufBytes, pageSize] at *
  omega

/-- `translate_2_pages` stays in a buffer of two pages exactly if it has to stop there. -/
theorem translate2Pages_in_buffer (m : UserMemory) (kernelBuf : Nat → UInt8) (userBuf : UInt64)
    (unitSize : Nat) (hunit : unitSize = 1 ∨ unitSize = 8) :
    (∀ fuel, m.written fuel kernelBuf userBuf unitSize ≤ bufBytes) ↔ m.Ending userBuf unitSize := by
  have hpos : 0 < unitSize := by omega
  constructor
  · intro hle
    by_contra hno
    have hmapped : ∀ j, j ≤ bufBytes → m.byte (userBuf.toNat + j) ≠ none :=
      fun j hj hnone => hno (.inl ⟨j, hj, hnone⟩)
    rw [ending_iff hmapped] at hno
    obtain ⟨fuel, hgt⟩ := written_gt kernelBuf hpos hmapped fun j hj hend => hno ⟨j, hj, hend⟩
    exact Nat.not_lt_of_le (hle fuel) hgt
  · intro hend fuel
    by_contra hgt
    have hall := writtenLoop_gt ⟨0, 0, hpos, rfl, scanned_start unitSize kernelBuf _⟩
      (addr2Page_add_offset _) (offset_lt _) (Nat.zero_le _) (Nat.lt_of_not_le hgt)
    have hmapped : ∀ j, j ≤ bufBytes → m.byte (userBuf.toNat + j) ≠ none :=
      fun j hj => (hall j (Nat.zero_le j) hj).1
    obtain ⟨j, hj, q, rfl, hzero⟩ := (ending_iff hmapped).mp hend
    exact (hall _ (Nat.zero_le _) hj).2 (by omega) ⟨q, rfl, hzero⟩

theorem translate2Pages_in_buffer_pointer :
    onePointer.written 3 (fun _ => 0) 0x1ffc 8 ≤ bufBytes :=
  (translate2Pages_in_buffer onePointer (fun _ => 0) 0x1ffc 8 (.inr rfl)).mpr
    (.inr ⟨8, by decide, by decide, by decide⟩) 3

/-! ## The bytes of the buffer -/

end UserMemory

/-- From one state of the loop to a later one, only the bytes between their positions are
written. -/
def Scan.Wrote (s s' : Scan) : Prop :=
  s.count ≤ s'.count ∧ ∀ k, k < s.count ∨ s'.count ≤ k → s'.buf k = s.buf k

theorem Scan.Wrote.refl (s : Scan) : s.Wrote s := ⟨Nat.le_refl _, fun _ _ => rfl⟩

theorem Scan.Wrote.trans {s₁ s₂ s₃ : Scan} (h : s₁.Wrote s₂) (h' : s₂.Wrote s₃) : s₁.Wrote s₃ := by
  refine ⟨Nat.le_trans h.1 h'.1, fun k hk => ?_⟩
  have hle := h.1
  have hle' := h'.1
  rw [h'.2 k (by omega), h.2 k (by omega)]

theorem Scan.wrote_next (unitSize : Nat) (b : UInt8) (s : Scan) : s.Wrote (s.next unitSize b) :=
  ⟨Nat.le_succ _, fun k hk => Function.update_of_ne (by simp only [Scan.next] at hk; omega) _ _⟩

/-- The loop over a page, and the states it ends with. -/
inductive SameEnd (s : Scan) : Except (Nat → UInt8) Scan → Except Scan Scan → Prop where
  | ok {s' : Scan} : s.Wrote s' → SameEnd s (.ok s') (.ok s')
  | error {s' : Scan} : s.Wrote s' → SameEnd s (.error s'.buf) (.error s')

theorem Scan.step_sameEnd (unitSize : Nat) (b : UInt8) (s : Scan) :
    SameEnd s (s.step unitSize b) (s.advance unitSize b) := by
  rw [Scan.step_eq, Scan.advance]
  split
  · exact .error (s.wrote_next unitSize b)
  · exact .ok (s.wrote_next unitSize b)

theorem Scan.loop_sameEnd (unitSize : Nat) (f : Nat → UInt8) (n : Nat) (s : Scan) :
    SameEnd s (loop (fun i => Scan.step unitSize (f i)) n s) (loop (fun i => Scan.advance unitSize (f i)) n s) := by
  induction n with
  | zero => exact .ok (.refl s)
  | succ n ih =>
      rw [loop, loop]
      generalize loop (fun i => Scan.step unitSize (f i)) n s = r at ih ⊢
      generalize loop (fun i => Scan.advance unitSize (f i)) n s = r' at ih ⊢
      cases ih with
      | error h => exact .error h
      | @ok s₁ h =>
          have hstep := s₁.step_sameEnd unitSize (f n)
          dsimp only
          generalize Scan.step unitSize (f n) s₁ = r at hstep ⊢
          generalize Scan.advance unitSize (f n) s₁ = r' at hstep ⊢
          cases hstep with
          | ok h' => exact .ok (h.trans h')
          | error h' => exact .error (h.trans h')

namespace UserMemory

theorem translate2PagesLoop_written {m : UserMemory} {unitSize fuel vpn off : Nat} {s : Scan}
    {buf : Nat → UInt8} (h : m.translate2PagesLoop unitSize fuel vpn off s = some buf) :
    ∃ s', s.Wrote s' ∧ s'.buf = buf ∧ s'.count = m.writtenLoop unitSize fuel vpn off s := by
  induction fuel generalizing vpn off s with
  | zero => cases h
  | succ fuel ih =>
      rw [translate2PagesLoop] at h
      rw [writtenLoop]
      cases hp : m.pages (m.walkupt vpn) with
      | none =>
          rw [hp] at h
          cases h
      | some p =>
          rw [hp] at h
          dsimp only at h ⊢
          have hend : SameEnd s (s.page unitSize p off) (s.advancePage unitSize p off) :=
            Scan.loop_sameEnd ..
          generalize s.page unitSize p off = r at h hend
          generalize s.advancePage unitSize p off = r' at hend ⊢
          cases hend with
          | @error s₁ hw => exact ⟨s₁, hw, Option.some.inj h, rfl⟩
          | ok hw =>
              obtain ⟨s', hw', hbuf, hcount⟩ := ih h
              exact ⟨s', hw.trans hw', hbuf, hcount⟩

/-- When `translate_2_pages` returns, the bytes that it has not counted are as before. -/
theorem translate2Pages_written {m : UserMemory} {fuel unitSize : Nat} {kernelBuf buf : Nat → UInt8}
    {userBuf : UInt64} (h : m.translate2Pages fuel kernelBuf userBuf unitSize = some buf) {k : Nat}
    (hk : m.written fuel kernelBuf userBuf unitSize ≤ k) : buf k = kernelBuf k := by
  obtain ⟨s', hw, rfl, hcount⟩ := translate2PagesLoop_written h
  exact hw.2 k (.inr (Nat.le_trans (Nat.le_of_eq hcount) hk))

end UserMemory

/-! ## A path without an end -/

open Space

/-- A program with three pages of the letter `A` at `0x10000`. -/
def endlessProgram : Program where
  size := 0x4000
  byte a :=
    if 4096 ≤ a then 0x41
    else match a with
      | 32 => 64
      | 56 => 1
      | 64 => 1
      | 68 => 6
      | 73 => 0x10
      | 82 => 1
      | 97 => 0x30
      | 105 => 0x30
      | _ => 0

theorem endlessProgram_wellFormed : endlessProgram.WellFormed :=
  .of_one (by decide) (by decide) (by decide) (by decide) (by decide) (by decide)

theorem endless_byte {s : Memory Alloc.Heap} {sp : AddressSpace} {T Q : Footprint}
    (h : Loaded (heapLawful 0x80206) board endlessProgram largeMemory .none sp s T Q) {k : Nat}
    (hk : k < 3 * 4096) : (view heapAllocator s sp.root).byte (0x10000 + k) = some 0x41 := by
  have hone : endlessProgram.ePhnum = 1 := by decide
  have hpage : addr2Page (0x10000 + k) = 16 ∨ addr2Page (0x10000 + k) = 17 ∨
      addr2Page (0x10000 + k) = 18 := by
    simp only [addr2Page, pageSize]
    omega
  have hlast : endlessProgram.Last 0 (addr2Page (0x10000 + k)) := by
    rcases hpage with hpage | hpage | hpage <;> rw [hpage] <;>
      exact ⟨by decide, ⟨by decide, by decide, by decide⟩, fun j hj hj' => by omega⟩
  have hstart : 4096 ≤ ((endlessProgram.header 0).pOffset +
      (UInt64.ofNat (addr2Page (0x10000 + k) * pageSize) - (endlessProgram.header 0).pVaddr)).toNat := by
    rcases hpage with hpage | hpage | hpage <;> rw [hpage] <;> decide
  rw [h.view_byte endlessProgram_wellFormed hlast, ProgramHeader.source]
  exact congrArg some (if_pos (by omega))

theorem endless_path : ∃ sp s T Q,
    Loaded (heapLawful 0x80206) board endlessProgram largeMemory .none sp s T Q ∧
      ∃ fuel, bufBytes < (view heapAllocator s sp.root).written fuel (fun _ => 0) 0x10000 1 := by
  obtain ⟨sp, s, hl, -⟩ := loadProcess_returns heapRoomy (s := largeMemory) (n := 0) board
    endlessProgram (show largeMemory.heap.pfnStart + 3 * (0 + endlessProgram.pages) ≤
      largeMemory.heap.maxPfn by decide)
  obtain ⟨T, Q, h⟩ := loadProcess_loaded largeMemory_own hl
  have hbyte : ∀ j, j ≤ bufBytes →
      (view heapAllocator s sp.root).byte ((0x10000 : UInt64).toNat + j) = some 0x41 := fun j hj => by
    refine endless_byte h ?_
    simp only [bufBytes, pageSize] at hj
    omega
  refine ⟨sp, s, T, Q, h, UserMemory.written_gt _ (by decide) (fun j hj => ?_) fun j hj => ?_⟩
  · rw [hbyte j hj]
    exact Option.some_ne_none _
  · rintro ⟨q, rfl, hzero⟩
    have h0 := hzero 0 (by decide)
    rw [UserMemory.bytesAt, hbyte _ (by omega)] at h0
    exact absurd h0 (by decide)

end Io
