import Endros.Io.UserCopy
import Endros.Lib.Loop
import Mathlib.Logic.Function.Basic

/-!
# Strings and arrays of a process

`translate_2_pages` copies a string or an array of pointers.  It goes from byte to byte
and stops behind the first unit of zeros, where units are counted from the start.  The
counter `consecutive_zeros` starts at the first byte of a unit.  It counts the zeros of
the unit as long as there was nothing else in it, and it is `0` for the rest of a unit
that has another byte (`Scanned`).

The outer loop takes page after page.  It is given the number of pages that it may
take, and when it returns, more of them make no difference.
-/

namespace Io

open Lib Mem

/-- The state of the loop.  The position in the kernel buffer is `count`. -/
structure Scan where
  buf : Nat → UInt8
  count : Nat
  consecutiveZeros : Nat

/-- One byte.  The error is the `break`, with the buffer that is left. -/
def Scan.step (unitSize : Nat) (b : UInt8) (s : Scan) : Except (Nat → UInt8) Scan :=
  let buf := Function.update s.buf s.count b
  let zeros :=
    if b = 0 ∧ (s.count % unitSize = 0 ∨ s.consecutiveZeros ≠ 0) then s.consecutiveZeros + 1 else 0
  if zeros = unitSize then .error buf else .ok ⟨buf, s.count + 1, zeros⟩

/-- The loop over the bytes of a page from `off` on. -/
def Scan.page (unitSize : Nat) (p : Nat → UInt8) (off : Nat) (s : Scan) :
    Except (Nat → UInt8) Scan :=
  loop (fun i => Scan.step unitSize (p (off + i))) (pageSize - off) s

namespace UserMemory

variable (m : UserMemory)

/-- The loop over the pages, `none` if there are more than `fuel` or one of them is not
mapped. -/
def translate2PagesLoop (unitSize : Nat) : Nat → Nat → Nat → Scan → Option (Nat → UInt8)
  | 0, _, _, _ => none
  | fuel + 1, userVpn, off, s =>
      match m.pages (m.walkupt userVpn) with
      | none => none
      | some p =>
          match s.page unitSize p off with
          | .error buf => some buf
          | .ok s => translate2PagesLoop unitSize fuel (u64 (userVpn + 1)) 0 s

def translate2Pages (fuel : Nat) (kernelBuf : Nat → UInt8) (userBuf : UInt64) (unitSize : Nat) :
    Option (Nat → UInt8) :=
  m.translate2PagesLoop unitSize fuel (addr2Page userBuf.toNat) (offset userBuf.toNat)
    ⟨kernelBuf, 0, 0⟩

end UserMemory

/-! ## The counter -/

/-- The first unit of zeros is at `k`. -/
structure FirstZero (unitSize : Nat) (data : Nat → UInt8) (k : Nat) : Prop where
  aligned : k % unitSize = 0
  zeros : ∀ x, x < unitSize → data (k + x) = 0
  first : ∀ k', k' < k → k' % unitSize = 0 → ∃ x, x < unitSize ∧ data (k' + x) ≠ 0

/-- The state in front of the byte `r` of the unit `q`. -/
structure Scanned (unitSize : Nat) (kernelBuf data : Nat → UInt8) (q r : Nat) (s : Scan) : Prop where
  buf : s.buf = patch kernelBuf 0 (unitSize * q + r) data
  count : s.count = unitSize * q + r
  zeros : (∀ x, x < r → data (unitSize * q + x) = 0) → s.consecutiveZeros = r
  others : (∃ x, x < r ∧ data (unitSize * q + x) ≠ 0) → s.consecutiveZeros = 0

section Scan

variable {unitSize q r i k : Nat} {kernelBuf data : Nat → UInt8} {s : Scan}

theorem scanned_start (unitSize : Nat) (kernelBuf data : Nat → UInt8) :
    Scanned unitSize kernelBuf data 0 0 ⟨kernelBuf, 0, 0⟩ :=
  ⟨patch_zero.symm, rfl, fun _ => rfl, fun _ => rfl⟩

theorem update_patch {f g : Nat → UInt8} {n : Nat} :
    Function.update (patch f 0 n g) n (g n) = patch f 0 (n + 1) g := by
  funext x
  rcases Nat.lt_trichotomy x n with hlt | rfl | hgt
  · rw [Function.update_of_ne (Nat.ne_of_lt hlt), patch_of_mem (Nat.zero_le x) (by omega),
      patch_of_mem (Nat.zero_le x) (by omega)]
  · rw [Function.update_self, patch_of_mem (Nat.zero_le x) (by omega), Nat.sub_zero]
  · rw [Function.update_of_ne (Nat.ne_of_gt hgt), patch_of_ge (by omega), patch_of_ge (by omega)]

/-- The zeros of a unit, and the byte behind them. -/
theorem zeros_succ : (∀ x, x < r + 1 → data (i + x) = 0) ↔
    (∀ x, x < r → data (i + x) = 0) ∧ data (i + r) = 0 := by
  constructor
  · exact fun h => ⟨fun x hx => h x (Nat.lt_succ_of_lt hx), h r (Nat.lt_succ_self r)⟩
  · rintro ⟨h, hr⟩ x hx
    rcases Nat.lt_succ_iff_lt_or_eq.mp hx with hlt | rfl
    · exact h x hlt
    · exact hr

/-- The counter is the number of zeros if the unit has nothing else up to here. -/
theorem Scanned.counter (h : Scanned unitSize kernelBuf data q r s) (hr : r < unitSize) :
    (if data (unitSize * q + r) = 0 ∧ (s.count % unitSize = 0 ∨ s.consecutiveZeros ≠ 0)
      then s.consecutiveZeros + 1 else 0) =
      if ∀ x, x < r + 1 → data (unitSize * q + x) = 0 then r + 1 else 0 := by
  have hmod : s.count % unitSize = r := by
    rw [h.count, Nat.mul_add_mod, Nat.mod_eq_of_lt hr]
  rw [hmod]
  by_cases hall : ∀ x, x < r → data (unitSize * q + x) = 0
  · rw [h.zeros hall]
    by_cases hb : data (unitSize * q + r) = 0
    · rw [if_pos ⟨hb, Nat.eq_zero_or_pos r |>.imp id Nat.ne_of_gt⟩, if_pos (zeros_succ.mpr ⟨hall, hb⟩)]
    · rw [if_neg fun hc => hb hc.1, if_neg fun hc => hb (zeros_succ.mp hc).2]
  · have hex : ∃ x, x < r ∧ data (unitSize * q + x) ≠ 0 := by
      by_contra hno
      exact hall fun x hx => by_contra fun hne => hno ⟨x, hx, hne⟩
    have hpos : r ≠ 0 := by
      obtain ⟨x, hx, -⟩ := hex
      omega
    rw [h.others hex, if_neg fun hc => hc.2.elim hpos fun hne => hne rfl,
      if_neg fun hc => hall (zeros_succ.mp hc).1]

theorem Scanned.step_eq (h : Scanned unitSize kernelBuf data q r s) (hr : r < unitSize) :
    s.step unitSize (data (unitSize * q + r)) =
      if (if ∀ x, x < r + 1 → data (unitSize * q + x) = 0 then r + 1 else 0) = unitSize then
        .error (patch kernelBuf 0 (unitSize * q + r + 1) data)
      else .ok ⟨patch kernelBuf 0 (unitSize * q + r + 1) data, unitSize * q + r + 1,
        if ∀ x, x < r + 1 → data (unitSize * q + x) = 0 then r + 1 else 0⟩ := by
  rw [Scan.step]
  simp only [h.counter hr]
  rw [h.buf, h.count, update_patch]

/-- A byte inside of a unit. -/
theorem Scanned.inside (h : Scanned unitSize kernelBuf data q r s) (hr : r + 1 < unitSize) :
    ∃ s', s.step unitSize (data (unitSize * q + r)) = .ok s' ∧
      Scanned unitSize kernelBuf data q (r + 1) s' := by
  have hne : (if ∀ x, x < r + 1 → data (unitSize * q + x) = 0 then r + 1 else 0) ≠ unitSize := by
    split <;> omega
  rw [h.step_eq (by omega), if_neg hne]
  refine ⟨_, rfl, rfl, rfl, fun hall => if_pos hall, ?_⟩
  rintro ⟨x, hx, hx'⟩
  exact if_neg fun hall => hx' (hall x hx)

/-- The last byte of a unit that has something else than zeros. -/
theorem Scanned.last (h : Scanned unitSize kernelBuf data q r s) (hr : r + 1 = unitSize)
    (hex : ∃ x, x < unitSize ∧ data (unitSize * q + x) ≠ 0) :
    ∃ s', s.step unitSize (data (unitSize * q + r)) = .ok s' ∧
      Scanned unitSize kernelBuf data (q + 1) 0 s' := by
  obtain ⟨x, hx, hx'⟩ := hex
  have hno : ¬ ∀ x, x < r + 1 → data (unitSize * q + x) = 0 := fun hall => hx' (hall x (hr ▸ hx))
  have hnext : unitSize * q + r + 1 = unitSize * (q + 1) + 0 := by
    rw [Nat.mul_succ]
    omega
  rw [h.step_eq (by omega), if_neg hno, if_neg (by omega), hnext]
  exact ⟨_, rfl, rfl, rfl, fun _ => rfl, fun _ => rfl⟩

/-- The last byte of a unit of zeros. -/
theorem Scanned.stop (h : Scanned unitSize kernelBuf data q r s) (hr : r + 1 = unitSize)
    (hall : ∀ x, x < unitSize → data (unitSize * q + x) = 0) :
    s.step unitSize (data (unitSize * q + r)) =
      .error (patch kernelBuf 0 (unitSize * q + unitSize) data) := by
  have hall' : ∀ x, x < r + 1 → data (unitSize * q + x) = 0 := fun x hx => hall x (by omega)
  rw [h.step_eq (by omega), if_pos hall', if_pos hr, Nat.add_assoc, hr]

/-! ## Up to the first unit of zeros -/

/-- The state in front of the byte `i`. -/
def ScannedTo (unitSize : Nat) (kernelBuf data : Nat → UInt8) (i : Nat) (s : Scan) : Prop :=
  ∃ q r, r < unitSize ∧ i = unitSize * q + r ∧ Scanned unitSize kernelBuf data q r s

/-- A byte before the end of the first unit of zeros. -/
theorem ScannedTo.step (h : ScannedTo unitSize kernelBuf data i s) (hf : FirstZero unitSize data k)
    (hi : i + 1 < k + unitSize) :
    ∃ s', s.step unitSize (data i) = .ok s' ∧ ScannedTo unitSize kernelBuf data (i + 1) s' := by
  obtain ⟨q, r, hr, rfl, hs⟩ := h
  rcases Nat.lt_or_eq_of_le hr with hlt | heq
  · obtain ⟨s', hstep, hs'⟩ := hs.inside hlt
    exact ⟨s', hstep, q, r + 1, hlt, rfl, hs'⟩
  · have hq : unitSize * q < k := by omega
    obtain ⟨s', hstep, hs'⟩ := hs.last heq (hf.first _ hq (Nat.mul_mod_right ..))
    refine ⟨s', hstep, q + 1, 0, by omega, ?_, hs'⟩
    rw [Nat.mul_succ]
    omega

/-- The last byte of the first unit of zeros. -/
theorem ScannedTo.stop (h : ScannedTo unitSize kernelBuf data i s) (hf : FirstZero unitSize data k)
    (hi : i + 1 = k + unitSize) :
    s.step unitSize (data i) = .error (patch kernelBuf 0 (k + unitSize) data) := by
  obtain ⟨q, r, hr, rfl, hs⟩ := h
  obtain ⟨c, hc⟩ : unitSize ∣ k := Nat.dvd_of_mod_eq_zero hf.aligned
  -- both are multiples of the size, and they are less than a unit apart
  have hle : unitSize * q < unitSize * (c + 1) := by
    rw [Nat.mul_succ]
    omega
  have hge : unitSize * c < unitSize * (q + 1) := by
    rw [Nat.mul_succ]
    omega
  have hqc : q = c := by
    have := Nat.lt_of_mul_lt_mul_left hle
    have := Nat.lt_of_mul_lt_mul_left hge
    omega
  have hrlast : r + 1 = unitSize := by
    rw [hc, hqc] at hi
    omega
  rw [hs.stop hrlast (by rw [hqc, ← hc]; exact hf.zeros), hqc, ← hc]

/-- The bytes of a page that is all before the end of the first unit of zeros. -/
theorem ScannedTo.page {p : Nat → UInt8} {off : Nat} (h : ScannedTo unitSize kernelBuf data i s)
    (hf : FirstZero unitSize data k) (hi : i + (pageSize - off) < k + unitSize)
    (hp : ∀ x, x < pageSize - off → p (off + x) = data (i + x)) :
    ∃ s', s.page unitSize p off = .ok s' ∧
      ScannedTo unitSize kernelBuf data (i + (pageSize - off)) s' := by
  refine loop_total (P := fun x s => ScannedTo unitSize kernelBuf data (i + x) s) h
    fun x s hx hs => ?_
  rw [hp x hx]
  exact hs.step hf (by omega)

/-- The page with the end of the first unit of zeros. -/
theorem ScannedTo.page_stop {p : Nat → UInt8} {off : Nat}
    (h : ScannedTo unitSize kernelBuf data i s) (hf : FirstZero unitSize data k)
    (hi : i < k + unitSize) (hi' : k + unitSize ≤ i + (pageSize - off))
    (hp : ∀ x, i + x < k + unitSize → p (off + x) = data (i + x)) :
    s.page unitSize p off = .error (patch kernelBuf 0 (k + unitSize) data) := by
  obtain ⟨n, hn⟩ : ∃ n, i + n + 1 = k + unitSize := ⟨k + unitSize - i - 1, by omega⟩
  obtain ⟨s', hruns, hs'⟩ : ∃ s', Runs (fun x => Scan.step unitSize (p (off + x))) 0 s n s' ∧
      ScannedTo unitSize kernelBuf data (i + n) s' := by
    refine runs_total (P := fun x s => ScannedTo unitSize kernelBuf data (i + x) s) h
      fun x s hx hs => ?_
    rw [hp x (by omega)]
    exact hs.step hf (by omega)
  refine hruns.loop_error ?_ (by omega)
  rw [hp n (by omega)]
  exact hs'.stop hf hn

end Scan

namespace UserMemory

variable {m : UserMemory} {unitSize k : Nat} {kernelBuf data : Nat → UInt8}

/-- The pages up to the end of the first unit of zeros. -/
theorem translate2PagesLoop_eq {fuel vpn off i : Nat} {s : Scan} {userBuf : UInt64}
    (hs : ScannedTo unitSize kernelBuf data i s) (hf : FirstZero unitSize data k)
    (hi : i < k + unitSize) (haddr : vpn * pageSize + off = userBuf.toNat + i) (hoff : off < pageSize)
    (hk : k + unitSize ≤ 2 * pageSize) (hfuel : off + (k + unitSize - i) ≤ fuel * pageSize)
    (hdata : ∀ x, x < k + unitSize → m.byte (userBuf.toNat + x) = some (data x)) :
    m.translate2PagesLoop unitSize fuel vpn off s =
      some (patch kernelBuf 0 (k + unitSize) data) := by
  induction fuel generalizing vpn off i s with
  | zero => omega
  | succ fuel ih =>
      -- the bytes of this page
      have hbyte : ∀ x, x < pageSize - off → i + x < k + unitSize →
          (m.pages (m.walkupt vpn)).map (fun p => p (off + x)) = some (data (i + x)) := by
        intro x hx hlt
        have h := hdata (i + x) hlt
        obtain ⟨hpage, hoff'⟩ := addr_split vpn (show off + x < pageSize by omega)
        rw [← Nat.add_assoc, ← haddr, Nat.add_assoc, byte, hpage, hoff'] at h
        exact h
      obtain ⟨p, hp, -⟩ := Option.map_eq_some_iff.mp (hbyte 0 (by omega) hi)
      have hdata' : ∀ x, x < pageSize - off → i + x < k + unitSize → p (off + x) = data (i + x) := by
        intro x hx hlt
        have h := hbyte x hx hlt
        rw [hp] at h
        exact Option.some.inj h
      rw [translate2PagesLoop, hp]
      dsimp only
      by_cases hmore : i + (pageSize - off) < k + unitSize
      · obtain ⟨s', hs', hscan⟩ := hs.page hf hmore fun x hx => hdata' x hx (by omega)
        have hlt := userBuf.toNat_lt
        rw [hs', u64_of_lt (by simp only [pageSize] at *; omega)]
        refine ih hscan hmore ?_ (by decide) ?_
        · rw [Nat.add_mul]
          omega
        · rw [Nat.add_mul] at hfuel
          omega
      · rw [hs.page_stop hf hi (by omega) fun x hx => hdata' x (by omega) hx]

/-- The copy depends only on the pages of the process. -/
theorem translate2Pages_congr {m' : UserMemory}
    (h : ∀ v, m'.pages (m'.walkupt v) = m.pages (m.walkupt v)) (fuel : Nat) (kernelBuf : Nat → UInt8)
    (userBuf : UInt64) (unitSize : Nat) :
    m'.translate2Pages fuel kernelBuf userBuf unitSize = m.translate2Pages fuel kernelBuf userBuf unitSize := by
  have hloop : ∀ fuel vpn off s, m'.translate2PagesLoop unitSize fuel vpn off s =
      m.translate2PagesLoop unitSize fuel vpn off s := by
    intro fuel
    induction fuel with
    | zero => exact fun _ _ _ => rfl
    | succ fuel ih =>
        intro vpn off s
        rw [translate2PagesLoop, translate2PagesLoop, h]
        simp only [ih]
  exact hloop ..

/-- The copy is the data up to the end of the first unit of zeros. -/
theorem translate2Pages_eq {userBuf : UInt64} {fuel : Nat} (hpos : 0 < unitSize)
    (hf : FirstZero unitSize data k) (hk : k + unitSize ≤ 8192)
    (hdata : ∀ x, x < k + unitSize → m.byte (userBuf.toNat + x) = some (data x)) (hfuel : 3 ≤ fuel) :
    m.translate2Pages fuel kernelBuf userBuf unitSize =
      some (patch kernelBuf 0 (k + unitSize) data) := by
  have hoff := offset_lt userBuf.toNat
  have hpages : 3 * pageSize ≤ fuel * pageSize := Nat.mul_le_mul_right _ hfuel
  refine translate2PagesLoop_eq ⟨0, 0, hpos, rfl, scanned_start ..⟩ hf (by omega)
    (addr2Page_add_offset _) hoff hk ?_ hdata
  simp only [pageSize] at *
  omega

/-- `translate_2_pages` returns with a copy that ends behind the first unit of zeros. -/
theorem translate2Pages_copies (m : UserMemory) (unitSize : Nat) (hunit : unitSize = 1 ∨ unitSize = 8)
    (userBuf : UInt64) (kernelBuf data : Nat → UInt8) (k : Nat) (hf : FirstZero unitSize data k)
    (hk : k + unitSize ≤ 8192)
    (hdata : ∀ x, x < k + unitSize → m.byte (userBuf.toNat + x) = some (data x)) (fuel : Nat)
    (hfuel : 3 ≤ fuel) :
    m.translate2Pages fuel kernelBuf userBuf unitSize =
      some (patch kernelBuf 0 (k + unitSize) data) :=
  translate2Pages_eq (by omega) hf hk hdata hfuel

/-- An array of one pointer that has zeros in it, over the end of a page. -/
def onePointer : UserMemory where
  walkupt v := if v = 1 then 8 else if v = 2 then 5 else 0
  pages k :=
    if k = 8 then some fun o => if o = 0xffe then 1 else 0
    else if k = 5 then some fun _ => 0
    else none

theorem translate2Pages_copies_pointer :
    onePointer.translate2Pages 3 (fun _ => 9) 0x1ff9 8 =
      some (patch (fun _ => 9) 0 16 fun x => if x = 5 then 1 else 0) :=
  translate2Pages_copies onePointer 8 (.inr rfl) 0x1ff9 (fun _ => 9)
    (fun x => if x = 5 then 1 else 0) 8 ⟨rfl, by decide, by decide⟩ (by decide) (by decide) 3
    (Nat.le_refl 3)

end UserMemory

end Io
