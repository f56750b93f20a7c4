import Mathlib.Algebra.Group.Int.Defs
import Mathlib.Algebra.GroupWithZero.Nat
import Mathlib.Data.List.Basic
import Mathlib.Tactic.Common

/-!
# `itoa`

`itoa` looks for the first power of the base that is greater than the number, and then
prints one digit for each smaller power.  The powers are 64-bit signed numbers.  If the
number is at least as great as the greatest of them, `maxPower`, the next product wraps.
Then the loop never ends, or it ends with a number that is no power and has too few
digits.

So the text is right exactly for the numbers below `maxPower` (`itoa_prints`).
-/

namespace Utils

/-! ## The function -/

/-- `DIGIT_TO_CHAR`. -/
def digitToChar (k : Int32) : UInt8 := (if 10 ≤ k then 97 + (k - 10) else 48 + k).toInt8.toUInt8

/-- The loop that looks for the power. -/
def powerLoop (countingSystem num : Int64) : Nat → Int64 → Option Int64
  | 0, _ => none
  | fuel + 1, p => if p ≤ num then powerLoop countingSystem num fuel (p * countingSystem) else some p

/-- The loop that prints the digits. -/
def digitLoop (countingSystem : Int64) : Nat → Int64 → Int64 → Option (List UInt8)
  | 0, _, _ => none
  | fuel + 1, num, p =>
      if p ≠ 0 then
        (digitLoop countingSystem fuel (num % p) (p / countingSystem)).map
          (digitToChar (num / p).toInt32 :: ·)
      else some []

/-- The number without its sign. -/
def magnitude (num : Int64) : Int64 := if num < 0 then -num else num

def minus (num : Int64) : List UInt8 := if num < 0 then [45] else []

/-- The mark of the base: `0x`, `0o` or `0b`. -/
def mark (countingSystem : Int32) : List UInt8 :=
  if countingSystem = 16 then [48, 120]
  else if countingSystem = 8 then [48, 111]
  else if countingSystem = 2 then [48, 98]
  else []

/-- The bytes that `itoa` writes to its buffer, `none` if one of the loops takes more than `fuel`
steps. -/
def itoa (fuel : Nat) (num : Int64) (countingSystem : Int32) : Option (List UInt8) := do
  let p ← powerLoop countingSystem.toInt64 (magnitude num) fuel 1
  let digits ← digitLoop countingSystem.toInt64 fuel (magnitude num) (p / countingSystem.toInt64)
  some (minus num ++ mark countingSystem ++ (if magnitude num = 0 then [48] else []) ++ digits ++ [0])

/-! ## The text -/

def digitByte (k : Nat) : UInt8 := UInt8.ofNat (Nat.digitChar k).toNat

/-- The digits of a number, without leading zeros. -/
def digits (base n : Nat) : List UInt8 := (Nat.toDigits base n).map fun c => UInt8.ofNat c.toNat

/-- What should be printed. -/
def numeral (base : Nat) (num : Int64) : List UInt8 :=
  minus num ++ mark (Int32.ofNat base) ++ digits base num.toInt.natAbs

def digitValue (c : UInt8) : Nat := if 97 ≤ c then c.toNat - 87 else c.toNat - 48

def ofDigits (base : Nat) (l : List UInt8) : Nat := l.foldl (fun n c => base * n + digitValue c) 0

/-- The number of a text. -/
def decode (base : Nat) : List UInt8 → Int
  | [] => 0
  | c :: l =>
      if c = 45 then -(ofDigits base (l.drop (mark (Int32.ofNat base)).length) : Int)
      else ofDigits base ((c :: l).drop (mark (Int32.ofNat base)).length)

/-- The bases that have a mark, and ten. -/
def bases : List Nat := [2, 8, 10, 16]

/-- The number of digits that fit. -/
def places : Nat → Nat
  | 2 => 62
  | 8 => 20
  | 10 => 18
  | _ => 15

/-- The greatest power of the base below `2 ^ 63`. -/
def maxPower (base : Nat) : Nat := base ^ places base

theorem bases_le {base : Nat} (h : base ∈ bases) : 1 < base ∧ base ≤ 16 :=
  (by decide : ∀ base ∈ bases, 1 < base ∧ base ≤ 16) base h

theorem maxPower_lt {base : Nat} (h : base ∈ bases) : maxPower base < 2 ^ 63 ∧ 2 ^ 63 ≤ maxPower base * base :=
  (by decide : ∀ base ∈ bases, maxPower base < 2 ^ 63 ∧ 2 ^ 63 ≤ maxPower base * base) base h

/-! ## Digits -/

section Digits

variable {base n : Nat}

theorem digits_of_lt (h : n < base) : digits base n = [digitByte n] := by
  rw [digits, Nat.toDigits_of_lt_base h, List.map_singleton, digitByte]

theorem digits_of_le (hb : 1 < base) (h : base ≤ n) :
    digits base n = digits base (n / base) ++ [digitByte (n % base)] := by
  rw [digits, Nat.toDigits_of_base_le hb h, List.map_append, List.map_singleton, digits, digitByte]

theorem digits_ne_nil : digits base n ≠ [] := fun h => Nat.toDigits_ne_nil (List.map_eq_nil_iff.mp h)

/-- The digits of a number with leading zeros, as the loop prints them. -/
def fixedDigits (base : Nat) : Nat → Nat → List UInt8
  | 0, _ => []
  | w + 1, n => digitByte (n / base ^ w) :: fixedDigits base w (n % base ^ w)

/-- The last digit. -/
theorem fixedDigits_concat {w : Nat} (h : n < base ^ (w + 1)) :
    fixedDigits base (w + 1) n = fixedDigits base w (n / base) ++ [digitByte (n % base)] := by
  induction w generalizing n with
  | zero =>
      rw [Nat.zero_add, Nat.pow_one] at h
      rw [fixedDigits, fixedDigits, Nat.pow_zero, Nat.div_one, Nat.mod_eq_of_lt h, fixedDigits, List.nil_append]
  | succ w ih =>
      have hpos : 0 < base ^ (w + 1) := Nat.pos_of_ne_zero fun hz => by
        rw [Nat.pow_succ, hz, Nat.zero_mul] at h
        exact Nat.not_lt_zero n h
      rw [fixedDigits, ih (Nat.mod_lt n hpos), fixedDigits, List.cons_append, Nat.pow_succ',
        Nat.div_div_eq_div_mul, Nat.mod_mul_right_div_self, Nat.mod_mul_right_mod]

/-- The digits with no leading zero. -/
theorem fixedDigits_eq {w : Nat} (hb : 1 < base) (hle : base ^ w ≤ n) (hlt : n < base ^ (w + 1)) :
    fixedDigits base (w + 1) n = digits base n := by
  induction w generalizing n with
  | zero =>
      rw [Nat.zero_add, Nat.pow_one] at hlt
      rw [digits_of_lt hlt, fixedDigits, fixedDigits, Nat.pow_zero, Nat.div_one]
  | succ w ih =>
      have hbase : base ≤ n := by
        refine Nat.le_trans ?_ hle
        rw [Nat.pow_succ]
        exact Nat.le_mul_of_pos_left base (Nat.pow_pos (by omega))
      rw [fixedDigits_concat hlt, digits_of_le hb hbase, ih]
      · rwa [Nat.le_div_iff_mul_le (by omega), ← Nat.pow_succ]
      · rwa [Nat.div_lt_iff_lt_mul (by omega), ← Nat.pow_succ]

theorem digitValue_digitByte {k : Nat} (h : k < 16) : digitValue (digitByte k) = k :=
  (by decide : ∀ k, k < 16 → digitValue (digitByte k) = k) k h

theorem ofDigits_concat (l : List UInt8) (c : UInt8) :
    ofDigits base (l ++ [c]) = base * ofDigits base l + digitValue c := by
  rw [ofDigits, List.foldl_append, List.foldl_cons, List.foldl_nil, ofDigits]

theorem ofDigits_digits (hb : 1 < base) (hb' : base ≤ 16) (n : Nat) : ofDigits base (digits base n) = n := by
  induction n using Nat.strongRecOn with
  | ind n ih =>
      by_cases hlt : n < base
      · rw [digits_of_lt hlt, ← List.nil_append [digitByte n], ofDigits_concat, digitValue_digitByte (by omega)]
        exact (congrArg (· + n) (Nat.mul_zero base)).trans (Nat.zero_add n)
      · have hmod := Nat.mod_lt n (show 0 < base by omega)
        rw [digits_of_le hb (by omega), ofDigits_concat, ih (n / base) (Nat.div_lt_self (by omega) hb),
          digitValue_digitByte (by omega), Nat.div_add_mod]

theorem digits_ne_minus (hb : 1 < base) (hb' : base ≤ 16) (n : Nat) : 45 ∉ digits base n := by
  induction n using Nat.strongRecOn with
  | ind n ih =>
      have hdigit : ∀ k, k < 16 → 45 ∉ [digitByte k] := by decide
      by_cases hlt : n < base
      · rw [digits_of_lt hlt]
        exact hdigit n (by omega)
      · have hmod := Nat.mod_lt n (show 0 < base by omega)
        rw [digits_of_le hb (by omega), List.mem_append, not_or]
        exact ⟨ih (n / base) (Nat.div_lt_self (by omega) hb), hdigit _ (by omega)⟩

theorem lt_length_digits (hb : 1 < base) {k : Nat} (h : base ^ k ≤ n) : k < (digits base n).length := by
  rw [digits, List.length_map]
  cases k with
  | zero => exact Nat.length_toDigits_pos
  | succ k =>
      refine Nat.lt_of_not_le fun hle => ?_
      exact Nat.not_lt_of_le h ((Nat.length_toDigits_le_iff hb (Nat.succ_pos k)).mp hle)

end Digits

/-- The text of a number can be read back. -/
theorem decode_numeral {base : Nat} (h : base ∈ bases) (num : Int64) : decode base (numeral base num) = num.toInt := by
  obtain ⟨hb, hb'⟩ := bases_le h
  have hval := ofDigits_digits hb hb' num.toInt.natAbs
  have hmark : 45 ∉ mark (Int32.ofNat base) ++ digits base num.toInt.natAbs := by
    rw [List.mem_append, not_or]
    exact ⟨(by decide : ∀ base ∈ bases, 45 ∉ mark (Int32.ofNat base)) base h, digits_ne_minus hb hb' _⟩
  by_cases hneg : num < 0
  · have hlt := Int64.lt_iff_toInt_lt.mp hneg
    rw [Int64.toInt_zero] at hlt
    rw [numeral, minus, if_pos hneg, List.append_assoc, List.singleton_append, decode, if_pos rfl,
      List.drop_left, hval]
    omega
  · have hge : ¬ num.toInt < (0 : Int64).toInt := fun hlt => hneg (Int64.lt_iff_toInt_lt.mpr hlt)
    rw [Int64.toInt_zero] at hge
    rw [numeral, minus, if_neg hneg, List.nil_append]
    cases htext : mark (Int32.ofNat base) ++ digits base num.toInt.natAbs with
    | nil => exact absurd (List.append_eq_nil_iff.mp htext).2 digits_ne_nil
    | cons c l =>
        have hc : c ≠ 45 := fun hc => hmark (by rw [htext, hc]; exact List.mem_cons_self)
        rw [decode, if_neg hc, ← htext, List.drop_left, hval]
        omega

/-! ## Numbers that do not wrap -/

/-- A signed number that is a natural number. -/
def IsNat (x : Int64) (n : Nat) : Prop := x.toInt = n

section IsNat

variable {x y : Int64} {m n : Nat}

theorem bmod_natCast (h : n < 2 ^ 63) : (n : Int).bmod (2 ^ 64) = n :=
  Int.bmod_eq_of_le (by omega) (by omega)

theorem IsNat.lt (h : IsNat x m) : m < 2 ^ 63 := by
  have hlt := x.toInt_lt
  rw [h] at hlt
  omega

theorem IsNat.mul (hx : IsNat x m) (hy : IsNat y n) (h : m * n < 2 ^ 63) : IsNat (x * y) (m * n) := by
  rw [IsNat, Int64.toInt_mul, hx, hy, ← Int.natCast_mul, bmod_natCast h]

theorem IsNat.div (hx : IsNat x m) (hy : IsNat y n) : IsNat (x / y) (m / n) := by
  rw [IsNat, Int64.toInt_div, hx, hy, ← Int.ofNat_tdiv, bmod_natCast (Nat.lt_of_le_of_lt (Nat.div_le_self m n) hx.lt)]

theorem IsNat.mod (hx : IsNat x m) (hy : IsNat y n) : IsNat (x % y) (m % n) := by
  rw [IsNat, Int64.toInt_mod, hx, hy, ← Int.ofNat_tmod]

theorem IsNat.le_iff (hx : IsNat x m) (hy : IsNat y n) : x ≤ y ↔ m ≤ n := by
  rw [Int64.le_iff_toInt_le, hx, hy, Int.ofNat_le]

theorem IsNat.eq_zero_iff (hx : IsNat x m) : x = 0 ↔ m = 0 := by
  rw [← Int64.toInt_inj, hx, Int64.toInt_zero]
  omega

theorem isNat_one : IsNat 1 1 := show (1 : Int64).toInt = 1 by decide

theorem IsNat.digitToChar (hx : IsNat x m) (h : m < 16) : digitToChar x.toInt32 = digitByte m := by
  have hx' : x = Int64.ofNat m := Int64.toInt_inj.mp (hx.trans (Int64.toInt_ofNat_of_lt (by omega)).symm)
  rw [hx']
  exact (by decide : ∀ m, m < 16 → Utils.digitToChar (Int64.ofNat m).toInt32 = digitByte m) m h

end IsNat

/-! ## The loops -/

section Loops

variable {c num p p' : Int64} {base n q fuel k w : Nat}

/-- The first power of the base that is greater than the number. -/
theorem powerLoop_eq (hc : IsNat c base) (hn : IsNat num n) (hlt : n < base ^ k) (hk : base ^ k < 2 ^ 63)
    {j : Nat} (hp : IsNat p (base ^ j)) (hj : j ≤ k) (hfuel : k < fuel + j) (hb : 1 < base) :
    ∃ i p', powerLoop c num fuel p = some p' ∧ IsNat p' (base ^ i) ∧ n < base ^ i ∧ j ≤ i ∧ i ≤ k ∧
      ∀ l, j ≤ l → l < i → base ^ l ≤ n := by
  induction fuel generalizing p j with
  | zero => omega
  | succ fuel ih =>
      rw [powerLoop]
      by_cases hle : base ^ j ≤ n
      · have hjk : j < k := by
          refine Nat.lt_of_le_of_ne hj fun heq => ?_
          subst heq
          omega
        have hnext : base ^ j * base < 2 ^ 63 := by
          rw [← Nat.pow_succ]
          exact Nat.lt_of_le_of_lt (Nat.pow_le_pow_right (by omega) hjk) hk
        have hmul : IsNat (p * c) (base ^ (j + 1)) := by
          rw [Nat.pow_succ]
          exact hp.mul hc hnext
        rw [if_pos ((hp.le_iff hn).mpr hle)]
        obtain ⟨i, p', hloop, hp', hlti, hji, hik, hall⟩ := ih hmul hjk (by omega)
        refine ⟨i, p', hloop, hp', hlti, by omega, hik, fun l hl hli => ?_⟩
        rcases Nat.lt_or_eq_of_le hl with hl | rfl
        · exact hall l hl hli
        · exact hle
      · rw [if_neg fun h => hle ((hp.le_iff hn).mp h)]
        exact ⟨j, p, rfl, hp, Nat.lt_of_not_le hle, Nat.le_refl j, hj, fun l hl hli => by omega⟩

/-- The digits from a power of the base on. -/
theorem digitLoop_eq (hc : IsNat c base) (hb : 1 < base) (hb' : base ≤ 16) (hn : IsNat num n)
    (hp : IsNat p (base ^ w)) (hlt : n < base ^ (w + 1)) (hfuel : w + 2 ≤ fuel) :
    digitLoop c fuel num p = some (fixedDigits base (w + 1) n) := by
  induction fuel generalizing num n p w with
  | zero => omega
  | succ fuel ih =>
      have hpos : 0 < base ^ w := Nat.pow_pos (by omega)
      have hdigit : n / base ^ w < base := by
        rwa [Nat.div_lt_iff_lt_mul hpos, Nat.mul_comm, ← Nat.pow_succ]
      have hmod := Nat.mod_lt n hpos
      rw [digitLoop, if_pos fun h => Nat.ne_of_gt hpos (hp.eq_zero_iff.mp h),
        (hn.div hp).digitToChar (by omega), fixedDigits]
      cases w with
      | zero =>
          -- the last digit
          obtain ⟨fuel, rfl⟩ := Nat.exists_eq_add_one_of_ne_zero (show fuel ≠ 0 by omega)
          have hzero : p / c = 0 := (hp.div hc).eq_zero_iff.mpr (Nat.div_eq_of_lt hb)
          rw [digitLoop, if_neg fun hne => hne hzero]
          rfl
      | succ w =>
          have hdiv : IsNat (p / c) (base ^ w) := by
            have h := hp.div hc
            rwa [Nat.pow_succ, Nat.mul_div_cancel _ (by omega)] at h
          rw [ih (hn.mod hp) hdiv hmod (by omega)]
          rfl

/-- There are not more digits than places of the divisor. -/
theorem digitLoop_length {l : List UInt8} (hc : IsNat c base) (hb : 1 < base) (hp : IsNat p q)
    (hlt : q < base ^ k) (h : digitLoop c fuel num p = some l) : l.length ≤ k := by
  induction fuel generalizing num p q k l with
  | zero => cases h
  | succ fuel ih =>
      rw [digitLoop] at h
      by_cases hq : q = 0
      · rw [if_neg fun hne => hne (hp.eq_zero_iff.mpr hq)] at h
        cases h
        exact Nat.zero_le k
      · rw [if_pos fun hz => hq (hp.eq_zero_iff.mp hz)] at h
        obtain ⟨l, hl, rfl⟩ := Option.map_eq_some_iff.mp h
        cases k with
        | zero =>
            rw [Nat.pow_zero] at hlt
            omega
        | succ k =>
            have hdiv : q / base < base ^ k := by
              rwa [Nat.div_lt_iff_lt_mul (by omega), ← Nat.pow_succ]
            rw [List.length_cons]
            exact Nat.succ_le_succ (ih (hp.div hc) hdiv hl)

theorem powerLoop_not_le (h : powerLoop c num fuel p = some p') : ¬ p' ≤ num := by
  induction fuel generalizing p with
  | zero => cases h
  | succ fuel ih =>
      rw [powerLoop] at h
      split at h
      · exact ih h
      · cases h
        assumption

/-- The loop ends with a number that is not negative. -/
theorem powerLoop_isNat (h : powerLoop c num fuel 1 = some p') : ∃ q, IsNat p' q := by
  by_cases hnum : 0 ≤ num.toInt
  · have hlt := powerLoop_not_le h
    rw [Int64.le_iff_toInt_le] at hlt
    exact ⟨p'.toInt.toNat, (Int.toNat_of_nonneg (by omega)).symm⟩
  · cases fuel with
    | zero => cases h
    | succ fuel =>
        have hone : ¬ (1 : Int64) ≤ num := by
          rw [Int64.le_iff_toInt_le, show (1 : Int64).toInt = 1 by decide]
          omega
        rw [powerLoop, if_neg hone] at h
        cases h
        exact ⟨1, isNat_one⟩

end Loops

/-! ## The text of a number -/

theorem magnitude_isNat {num : Int64} (h : num.toInt.natAbs < 2 ^ 63) : IsNat (magnitude num) num.toInt.natAbs := by
  rw [magnitude]
  by_cases hneg : num < 0
  · have hlt := Int64.lt_iff_toInt_lt.mp hneg
    rw [Int64.toInt_zero] at hlt
    rw [if_pos hneg, IsNat, Int64.toInt_neg, show -num.toInt = (num.toInt.natAbs : Int) by omega, bmod_natCast h]
  · have hge : ¬ num.toInt < (0 : Int64).toInt := fun hlt => hneg (Int64.lt_iff_toInt_lt.mpr hlt)
    rw [Int64.toInt_zero] at hge
    rw [if_neg hneg, IsNat]
    omega

theorem magnitude_eq_zero {num : Int64} (h : magnitude num = 0) : num = 0 := by
  rw [magnitude] at h
  split at h
  · exact Int64.neg_inj.mp (h.trans Int64.neg_zero.symm)
  · exact h

/-- The base as a signed number. -/
theorem base_isNat {base : Nat} (h : base ∈ bases) : IsNat (Int32.ofNat base).toInt64 base :=
  (by decide : ∀ base ∈ bases, (Int32.ofNat base).toInt64.toInt = (base : Int)) base h

/-- The two loops, and the text around the digits. -/
theorem itoa_eq_some {fuel : Nat} {num : Int64} {countingSystem : Int32} {text : List UInt8} :
    itoa fuel num countingSystem = some text ↔
      ∃ p l, powerLoop countingSystem.toInt64 (magnitude num) fuel 1 = some p ∧
        digitLoop countingSystem.toInt64 fuel (magnitude num) (p / countingSystem.toInt64) = some l ∧
        minus num ++ mark countingSystem ++ ((if magnitude num = 0 then [48] else []) ++ l) ++ [0] = text := by
  simp only [itoa, Option.bind_eq_bind, Option.bind_eq_some_iff, Option.some.injEq, List.append_assoc]
  constructor
  · rintro ⟨p, hp, l, hl, rfl⟩
    exact ⟨p, l, hp, hl, rfl⟩
  · rintro ⟨p, l, hp, hl, rfl⟩
    exact ⟨p, hp, l, hl, rfl⟩

/-- A number below the greatest power is printed. -/
theorem itoa_of_lt {base : Nat} (h : base ∈ bases) {num : Int64} (hlt : num.toInt.natAbs < maxPower base) :
    ∃ fuel, itoa fuel num (Int32.ofNat base) = some (numeral base num ++ [0]) := by
  obtain ⟨hb, hb'⟩ := bases_le h
  have hc := base_isNat h
  have hmax := (maxPower_lt h).1
  have hn := magnitude_isNat (Nat.lt_trans hlt hmax)
  obtain ⟨i, p, hpower, hp, hlti, -, hik, hall⟩ :=
    powerLoop_eq (p := 1) (j := 0) hc hn hlt hmax isNat_one (Nat.zero_le _)
      (show places base < (places base + 2) + 0 by omega) hb
  cases i with
  | zero =>
      -- the number is zero, and the loop prints nothing
      have hzero : num.toInt.natAbs = 0 := Nat.lt_one_iff.mp hlti
      have hdiv : p / (Int32.ofNat base).toInt64 = 0 := (hp.div hc).eq_zero_iff.mpr (Nat.div_eq_of_lt hb)
      have hdigits : digits base num.toInt.natAbs = [48] := by
        rw [hzero, digits_of_lt (Nat.lt_trans Nat.zero_lt_one hb)]
        rfl
      refine ⟨places base + 2, itoa_eq_some.mpr ⟨p, [], hpower, ?_, ?_⟩⟩
      · rw [digitLoop, if_neg fun hne => hne hdiv]
      · rw [if_pos (hn.eq_zero_iff.mpr hzero), numeral, hdigits, List.append_nil]
  | succ w =>
      have hle := hall w (Nat.zero_le w) (Nat.lt_succ_self w)
      have hpos : 0 < base ^ w := Nat.pow_pos (by omega)
      have hdiv : IsNat (p / (Int32.ofNat base).toInt64) (base ^ w) := by
        have h := hp.div hc
        rwa [Nat.pow_succ, Nat.mul_div_cancel _ (by omega)] at h
      have hmag : magnitude num ≠ 0 := fun hz => by
        have := hn.eq_zero_iff.mp hz
        omega
      refine ⟨places base + 2, itoa_eq_some.mpr
        ⟨p, _, hpower, digitLoop_eq hc hb hb' hn hdiv hlti (by omega), ?_⟩⟩
      rw [if_neg hmag, List.nil_append, fixedDigits_eq hb hle hlti, numeral]

/-- A number that is not below the greatest power has more digits than `itoa` prints. -/
theorem not_itoa_of_le (base : Nat) (h : base ∈ bases) {num : Int64} (hle : maxPower base ≤ num.toInt.natAbs)
    (fuel : Nat) : itoa fuel num (Int32.ofNat base) ≠ some (numeral base num ++ [0]) := by
  intro hsome
  obtain ⟨hb, -⟩ := bases_le h
  obtain ⟨p, l, hpower, hdigit, htext⟩ := itoa_eq_some.mp hsome
  obtain ⟨q, hq⟩ := powerLoop_isNat hpower
  have hpos : 0 < maxPower base := Nat.pow_pos (by omega)
  have hmag : magnitude num ≠ 0 := fun hz => by
    rw [magnitude_eq_zero hz] at hle
    exact Nat.not_lt_of_le hle hpos
  have hshort : q / base < base ^ places base := by
    rw [Nat.div_lt_iff_lt_mul (by omega)]
    exact Nat.lt_of_lt_of_le hq.lt (maxPower_lt h).2
  have hlen := digitLoop_length (base_isNat h) hb (hq.div (base_isNat h)) hshort hdigit
  rw [if_neg hmag, List.nil_append, numeral] at htext
  have hl : l = digits base num.toInt.natAbs := List.append_cancel_left (List.append_cancel_right htext)
  rw [hl] at hlen
  exact Nat.not_lt_of_le hlen (lt_length_digits hb hle)

end Utils
