import Endros.Lib.Patch

/-!
# Little-endian words in byte storage

`le32 f a` is the 32-bit word in the four bytes from `a` on, and `bytes32 w` are
the bytes of a word.  What was stored is read back (`le32_patch_self`, and
`le32_patch_words` for a sequence of words), and a word is not changed by a copy
that misses its bytes (`le32_patch_disjoint`).
-/

namespace Lib

/-- The word in the four bytes from `a` on. -/
def le32 (f : Nat → UInt8) (a : Nat) : UInt32 :=
  UInt32.ofNat ((f a).toNat + (f (a + 1)).toNat * 2 ^ 8 + (f (a + 2)).toNat * 2 ^ 16 +
    (f (a + 3)).toNat * 2 ^ 24)

/-- The 64-bit word in the eight bytes from `a` on. -/
def le64 (f : Nat → UInt8) (a : Nat) : UInt64 :=
  UInt64.ofNat ((le32 f a).toNat + (le32 f (a + 4)).toNat * 2 ^ 32)

/-- The bytes of a 64-bit word. -/
def bytes64 (w : UInt64) (j : Nat) : UInt8 := UInt8.ofNat (w.toNat / 2 ^ (8 * j))

/-- The bytes of a word. -/
def bytes32 (w : UInt32) (j : Nat) : UInt8 := UInt8.ofNat (w.toNat / 2 ^ (8 * j))

theorem le32_toNat (f : Nat → UInt8) (a : Nat) :
    (le32 f a).toNat = (f a).toNat + (f (a + 1)).toNat * 2 ^ 8 + (f (a + 2)).toNat * 2 ^ 16 +
      (f (a + 3)).toNat * 2 ^ 24 := by
  rw [le32, UInt32.toNat_ofNat']
  have h₀ := (f a).toNat_lt
  have h₁ := (f (a + 1)).toNat_lt
  have h₂ := (f (a + 2)).toNat_lt
  have h₃ := (f (a + 3)).toNat_lt
  exact Nat.mod_eq_of_lt (by omega)

theorem le64_toNat (f : Nat → UInt8) (a : Nat) :
    (le64 f a).toNat = (le32 f a).toNat + (le32 f (a + 4)).toNat * 2 ^ 32 := by
  rw [le64, UInt64.toNat_ofNat']
  have h₀ := (le32 f a).toNat_lt
  have h₁ := (le32 f (a + 4)).toNat_lt
  exact Nat.mod_eq_of_lt (by omega)

/-- The bytes of a word are those it was read from. -/
theorem bytes64_le64 (f : Nat → UInt8) (a : Nat) {j : Nat} (hj : j < 8) :
    bytes64 (le64 f a) j = f (a + j) := by
  have hlt : ∀ k, (f (a + k)).toNat < 256 := fun k => (f (a + k)).toNat_lt
  have h₀ := (f a).toNat_lt
  have h₁ := hlt 1
  have h₂ := hlt 2
  have h₃ := hlt 3
  have h₄ := hlt 4
  have h₅ := hlt 5
  have h₆ := hlt 6
  have h₇ := hlt 7
  apply UInt8.toNat_inj.mp
  rw [bytes64, UInt8.toNat_ofNat', le64_toNat, le32_toNat, le32_toNat]
  simp only [Nat.add_assoc, Nat.reduceAdd]
  match j, hj with
  | 0, _ => show _ = (f a).toNat; omega
  | 1, _ => omega
  | 2, _ => omega
  | 3, _ => omega
  | 4, _ => omega
  | 5, _ => omega
  | 6, _ => omega
  | 7, _ => omega

/-- A byte of a word is replaced. -/
def setByte64 (w : UInt64) (j : Nat) (b : UInt8) : UInt64 :=
  le64 (fun k => if k = j then b else bytes64 w k) 0

theorem bytes64_setByte64 (w : UInt64) (j : Nat) (b : UInt8) {k : Nat} (hk : k < 8) :
    bytes64 (setByte64 w j b) k = if k = j then b else bytes64 w k := by
  rw [setByte64, bytes64_le64 _ _ hk, Nat.zero_add]

/-- The bytes determine the word. -/
theorem bytes64_inj {w w' : UInt64} (h : ∀ j, j < 8 → bytes64 w j = bytes64 w' j) : w = w' := by
  have hbyte : ∀ j, j < 8 → w.toNat / 256 ^ j % 256 = w'.toNat / 256 ^ j % 256 := by
    intro j hj
    have hj' := congrArg UInt8.toNat (h j hj)
    rw [bytes64, bytes64, UInt8.toNat_ofNat', UInt8.toNat_ofNat', Nat.pow_mul] at hj'
    exact hj'
  have hlow : ∀ n, n ≤ 8 → w.toNat % 256 ^ n = w'.toNat % 256 ^ n := by
    intro n hn
    induction n with
    | zero => rw [Nat.pow_zero, Nat.mod_one, Nat.mod_one]
    | succ n ih => rw [Nat.mod_pow_succ, Nat.mod_pow_succ, ih (Nat.le_of_succ_le hn), hbyte n hn]
  have hall : w.toNat % 2 ^ 64 = w'.toNat % 2 ^ 64 := hlow 8 (Nat.le_refl 8)
  rw [Nat.mod_eq_of_lt w.toNat_lt, Nat.mod_eq_of_lt w'.toNat_lt] at hall
  exact UInt64.toNat_inj.mp hall

theorem bytes32_toNat (w : UInt32) (j : Nat) :
    (bytes32 w j).toNat = w.toNat / 2 ^ (8 * j) % 2 ^ 8 := by
  rw [bytes32, UInt8.toNat_ofNat']

theorem le32_congr {f g : Nat → UInt8} {a b : Nat} (h : ∀ j, j < 4 → f (a + j) = g (b + j)) :
    le32 f a = le32 g b := by
  have h₀ := h 0 (by decide)
  have h₁ := h 1 (by decide)
  have h₂ := h 2 (by decide)
  have h₃ := h 3 (by decide)
  rw [Nat.add_zero, Nat.add_zero] at h₀
  rw [le32, le32, h₀, h₁, h₂, h₃]

/-- A word determines its bytes. -/
theorem le32_inj {f g : Nat → UInt8} {a b : Nat} (h : le32 f a = le32 g b) {j : Nat} (hj : j < 4) :
    f (a + j) = g (b + j) := by
  have hn := congrArg UInt32.toNat h
  rw [le32_toNat, le32_toNat] at hn
  have hf : ∀ j, (f (a + j)).toNat < 256 := fun j => (f (a + j)).toNat_lt
  have hg : ∀ j, (g (b + j)).toNat < 256 := fun j => (g (b + j)).toNat_lt
  have hf₀ := (f a).toNat_lt
  have hg₀ := (g b).toNat_lt
  have hf₁ := hf 1
  have hf₂ := hf 2
  have hg₁ := hg 1
  have hg₂ := hg 2
  apply UInt8.toNat_inj.mp
  match j, hj with
  | 0, _ => show (f a).toNat = (g b).toNat; omega
  | 1, _ => omega
  | 2, _ => omega
  | 3, _ => omega

theorem le32_bytes32 (w : UInt32) : le32 (bytes32 w) 0 = w := by
  apply UInt32.toNat_inj.mp
  rw [le32_toNat, bytes32_toNat, bytes32_toNat, bytes32_toNat, bytes32_toNat]
  have h := w.toNat_lt
  omega

theorem le32_patch_self {f : Nat → UInt8} {a : Nat} {w : UInt32} :
    le32 (patch f a 4 (bytes32 w)) a = w := by
  refine (le32_congr fun j hj => ?_).trans (le32_bytes32 w)
  rw [patch_add hj, Nat.zero_add]

theorem le32_patch_disjoint {f g : Nat → UInt8} {a p n : Nat} (h : a + 4 ≤ p ∨ p + n ≤ a) :
    le32 (patch f p n g) a = le32 f a := by
  refine le32_congr fun j hj => ?_
  rcases h with h | h
  · exact patch_of_lt (by omega)
  · exact patch_of_ge (by omega)

/-- The bytes of a sequence of words. -/
def bytesOfWords (w : Nat → UInt32) (j : Nat) : UInt8 := bytes32 (w (j / 4)) (j % 4)

theorem le32_patch_words {f : Nat → UInt8} {a n k : Nat} {w : Nat → UInt32} (hk : k < n) :
    le32 (patch f a (4 * n) (bytesOfWords w)) (a + 4 * k) = w k := by
  refine (le32_congr fun j hj => ?_).trans (le32_bytes32 (w k))
  have hdiv : (4 * k + j) / 4 = k := by omega
  have hmod : (4 * k + j) % 4 = j := by omega
  rw [Nat.add_assoc, patch_add (by omega), bytesOfWords, hdiv, hmod, Nat.zero_add]

/-- The low bits of a word are cleared. -/
theorem toNat_clear (e mask : UInt64) (k : Nat)
    (hmask : ∀ i : Fin 64, (~~~ mask).toBitVec.getLsbD i = decide (k ≤ i.val)) :
    (e &&& ~~~ mask).toNat = e.toNat / 2 ^ k * 2 ^ k := by
  refine Nat.eq_of_testBit_eq fun i => ?_
  have hlow : (e &&& ~~~ mask).toNat.testBit i = (e.toNat.testBit i && (~~~ mask).toBitVec.getLsbD i) :=
    BitVec.getLsbD_and
  rw [hlow, Nat.testBit_mul_two_pow, Nat.testBit_div_two_pow]
  rcases Nat.lt_or_ge i 64 with hi | hi
  · rw [hmask ⟨i, hi⟩, Bool.and_comm]
    rcases Nat.lt_or_ge i k with hk | hk
    · rw [decide_eq_false (Nat.not_le.mpr hk), Bool.false_and, Bool.false_and]
    · rw [Nat.sub_add_cancel hk]
  · have hhigh : ∀ j, 64 ≤ j → e.toNat.testBit j = false := fun j hj =>
      Nat.testBit_lt_two_pow (Nat.lt_of_lt_of_le e.toNat_lt (Nat.pow_le_pow_right (by decide) hj))
    rw [hhigh i hi, Bool.false_and]
    rcases Nat.lt_or_ge i k with hk | hk
    · rw [decide_eq_false (Nat.not_le.mpr hk), Bool.false_and]
    · rw [Nat.sub_add_cancel hk, hhigh i hi, Bool.and_false]

end Lib
