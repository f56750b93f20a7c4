import Mathlib.Algebra.Group.Int.Defs
import Mathlib.Algebra.GroupWithZero.Nat
import Mathlib.Logic.Basic

/-!
# Overwriting an interval of a function

Byte-addressed storage is a function from addresses.  `patch f a n g` is `f` with
the `n` values of `g` copied to `[a, a + n)`.
-/

namespace Lib

universe u

variable {α : Type u}

/-- `f` with the first `n` values of `g` at `a`. -/
def patch (f : Nat → α) (a n : Nat) (g : Nat → α) : Nat → α := fun x =>
  if a ≤ x ∧ x < a + n then g (x - a) else f x

variable {f g : Nat → α} {a n x : Nat}

theorem patch_of_mem (h₁ : a ≤ x) (h₂ : x < a + n) : patch f a n g x = g (x - a) :=
  if_pos ⟨h₁, h₂⟩

theorem patch_of_lt (h : x < a) : patch f a n g x = f x :=
  if_neg fun hx => by omega

theorem patch_of_ge (h : a + n ≤ x) : patch f a n g x = f x :=
  if_neg fun hx => by omega

theorem patch_add (h : x < n) : patch f a n g (a + x) = g x := by
  rw [patch_of_mem (Nat.le_add_right ..) (Nat.add_lt_add_left h a), Nat.add_sub_cancel_left]

@[simp] theorem patch_zero : patch f a 0 g = f := by
  funext x
  exact if_neg fun hx => by omega

theorem patch_congr {g' : Nat → α} (h : ∀ x < n, g x = g' x) : patch f a n g = patch f a n g' := by
  funext x
  by_cases hx : a ≤ x ∧ x < a + n
  · rw [patch_of_mem hx.1 hx.2, patch_of_mem hx.1 hx.2]
    exact h _ (by omega)
  · rw [patch, patch, if_neg hx, if_neg hx]

/-- Two copies that follow each other are one. -/
theorem patch_append (m : Nat) :
    patch (patch f a m g) (a + m) n (fun x => g (m + x)) = patch f a (m + n) g := by
  funext x
  by_cases h₁ : x < a + m
  · rw [patch_of_lt h₁]
    by_cases h₀ : a ≤ x
    · rw [patch_of_mem h₀ h₁, patch_of_mem h₀ (by omega)]
    · rw [patch_of_lt (by omega), patch_of_lt (by omega)]
  · by_cases h₂ : x < a + (m + n)
    · rw [patch_of_mem (by omega) (by omega), patch_of_mem (by omega) h₂]
      exact congrArg g (by omega)
    · rw [patch_of_ge (by omega), patch_of_ge (by omega), patch_of_ge (by omega)]

end Lib
