import Mathlib.Algebra.Group.Int.Defs
import Mathlib.Algebra.GroupWithZero.Nat
import Mathlib.Logic.Basic

/-!
# Pages and addresses

The address arithmetic of `mem.h`.  Addresses are natural numbers below `2 ^ 64`,
and `u64` is the reduction of a sum that may leave that range.
-/

namespace Mem

/-- `PAGESIZE`. -/
def pageSize : Nat := 4096

/-- A value as a `u64`. -/
def u64 (a : Nat) : Nat := a % 2 ^ 64

/-- `ADDR_2_PAGE`. -/
def addr2Page (a : Nat) : Nat := a / pageSize

/-- `OFFSET`. -/
def offset (a : Nat) : Nat := a % pageSize

/-- `ADDR_2_PAGEUP`. -/
def addr2PageUp (a : Nat) : Nat := addr2Page a + if offset a = 0 then 0 else 1

theorem u64_of_lt {a : Nat} (h : a < 2 ^ 64) : u64 a = a := Nat.mod_eq_of_lt h

theorem addr2Page_add_offset (a : Nat) : addr2Page a * pageSize + offset a = a :=
  Nat.div_add_mod' a pageSize

theorem offset_lt (a : Nat) : offset a < pageSize := Nat.mod_lt _ (by decide)

theorem addr_split (v : Nat) {off : Nat} (h : off < pageSize) :
    addr2Page (v * pageSize + off) = v ∧ offset (v * pageSize + off) = off := by
  simp only [addr2Page, offset, pageSize] at *
  omega

theorem addr_inj {a b : Nat} (hp : addr2Page a = addr2Page b) (ho : offset a = offset b) : a = b := by
  rw [← addr2Page_add_offset a, ← addr2Page_add_offset b, hp, ho]

/-- `addr2PageUp` rounds up. -/
theorem le_addr2PageUp (a : Nat) : a ≤ addr2PageUp a * pageSize := by
  have h := addr2Page_add_offset a
  have hlt := offset_lt a
  rw [addr2PageUp]
  simp only [pageSize] at *
  split <;> omega

theorem addr2PageUp_lt (a : Nat) : addr2PageUp a * pageSize < a + pageSize := by
  have h := addr2Page_add_offset a
  rw [addr2PageUp]
  simp only [pageSize] at *
  split <;> omega

theorem addr2PageUp_mono {a b : Nat} (h : a ≤ b) : addr2PageUp a ≤ addr2PageUp b := by
  have ha := addr2PageUp_lt a
  have hb := le_addr2PageUp b
  simp only [pageSize] at *
  omega

end Mem
