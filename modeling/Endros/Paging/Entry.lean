import Endros.Lib.Word
import Mathlib.Data.UInt
import Mathlib.Logic.Basic

/-!
# Page table entries

The macros of `pagetable.h`.  An entry is a 64-bit word with ten bits of flags
below the frame number.  Frame numbers and virtual page numbers are natural
numbers.  A frame number that is read from an entry is below `2 ^ 54`.

All lemmas go through the value of an entry: it is `pfn * 1024 + flags`.
-/

namespace Paging

/-- The entries of a table. -/
instance neZeroEntries : NeZero 512 := ⟨by decide⟩

/-- `PTE_USER`. -/
def pteUser : UInt64 := 0x10

/-- `PTE_EXECUTE`. -/
def pteExecute : UInt64 := 0x08

/-- `PTE_WRITE`. -/
def pteWrite : UInt64 := 0x04

/-- `PTE_READ`. -/
def pteRead : UInt64 := 0x02

/-- `PTE_VALID`. -/
def pteValid : UInt64 := 0x01

/-- `PTE_VALID | PTE_READ | PTE_WRITE`. -/
def pteTable : UInt64 := pteValid ||| pteRead ||| pteWrite

/-- `VPN`: the index of a page into a table of the given level. -/
def vpnAt (level vpn : Nat) : Fin 512 := ⟨vpn / 2 ^ (9 * level) % 512, Nat.mod_lt _ (by decide)⟩

/-- `PTE`. -/
def pte (pfn : Nat) (flags : UInt64) : UInt64 := UInt64.ofNat pfn <<< 10 ||| flags

/-- `GET_PFN`. -/
def getPfn (e : UInt64) : Nat := (e >>> 10).toNat

/-- `GET_FLAGS`. -/
def getFlags (e : UInt64) : UInt64 := e &&& 0x3ff

/-- The value `SET_FLAGS` writes back. -/
def withFlags (e flags : UInt64) : UInt64 := (e &&& ~~~ 0x3ff) ||| flags

/-- The entry is a leaf. -/
def isLeaf (e : UInt64) : Bool := e &&& (pteRead ||| pteWrite ||| pteExecute) ≠ 0

/-! ## Values -/

theorem getPfn_eq (e : UInt64) : getPfn e = e.toNat / 1024 := by
  rw [getPfn, UInt64.toNat_shiftRight, Nat.shiftRight_eq_div_pow]
  rfl

theorem getFlags_toNat (e : UInt64) : (getFlags e).toNat = e.toNat % 1024 := by
  rw [getFlags, UInt64.toNat_and]
  exact Nat.and_two_pow_sub_one_eq_mod e.toNat 10

theorem toNat_or_of_lt {a f : UInt64} (ha : a.toNat % 1024 = 0) (hf : f.toNat < 1024) :
    (a ||| f).toNat = a.toNat + f.toNat := by
  obtain ⟨k, hk⟩ : ∃ k, a.toNat = k <<< 10 :=
    ⟨a.toNat / 1024, by rw [Nat.shiftLeft_eq]; omega⟩
  rw [UInt64.toNat_or, hk, ← Nat.shiftLeft_add_eq_or_of_lt hf]

theorem toNat_pte {pfn : Nat} {flags : UInt64} (hp : pfn < 2 ^ 54) (hf : flags.toNat < 1024) :
    (pte pfn flags).toNat = pfn * 1024 + flags.toNat := by
  have hshift : (UInt64.ofNat pfn <<< 10).toNat = pfn * 1024 := by
    rw [UInt64.toNat_shiftLeft, UInt64.toNat_ofNat', Nat.shiftLeft_eq]
    show pfn % 2 ^ 64 * 1024 % 2 ^ 64 = pfn * 1024
    omega
  rw [pte, toNat_or_of_lt (by omega) hf, hshift]

theorem toNat_withFlags (e : UInt64) {flags : UInt64} (hf : flags.toNat < 1024) :
    (withFlags e flags).toNat = e.toNat / 1024 * 1024 + flags.toNat := by
  have hclear : (e &&& ~~~ (0x3ff : UInt64)).toNat = e.toNat / 1024 * 1024 :=
    Lib.toNat_clear e 0x3ff 10 (by decide)
  rw [withFlags, toNat_or_of_lt (by omega) hf, hclear]

theorem and_valid {e : UInt64} : e &&& pteValid = 0 ↔ e.toNat % 2 = 0 := by
  have hmod : (e &&& pteValid).toNat = e.toNat % 2 := by
    rw [UInt64.toNat_and]
    exact Nat.and_two_pow_sub_one_eq_mod e.toNat 1
  rw [← hmod, ← UInt64.toNat_inj]
  rfl

/-! ## Frames and flags of an entry -/

section Entry

variable {pfn : Nat} {e flags flags' : UInt64}

theorem getPfn_lt (e : UInt64) : getPfn e < 2 ^ 54 := by
  have := e.toNat_lt
  rw [getPfn_eq]
  omega

theorem getPfn_pte (hp : pfn < 2 ^ 54) (hf : flags.toNat < 1024) :
    getPfn (pte pfn flags) = pfn := by
  rw [getPfn_eq, toNat_pte hp hf]
  omega

theorem getFlags_pte (hp : pfn < 2 ^ 54) (hf : flags.toNat < 1024) :
    getFlags (pte pfn flags) = flags := by
  apply UInt64.toNat_inj.mp
  rw [getFlags_toNat, toNat_pte hp hf]
  omega

theorem getFlags_withFlags (hf : flags.toNat < 1024) : getFlags (withFlags e flags) = flags := by
  apply UInt64.toNat_inj.mp
  rw [getFlags_toNat, toNat_withFlags e hf]
  omega

/-- New flags for an entry with known flags. -/
theorem withFlags_pte (hp : pfn < 2 ^ 54) (hf : flags.toNat < 1024) (hf' : flags'.toNat < 1024) :
    withFlags (pte pfn flags) flags' = pte pfn flags' := by
  apply UInt64.toNat_inj.mp
  rw [toNat_withFlags _ hf', toNat_pte hp hf, toNat_pte hp hf']
  omega

/-- An entry is determined by its frame and its flags. -/
theorem pte_getPfn (e : UInt64) : pte (getPfn e) (getFlags e) = e := by
  have hflags := getFlags_toNat e
  apply UInt64.toNat_inj.mp
  rw [toNat_pte (getPfn_lt e) (by omega), getPfn_eq]
  omega

/-- A mask of flags sees the flags of the entry only. -/
theorem and_flags (hf : flags.toNat < 1024) : e &&& flags = getFlags e &&& flags := by
  have hself : flags &&& 0x3ff = flags := by
    apply UInt64.toNat_inj.mp
    rw [← getFlags, getFlags_toNat, Nat.mod_eq_of_lt hf]
  rw [getFlags, UInt64.and_assoc, UInt64.and_comm 0x3ff, hself]

theorem valid_iff_flags : e &&& pteValid = 0 ↔ (getFlags e).toNat % 2 = 0 := by
  rw [and_valid, getFlags_toNat]
  omega

end Entry

/-! ## Which table an entry points to -/

/-- The table a valid entry points to. -/
def child (e : UInt64) : Option Nat := if e &&& pteValid = 0 then none else some (getPfn e)

theorem child_pte {pfn : Nat} {flags : UInt64} (hp : pfn < 2 ^ 54) (hf : flags.toNat < 1024)
    (hv : flags.toNat % 2 = 1) : child (pte pfn flags) = some pfn := by
  have hvalid : ¬ pte pfn flags &&& pteValid = 0 := by
    rw [valid_iff_flags, getFlags_pte hp hf]
    omega
  rw [child, if_neg hvalid, getPfn_pte hp hf]

theorem child_of_valid {e : UInt64} (h : ¬ e &&& pteValid = 0) : child e = some (getPfn e) :=
  if_neg h

theorem child_of_invalid {e : UInt64} (h : e &&& pteValid = 0) : child e = none := if_pos h

theorem child_zero : child 0 = none := rfl

/-! ## Entries of tables -/

theorem pteValid_lt : pteValid.toNat < 1024 := by decide

theorem pteTable_lt : pteTable.toNat < 1024 := by decide

theorem pteValid_odd : pteValid.toNat % 2 = 1 := by decide

theorem pteTable_odd : pteTable.toNat % 2 = 1 := by decide

/-- Flags can be read off the low ten bits. -/
theorem and_getFlags (e : UInt64) {m : UInt64} (hm : 0x3ff &&& m = m) : e &&& m = getFlags e &&& m := by
  rw [getFlags, UInt64.and_assoc, hm]

section Flags

variable {t : Nat} (ht : t < 2 ^ 54)
include ht

theorem valid_pteValid : ¬ pte t pteValid &&& pteValid = 0 := by
  rw [and_getFlags _ (by decide), getFlags_pte ht pteValid_lt]
  decide

theorem valid_pteTable : ¬ pte t pteTable &&& pteValid = 0 := by
  rw [and_getFlags _ (by decide), getFlags_pte ht pteTable_lt]
  decide

theorem isLeaf_pteValid : ¬ isLeaf (pte t pteValid) = true := by
  rw [isLeaf, and_getFlags _ (by decide), getFlags_pte ht pteValid_lt]
  decide

end Flags

end Paging
