import Endros.Lib.Patch
import Endros.Mem

/-!
# Copies from user memory

`translate_buffer` copies between a buffer of the kernel and memory of a process.
It takes the pages of the process one by one, and `walkupt` gives the kernel page
of each.  A page that the process does not have is the kernel page `0`, which the
kernel has not mapped either: a `memcpy` of at least one byte does not return.

The number of pages is the distance from the first one to the last, in 64 bits,
since the loop ends when the two are equal.  For a range that does not wrap this
is one copy of all its bytes (`translateBuffer_eq`).
-/

namespace Io

open Lib Mem

/-- What the kernel sees of a process: `walkupt` on its tables, and the kernel pages
that are mapped. -/
structure UserMemory where
  walkupt : Nat → Nat
  pages : Nat → Option (Nat → UInt8)

namespace UserMemory

variable (m : UserMemory)

/-- The byte of the process at an address. -/
def byte (a : Nat) : Option UInt8 :=
  (m.pages (m.walkupt (addr2Page a))).map fun p => p (offset a)

/-- `memcpy` of `n` bytes of a kernel page to `pos` of the buffer, `none` if it
faults. -/
def memcpy (kernelVpn off n : Nat) (buf : Nat → UInt8) (pos : Nat) : Option (Nat → UInt8) :=
  if n = 0 then some buf
  else (m.pages kernelVpn).map fun p => patch buf pos n fun j => p (off + j)

/-- The loop of `translate_buffer` from the user to the kernel, with the number of
pages that are left. -/
def translateLoop : Nat → Nat → Nat → Nat → Nat → (Nat → UInt8) → Option (Nat → UInt8)
  | 0, _, _, _, _, buf => some buf
  | n + 1, userVpn, pageOffset, pageMax, pos, buf =>
      let tempPage := if pageMax > pageSize then pageSize else pageMax
      let pageMax := if pageMax > pageSize then pageMax - pageSize else pageMax
      (m.memcpy (m.walkupt userVpn) pageOffset (tempPage - pageOffset) buf pos).bind
        (translateLoop n (u64 (userVpn + 1)) 0 pageMax (pos + (tempPage - pageOffset)))

/-- `translate_buffer` with `write` set. -/
def translateBuffer (kernelBuf : Nat → UInt8) (userBuf size : UInt64) : Option (Nat → UInt8) :=
  let first := addr2Page userBuf.toNat
  let last := addr2PageUp (userBuf + size).toNat
  m.translateLoop (u64 (last + 2 ^ 64 - first)) first (offset userBuf.toNat)
    (u64 (offset userBuf.toNat + size.toNat)) 0 kernelBuf

variable {m}

/-- The bytes of a range that lies on one page. -/
theorem memcpy_eq {vpn off n pos : Nat} {buf data : Nat → UInt8} (hle : off + n ≤ pageSize)
    (hdata : ∀ x, x < n → m.byte (vpn * pageSize + off + x) = some (data x)) :
    m.memcpy (m.walkupt vpn) off n buf pos = some (patch buf pos n data) := by
  rw [memcpy]
  split
  · rename_i hn
    rw [hn, patch_zero]
  · rename_i hn
    have haddr : ∀ x, x < n → addr2Page (vpn * pageSize + off + x) = vpn ∧
        offset (vpn * pageSize + off + x) = off + x := by
      intro x hx
      simp only [addr2Page, offset, pageSize] at *
      omega
    have hfirst := hdata 0 (Nat.pos_of_ne_zero hn)
    rw [byte, (haddr 0 (Nat.pos_of_ne_zero hn)).1] at hfirst
    obtain ⟨p, hp, -⟩ := Option.map_eq_some_iff.mp hfirst
    rw [hp, Option.map_some]
    refine congrArg some (patch_congr fun x hx => ?_)
    have hx' := hdata x hx
    rw [byte, (haddr x hx).1, (haddr x hx).2, hp] at hx'
    exact Option.some.inj hx'

/-- The loop copies the rest of the range. -/
theorem translateLoop_eq {n vpn off size pos : Nat} {buf data : Nat → UInt8} (hoff : off < pageSize)
    (hn : vpn + n = addr2PageUp (vpn * pageSize + off + size)) (hlt : vpn + n < 2 ^ 64)
    (hdata : ∀ x, x < size → m.byte (vpn * pageSize + off + x) = some (data x)) :
    m.translateLoop n vpn off (off + size) pos buf = some (patch buf pos size data) := by
  induction n generalizing vpn off size pos buf data with
  | zero =>
      have hup := le_addr2PageUp (vpn * pageSize + off + size)
      have hsize : size = 0 := by
        rw [← hn, Nat.add_zero] at hup
        omega
      rw [hsize, patch_zero]
      rfl
  | succ n ih =>
      rw [translateLoop]
      by_cases hmore : off + size > pageSize
      · -- the rest of this page, and then the pages behind it
        obtain ⟨rest, hrest⟩ : ∃ rest, size = (pageSize - off) + rest :=
          ⟨size - (pageSize - off), by omega⟩
        have hnext : off + size - pageSize = 0 + rest := by omega
        have hstart : (vpn + 1) * pageSize + 0 = vpn * pageSize + off + (pageSize - off) := by
          rw [Nat.add_mul]
          omega
        have hlast : vpn + 1 + n = addr2PageUp ((vpn + 1) * pageSize + 0 + rest) := by
          rw [hstart, Nat.add_assoc (vpn * pageSize + off), ← hrest, ← hn]
          omega
        have hbytes : ∀ x, x < rest →
            m.byte ((vpn + 1) * pageSize + 0 + x) = some (data (pageSize - off + x)) := by
          intro x hx
          rw [hstart, Nat.add_assoc (vpn * pageSize + off)]
          exact hdata _ (by omega)
        rw [if_pos hmore, if_pos hmore, memcpy_eq (by omega) fun x hx => hdata x (by omega),
          Option.bind_some, u64_of_lt (by omega), hnext, ih (by decide) hlast (by omega) hbytes, hrest,
          patch_append]
      · -- the last page
        have hup := addr2PageUp_lt (vpn * pageSize + off + size)
        have hlast : n = 0 := by
          rw [← hn, Nat.add_mul] at hup
          simp only [pageSize] at *
          omega
        rw [if_neg hmore, if_neg hmore, Nat.add_sub_cancel_left, memcpy_eq (by omega) hdata, hlast]
        rfl

/-- The pages of a range that does not wrap, as the loop counts them. -/
theorem range_pages {userBuf size : UInt64} (hlt : userBuf.toNat + size.toNat < 2 ^ 64) :
    ∃ n, u64 (addr2PageUp (userBuf + size).toNat + 2 ^ 64 - addr2Page userBuf.toNat) = n ∧
      addr2Page userBuf.toNat + n = addr2PageUp (addr2Page userBuf.toNat * pageSize +
        offset userBuf.toNat + size.toNat) ∧ addr2Page userBuf.toNat + n < 2 ^ 64 ∧
      u64 (offset userBuf.toNat + size.toNat) = offset userBuf.toNat + size.toNat := by
  have hstart := addr2Page_add_offset userBuf.toNat
  have hend : (userBuf + size).toNat = userBuf.toNat + size.toNat := by
    rw [UInt64.toNat_add, Nat.mod_eq_of_lt hlt]
  have hup' := addr2PageUp_lt (userBuf.toNat + size.toNat)
  have hpages : addr2Page userBuf.toNat ≤ addr2PageUp (userBuf.toNat + size.toNat) :=
    Nat.le_trans (Nat.le_add_right ..) (addr2PageUp_mono (Nat.le_add_right ..))
  refine ⟨addr2PageUp (userBuf.toNat + size.toNat) - addr2Page userBuf.toNat, ?_, ?_, ?_,
    u64_of_lt (by omega)⟩
  · rw [hend]
    simp only [u64, pageSize] at *
    omega
  · rw [hstart]
    omega
  · simp only [pageSize] at *
    omega

/-- The copy of a range that does not wrap. -/
theorem translateBuffer_eq {kernelBuf data : Nat → UInt8} {userBuf size : UInt64}
    (hlt : userBuf.toNat + size.toNat < 2 ^ 64)
    (hdata : ∀ x, x < size.toNat → m.byte (userBuf.toNat + x) = some (data x)) :
    m.translateBuffer kernelBuf userBuf size = some (patch kernelBuf 0 size.toNat data) := by
  obtain ⟨n, hcount, hn, hlast, hmax⟩ := range_pages hlt
  rw [translateBuffer, hcount, hmax]
  refine translateLoop_eq (offset_lt _) hn hlast fun x hx => ?_
  rw [addr2Page_add_offset]
  exact hdata x hx

end UserMemory

end Io
