import Endros.Io.File
import Endros.Io.UserStore
import Endros.Lib.Word

/-!
# Results in user memory

`sys_lseek` and `sys_get_time` store what they return in memory of the process.
`sys_lseek` splits its eight bytes at the end of a page.  `sys_get_time` looks up one
page and stores both words from there on, so the bytes behind the end of that page go to
the next page of the kernel.  That is the next page of the process only if the two have
been mapped next to each other (`OnePiece`).

A result of less than a page has its bytes at different offsets, so they are different
bytes of the kernel, whatever the pages are (`distinct_small`).
-/

namespace Io

open Lib Mem
open Proc (FileDescriptor)

namespace UserMemory

variable (m : UserMemory)

/-- The end of `sys_lseek`. -/
def storeSeek (result seek : UInt64) : Option UserMemory :=
  let beginVpn := addr2Page result.toNat
  let pageTop := u64 ((beginVpn + 1) * pageSize)
  let page1Sz := u64 (pageTop + 2 ^ 64 - result.toNat)
  let kernelRes := m.walkupt beginVpn * pageSize + offset result.toNat
  if page1Sz ≥ 8 then m.store kernelRes 8 (bytes64 seek)
  else
    (m.store kernelRes page1Sz (bytes64 seek)).bind fun m =>
      m.store (m.walkupt (beginVpn + 1) * pageSize) (8 - page1Sz) fun j => bytes64 seek (page1Sz + j)

/-- `sys_get_time`, with the microseconds that `get_time_us` returns. -/
def sysGetTime (ts usec : UInt64) : Option UserMemory :=
  let kernelTs := m.walkupt (addr2Page ts.toNat) * pageSize + offset ts.toNat
  (m.store (kernelTs + 8) 8 (bytes64 usec)).bind fun m =>
    m.store kernelTs 8 (bytes64 (usec / 1000000))

end UserMemory

/-- `sys_lseek`. -/
def sysLseekUser {σ : Type} (F : FileOps σ) (s : σ) (m : UserMemory) (d : FileDescriptor)
    (offHigh offLow result : UInt64) (whence : UInt32) : Option (UserMemory × FileDescriptor × Int) :=
  let r := sysLseek F s d offHigh offLow whence
  if r.2 = 0 then (m.storeSeek result r.1.seek).map fun m => (m, r) else some (m, r)

namespace UserMemory

variable {m m' : UserMemory} {u n : Nat} {data : Nat → UInt8}

/-! ## Where results land -/

/-- The bytes at `u` are those of the result, and no other byte has changed. -/
structure Lands (m : UserMemory) (u n : Nat) (data : Nat → UInt8) (m' : UserMemory) : Prop where
  result : ∀ x, x < n → m'.byte (u + x) = some (data x)
  others : ∀ y, (∀ x, x < n → y ≠ m.kernelAddr (u + x)) → m'.kernelByte y = m.kernelByte y

/-- All bytes of an object are on pages of the process. -/
def Mapped (m : UserMemory) (u n : Nat) : Prop := ∀ x, x < n → (m.byte (u + x)).isSome

theorem Copied.lands (h : Copied m u n data m') : Lands m u n data m' where
  result x hx := by
    rw [byte_eq, h.kernelAddr]
    exact h.range x hx
  others := h.others

/-- Bytes that are less than a page apart. -/
theorem distinct_small (m : UserMemory) (u : Nat) (hn : n ≤ pageSize) : Distinct m u n := by
  intro x y hx hy he
  have hox := (addr_split (m.walkupt (addr2Page (u + x))) (offset_lt (u + x))).2
  have hoy := (addr_split (m.walkupt (addr2Page (u + y))) (offset_lt (u + y))).2
  have hoff : offset (u + x) = offset (u + y) := by
    rw [← hox, ← hoy]
    exact congrArg offset he
  simp only [offset, pageSize] at *
  omega

theorem Mapped.mono {k : Nat} (h : Mapped m u n) (hk : k ≤ n) : Mapped m u k :=
  fun x hx => h x (Nat.lt_of_lt_of_le hx hk)

/-- The size of the part on the first page. -/
theorem page1Sz_eq (result : UInt64) :
    u64 (u64 ((addr2Page result.toNat + 1) * pageSize) + 2 ^ 64 - result.toNat) =
      pageSize - offset result.toNat := by
  have hlt := result.toNat_lt
  have hsplit := addr2Page_add_offset result.toNat
  have hoff := offset_lt result.toNat
  simp only [u64, pageSize] at *
  omega

/-- `sys_lseek` stores the position where it has to be. -/
theorem storeSeek_copied {result : UInt64} (seek : UInt64) (h : Mapped m result.toNat 8) :
    ∃ m', m.storeSeek result seek = some m' ∧ Copied m result.toNat 8 (bytes64 seek) m' := by
  have hsplit := addr2Page_add_offset result.toNat
  have hoff := offset_lt result.toNat
  rw [storeSeek, page1Sz_eq]
  by_cases hbig : pageSize - offset result.toNat ≥ 8
  · rw [if_pos hbig]
    obtain ⟨m', hm', hcopied⟩ := store_page (n := 8) (addr2Page result.toNat) (offset result.toNat)
      (bytes64 seek) (by omega) (by rw [hsplit]; exact h)
    rw [hsplit] at hcopied
    exact ⟨m', hm', hcopied⟩
  · obtain ⟨k, hk⟩ : ∃ k, k = pageSize - offset result.toNat := ⟨_, rfl⟩
    rw [if_neg hbig, ← hk]
    obtain ⟨m₁, hm₁, hfirst⟩ := store_page (n := k) (addr2Page result.toNat) (offset result.toNat)
      (bytes64 seek) (by omega) (by rw [hsplit]; exact h.mono (show k ≤ 8 by omega))
    rw [hsplit] at hfirst
    have hnext : (addr2Page result.toNat + 1) * pageSize + 0 = result.toNat + k := by
      rw [Nat.add_mul]
      omega
    have hmapped : ∀ x, x < 8 - k →
        (m₁.byte ((addr2Page result.toNat + 1) * pageSize + 0 + x)).isSome := fun x hx => by
      have hx' := h (k + x) (by omega)
      rw [byte_eq] at hx' ⊢
      rw [hfirst.kernelAddr, hnext, Nat.add_assoc]
      exact hfirst.mapped hx'
    obtain ⟨m', hm', hsecond⟩ := store_page (n := 8 - k) (addr2Page result.toNat + 1) 0
      (fun j => bytes64 seek (k + j)) (by simp only [pageSize]; omega) hmapped
    rw [hnext] at hsecond
    have happend := hfirst.append hsecond (distinct_small m _ (by simp only [pageSize]; omega))
    rw [show k + (8 - k) = 8 by omega] at happend
    refine ⟨m', ?_, happend⟩
    rw [hm₁, Option.bind_some, ← Nat.add_zero (m₁.walkupt _ * pageSize)]
    exact hm'

/-! ## The time -/

/-- The bytes of a `TimeVal`. -/
def timeBytes (usec : UInt64) (j : Nat) : UInt8 :=
  if j < 8 then bytes64 (usec / 1000000) j else bytes64 usec (j - 8)

/-- The pages of the process under a `TimeVal` are next to each other in the kernel. -/
def OnePiece (m : UserMemory) (u : Nat) : Prop :=
  offset u + 16 ≤ pageSize ∨ m.walkupt (addr2Page u + 1) = m.walkupt (addr2Page u) + 1

theorem OnePiece.kernelAddr (h : OnePiece m u) {x : Nat} (hx : x < 16) :
    m.kernelAddr (u + x) = m.walkupt (addr2Page u) * pageSize + offset u + x := by
  have hsplit := addr2Page_add_offset u
  by_cases hpage : offset u + x < pageSize
  · rw [← hsplit, Nat.add_assoc, kernelAddr_page hpage, hsplit, Nat.add_assoc]
  · have hnext : m.walkupt (addr2Page u + 1) = m.walkupt (addr2Page u) + 1 :=
      h.resolve_left fun hle => hpage (by omega)
    have haddr : u + x = (addr2Page u + 1) * pageSize + (offset u + x - pageSize) := by
      rw [Nat.add_mul]
      omega
    have hoff := offset_lt u
    rw [haddr, kernelAddr_page (by simp only [pageSize] at *; omega), hnext, Nat.add_mul]
    omega

/-- The two stores, the second word first. -/
theorem patch_timeBytes (f : Nat → Option UInt8) (a : Nat) (usec : UInt64) :
    patch (patch f (a + 8) 8 fun j => some (bytes64 usec j)) a 8
        (fun j => some (bytes64 (usec / 1000000) j)) =
      patch f a 16 fun j => some (timeBytes usec j) := by
  funext x
  by_cases hlt : x < a
  · rw [patch_of_lt hlt, patch_of_lt (by omega), patch_of_lt hlt]
  · obtain ⟨j, rfl⟩ := Nat.exists_eq_add_of_le (Nat.le_of_not_lt hlt)
    by_cases hsec : j < 8
    · rw [patch_add hsec, patch_add (by omega), timeBytes, if_pos hsec]
    · rw [patch_of_ge (by omega)]
      by_cases husec : j < 16
      · obtain ⟨i, rfl⟩ := Nat.exists_eq_add_of_le (Nat.le_of_not_lt hsec)
        rw [← Nat.add_assoc, patch_add (by omega), Nat.add_assoc, patch_add husec, timeBytes,
          if_neg hsec, Nat.add_sub_cancel_left]
      · rw [patch_of_ge (by omega), patch_of_ge (by omega)]

/-- Where the bytes of `sys_get_time` go. -/
theorem sysGetTime_stored {ts usec : UInt64} (h : m.sysGetTime ts usec = some m') :
    Stored m (m.walkupt (addr2Page ts.toNat) * pageSize + offset ts.toNat) 16 (timeBytes usec) m' := by
  rw [sysGetTime] at h
  obtain ⟨m₁, h₁, h₂⟩ := Option.bind_eq_some_iff.mp h
  have husec := stored_of_store h₁
  have hsec := stored_of_store h₂
  refine ⟨hsec.walkupt.trans husec.walkupt, ?_⟩
  rw [hsec.bytes, husec.bytes, patch_timeBytes]

/-- Both words land where they have to be. -/
theorem OnePiece.sysGetTime_lands {ts : UInt64} (h : OnePiece m ts.toNat) (hmapped : Mapped m ts.toNat 16)
    (usec : UInt64) :
    ∃ m', m.sysGetTime ts usec = some m' ∧ Lands m ts.toNat 16 (timeBytes usec) m' := by
  obtain ⟨a, ha⟩ : ∃ a, a = m.walkupt (addr2Page ts.toNat) * pageSize + offset ts.toNat := ⟨_, rfl⟩
  have haddr : ∀ x, x < 16 → m.kernelAddr (ts.toNat + x) = a + x := fun x hx => by
    rw [ha]
    exact h.kernelAddr hx
  have hbytes : ∀ x, x < 16 → (m.kernelByte (a + x)).isSome := fun x hx => by
    have hx' := hmapped x hx
    rw [byte_eq, haddr x hx] at hx'
    exact hx'
  obtain ⟨m₁, h₁, husec⟩ := store_eq (m := m) (a := a + 8) (n := 8) (bytes64 usec) fun x hx => by
    rw [Nat.add_assoc]
    exact hbytes (8 + x) (by omega)
  obtain ⟨m₂, h₂, -⟩ := store_eq (m := m₁) (a := a) (n := 8) (bytes64 (usec / 1000000)) fun x hx => by
    rw [husec.bytes, patch_of_lt (by omega)]
    exact hbytes x (by omega)
  have hrun : m.sysGetTime ts usec = some m₂ := by
    rw [sysGetTime, ← ha, h₁]
    exact h₂
  have hstored := sysGetTime_stored hrun
  rw [← ha] at hstored
  refine ⟨m₂, hrun, fun x hx => ?_, fun y hy => ?_⟩
  · rw [byte_eq, UserMemory.kernelAddr, hstored.walkupt, ← UserMemory.kernelAddr, haddr x hx,
      hstored.bytes, patch_add hx]
  · rw [hstored.bytes]
    by_cases hin : a ≤ y ∧ y < a + 16
    · obtain ⟨x, rfl⟩ := Nat.exists_eq_add_of_le hin.1
      have hx : x < 16 := by omega
      exact absurd (haddr x hx).symm (hy x hx)
    · rw [patch, if_neg hin]

/-- The last byte of a `TimeVal` in two pieces is not stored. -/
theorem sysGetTime_last {ts usec : UInt64} (h : ¬OnePiece m ts.toNat)
    (hrun : m.sysGetTime ts usec = some m') : m'.byte (ts.toNat + 15) = m.byte (ts.toNat + 15) := by
  have hstored := sysGetTime_stored hrun
  rw [OnePiece, not_or] at h
  obtain ⟨hover, hapart⟩ := h
  have hsplit := addr2Page_add_offset ts.toNat
  have hoff := offset_lt ts.toNat
  have haddr : ts.toNat + 15 = (addr2Page ts.toNat + 1) * pageSize + (offset ts.toNat + 15 - pageSize) := by
    rw [Nat.add_mul]
    omega
  have hk : m.kernelAddr (ts.toNat + 15) =
      m.walkupt (addr2Page ts.toNat + 1) * pageSize + (offset ts.toNat + 15 - pageSize) := by
    rw [haddr, kernelAddr_page (by simp only [pageSize] at *; omega)]
  rw [byte_eq, byte_eq, UserMemory.kernelAddr, hstored.walkupt, ← UserMemory.kernelAddr, hstored.bytes,
    patch, if_neg]
  rw [hk]
  simp only [pageSize] at *
  omega

/-! ## Both calls -/

/-- The results of `sys_lseek` and `sys_get_time` at `p` are where the user looks for
them, and no other byte has changed. -/
def ResultsLand (m : UserMemory) (p : UInt64) : Prop :=
  (Mapped m p.toNat 8 → ∀ (σ : Type) (F : FileOps σ) (s : σ) (d : FileDescriptor) (offHigh offLow : UInt64)
    (whence : UInt32), ∃ m' d' code,
      sysLseekUser F s m d offHigh offLow p whence = some (m', d', code) ∧
      (code = 0 → Lands m p.toNat 8 (bytes64 d'.seek) m') ∧ (code ≠ 0 → m' = m)) ∧
  (Mapped m p.toNat 16 → ∀ usec, ∃ m', m.sysGetTime p usec = some m' ∧
    Lands m p.toNat 16 (timeBytes usec) m')

/-- `sys_lseek` stores its result for every process. -/
theorem sysLseekUser_lands {σ : Type} (F : FileOps σ) (s : σ) (d : FileDescriptor)
    (offHigh offLow : UInt64) {p : UInt64} (whence : UInt32) (h : Mapped m p.toNat 8) :
    ∃ m' d' code, sysLseekUser F s m d offHigh offLow p whence = some (m', d', code) ∧
      (code = 0 → Lands m p.toNat 8 (bytes64 d'.seek) m') ∧ (code ≠ 0 → m' = m) := by
  rw [sysLseekUser]
  obtain ⟨⟨d', code⟩, hr⟩ : ∃ r, r = sysLseek F s d offHigh offLow whence := ⟨_, rfl⟩
  rw [← hr]
  by_cases hcode : code = 0
  · obtain ⟨m', hm', hcopied⟩ := storeSeek_copied d'.seek h
    refine ⟨m', d', code, ?_, fun _ => hcopied.lands, fun hne => absurd hcode hne⟩
    rw [if_pos hcode, hm']
    rfl
  · exact ⟨m, d', code, if_neg hcode, fun h0 => absurd h0 hcode, fun _ => rfl⟩

/-- The results land for the objects whose pages are next to each other in the kernel. -/
theorem resultsLand_iff (m : UserMemory) (p : UInt64) :
    ResultsLand m p ↔ (Mapped m p.toNat 16 → OnePiece m p.toNat) := by
  constructor
  · intro h hmapped
    by_contra hpiece
    have hlast : ∀ usec, m.byte (p.toNat + 15) = some (bytes64 usec 7) := fun usec => by
      obtain ⟨m', hrun, hlands⟩ := h.2 hmapped usec
      rw [← sysGetTime_last hpiece hrun]
      exact hlands.result 15 (by decide)
    have hzero := hlast 0
    rw [hlast (2 ^ 56)] at hzero
    exact absurd hzero (by decide)
  · intro h
    refine ⟨fun hmapped σ F s d offHigh offLow whence => ?_, fun hmapped usec => ?_⟩
    · exact sysLseekUser_lands F s d offHigh offLow whence hmapped
    · exact (h hmapped).sysGetTime_lands hmapped usec

/-- Two pages of a process, and a page of another one behind the first of them. -/
def pagesApart : UserMemory where
  walkupt v := if v = 1 then 8 else if v = 2 then 5 else 0
  pages k := if k = 8 ∨ k = 5 ∨ k = 9 then some fun _ => 7 else none

/-- The microseconds go to the other process. -/
theorem time_misplaced :
    ¬ResultsLand pagesApart 0x1ff8 ∧
      (pagesApart.sysGetTime 0x1ff8 0).bind (fun m => m.kernelByte 0x9000) = some 0 := by
  have hbyte : (pagesApart.sysGetTime 0x1ff8 0).bind (fun m => m.byte 0x2000) = some 7 := by decide
  have hmapped : ∀ x, x < 16 → (pagesApart.byte (0x1ff8 + x)).isSome := by decide
  refine ⟨fun h => ?_, by decide⟩
  obtain ⟨m', hrun, hlands⟩ := h.2 hmapped 0
  rw [hrun, Option.bind_some] at hbyte
  exact absurd (hbyte.symm.trans (hlands.result 8 (by decide))) (by decide)

end UserMemory

end Io
