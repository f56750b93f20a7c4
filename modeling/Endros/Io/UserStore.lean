import Endros.Io.UserCopy
import Mathlib.Logic.Function.Basic

/-!
# Copies to user memory

The other direction of `translate_buffer` stores to the kernel pages of a process.
`memcpy` stores one byte after the other, and a byte on a page that the kernel has not
mapped does not return.

`kernelByte` is the memory of the kernel by address, and `store` changes it on an
interval (`store_eq`).  A byte of the process is the byte of the kernel at
`kernelAddr`.  A copy to a range of the process changes the kernel bytes of that range
and no others (`translateOut_eq`).
-/

namespace Io

open Lib Mem

namespace UserMemory

variable (m : UserMemory)

/-! ## Kernel addresses -/

/-- The byte at an address of the kernel. -/
def kernelByte (a : Nat) : Option UInt8 := (m.pages (addr2Page a)).map fun p => p (offset a)

/-- `ADDR`, for the kernel page of a page of the process. -/
def kernelAddr (a : Nat) : Nat := m.walkupt (addr2Page a) * pageSize + offset a

def storeByte (a : Nat) (b : UInt8) : Option UserMemory :=
  (m.pages (addr2Page a)).map fun p =>
    { m with pages := Function.update m.pages (addr2Page a) (some (Function.update p (offset a) b)) }

/-- `memcpy` of `n` bytes to an address of the kernel. -/
def store (a : Nat) : Nat → (Nat → UInt8) → Option UserMemory
  | 0, _ => some m
  | n + 1, data => (store a n data).bind fun m => m.storeByte (a + n) (data n)

/-- The loop of `translate_buffer` from the kernel to the user, with the number of
pages that are left. -/
def translateOutLoop : Nat → Nat → Nat → Nat → Nat → (Nat → UInt8) → UserMemory → Option UserMemory
  | 0, _, _, _, _, _, m => some m
  | n + 1, userVpn, pageOffset, pageMax, pos, buf, m =>
      let tempPage := if pageMax > pageSize then pageSize else pageMax
      let pageMax := if pageMax > pageSize then pageMax - pageSize else pageMax
      (m.store (m.walkupt userVpn * pageSize + pageOffset) (tempPage - pageOffset)
        fun j => buf (pos + j)).bind
        (translateOutLoop n (u64 (userVpn + 1)) 0 pageMax (pos + (tempPage - pageOffset)) buf)

/-- `translate_buffer` without `write`. -/
def translateOut (kernelBuf : Nat → UInt8) (userBuf size : UInt64) : Option UserMemory :=
  let first := addr2Page userBuf.toNat
  let last := addr2PageUp (userBuf + size).toNat
  translateOutLoop (u64 (last + 2 ^ 64 - first)) first (offset userBuf.toNat)
    (u64 (offset userBuf.toNat + size.toNat)) 0 kernelBuf m

variable {m} {m' : UserMemory} {a n x : Nat} {data : Nat → UInt8}

/-- The byte of a process is a byte of the kernel. -/
theorem byte_eq (a : Nat) : m.byte a = m.kernelByte (m.kernelAddr a) := by
  obtain ⟨hpage, hoff⟩ := addr_split (m.walkupt (addr2Page a)) (offset_lt a)
  rw [byte, kernelByte, kernelAddr, hpage, hoff]

/-! ## Stores -/

/-- What a store to an interval of the kernel leaves. -/
structure Stored (m : UserMemory) (a n : Nat) (data : Nat → UInt8) (m' : UserMemory) : Prop where
  walkupt : m'.walkupt = m.walkupt
  bytes : m'.kernelByte = patch m.kernelByte a n fun j => some (data j)

theorem storeByte_stored {b : UInt8} (h : (m.kernelByte a).isSome) :
    ∃ m', m.storeByte a b = some m' ∧ m'.walkupt = m.walkupt ∧
      m'.kernelByte = Function.update m.kernelByte a (some b) := by
  rw [kernelByte, Option.isSome_map, Option.isSome_iff_exists] at h
  obtain ⟨p, hp⟩ := h
  obtain ⟨pages, hpages⟩ : ∃ pages, pages =
    Function.update m.pages (addr2Page a) (some (Function.update p (offset a) b)) := ⟨_, rfl⟩
  refine ⟨⟨m.walkupt, pages⟩, by rw [storeByte, hp, hpages]; rfl, rfl, funext fun x => ?_⟩
  show (pages (addr2Page x)).map _ = _
  rw [hpages]
  by_cases hx : x = a
  · subst hx
    rw [Function.update_self, Function.update_self, Option.map_some, Function.update_self]
  · rw [Function.update_of_ne hx]
    by_cases hpage : addr2Page x = addr2Page a
    · have hoff : offset x ≠ offset a := fun ho => hx (addr_inj hpage ho)
      rw [hpage, Function.update_self, Option.map_some, Function.update_of_ne hoff, kernelByte, hpage,
        hp, Option.map_some]
    · rw [Function.update_of_ne hpage, kernelByte]

/-- A store to bytes that are all mapped. -/
theorem store_eq (data : Nat → UInt8) (h : ∀ x, x < n → (m.kernelByte (a + x)).isSome) :
    ∃ m', m.store a n data = some m' ∧ Stored m a n data m' := by
  induction n with
  | zero => exact ⟨m, rfl, rfl, by rw [patch_zero]⟩
  | succ n ih =>
      obtain ⟨m₁, h₁, hwalk, hbytes⟩ := ih fun x hx => h x (Nat.lt_succ_of_lt hx)
      have hmapped : (m₁.kernelByte (a + n)).isSome := by
        rw [hbytes, patch_of_ge (Nat.le_refl _)]
        exact h n (Nat.lt_succ_self n)
      obtain ⟨m', h', hwalk', hbytes'⟩ := storeByte_stored (b := data n) hmapped
      refine ⟨m', by rw [store, h₁]; exact h', hwalk'.trans hwalk, ?_⟩
      rw [hbytes', hbytes, ← patch_append (g := fun j => some (data j)) n]
      funext x
      by_cases hx : x = a + n
      · rw [hx, Function.update_self, patch_of_mem (Nat.le_refl _) (Nat.lt_succ_self _), Nat.sub_self]
        rfl
      · rw [Function.update_of_ne hx]
        rcases Nat.lt_or_gt_of_ne hx with hlt | hgt
        · exact (patch_of_lt hlt).symm
        · exact (patch_of_ge (Nat.succ_le_of_lt hgt)).symm

/-- A store that returns has all its bytes mapped. -/
theorem mapped_of_store (h : m.store a n data = some m') (hx : x < n) :
    (m.kernelByte (a + x)).isSome := by
  induction n generalizing m' x with
  | zero => exact absurd hx (Nat.not_lt_zero _)
  | succ n ih =>
      rw [store] at h
      obtain ⟨m₁, h₁, h'⟩ := Option.bind_eq_some_iff.mp h
      rcases Nat.lt_succ_iff_lt_or_eq.mp hx with hlt | rfl
      · exact ih h₁ hlt
      · obtain ⟨m₂, h₂, -, hbytes⟩ := store_eq data fun y hy => ih h₁ hy
        cases h₁.symm.trans h₂
        obtain ⟨p, hp, -⟩ := Option.map_eq_some_iff.mp h'
        have hlast : (m₁.kernelByte (a + x)).isSome := by
          rw [kernelByte, hp]
          rfl
        rw [hbytes, patch_of_ge (Nat.le_refl _)] at hlast
        exact hlast

theorem stored_of_store (h : m.store a n data = some m') : Stored m a n data m' := by
  obtain ⟨m₂, h₂, hstored⟩ := store_eq data fun _ => mapped_of_store h
  cases h.symm.trans h₂
  exact hstored

/-! ## Ranges of a process -/

/-- The bytes of a range of the process are changed, and no others of the kernel. -/
structure Copied (m : UserMemory) (u size : Nat) (data : Nat → UInt8) (m' : UserMemory) : Prop where
  walkupt : m'.walkupt = m.walkupt
  range : ∀ x, x < size → m'.kernelByte (m.kernelAddr (u + x)) = some (data x)
  others : ∀ y, (∀ x, x < size → y ≠ m.kernelAddr (u + x)) → m'.kernelByte y = m.kernelByte y

/-- No kernel byte is behind two bytes of the range. -/
def Distinct (m : UserMemory) (u size : Nat) : Prop :=
  ∀ x y, x < size → y < size → m.kernelAddr (u + x) = m.kernelAddr (u + y) → x = y

/-- The addresses on one page. -/
theorem kernelAddr_page {vpn off : Nat} (h : off < pageSize) :
    m.kernelAddr (vpn * pageSize + off) = m.walkupt vpn * pageSize + off := by
  obtain ⟨hpage, hoff⟩ := addr_split vpn h
  rw [kernelAddr, hpage, hoff]

theorem Copied.kernelAddr {u size : Nat} (h : Copied m u size data m') (a : Nat) :
    m'.kernelAddr a = m.kernelAddr a := by
  rw [UserMemory.kernelAddr, UserMemory.kernelAddr, h.walkupt]

theorem Copied.refl (m : UserMemory) (u : Nat) (data : Nat → UInt8) : Copied m u 0 data m :=
  ⟨rfl, fun _ hx => absurd hx (Nat.not_lt_zero _), fun _ _ => rfl⟩

/-- A byte that was mapped still is. -/
theorem Copied.mapped {u size : Nat} (h : Copied m u size data m') {y : Nat}
    (hy : (m.kernelByte y).isSome) : (m'.kernelByte y).isSome := by
  by_cases hin : ∃ x, x < size ∧ y = m.kernelAddr (u + x)
  · obtain ⟨x, hx, rfl⟩ := hin
    rw [h.range x hx]
    rfl
  · rw [h.others y fun x hx he => hin ⟨x, hx, he⟩]
    exact hy

/-- A part of a range and then the rest of it. -/
theorem Copied.append {m'' : UserMemory} {u k size : Nat} (h : Copied m u k data m')
    (h' : Copied m' (u + k) size (fun x => data (k + x)) m'') (hd : Distinct m u (k + size)) :
    Copied m u (k + size) data m'' where
  walkupt := h'.walkupt.trans h.walkupt
  range x hx := by
    by_cases hk : x < k
    · rw [h'.others, h.range x hk]
      intro y hy he
      rw [h.kernelAddr, Nat.add_assoc] at he
      have := hd x (k + y) hx (by omega) he
      omega
    · obtain ⟨y, rfl⟩ := Nat.exists_eq_add_of_le (Nat.le_of_not_lt hk)
      have hrange := h'.range y (by omega)
      rw [h.kernelAddr, Nat.add_assoc] at hrange
      exact hrange
  others y hy := by
    rw [h'.others y, h.others y]
    · exact fun x hx => hy x (by omega)
    · intro x hx he
      rw [h.kernelAddr, Nat.add_assoc] at he
      exact hy (k + x) (by omega) he

/-- A store to bytes that lie on one page. -/
theorem store_page (vpn off : Nat) (data : Nat → UInt8) (hle : off + n ≤ pageSize)
    (hmapped : ∀ x, x < n → (m.byte (vpn * pageSize + off + x)).isSome) :
    ∃ m', m.store (m.walkupt vpn * pageSize + off) n data = some m' ∧
      Copied m (vpn * pageSize + off) n data m' := by
  have haddr : ∀ x, x < n → m.kernelAddr (vpn * pageSize + off + x) =
      m.walkupt vpn * pageSize + off + x := fun x hx => by
    rw [Nat.add_assoc, kernelAddr_page (by omega), Nat.add_assoc]
  have hbyte : ∀ x, x < n → (m.kernelByte (m.walkupt vpn * pageSize + off + x)).isSome := fun x hx => by
    have h := hmapped x hx
    rw [byte_eq, haddr x hx] at h
    exact h
  obtain ⟨m', hm', hwalk, hbytes⟩ := store_eq data hbyte
  refine ⟨m', hm', hwalk, fun x hx => ?_, fun y hy => ?_⟩
  · rw [haddr x hx, hbytes, patch_add hx]
  · rw [hbytes]
    by_cases hin : m.walkupt vpn * pageSize + off ≤ y ∧ y < m.walkupt vpn * pageSize + off + n
    · obtain ⟨x, rfl⟩ := Nat.exists_eq_add_of_le hin.1
      have hx : x < n := by omega
      exact absurd (haddr x hx).symm (hy x hx)
    · rw [patch, if_neg hin]

/-- The loop stores the rest of the range. -/
theorem translateOutLoop_eq {n vpn off size : Nat} (pos : Nat) (buf : Nat → UInt8) (hoff : off < pageSize)
    (hn : vpn + n = addr2PageUp (vpn * pageSize + off + size)) (hlt : vpn + n < 2 ^ 64)
    (hmapped : ∀ x, x < size → (m.byte (vpn * pageSize + off + x)).isSome)
    (hd : Distinct m (vpn * pageSize + off) size) :
    ∃ m', translateOutLoop n vpn off (off + size) pos buf m = some m' ∧
      Copied m (vpn * pageSize + off) size (fun x => buf (pos + x)) m' := by
  induction n generalizing m vpn off size pos with
  | zero =>
      have hup := le_addr2PageUp (vpn * pageSize + off + size)
      have hsize : size = 0 := by
        rw [← hn, Nat.add_zero] at hup
        omega
      subst hsize
      exact ⟨m, rfl, .refl m _ _⟩
  | succ n ih =>
      rw [translateOutLoop]
      by_cases hmore : off + size > pageSize
      · -- the rest of this page, and then the pages behind it
        obtain ⟨rest, hrest⟩ : ∃ rest, size = (pageSize - off) + rest :=
          ⟨size - (pageSize - off), by omega⟩
        have hnext : off + size - pageSize = 0 + rest := by omega
        have hstart : (vpn + 1) * pageSize + 0 = vpn * pageSize + off + (pageSize - off) := by
          rw [Nat.add_mul]
          omega
        have hlast : vpn + 1 + n = addr2PageUp ((vpn + 1) * pageSize + 0 + rest) := by
          rw [hstart, Nat.add_assoc (vpn * pageSize + off), ← hrest, ← hn]
          omega
        obtain ⟨m₁, hm₁, hpart⟩ := store_page vpn off (fun x => buf (pos + x)) (n := pageSize - off)
          (by omega) fun x hx => hmapped x (by omega)
        have hmapped' : ∀ x, x < rest → (m₁.byte ((vpn + 1) * pageSize + 0 + x)).isSome := fun x hx => by
          have h := hmapped (pageSize - off + x) (by omega)
          rw [byte_eq] at h ⊢
          rw [hpart.kernelAddr, hstart, Nat.add_assoc (vpn * pageSize + off)]
          exact hpart.mapped h
        have hd' : Distinct m₁ ((vpn + 1) * pageSize + 0) rest := fun x y hx hy he => by
          rw [hpart.kernelAddr, hpart.kernelAddr, hstart, Nat.add_assoc (vpn * pageSize + off),
            Nat.add_assoc (vpn * pageSize + off)] at he
          have := hd _ _ (by omega) (by omega) he
          omega
        obtain ⟨m', hm', hrestCopied⟩ : ∃ m', translateOutLoop n (vpn + 1) 0 (0 + rest)
            (pos + (pageSize - off)) buf m₁ = some m' ∧ Copied m₁ ((vpn + 1) * pageSize + 0) rest
            (fun x => buf (pos + (pageSize - off) + x)) m' :=
          ih _ (by decide) hlast (by omega) hmapped' hd'
        refine ⟨m', ?_, ?_⟩
        · rw [if_pos hmore, if_pos hmore, hm₁, Option.bind_some, u64_of_lt (by omega), hnext]
          exact hm'
        · rw [hstart] at hrestCopied
          subst hrest
          refine hpart.append ?_ hd
          simp only [Nat.add_assoc] at hrestCopied ⊢
          exact hrestCopied
      · -- the last page
        have hup := addr2PageUp_lt (vpn * pageSize + off + size)
        have hlast : n = 0 := by
          rw [← hn, Nat.add_mul] at hup
          simp only [pageSize] at *
          omega
        obtain ⟨m₁, hm₁, hcopied⟩ := store_page vpn off (fun x => buf (pos + x)) (by omega) hmapped
        subst hlast
        refine ⟨m₁, ?_, hcopied⟩
        rw [if_neg hmore, if_neg hmore, Nat.add_sub_cancel_left, hm₁]
        rfl

/-- The copy leaves the tables alone. -/
theorem translateOut_walkupt {kernelBuf : Nat → UInt8} {userBuf size : UInt64}
    (h : m.translateOut kernelBuf userBuf size = some m') : m'.walkupt = m.walkupt := by
  have hloop : ∀ n vpn off size pos (m : UserMemory),
      translateOutLoop n vpn off size pos kernelBuf m = some m' → m'.walkupt = m.walkupt := by
    intro n
    induction n with
    | zero =>
        intro vpn off size pos m h
        cases h
        rfl
    | succ n ih =>
        intro vpn off size pos m h
        obtain ⟨m₁, h₁, h⟩ := Option.bind_eq_some_iff.mp h
        exact (ih _ _ _ _ m₁ h).trans (stored_of_store h₁).walkupt
  exact hloop _ _ _ _ _ m h

/-- The pages of a range have kernel pages of their own. -/
def DistinctPages (m : UserMemory) (u size : Nat) : Prop :=
  ∀ x y, x < size → y < size → m.walkupt (addr2Page (u + x)) = m.walkupt (addr2Page (u + y)) →
    addr2Page (u + x) = addr2Page (u + y)

theorem DistinctPages.distinct {u size : Nat} (h : DistinctPages m u size) : Distinct m u size := by
  intro x y hx hy he
  rw [UserMemory.kernelAddr, UserMemory.kernelAddr] at he
  obtain ⟨hp, ho⟩ := addr_split (m.walkupt (addr2Page (u + x))) (offset_lt (u + x))
  obtain ⟨hp', ho'⟩ := addr_split (m.walkupt (addr2Page (u + y))) (offset_lt (u + y))
  have hwalk : m.walkupt (addr2Page (u + x)) = m.walkupt (addr2Page (u + y)) := by
    rw [← hp, ← hp', he]
  have hoff : offset (u + x) = offset (u + y) := by rw [← ho, ← ho', he]
  exact Nat.add_left_cancel (addr_inj (h x y hx hy hwalk) hoff)

/-- The copy to a range that does not wrap. -/
theorem translateOut_eq (kernelBuf : Nat → UInt8) {userBuf size : UInt64}
    (hlt : userBuf.toNat + size.toNat < 2 ^ 64)
    (hmapped : ∀ x, x < size.toNat → (m.byte (userBuf.toNat + x)).isSome)
    (hd : Distinct m userBuf.toNat size.toNat) :
    ∃ m', m.translateOut kernelBuf userBuf size = some m' ∧
      Copied m userBuf.toNat size.toNat kernelBuf m' := by
  obtain ⟨n, hcount, hn, hlast, hmax⟩ := range_pages hlt
  have hstart := addr2Page_add_offset userBuf.toNat
  obtain ⟨m', hm', hcopied⟩ := translateOutLoop_eq 0 kernelBuf (offset_lt _) hn hlast
    (by rw [hstart]; exact hmapped) (by rw [hstart]; exact hd)
  rw [hstart] at hcopied
  simp only [Nat.zero_add] at hcopied
  refine ⟨m', ?_, hcopied⟩
  rw [translateOut, hcount, hmax]
  exact hm'

/-- Copies are exact in both directions, and the second gives back what the first
copied. -/
theorem translate_exact (m : UserMemory) (kernelBuf other : Nat → UInt8) (userBuf size : UInt64)
    (hlt : userBuf.toNat + size.toNat < 2 ^ 64)
    (hmapped : ∀ x, x < size.toNat → (m.byte (userBuf.toNat + x)).isSome)
    (hd : DistinctPages m userBuf.toNat size.toNat) :
    (∃ m', m.translateOut kernelBuf userBuf size = some m' ∧
      (∀ x, x < size.toNat → m'.byte (userBuf.toNat + x) = some (kernelBuf x)) ∧
      (∀ y, (∀ x, x < size.toNat → y ≠ m.kernelAddr (userBuf.toNat + x)) →
        m'.kernelByte y = m.kernelByte y) ∧
      ∃ buf, m'.translateBuffer other userBuf size = some buf ∧
        (∀ x, x < size.toNat → buf x = kernelBuf x) ∧ ∀ x, size.toNat ≤ x → buf x = other x) ∧
    ∃ buf, m.translateBuffer kernelBuf userBuf size = some buf ∧
      (∀ x, x < size.toNat → m.byte (userBuf.toNat + x) = some (buf x)) ∧
      ∀ x, size.toNat ≤ x → buf x = kernelBuf x := by
  obtain ⟨m', hm', hcopied⟩ := translateOut_eq kernelBuf hlt hmapped hd.distinct
  have hbytes : ∀ x, x < size.toNat → m'.byte (userBuf.toNat + x) = some (kernelBuf x) := by
    intro x hx
    rw [byte_eq, hcopied.kernelAddr]
    exact hcopied.range x hx
  refine ⟨⟨m', hm', hbytes, hcopied.others, _, translateBuffer_eq hlt hbytes, fun x hx => ?_,
    fun x hx => ?_⟩, ?_⟩
  · rw [patch_of_mem (Nat.zero_le x) (by omega), Nat.sub_zero]
  · exact patch_of_ge (by omega)
  · have hdata : ∀ x, x < size.toNat → m.byte (userBuf.toNat + x) =
        some ((m.byte (userBuf.toNat + x)).getD 0) := by
      intro x hx
      obtain ⟨b, hb⟩ := Option.isSome_iff_exists.mp (hmapped x hx)
      rw [hb]
      rfl
    refine ⟨_, translateBuffer_eq hlt hdata, fun x hx => ?_, fun x hx => ?_⟩
    · rw [patch_of_mem (Nat.zero_le x) (by omega), Nat.sub_zero]
      exact hdata x hx
    · exact patch_of_ge (by omega)

/-- Two pages whose kernel pages are apart. -/
def twoPages : UserMemory where
  walkupt v := if v = 1 then 8 else if v = 2 then 5 else 0
  pages k := if k = 8 ∨ k = 5 then some fun _ => 7 else none

/-- A copy that starts on the first page and ends on the second. -/
theorem translate_exact_two_pages :
    (∃ m', twoPages.translateOut UInt8.ofNat 0x1ffc 8 = some m' ∧
      (∀ x, x < 8 → m'.byte (0x1ffc + x) = some (UInt8.ofNat x)) ∧
      (∀ y, (∀ x, x < 8 → y ≠ twoPages.kernelAddr (0x1ffc + x)) →
        m'.kernelByte y = twoPages.kernelByte y) ∧
      ∃ buf, m'.translateBuffer (fun _ => 1) 0x1ffc 8 = some buf ∧
        (∀ x, x < 8 → buf x = UInt8.ofNat x) ∧ ∀ x, 8 ≤ x → buf x = 1) ∧
    ∃ buf, twoPages.translateBuffer UInt8.ofNat 0x1ffc 8 = some buf ∧
      (∀ x, x < 8 → twoPages.byte (0x1ffc + x) = some (buf x)) ∧
      ∀ x, 8 ≤ x → buf x = UInt8.ofNat x := by
  have hpages : ∀ x, x < 8 → ∀ y, y < 8 → twoPages.walkupt (addr2Page (0x1ffc + x)) =
      twoPages.walkupt (addr2Page (0x1ffc + y)) → addr2Page (0x1ffc + x) = addr2Page (0x1ffc + y) := by
    decide
  exact translate_exact twoPages UInt8.ofNat (fun _ => 1) 0x1ffc 8 (by decide) (by decide)
    fun x y hx hy => hpages x hx y hy

end UserMemory

end Io
