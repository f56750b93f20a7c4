import Endros.Io.UserStore
import Endros.Lib.Word
import Endros.Space.Copy
import Endros.Space.Free

/-!
# User memory in an address space

`Io.UserMemory` has the bytes of kernel pages, and `Memory` has the words of frames.  The
kernel stores to user memory through the kernel pages of a process, and the frames behind
them are different.  So as long as only pages of the process are stored to, both can be
used for the same memory (`Showing`), and what `translate_buffer` does to the one it does
to the other (`Showing.translateOut`).
-/

namespace Space

open Lib Paging Mem Io

variable {ω : Type} {A : Allocator ω}

/-! ## Bytes of pages -/

/-- The word that has a byte of a page. -/
def wordOf (k : Nat) : Fin 512 := Fin.ofNat 512 (k / 8)

/-- The byte of a page. -/
def pageByte (words : Fin 512 → UInt64) (k : Nat) : UInt8 := bytes64 (words (wordOf k)) (k % 8)

theorem wordOf_val {k : Nat} (hk : k < pageSize) : (wordOf k).val = k / 8 := by
  simp only [pageSize] at hk
  exact Nat.mod_eq_of_lt (by omega)

theorem wordOf_eq_iff {k l : Nat} (hk : k < pageSize) (hl : l < pageSize) :
    wordOf k = wordOf l ↔ k / 8 = l / 8 := by
  rw [Fin.ext_iff, wordOf_val hk, wordOf_val hl]

/-- A word of the page is written. -/
theorem pageByte_update (words : Fin 512 → UInt64) (w : UInt64) {k l : Nat} (hk : k < pageSize)
    (hl : l < pageSize) : pageByte (Function.update words (wordOf k) w) l =
      if l / 8 = k / 8 then bytes64 w (l % 8) else pageByte words l := by
  rw [pageByte]
  split
  · rename_i he
    rw [(wordOf_eq_iff hl hk).mpr he, Function.update_self]
  · rename_i hne
    rw [Function.update_of_ne fun he => hne ((wordOf_eq_iff hl hk).mp he), pageByte]

/-! ## Stores -/

/-- What the kernel sees of a process.  The kernel page `0` is not mapped. -/
def view (A : Allocator ω) (s : Memory ω) (r : Root) : UserMemory where
  walkupt v := walkupt s r.ref v
  pages k := if k = 0 then none else some (pageByte (s.mem (A.frame s.heap k)))

/-- A store to a byte of the kernel. -/
def Memory.storeByte (A : Allocator ω) (s : Memory ω) (a : Nat) (b : UInt8) : Option (Memory ω) :=
  let i := wordOf (offset a)
  if addr2Page a = 0 then none
  else some (s.store A (addr2Page a) i (setByte64 (s.load A (addr2Page a) i) (offset a % 8) b))

/-- `memcpy` of `n` bytes to an address of the kernel. -/
def Memory.storeBytes (A : Allocator ω) (s : Memory ω) (a : Nat) :
    Nat → (Nat → UInt8) → Option (Memory ω)
  | 0, _ => some s
  | n + 1, data => (s.storeBytes A a n data).bind fun s => s.storeByte A (a + n) (data n)

/-- The loop of `translate_buffer` from the kernel to the user, with the number of pages
that are left. -/
def translateOutLoop (A : Allocator ω) (r : Root) :
    Nat → Nat → Nat → Nat → Nat → (Nat → UInt8) → Memory ω → Option (Memory ω)
  | 0, _, _, _, _, _, s => some s
  | n + 1, userVpn, pageOffset, pageMax, pos, buf, s =>
      let tempPage := if pageMax > pageSize then pageSize else pageMax
      let pageMax := if pageMax > pageSize then pageMax - pageSize else pageMax
      (s.storeBytes A (walkupt s r.ref userVpn * pageSize + pageOffset) (tempPage - pageOffset)
        fun j => buf (pos + j)).bind
        (translateOutLoop A r n (u64 (userVpn + 1)) 0 pageMax (pos + (tempPage - pageOffset)) buf)

/-- `translate_buffer` without `write`. -/
def translateOut (A : Allocator ω) (s : Memory ω) (r : Root) (kernelBuf : Nat → UInt8)
    (userBuf size : UInt64) : Option (Memory ω) :=
  let first := addr2Page userBuf.toNat
  let last := addr2PageUp (userBuf + size).toNat
  translateOutLoop A r (u64 (last + 2 ^ 64 - first)) first (offset userBuf.toNat)
    (u64 (offset userBuf.toNat + size.toNat)) 0 kernelBuf s

theorem Memory.storeBytes_heap {s s' : Memory ω} {a n : Nat} {data : Nat → UInt8}
    (h : s.storeBytes A a n data = some s') : s'.heap = s.heap := by
  induction n generalizing s' with
  | zero =>
      cases h
      rfl
  | succ n ih =>
      obtain ⟨s₁, h₁, h⟩ := Option.bind_eq_some_iff.mp h
      rw [Memory.storeByte] at h
      split at h
      · cases h
      · cases h
        have hheap := ih h₁
        exact hheap

/-- `translate_buffer` does not allocate anything. -/
theorem translateOut_heap {s s' : Memory ω} {r : Root} {buf : Nat → UInt8} {userBuf size : UInt64}
    (h : translateOut A s r buf userBuf size = some s') : s'.heap = s.heap := by
  have hloop : ∀ n vpn off size pos (s : Memory ω),
      translateOutLoop A r n vpn off size pos buf s = some s' → s'.heap = s.heap := by
    intro n
    induction n with
    | zero =>
        intro vpn off size pos s h
        cases h
        rfl
    | succ n ih =>
        intro vpn off size pos s h
        obtain ⟨s₁, h₁, h⟩ := Option.bind_eq_some_iff.mp h
        exact (ih _ _ _ _ _ h).trans (Memory.storeBytes_heap h₁)
  exact hloop _ _ _ _ _ _ h

/-! ## Regions of the kernel -/

section Regions

variable {V : Lawful A} {s s' : Memory ω} {r : Root} {trampoline : UInt64} {T Q R R' : Footprint}
  {b n : Nat}

/-- A region is taken for something else. -/
theorem Built.kalloc_rest (h : Built V s r trampoline T Q R) (hn : 1 ≤ n)
    (hk : s.kalloc A n = some (b, s')) :
    Built V s' r trampoline T Q (R.addRef b n) ∧ Same s s' (T.union (Q.union R)) ∧
      leafAt s' r = leafAt s r ∧ ∀ a ∈ (T.union (Q.union R)).refs, a.1 ≠ b := by
  obtain ⟨hb, hsame, hleaf, -⟩ := h.kalloc hn hk
  have hnew : ∀ a ∈ (T.union (Q.union R)).refs, a.1 ≠ b := by
    obtain ⟨⟨b', w⟩, hA, he⟩ := Option.map_eq_some_iff.1 hk
    cases he
    exact (V.kalloc h.own.valid hn hA).1
  have hown := hb.own
  rw [Footprint.union_addRef, ← Footprint.addRef_union] at hown
  refine ⟨⟨hown, ⟨h.apart.pages, ?_⟩, hb.tree, hb.leaves⟩, hsame, hleaf, hnew⟩
  rintro a ha a' (rfl | ha')
  · exact hnew a (.inr (.inl ha))
  · exact h.apart.refs a ha a' ha'

/-- A region of something else is given back. -/
theorem Built.kfree_rest (h : Built V s r trampoline T Q R) (hb : (b, n) ∈ R.refs) (hR : R'.Le R)
    (hnot : (b, n) ∉ R'.refs) : Built V (s.kfree A b n) r trampoline T Q R' := by
  have hv := V.kfree h.own.valid (.inr (.inr hb))
  have hsame : Same s (s.kfree A b n) T := ⟨fun _ _ => rfl, fun _ _ => rfl, fun _ _ => rfl⟩
  refine ⟨.of (V.mono hv ?_ ?_) ?_, h.apart.mono (.refl Q) hR, h.tree.congr hsame,
    h.tree.leafAt_congr hsame ▸ h.leaves⟩
  · exact fun p hp => hp.imp id fun hp => hp.imp id fun hp => hR.pages hp
  · rintro a (ha | ha | ha)
    · exact ⟨.inl ha, fun he => h.own.refs a ha _ (.inr hb) (congrArg Prod.fst he)⟩
    · exact ⟨.inr (.inl ha), fun he => h.apart.refs a ha _ hb (congrArg Prod.fst he)⟩
    · exact ⟨.inr (.inr (hR.refs ha)), fun he => hnot (he ▸ ha)⟩
  · exact h.own.apart_parts.mono (.refl T) (Footprint.union_mono (.refl Q) hR)

end Regions

/-! ## The same memory -/

/-- The bytes of the pages of the process are the same in both, and the kernel sees no
others. -/
structure Showing (V : Lawful A) (s : Memory ω) (r : Root) (trampoline : UInt64) (T Q R : Footprint)
    (m : UserMemory) : Prop where
  built : Built V s r trampoline T Q R
  walkupt : ∀ v, m.walkupt v = (leafAt s r (slotOf v)).2
  page : ∀ p ∈ Q.pages, ∀ k, k < pageSize →
    m.kernelByte (p.vpn * pageSize + k) = some (pageByte (s.mem p.pfn) k)
  only : ∀ a, (m.kernelByte a).isSome → ∃ p ∈ Q.pages, p.vpn = addr2Page a

section Showing

variable {V : Lawful A} {s s' : Memory ω} {r : Root} {trampoline : UInt64} {T Q R : Footprint}
  {m m' : UserMemory} {p q : Page} {a n : Nat} {data : Nat → UInt8}

/-- Every address space can be seen as user memory. -/
theorem Built.showing (h : Built V s r trampoline T Q R) :
    ∃ m, Showing V s r trampoline T Q R m := by
  classical
  obtain ⟨m, hm⟩ : ∃ m : UserMemory, m = ⟨Space.walkupt s r.ref, fun k =>
    if ∃ p ∈ Q.pages, p.vpn = k then some (pageByte (s.mem (A.frame s.heap k))) else none⟩ := ⟨_, rfl⟩
  have hkernel : ∀ a, m.kernelByte a = if ∃ p ∈ Q.pages, p.vpn = addr2Page a then
      some (pageByte (s.mem (A.frame s.heap (addr2Page a))) (offset a)) else none := by
    intro a
    rw [UserMemory.kernelByte, hm]
    dsimp only
    split <;> rfl
  refine ⟨m, h, fun v => ?_, fun p hp k hk => ?_, fun a ha => ?_⟩
  · rw [hm, ← h.tree.walkupt_eq]
  · obtain ⟨hpage, hoff⟩ := addr_split p.vpn hk
    rw [hkernel, hpage, hoff, if_pos ⟨p, hp, rfl⟩, (h.good hp).2.2]
  · rw [hkernel] at ha
    by_contra hno
    rw [if_neg hno] at ha
    cases ha

/-- The kernel page of a page is a page of the process. -/
theorem Showing.held (h : Showing V s r trampoline T Q R m) {v : Nat}
    (hne : Space.walkupt s r.ref v ≠ 0) :
    ∃ q ∈ Q.pages, Space.walkupt s r.ref v = q.vpn ∧ m.walkupt v = q.vpn := by
  have hleaf := h.built.tree.walkupt_eq v
  rw [hleaf] at hne
  exact ⟨_, h.built.leaves.held _ hne, hleaf, h.walkupt v⟩

/-- A word of a page of the process is written, and `m'` has the bytes of the page. -/
theorem Showing.store (h : Showing V s r trampoline T Q R m) (hq : q ∈ Q.pages) {o : Nat}
    (ho : o < pageSize) {w : UInt64} (hwalk : m'.walkupt = m.walkupt)
    (hsame : ∀ a, addr2Page a ≠ q.vpn → m'.kernelByte a = m.kernelByte a)
    (hpage : ∀ k, k < pageSize → m'.kernelByte (q.vpn * pageSize + k) =
      some (if k / 8 = o / 8 then bytes64 w (k % 8) else pageByte (s.mem q.pfn) k)) :
    Showing V (s.store A q.vpn (wordOf o) w) r trampoline T Q R m' := by
  obtain ⟨hb, -, hleaf, hself, hother⟩ := h.built.store hq (wordOf o) w
  refine ⟨hb, fun v => ?_, fun p hp k hk => ?_, fun a ha => ?_⟩
  · rw [hwalk, hleaf, h.walkupt]
  · by_cases hpq : p = q
    · rw [hpq, hpage k hk, hself, pageByte_update _ _ ho hk]
    · have hvpn : p.vpn ≠ q.vpn := fun he =>
        hpq (V.page_eq h.built.own.valid (.inr (.inl hp)) (.inr (.inl hq)) he)
      rw [hsame _ (by rw [(addr_split p.vpn hk).1]; exact hvpn), h.page p hp k hk, hother p hp hpq]
  · by_cases haq : addr2Page a = q.vpn
    · exact ⟨q, hq, haq.symm⟩
    · rw [hsame a haq] at ha
      exact h.only a ha

/-- A byte is stored. -/
theorem Showing.storeByte {b : UInt8} (h : Showing V s r trampoline T Q R m)
    (hm : m.storeByte a b = some m') :
    ∃ s', s.storeByte A a b = some s' ∧ s'.heap = s.heap ∧ Showing V s' r trampoline T Q R m' := by
  have hsome : (m.kernelByte a).isSome := by
    obtain ⟨f, hf, -⟩ := Option.map_eq_some_iff.mp hm
    rw [UserMemory.kernelByte, hf]
    rfl
  obtain ⟨m₁, hm₁, hwalk, hbytes⟩ := UserMemory.storeByte_stored (b := b) hsome
  cases hm.symm.trans hm₁
  obtain ⟨q, hq, hvpn⟩ := h.only a hsome
  obtain ⟨hne, -, hframe⟩ := h.built.good hq
  have hload : s.load A q.vpn (wordOf (offset a)) = s.mem q.pfn (wordOf (offset a)) := by
    rw [Memory.load, hframe]
  have haddr : a = q.vpn * pageSize + offset a := by
    rw [hvpn, addr2Page_add_offset]
  refine ⟨s.store A q.vpn (wordOf (offset a)) (setByte64 (s.mem q.pfn (wordOf (offset a)))
    (offset a % 8) b), ?_, rfl, h.store hq (offset_lt a) hwalk (fun x hx => ?_) fun k hk => ?_⟩
  · rw [Memory.storeByte, ← hvpn, if_neg hne, hload]
  · rw [hbytes, Function.update_of_ne fun he => hx (by rw [he, hvpn])]
  · have hlt := offset_lt a
    rw [bytes64_setByte64 _ _ _ (Nat.mod_lt _ (by decide)), hbytes]
    by_cases hk' : k = offset a
    · rw [if_pos (by rw [hk']), if_pos (by rw [hk']), hk', ← haddr, Function.update_self]
    · have hother : q.vpn * pageSize + k ≠ a := by
        rw [haddr]
        omega
      rw [Function.update_of_ne hother, h.page q hq k hk]
      split
      · rename_i hdiv
        rw [if_neg (by omega), pageByte, (wordOf_eq_iff hk hlt).mpr hdiv]
      · rfl

/-- Bytes are stored. -/
theorem Showing.storeBytes (h : Showing V s r trampoline T Q R m)
    (hm : m.store a n data = some m') :
    ∃ s', s.storeBytes A a n data = some s' ∧ s'.heap = s.heap ∧
      Showing V s' r trampoline T Q R m' := by
  induction n generalizing m' with
  | zero =>
      cases hm
      exact ⟨s, rfl, rfl, h⟩
  | succ n ih =>
      obtain ⟨m₁, hm₁, hm⟩ := Option.bind_eq_some_iff.mp hm
      obtain ⟨s₁, hs₁, hheap₁, h₁⟩ := ih hm₁
      obtain ⟨s', hs', hheap, h'⟩ := h₁.storeByte hm
      exact ⟨s', Option.bind_eq_some_iff.mpr ⟨s₁, hs₁, hs'⟩, hheap.trans hheap₁, h'⟩

/-- A word is stored. -/
theorem Showing.storeWord {w : UInt64} (h : Showing V s r trampoline T Q R m) (ha : a % 8 = 0)
    (hm : m.store a 8 (bytes64 w) = some m') :
    addr2Page a ≠ 0 ∧
      Showing V (s.store A (addr2Page a) (wordOf (offset a)) w) r trampoline T Q R m' := by
  obtain ⟨q, hq, hvpn⟩ := h.only a (UserMemory.mapped_of_store hm (x := 0) (by decide))
  have hstored := UserMemory.stored_of_store hm
  have hlt := offset_lt a
  have hoff : offset a % 8 = 0 := by
    simp only [offset, pageSize]
    omega
  have haddr : a = q.vpn * pageSize + offset a := by
    rw [hvpn, addr2Page_add_offset]
  rw [← hvpn]
  refine ⟨(h.built.good hq).1, h.store hq hlt hstored.walkupt (fun x hx => ?_) fun k hk => ?_⟩
  · rw [hstored.bytes]
    have hout : x < a ∨ a + 8 ≤ x := by
      by_contra hin
      refine hx ?_
      rw [hvpn]
      simp only [addr2Page, pageSize] at *
      omega
    exact hout.elim patch_of_lt patch_of_ge
  · rw [hstored.bytes]
    split
    · rename_i hdiv
      rw [patch_of_mem (by omega) (by omega)]
      exact congrArg (fun j => some (bytes64 w j)) (by omega)
    · rename_i hdiv
      have hout : q.vpn * pageSize + k < a ∨ a + 8 ≤ q.vpn * pageSize + k := by omega
      rw [hout.elim patch_of_lt patch_of_ge, h.page q hq k hk]

/-- A word of a page of the process can be stored. -/
theorem Showing.storeAt (h : Showing V s r trampoline T Q R m) (hq : q ∈ Q.pages) {o : Nat}
    (ho : o < pageSize) (hw : o % 8 = 0) (w : UInt64) :
    ∃ m', m.store (q.vpn * pageSize + o) 8 (bytes64 w) = some m' ∧
      Showing V (s.store A q.vpn (wordOf o) w) r trampoline T Q R m' := by
  have hmapped : ∀ x, x < 8 → (m.kernelByte (q.vpn * pageSize + o + x)).isSome := by
    intro x hx
    have hbyte := h.page q hq (o + x) (by simp only [pageSize] at *; omega)
    rw [Nat.add_assoc]
    exact Option.isSome_iff_exists.mpr ⟨_, hbyte⟩
  obtain ⟨m', hm, -⟩ := UserMemory.store_eq (bytes64 w) hmapped
  obtain ⟨-, h'⟩ := h.storeWord (by simp only [pageSize]; omega) hm
  obtain ⟨hpage, hoff⟩ := addr_split q.vpn ho
  rw [hpage, hoff] at h'
  exact ⟨m', hm, h'⟩

/-- A store to the kernel page of a page that returns is one that the kernel sees. -/
theorem Showing.storeBytes_of {vpn off : Nat} (h : Showing V s r trampoline T Q R m)
    (hle : off + n ≤ pageSize)
    (hs : s.storeBytes A (Space.walkupt s r.ref vpn * pageSize + off) n data = some s') :
    ∃ m', m.store (Space.walkupt s r.ref vpn * pageSize + off) n data = some m' ∧
      Showing V s' r trampoline T Q R m' := by
  have hmapped : ∀ x, x < n →
      (m.kernelByte (Space.walkupt s r.ref vpn * pageSize + off + x)).isSome := by
    intro x hx
    have hne : Space.walkupt s r.ref vpn ≠ 0 := by
      -- the first byte is stored
      have hfirst : ∀ k s', s.storeBytes A (Space.walkupt s r.ref vpn * pageSize + off) (k + 1) data =
          some s' → addr2Page (Space.walkupt s r.ref vpn * pageSize + off) ≠ 0 := by
        intro k
        induction k with
        | zero =>
            intro s' hk hzero
            rw [Memory.storeBytes, Memory.storeBytes, Option.bind_some, Memory.storeByte, Nat.add_zero,
              if_pos hzero] at hk
            cases hk
        | succ k ih =>
            intro s' hk
            obtain ⟨s₁, h₁, -⟩ := Option.bind_eq_some_iff.mp hk
            exact ih s₁ h₁
      obtain ⟨k, rfl⟩ := Nat.exists_eq_succ_of_ne_zero (Nat.ne_of_gt (Nat.zero_lt_of_lt hx))
      have hpage := hfirst k s' hs
      rwa [(addr_split _ (by omega)).1] at hpage
    obtain ⟨q, hq, hvpn, -⟩ := h.held hne
    rw [hvpn, Nat.add_assoc]
    have hbyte := h.page q hq (off + x) (by omega)
    exact Option.isSome_iff_exists.mpr ⟨_, hbyte⟩
  obtain ⟨m', hm, -⟩ := UserMemory.store_eq data hmapped
  obtain ⟨s₁, hs₁, -, h'⟩ := h.storeBytes hm
  cases hs.symm.trans hs₁
  exact ⟨m', hm, h'⟩

/-- The loop of `translate_buffer`. -/
theorem Showing.translateOutLoop {vpn off size pos : Nat} {buf : Nat → UInt8}
    (h : Showing V s r trampoline T Q R m)
    (hm : UserMemory.translateOutLoop n vpn off size pos buf m = some m') :
    ∃ s', translateOutLoop A r n vpn off size pos buf s = some s' ∧ s'.heap = s.heap ∧
      Showing V s' r trampoline T Q R m' := by
  induction n generalizing s m vpn off size pos with
  | zero =>
      cases hm
      exact ⟨s, rfl, rfl, h⟩
  | succ n ih =>
      obtain ⟨m₁, hm₁, hm⟩ := Option.bind_eq_some_iff.mp hm
      rw [h.walkupt, ← h.built.tree.walkupt_eq] at hm₁
      obtain ⟨s₁, hs₁, hheap₁, h₁⟩ := h.storeBytes hm₁
      obtain ⟨s', hs', hheap, h'⟩ := ih h₁ hm
      exact ⟨s', Option.bind_eq_some_iff.mpr ⟨s₁, hs₁, hs'⟩, hheap.trans hheap₁, h'⟩

/-- `translate_buffer` does the same to both. -/
theorem Showing.translateOut {buf : Nat → UInt8} {userBuf size : UInt64}
    (h : Showing V s r trampoline T Q R m) (hm : m.translateOut buf userBuf size = some m') :
    ∃ s', translateOut A s r buf userBuf size = some s' ∧ s'.heap = s.heap ∧
      Showing V s' r trampoline T Q R m' :=
  h.translateOutLoop hm

/-- When `translate_buffer` returns on the one, it does on the other. -/
theorem Showing.translateOut_of {buf : Nat → UInt8} {userBuf size : UInt64}
    (h : Showing V s r trampoline T Q R m) (hs : Space.translateOut A s r buf userBuf size = some s') :
    ∃ m', m.translateOut buf userBuf size = some m' ∧ Showing V s' r trampoline T Q R m' := by
  have hloop : ∀ n vpn off size pos (s : Memory ω) (m : UserMemory), off < pageSize →
      Showing V s r trampoline T Q R m →
      Space.translateOutLoop A r n vpn off size pos buf s = some s' →
      ∃ m', UserMemory.translateOutLoop n vpn off size pos buf m = some m' ∧
        Showing V s' r trampoline T Q R m' := by
    intro n
    induction n with
    | zero =>
        intro vpn off size pos s m hoff h hs
        cases hs
        exact ⟨m, rfl, h⟩
    | succ n ih =>
        intro vpn off size pos s m hoff h hs
        obtain ⟨s₁, hs₁, hs⟩ := Option.bind_eq_some_iff.mp hs
        obtain ⟨m₁, hm₁, h₁⟩ := h.storeBytes_of (by split <;> omega) hs₁
        rw [h.built.tree.walkupt_eq, ← h.walkupt] at hm₁
        obtain ⟨m', hm', h'⟩ := ih _ 0 _ _ s₁ m₁ (by decide) h₁ hs
        exact ⟨m', Option.bind_eq_some_iff.mpr ⟨m₁, hm₁, hm'⟩, h'⟩
  exact hloop _ _ _ _ _ s m (offset_lt _) h hs

/-- What the process has at an address is what the kernel sees there. -/
theorem Showing.byte {b : UInt8} (h : Showing V s r trampoline T Q R m) (hb : m.byte a = some b) :
    (view A s r).byte a = some b := by
  have hkernel : m.kernelByte (m.kernelAddr a) = some b := (UserMemory.byte_eq a).symm.trans hb
  obtain ⟨hpage, hoff⟩ := addr_split (m.walkupt (addr2Page a)) (offset_lt a)
  obtain ⟨q, hq, hvpn⟩ := h.only (m.kernelAddr a) (by rw [hkernel]; rfl)
  rw [UserMemory.kernelAddr, hpage] at hvpn
  obtain ⟨hne, -, hframe⟩ := h.built.good hq
  have hbyte := h.page q hq (offset a) (offset_lt a)
  rw [hvpn, ← UserMemory.kernelAddr, hkernel] at hbyte
  have hwalk : (view A s r).walkupt (addr2Page a) = q.vpn := by
    rw [hvpn, h.walkupt]
    exact h.built.tree.walkupt_eq _
  rw [UserMemory.byte, hwalk]
  show Option.map _ (if q.vpn = 0 then none else some (pageByte (s.mem (A.frame s.heap q.vpn)))) = _
  rw [if_neg hne, hframe]
  exact hbyte.symm

end Showing

end Space
