import Endros.Exec.Stack

/-!
# The block of arguments

Two cursors go up the stack: one along the pointers, and one along the strings behind
them.  Both stay in a window of addresses that are mapped to different bytes of the kernel.
So what one of them writes is not changed by the other later on, and at the end the array
has the addresses of the strings, and a string is at each of them.

The registers are stored first.  They are kept if the page of the trap frame is not one of
the window.
-/

namespace Exec

open Lib Mem Space
open Fs (Chr)
open Io (UserMemory)

/-! ## Arrays of strings in user memory -/

/-- The words follow each other from the address on. -/
def HasWords (m : UserMemory) : Nat → List UInt64 → Prop
  | _, [] => True
  | a, w :: ws => (∀ y, y < 8 → m.byte (a + y) = some (bytes64 w y)) ∧ HasWords m (a + 8) ws

/-- The string is at the address, with its end. -/
def HasString (m : UserMemory) (a : UInt64) (text : List Chr) : Prop :=
  ∀ x, x < textSize text → m.byte (a.toNat + x) = some (cBytes text x)

/-- The pointers are at the address, with a zero behind them, and each one points to its
string. -/
structure HasStrings (m : UserMemory) (a : UInt64) (ps : List UInt64) (texts : List (List Chr)) :
    Prop where
  pointers : HasWords m a.toNat (ps ++ [0])
  nonzero : ∀ p ∈ ps, p ≠ 0
  strings : List.Forall₂ (HasString m) ps texts

section Congr

variable {m m' : UserMemory}

theorem HasWords.congr {a : Nat} {ws : List UInt64} (h : HasWords m a ws)
    (hm : ∀ x, a ≤ x → x < a + 8 * ws.length → m'.byte x = m.byte x) : HasWords m' a ws := by
  induction ws generalizing a with
  | nil => trivial
  | cons w ws ih =>
      rw [List.length_cons] at hm
      refine ⟨fun y hy => ?_, ih h.2 fun x hlo hhi => hm x (by omega) (by omega)⟩
      rw [hm (a + y) (Nat.le_add_right a y) (by omega)]
      exact h.1 y hy

theorem HasString.congr {a : UInt64} {text : List Chr} (h : HasString m a text)
    (hm : ∀ x, a.toNat ≤ x → x < a.toNat + textSize text → m'.byte x = m.byte x) :
    HasString m' a text := fun x hx => by
  rw [hm _ (Nat.le_add_right _ x) (Nat.add_lt_add_left hx _)]
  exact h x hx

end Congr

/-! ## Windows -/

/-- The addresses are mapped to different bytes of the kernel. -/
structure Window (m : UserMemory) (lo hi : Nat) : Prop where
  lt : hi < 2 ^ 64
  mapped : ∀ a, lo ≤ a → a < hi → (m.byte a).isSome
  inj : ∀ a b, lo ≤ a → a < hi → lo ≤ b → b < hi → m.kernelAddr a = m.kernelAddr b → a = b

/-- In the window only the bytes of `P` are changed, and outside of it none. -/
structure Within (m : UserMemory) (lo hi : Nat) (P : Nat → Prop) (m' : UserMemory) : Prop where
  walkupt : m'.walkupt = m.walkupt
  mapped : ∀ y, (m.kernelByte y).isSome → (m'.kernelByte y).isSome
  inside : ∀ a, lo ≤ a → a < hi → ¬ P a → m'.byte a = m.byte a
  outside : ∀ y, (∀ a, lo ≤ a → a < hi → y ≠ m.kernelAddr a) → m'.kernelByte y = m.kernelByte y

section Windows

variable {m m' m'' : UserMemory} {lo hi : Nat} {P P' : Nat → Prop}

theorem Within.kernelAddr (h : Within m lo hi P m') (a : Nat) : m'.kernelAddr a = m.kernelAddr a := by
  rw [UserMemory.kernelAddr, UserMemory.kernelAddr, h.walkupt]

theorem Within.trans (h : Within m lo hi P m') (h' : Within m' lo hi P' m'') :
    Within m lo hi (fun a => P a ∨ P' a) m'' where
  walkupt := h'.walkupt.trans h.walkupt
  mapped y hy := h'.mapped y (h.mapped y hy)
  inside a hlo hhi ha := by
    rw [h'.inside a hlo hhi fun hp => ha (.inr hp), h.inside a hlo hhi fun hp => ha (.inl hp)]
  outside y hy := by
    rw [h'.outside y, h.outside y hy]
    intro a hlo hhi
    rw [h.kernelAddr]
    exact hy a hlo hhi

theorem Within.mono (h : Within m lo hi P m') (hP : ∀ a, P a → P' a) : Within m lo hi P' m' :=
  ⟨h.walkupt, h.mapped, fun a hlo hhi ha => h.inside a hlo hhi fun hp => ha (hP a hp), h.outside⟩

/-- The window is still there. -/
theorem Within.window (h : Within m lo hi P m') (hw : Window m lo hi) : Window m' lo hi where
  lt := hw.lt
  mapped a hlo hhi := by
    have hmapped := hw.mapped a hlo hhi
    rw [UserMemory.byte_eq] at hmapped ⊢
    rw [h.kernelAddr]
    exact h.mapped _ hmapped
  inj a b hlo hhi hlo' hhi' he := by
    rw [h.kernelAddr, h.kernelAddr] at he
    exact hw.inj a b hlo hhi hlo' hhi' he

/-- A copy to a part of the window. -/
theorem Window.copied {u n : Nat} {data : Nat → UInt8} (hw : Window m lo hi) (hlo : lo ≤ u)
    (hhi : u + n ≤ hi) (h : UserMemory.Copied m u n data m') :
    Within m lo hi (fun a => u ≤ a ∧ a < u + n) m' ∧ ∀ x, x < n → m'.byte (u + x) = some (data x) := by
  refine ⟨⟨h.walkupt, fun y => h.mapped, fun a ha ha' hout => ?_, fun y hy => ?_⟩, fun x hx => ?_⟩
  · rw [UserMemory.byte_eq, UserMemory.byte_eq, h.kernelAddr]
    refine h.others _ fun x hx he => hout ?_
    have := hw.inj a (u + x) ha ha' (by omega) (by omega) he
    omega
  · exact h.others y fun x hx => hy (u + x) (by omega) (by omega)
  · rw [UserMemory.byte_eq, h.kernelAddr]
    exact h.range x hx

theorem storePointer_eq {tsp : UInt64} (x : UInt64) (hw : Window m lo hi) (haligned : tsp.toNat % 8 = 0)
    (hlo : lo ≤ tsp.toNat) (hhi : tsp.toNat + 8 ≤ hi) :
    ∃ m', storePointer tsp x m = some m' ∧
      Within m lo hi (fun a => tsp.toNat ≤ a ∧ a < tsp.toNat + 8) m' ∧
      ∀ y, y < 8 → m'.byte (tsp.toNat + y) = some (bytes64 x y) := by
  have hpage : offset tsp.toNat + 8 ≤ pageSize := by
    simp only [offset, pageSize]
    omega
  have hstart := addr2Page_add_offset tsp.toNat
  obtain ⟨m', hm', hcopied⟩ := UserMemory.store_page (m := m) (addr2Page tsp.toNat) (offset tsp.toNat)
    (bytes64 x) hpage fun y hy => by
      rw [hstart]
      exact hw.mapped _ (by omega) (by omega)
  rw [hstart] at hcopied
  exact ⟨m', hm', hw.copied hlo hhi hcopied⟩

theorem translateOut_window (data : Nat → UInt8) (u size : UInt64) (hw : Window m lo hi)
    (hlo : lo ≤ u.toNat) (hhi : u.toNat + size.toNat ≤ hi) :
    ∃ m', m.translateOut data u size = some m' ∧
      Within m lo hi (fun a => u.toNat ≤ a ∧ a < u.toNat + size.toNat) m' ∧
      ∀ x, x < size.toNat → m'.byte (u.toNat + x) = some (data x) := by
  have hlt : u.toNat + size.toNat < 2 ^ 64 := Nat.lt_of_le_of_lt hhi hw.lt
  have hd : UserMemory.Distinct m u.toNat size.toNat := fun x y hx hy he =>
    Nat.add_left_cancel (hw.inj _ _ (by omega) (by omega) (by omega) (by omega) he)
  obtain ⟨m', hm', hcopied⟩ := UserMemory.translateOut_eq data hlt
    (fun x hx => hw.mapped _ (by omega) (by omega)) hd
  exact ⟨m', hm', hw.copied hlo hhi hcopied⟩

end Windows

/-! ## The loops -/

/-- The addresses of strings that follow each other. -/
def addresses : UInt64 → List (List Chr) → List UInt64
  | _, [] => []
  | a, text :: texts => a :: addresses (a + UInt64.ofNat (textSize text)) texts

theorem textsSize_cons (text : List Chr) (texts : List (List Chr)) :
    textsSize (text :: texts) = textSize text + textsSize texts := List.sum_cons

theorem length_addresses (a : UInt64) (texts : List (List Chr)) :
    (addresses a texts).length = texts.length := by
  induction texts generalizing a with
  | nil => rfl
  | cons text texts ih => rw [addresses, List.length_cons, List.length_cons, ih]

theorem add_toNat {a : UInt64} {n : Nat} (h : a.toNat + n < 2 ^ 64) :
    (a + UInt64.ofNat n).toNat = a.toNat + n := by
  rw [UInt64.toNat_add, UInt64.toNat_ofNat', Nat.mod_eq_of_lt (by omega : n < 2 ^ 64),
    Nat.mod_eq_of_lt h]

/-- The array of pointers and the strings. -/
theorem pushTexts_eq {m : UserMemory} {lo hi : Nat} (texts : List (List Chr)) {tsp tstrtab : UInt64}
    (hw : Window m lo hi) (haligned : tsp.toNat % 8 = 0) (hlo : lo ≤ tsp.toNat)
    (hmid : tsp.toNat + 8 * (texts.length + 1) ≤ tstrtab.toNat)
    (hhi : tstrtab.toNat + textsSize texts ≤ hi) :
    ∃ tsp' tstrtab' m', pushTexts texts tsp tstrtab m = some (tsp', tstrtab', m') ∧
      tsp'.toNat = tsp.toNat + 8 * (texts.length + 1) ∧
      tstrtab'.toNat = tstrtab.toNat + textsSize texts ∧
      Within m lo hi (fun a => (tsp.toNat ≤ a ∧ a < tsp.toNat + 8 * (texts.length + 1)) ∨
        (tstrtab.toNat ≤ a ∧ a < tstrtab.toNat + textsSize texts)) m' ∧
      HasWords m' tsp.toNat (addresses tstrtab texts ++ [0]) ∧
      List.Forall₂ (HasString m') (addresses tstrtab texts) texts := by
  have hlt := hw.lt
  induction texts generalizing m tsp tstrtab with
  | nil =>
      rw [List.length_nil] at hmid
      obtain ⟨m', hm', hwithin, hbytes⟩ := storePointer_eq 0 hw haligned hlo (by omega)
      refine ⟨tsp + 8, tstrtab, m', ?_, add_toNat (n := 8) (by omega), rfl,
        hwithin.mono fun a ha => .inl ha, ⟨hbytes, trivial⟩, .nil⟩
      rw [pushTexts, hm', Option.map_some]
  | cons text texts ih =>
      rw [textsSize_cons] at hhi ⊢
      rw [List.length_cons] at hmid ⊢
      have hsize : (UInt64.ofNat (textSize text)).toNat = textSize text := by
        rw [UInt64.toNat_ofNat', Nat.mod_eq_of_lt (by omega)]
      have htsp : (tsp + 8).toNat = tsp.toNat + 8 := add_toNat (n := 8) (by omega)
      have htab : (tstrtab + UInt64.ofNat (textSize text)).toNat = tstrtab.toNat + textSize text :=
        add_toNat (by omega)
      obtain ⟨m₁, hm₁, hwithin₁, hbytes₁⟩ := storePointer_eq tstrtab hw haligned hlo (by omega)
      obtain ⟨m₂, hm₂, hwithin₂, hbytes₂⟩ := translateOut_window (cBytes text) tstrtab
        (UInt64.ofNat (textSize text)) (hwithin₁.window hw) (by omega) (by omega)
      rw [hsize] at hwithin₂ hbytes₂
      obtain ⟨tsp', tab', m', hm', htsp', htab', hwithin', hwords, hstrings⟩ :=
        ih (hwithin₂.window (hwithin₁.window hw)) (show (tsp + 8).toNat % 8 = 0 by omega) (by omega)
          (show _ ≤ (tstrtab + UInt64.ofNat (textSize text)).toNat by omega) (by omega)
      rw [htsp, htab] at hwithin'
      rw [htsp] at hwords
      refine ⟨tsp', tab', m', ?_, by omega, by omega, ?_, ⟨fun y hy => ?_, hwords⟩, .cons ?_ hstrings⟩
      · rw [pushTexts, hm₁, Option.bind_eq_bind, Option.bind_some, hm₂]
        exact hm'
      · refine ((hwithin₁.trans hwithin₂).trans hwithin').mono fun a ha => ?_
        omega
      -- the pointer is below the strings, and the others are behind it
      · rw [hwithin'.inside _ (by omega) (by omega) (by omega),
          hwithin₂.inside _ (by omega) (by omega) (by omega)]
        exact hbytes₁ y hy
      · intro x hx
        rw [hwithin'.inside _ (by omega) (by omega) (by omega)]
        exact hbytes₂ x hx

/-! ## The parts of the block -/

/-- The places of strings. -/
def stringSpans (ps : List UInt64) (texts : List (List Chr)) : List (Span Unit) :=
  List.zipWith (fun p text => ⟨p.toNat, textSize text, ()⟩) ps texts

/-- The places of an array of pointers with its end, and of its strings. -/
def arraySpans (a : UInt64) (ps : List UInt64) (texts : List (List Chr)) : List (Span Unit) :=
  ⟨a.toNat, 8 * (ps.length + 1), ()⟩ :: stringSpans ps texts

section Parts

variable {m m' : UserMemory} {a : UInt64} {texts : List (List Chr)}

theorem addresses_cons_toNat {text : List Chr} (h : a.toNat + textsSize (text :: texts) < 2 ^ 64) :
    (a + UInt64.ofNat (textSize text)).toNat = a.toNat + textSize text := by
  rw [textsSize_cons] at h
  exact add_toNat (by omega)

/-- All strings are in the range of their sizes. -/
theorem mem_stringSpans (h : a.toNat + textsSize texts < 2 ^ 64) {s : Span Unit}
    (hs : s ∈ stringSpans (addresses a texts) texts) :
    a.toNat ≤ s.start ∧ s.start + s.size ≤ a.toNat + textsSize texts := by
  induction texts generalizing a with
  | nil => exact absurd hs List.not_mem_nil
  | cons text texts ih =>
      have hnext := addresses_cons_toNat h
      rw [textsSize_cons] at h ⊢
      rcases List.mem_cons.mp hs with rfl | hs
      · exact ⟨Nat.le_refl _, by dsimp only; omega⟩
      · have hrest := ih (by omega) hs
        omega

theorem stringSpans_pairwise (h : a.toNat + textsSize texts < 2 ^ 64) :
    (stringSpans (addresses a texts) texts).Pairwise Span.Disjoint := by
  induction texts generalizing a with
  | nil => exact .nil
  | cons text texts ih =>
      have hnext := addresses_cons_toNat h
      rw [textsSize_cons] at h
      refine .cons (fun s hs x hx hx' => ?_) (ih (by omega))
      have hrest := mem_stringSpans (by omega) hs
      have hlt : x < a.toNat + textSize text := hx.2
      have hge := hx'.1
      omega

theorem addresses_nonzero (h : a.toNat + textsSize texts < 2 ^ 64) (ha : 0 < a.toNat) :
    ∀ p ∈ addresses a texts, p ≠ 0 := by
  induction texts generalizing a with
  | nil => exact fun p hp => absurd hp List.not_mem_nil
  | cons text texts ih =>
      have hnext := addresses_cons_toNat h
      rw [textsSize_cons] at h
      intro p hp hzero
      rcases List.mem_cons.mp hp with rfl | hp
      · rw [hzero] at ha
        exact absurd ha (by decide)
      · exact ih (by omega) (by omega) p hp hzero

/-- Strings that are not written to are still there. -/
theorem strings_congr (h : a.toNat + textsSize texts < 2 ^ 64)
    (hs : List.Forall₂ (HasString m) (addresses a texts) texts)
    (hm : ∀ x, a.toNat ≤ x → x < a.toNat + textsSize texts → m'.byte x = m.byte x) :
    List.Forall₂ (HasString m') (addresses a texts) texts := by
  induction texts generalizing a with
  | nil => exact .nil
  | cons text texts ih =>
      have hnext := addresses_cons_toNat h
      rw [textsSize_cons] at h hm
      obtain ⟨htext, hrest⟩ := List.forall₂_cons.mp hs
      exact .cons (htext.congr fun x hlo hhi => hm x hlo (by omega))
        (ih (by omega) hrest fun x hlo hhi => hm x (by omega) (by omega))

end Parts

/-! ## The whole block -/

/-- The bytes of the block. -/
def blockSize (argv envp : List (List Chr)) : Nat :=
  ((argv.length + envp.length + 2) * 8 + textsSize (argv ++ envp) + 15) / 16 * 16

/-- The block of arguments from `x[2]` up to `top`. -/
structure ArgumentBlock (m : UserMemory) (top : Nat) (argv envp : List (List Chr)) (x2 x11 x12 : UInt64) :
    Prop where
  aligned : x2.toNat % 16 = 0
  below : x2.toNat ≤ top
  strings : ∃ ps qs, HasStrings m x11 ps argv ∧ HasStrings m x12 qs envp ∧
    (∀ s ∈ arraySpans x11 ps argv ++ arraySpans x12 qs envp, x2.toNat ≤ s.start ∧ s.start + s.size ≤ top) ∧
    (arraySpans x11 ps argv ++ arraySpans x12 qs envp).Pairwise Span.Disjoint

theorem textsSize_append (xs ys : List (List Chr)) :
    textsSize (xs ++ ys) = textsSize xs + textsSize ys := by
  rw [textsSize, List.map_append, List.sum_append, textsSize, textsSize]

section Block

variable {m : UserMemory} {lo hi trapframe : Nat} {top : UInt64} {argv envp : List (List Chr)}

theorem blockStart_toNat (h : blockSize argv envp ≤ top.toNat) :
    (blockStart top argv envp).toNat = top.toNat - blockSize argv envp := by
  have hlt := top.toNat_lt
  have hsize : (align16 (UInt64.ofNat ((argv.length + envp.length + 2) * 8) +
      UInt64.ofNat (textsSize (argv ++ envp)))).toNat = blockSize argv envp := by
    rw [blockSize] at h ⊢
    rw [← UInt64.ofNat_add, align16_toNat, UInt64.toNat_ofNat',
      Nat.mod_eq_of_lt (by omega : _ < 2 ^ 64), Nat.mod_eq_of_lt (by omega)]
  rw [blockStart, UInt64.toNat_sub, hsize]
  omega

/-- A word of the trap frame is stored. -/
theorem store_register {i : Nat} (x : UInt64) (hi : i < 512)
    (htrap : ∀ k, k < pageSize → (m.kernelByte (trapframe * pageSize + k)).isSome) :
    ∃ m', m.store (registerAddr trapframe i) 8 (bytes64 x) = some m' ∧
      UserMemory.Stored m (registerAddr trapframe i) 8 (bytes64 x) m' ∧
      ∀ k, k < pageSize → (m'.kernelByte (trapframe * pageSize + k)).isSome := by
  have hmapped : ∀ y, y < 8 → (m.kernelByte (registerAddr trapframe i + y)).isSome := by
    intro y hy
    rw [registerAddr, Nat.add_assoc]
    exact htrap _ (by simp only [pageSize]; omega)
  obtain ⟨m', hm', hstored⟩ := UserMemory.store_eq (bytes64 x) hmapped
  refine ⟨m', hm', hstored, fun k hk => ?_⟩
  rw [hstored.bytes, patch]
  split
  · rfl
  · exact htrap k hk

theorem Window.stored {a n : Nat} {data : Nat → UInt8} {m' : UserMemory} (hw : Window m lo hi)
    (h : UserMemory.Stored m a n data m') : Window m' lo hi := by
  have hk : ∀ x, m'.kernelAddr x = m.kernelAddr x := fun x => by
    rw [UserMemory.kernelAddr, UserMemory.kernelAddr, h.walkupt]
  refine ⟨hw.lt, fun x hlo hhi => ?_, fun x y hlo hhi hlo' hhi' he => ?_⟩
  · have hmapped := hw.mapped x hlo hhi
    rw [UserMemory.byte_eq] at hmapped ⊢
    rw [hk, h.bytes, patch]
    split
    · rfl
    · exact hmapped
  · rw [hk, hk] at he
    exact hw.inj x y hlo hhi hlo' hhi' he

/-- An array, its strings behind it, and all places of the two. -/
theorem arraySpans_within (a tab : UInt64) (texts : List (List Chr))
    (hlt : tab.toNat + textsSize texts < 2 ^ 64)
    (hmid : a.toNat + 8 * (texts.length + 1) ≤ tab.toNat) :
    (arraySpans a (addresses tab texts) texts).Pairwise Span.Disjoint ∧
      ∀ s ∈ arraySpans a (addresses tab texts) texts,
        (s.start = a.toNat ∧ s.size = 8 * (texts.length + 1)) ∨
          (tab.toNat ≤ s.start ∧ s.start + s.size ≤ tab.toNat + textsSize texts) := by
  rw [arraySpans, length_addresses]
  refine ⟨.cons (fun s hs x hx hx' => ?_) (stringSpans_pairwise hlt), fun s hs => ?_⟩
  · have hin := mem_stringSpans hlt hs
    have hhas : a.toNat ≤ x ∧ x < a.toNat + 8 * (texts.length + 1) := hx
    have hge := hx'.1
    omega
  · rcases List.mem_cons.mp hs with rfl | hs
    · exact .inl ⟨rfl, rfl⟩
    · exact .inr (mem_stringSpans hlt hs)

/-- The two arrays follow each other, and then the strings of both. -/
theorem argumentBlock_of_layout {x x12 tab tab' : UInt64} (h16 : x.toNat % 16 = 0)
    (hx12 : x12.toNat = x.toNat + 8 * (argv.length + 1))
    (htab : tab.toNat = x12.toNat + 8 * (envp.length + 1))
    (htab' : tab'.toNat = tab.toNat + textsSize argv) (hle : tab'.toNat + textsSize envp ≤ hi)
    (hlt : hi < 2 ^ 64) (hargv : HasWords m x.toNat (addresses tab argv ++ [0]))
    (hargs : List.Forall₂ (HasString m) (addresses tab argv) argv)
    (henvp : HasWords m x12.toNat (addresses tab' envp ++ [0]))
    (hvars : List.Forall₂ (HasString m) (addresses tab' envp) envp) :
    ArgumentBlock m hi argv envp x x x12 := by
  obtain ⟨hpair, hin⟩ := arraySpans_within x tab argv (by omega) (by omega)
  obtain ⟨hpair', hin'⟩ := arraySpans_within x12 tab' envp (by omega) (by omega)
  refine ⟨h16, by omega, addresses tab argv, addresses tab' envp,
    ⟨hargv, addresses_nonzero (by omega) (by omega), hargs⟩,
    ⟨henvp, addresses_nonzero (by omega) (by omega), hvars⟩, fun s hs => ?_, ?_⟩
  · rcases List.mem_append.mp hs with hs | hs
    · have := hin s hs
      omega
    · have := hin' s hs
      omega
  · refine List.pairwise_append.mpr ⟨hpair, hpair', fun s hs s' hs' y hy hy' => ?_⟩
    have h := hin s hs
    have h' := hin' s' hs'
    have hlo : s.start ≤ y ∧ y < s.start + s.size := hy
    have hlo' : s'.start ≤ y ∧ y < s'.start + s'.size := hy'
    omega

/-- The registers that are stored. -/
structure Registers (m : UserMemory) (trapframe : Nat) (x2 x11 x12 : UInt64) : Prop where
  x2 : ∀ y, y < 8 → m.kernelByte (registerAddr trapframe 2 + y) = some (bytes64 x2 y)
  x11 : ∀ y, y < 8 → m.kernelByte (registerAddr trapframe 11 + y) = some (bytes64 x11 y)
  x12 : ∀ y, y < 8 → m.kernelByte (registerAddr trapframe 12 + y) = some (bytes64 x12 y)

/-- A page that is not in the window is not changed. -/
theorem Within.page {m m' : UserMemory} {P : Nat → Prop} (h : Within m lo hi P m')
    (hout : ∀ a, lo ≤ a → a < hi → m.walkupt (addr2Page a) ≠ trapframe) {k : Nat} (hk : k < pageSize) :
    m'.kernelByte (trapframe * pageSize + k) = m.kernelByte (trapframe * pageSize + k) := by
  refine h.outside _ fun a hlo hhi he => hout a hlo hhi ?_
  rw [UserMemory.kernelAddr] at he
  rw [← (addr_split (m.walkupt (addr2Page a)) (offset_lt a)).1, ← he, (addr_split trapframe hk).1]

/-- The block is on the stack, and the registers are in the trap frame unless that is a
page of the stack. -/
theorem pushBlock_eq (hw : Window m lo hi) (htop : top.toNat = hi) (h16 : hi % 16 = 0)
    (hfits : lo + blockSize argv envp ≤ hi)
    (htrap : ∀ k, k < pageSize → (m.kernelByte (trapframe * pageSize + k)).isSome) :
    ∃ m' x12, pushBlock trapframe top argv envp m = some m' ∧ m'.walkupt = m.walkupt ∧
      ArgumentBlock m' hi argv envp (blockStart top argv envp) (blockStart top argv envp) x12 ∧
      x12.toNat = (blockStart top argv envp).toNat + 8 * (argv.length + 1) ∧
      ((∀ a, lo ≤ a → a < hi → m.walkupt (addr2Page a) ≠ trapframe) →
        Registers m' trapframe (blockStart top argv envp) (blockStart top argv envp) x12) := by
  obtain ⟨x, hx⟩ : ∃ x, x = blockStart top argv envp := ⟨_, rfl⟩
  have hstart : x.toNat = hi - blockSize argv envp := by
    rw [hx, blockStart_toNat (by omega), htop]
  have hlt := hw.lt
  have hsize : 8 * (argv.length + envp.length + 2) + (textsSize argv + textsSize envp) ≤
      blockSize argv envp := by
    rw [blockSize, textsSize_append]
    omega
  have h16' : blockSize argv envp % 16 = 0 := by
    rw [blockSize]
    omega
  rw [pushBlock, ← hx]
  obtain ⟨m₁, hm₁, hs₁, htrap₁⟩ := store_register x (show 2 < 512 by decide) htrap
  obtain ⟨m₂, hm₂, hs₂, htrap₂⟩ := store_register x (show 11 < 512 by decide) htrap₁
  obtain ⟨m₃, hm₃, hs₃, htrap₃⟩ := store_register (x + UInt64.ofNat ((argv.length + 1) * 8))
    (show 12 < 512 by decide) htrap₂
  have hw₃ := ((hw.stored hs₁).stored hs₂).stored hs₃
  have htab : (x + UInt64.ofNat ((argv.length + envp.length + 2) * 8)).toNat =
      x.toNat + (argv.length + envp.length + 2) * 8 := add_toNat (by omega)
  have hx12 : (x + UInt64.ofNat ((argv.length + 1) * 8)).toNat = x.toNat + (argv.length + 1) * 8 :=
    add_toNat (by omega)
  obtain ⟨tsp, tab, m₄, hm₄, htsp₄, htab₄, hwithin₄, hwords₄, hstrings₄⟩ := pushTexts_eq argv hw₃
    (show x.toNat % 8 = 0 by omega) (by omega)
    (show _ ≤ (x + UInt64.ofNat ((argv.length + envp.length + 2) * 8)).toNat by omega) (by omega)
  obtain ⟨tsp', tab', m', hm', -, -, hwithin, hwords, hstrings⟩ := pushTexts_eq envp
    (hwithin₄.window hw₃) (show tsp.toNat % 8 = 0 by omega) (by omega)
    (show _ ≤ tab.toNat by omega) (by omega)
  have hx12' : tsp.toNat = (x + UInt64.ofNat ((argv.length + 1) * 8)).toNat := by omega
  rw [hx12'] at hwords
  refine ⟨m', x + UInt64.ofNat ((argv.length + 1) * 8), ?_, ?_, ?_, by omega, fun hout => ?_⟩
  · have hregs : storeRegisters trapframe x (x + UInt64.ofNat ((argv.length + 1) * 8)) m = some m₃ :=
      Option.bind_eq_some_iff.mpr ⟨m₁, hm₁, Option.bind_eq_some_iff.mpr ⟨m₂, hm₂, hm₃⟩⟩
    exact Option.bind_eq_some_iff.mpr ⟨m₃, hregs, Option.bind_eq_some_iff.mpr ⟨_, hm₄,
      Option.bind_eq_some_iff.mpr ⟨_, hm', rfl⟩⟩⟩
  · rw [hwithin.walkupt, hwithin₄.walkupt, hs₃.walkupt, hs₂.walkupt, hs₁.walkupt]
  -- the second array and its strings are behind those of the first
  · refine argumentBlock_of_layout (by omega) (by omega) (by omega) htab₄ (by omega) hlt
      (hwords₄.congr fun a hlo hhi => hwithin.inside a (by omega) ?_ ?_)
      (strings_congr (by omega) hstrings₄ fun a hlo hhi => hwithin.inside a (by omega) (by omega) (by omega))
      hwords hstrings
    all_goals
      rw [List.length_append, length_addresses, List.length_singleton] at hhi
      omega
  · have hkeep : ∀ i y, i < 512 → y < 8 →
        m'.kernelByte (registerAddr trapframe i + y) = m₃.kernelByte (registerAddr trapframe i + y) := by
      intro i y hi hy
      rw [registerAddr, Nat.add_assoc]
      refine (hwithin₄.trans hwithin).page (fun a hlo hhi => ?_) (by simp only [pageSize]; omega)
      rw [hs₃.walkupt, hs₂.walkupt, hs₁.walkupt]
      exact hout a hlo hhi
    refine ⟨fun y hy => ?_, fun y hy => ?_, fun y hy => ?_⟩
    · rw [hkeep 2 y (by decide) hy, hs₃.bytes, patch_of_lt (by simp only [registerAddr]; omega),
        hs₂.bytes, patch_of_lt (by simp only [registerAddr]; omega), hs₁.bytes, patch_add hy]
    · rw [hkeep 11 y (by decide) hy, hs₃.bytes, patch_of_lt (by simp only [registerAddr]; omega),
        hs₂.bytes, patch_add hy]
    · rw [hkeep 12 y (by decide) hy, hs₃.bytes, patch_add hy]

end Block

end Exec
