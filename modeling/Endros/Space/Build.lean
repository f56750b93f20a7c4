import Endros.Space.Parts
import Endros.Space.Sbrk

/-!
# Address spaces under construction

An address space has its tables `T`, its pages `Q`, and there is the rest `R`.  The
entries of pages are in slots.  A slot with a kernel page has the entry of that page,
and no page is in two slots.  A slot without a kernel page is empty, or it has the
trampoline.

`Built` is kept by every routine that works on an address space.  A page that is
replaced stays in `Q`: nothing frees it, and nothing uses it.
-/

namespace Space

open Lib Paging

variable {ω : Type} {A : Allocator ω}

/-! ## Slots -/

/-- The place of the entry of a page. -/
abbrev Slot := Fin 512 × Fin 512 × Fin 512

def slotOf (vpn : Nat) : Slot := (vpnAt 2 vpn, vpnAt 1 vpn, vpnAt 0 vpn)

/-- The entry in a slot and the kernel page beside it. -/
def leafAt (s : Memory ω) (r : Root) (x : Slot) : UInt64 × Nat := entry s r [x.1, x.2.1] x.2.2

/-- The page of an entry. -/
def leafPage (l : UInt64 × Nat) : Page := ⟨getPfn l.1, l.2⟩

/-- The slots have entries of pages in `P`, and no page twice. -/
structure Leaves (e : Slot → UInt64 × Nat) (trampoline : UInt64) (P : Set Page) : Prop where
  unheld : ∀ x, (e x).2 = 0 → (e x).1 = 0 ∨ (e x).1 = trampoline
  held : ∀ x, (e x).2 ≠ 0 → leafPage (e x) ∈ P
  inj : ∀ x y, (e x).2 ≠ 0 → (e x).2 = (e y).2 → x = y

/-- The flags leave the bits of the frame alone. -/
def GoodFlags (flags : UInt64) : Prop := flags.toNat < 1024

theorem leafPage_pte {q : Page} {flags : UInt64} (hq : q.pfn < 2 ^ 54) (hf : GoodFlags flags) :
    leafPage (pte q.pfn flags, q.vpn) = q := by
  rw [leafPage, getPfn_pte hq hf]

theorem slotOf_eq_iff (u v : Nat) : slotOf u = slotOf v ↔ SamePage u v := by
  rw [samePage_iff]
  simp only [slotOf, pathOf, Prod.mk.injEq, List.cons.injEq, and_true, and_assoc]

section Leaves

variable {e : Slot → UInt64 × Nat} {trampoline : UInt64} {P P' : Set Page} {x : Slot} {q : Page}

theorem Leaves.mono (h : Leaves e trampoline P) (hP : P ⊆ P') : Leaves e trampoline P' where
  unheld := h.unheld
  held x hx := hP (h.held x hx)
  inj := h.inj

/-- A page that is in no slot is put in one. -/
theorem Leaves.put {flags : UInt64} (h : Leaves e trampoline P) (hq : q ∈ P) (hpfn : q.pfn < 2 ^ 54)
    (hf : GoodFlags flags) (hnew : ∀ y, (e y).2 ≠ q.vpn) (hne : q.vpn ≠ 0) :
    Leaves (Function.update e x (pte q.pfn flags, q.vpn)) trampoline P := by
  have hself : Function.update e x (pte q.pfn flags, q.vpn) x = (pte q.pfn flags, q.vpn) :=
    Function.update_self ..
  have hother : ∀ {y}, y ≠ x → Function.update e x (pte q.pfn flags, q.vpn) y = e y :=
    fun hy => Function.update_of_ne hy ..
  refine ⟨fun y hy => ?_, fun y hy => ?_, fun y z hy he => ?_⟩
  · by_cases hyx : y = x
    · rw [hyx, hself] at hy
      exact absurd hy hne
    · rw [hother hyx] at hy ⊢
      exact h.unheld y hy
  · by_cases hyx : y = x
    · rw [hyx, hself, leafPage_pte hpfn hf]
      exact hq
    · rw [hother hyx] at hy ⊢
      exact h.held y hy
  · by_cases hyx : y = x
    · by_cases hzx : z = x
      · rw [hyx, hzx]
      · rw [hyx, hself, hother hzx] at he
        exact absurd he.symm (hnew z)
    · by_cases hzx : z = x
      · rw [hzx, hself, hother hyx] at he
        exact absurd he (hnew y)
      · rw [hother hyx] at hy he
        rw [hother hzx] at he
        exact h.inj y z hy he

/-- The trampoline is put in a slot. -/
theorem Leaves.putTrampoline (h : Leaves e trampoline P) :
    Leaves (Function.update e x (trampoline, 0)) trampoline P := by
  have hself : Function.update e x (trampoline, 0) x = (trampoline, 0) := Function.update_self ..
  have hother : ∀ {y}, y ≠ x → Function.update e x (trampoline, 0) y = e y :=
    fun hy => Function.update_of_ne hy ..
  have hne : ∀ {y}, (Function.update e x (trampoline, 0) y).2 ≠ 0 → y ≠ x := fun hy he => by
    rw [he, hself] at hy
    exact hy rfl
  refine ⟨fun y hy => ?_, fun y hy => ?_, fun y z hy he => ?_⟩
  · by_cases hyx : y = x
    · rw [hyx, hself]
      exact .inr rfl
    · rw [hother hyx] at hy ⊢
      exact h.unheld y hy
  · have hyx := hne hy
    rw [hother hyx] at hy ⊢
    exact h.held y hy
  · have hyx := hne hy
    have hzx : z ≠ x := hne (he ▸ hy)
    rw [hother hyx] at hy he
    rw [hother hzx] at he
    exact h.inj y z hy he

end Leaves

/-! ## Construction -/

/-- The address space at `r` has the tables `T` and the pages and regions `Q`. -/
structure Built (V : Lawful A) (s : Memory ω) (r : Root) (trampoline : UInt64) (T Q R : Footprint) :
    Prop where
  own : Own V s.heap T (Q.union R)
  apart : Q.Apart R
  tree : UserTree s r T
  leaves : Leaves (leafAt s r) trampoline Q.pages

/-- All words of a kernel page are written. -/
def Memory.writePage (A : Allocator ω) (s : Memory ω) (vpn : Nat) (words : Fin 512 → UInt64) :
    Memory ω :=
  { s with mem := Function.update s.mem (A.frame s.heap vpn) words }

theorem Memory.store_eq_writePage (s : Memory ω) (vpn : Nat) (i : Fin 512) (x : UInt64) :
    s.store A vpn i x =
      s.writePage A vpn (Function.update (s.mem (A.frame s.heap vpn)) i x) := rfl

section Built

variable {V : Lawful A} {s s' : Memory ω} {r : Root} {trampoline : UInt64} {T Q R : Footprint}
  {p q : Page}

theorem UserTree.leafAt_congr (h : UserTree s r T) (hs : Same s s' T) : leafAt s' r = leafAt s r :=
  funext fun x => h.entry_congr hs (show Short [x.1, x.2.1] from Nat.le_refl 2) x.2.2

/-- What the space has, as one part. -/
theorem Built.own_all (h : Built V s r trampoline T Q R) : Own V s.heap (T.union Q) R :=
  h.own.take_part h.apart

theorem Built.good (h : Built V s r trampoline T Q R) (hq : q ∈ Q.pages) :
    q.vpn ≠ 0 ∧ q.pfn < 2 ^ 54 ∧ A.frame s.heap q.vpn = q.pfn :=
  V.page h.own.valid (.inr (.inl hq))

/-- The contents of the tables and of the rest are the same, and so is the heap. -/
theorem Built.congr (h : Built V s r trampoline T Q R) (hheap : s'.heap = s.heap)
    (hs : Same s s' T) : Built V s' r trampoline T Q R where
  own := hheap ▸ h.own
  apart := h.apart
  tree := h.tree.congr hs
  leaves := by
    rw [h.tree.leafAt_congr hs]
    exact h.leaves

/-- A page is taken. -/
theorem Built.dmalloc (h : Built V s r trampoline T Q R) {z : Bool}
    (hd : s.dmalloc A z = some (p, s')) :
    Built V s' r trampoline T (Q.addPage p) R ∧ Same s s' (T.union (Q.union R)) ∧
      leafAt s' r = leafAt s r ∧ p ∉ Q.pages ∧ (z = true → s'.mem p.pfn = fun _ => 0) := by
  obtain ⟨ho, hT, hQR, hnew, hzero⟩ := h.own.dmalloc hd
  have hnotin : p ∉ (Q.union R).pages := ho.pages p (.inl rfl)
  have ho' := ho.give hnew
  rw [← Footprint.union_addPage] at ho'
  refine ⟨⟨ho', ⟨?_, h.apart.refs⟩, h.tree.congr hT, ?_⟩, hT.union hQR, h.tree.leafAt_congr hT,
    fun hp => hnotin (.inl hp), hzero⟩
  · rintro q (rfl | hq) hR
    · exact hnotin (.inr hR)
    · exact h.apart.pages q hq hR
  · rw [h.tree.leafAt_congr hT]
    exact h.leaves.mono fun q hq => .inr hq

/-- A new page is in no slot. -/
theorem Built.unused (h : Built V s r trampoline T (Q.addPage p) R)
    (hold : Leaves (leafAt s r) trampoline Q.pages) (hp : p ∉ Q.pages) (x : Slot) :
    (leafAt s r x).2 ≠ p.vpn := fun he => by
  have hpin : p ∈ (Q.addPage p).pages := .inl rfl
  have hne : (leafAt s r x).2 ≠ 0 := he ▸ (h.good hpin).1
  have hq := hold.held x hne
  exact hp (V.page_eq h.own.valid (.inr (.inl (.inr hq))) (.inr (.inl hpin)) he ▸ hq)

/-- A page of the space is written. -/
theorem Built.writePage (h : Built V s r trampoline T Q R) (hq : q ∈ Q.pages)
    (words : Fin 512 → UInt64) :
    Built V (s.writePage A q.vpn words) r trampoline T Q R ∧
      Same s (s.writePage A q.vpn words) (T.union R) ∧
      leafAt (s.writePage A q.vpn words) r = leafAt s r ∧
      (s.writePage A q.vpn words).mem q.pfn = words ∧
      ∀ p ∈ Q.pages, p ≠ q → (s.writePage A q.vpn words).mem p.pfn = s.mem p.pfn := by
  have hframe := (h.good hq).2.2
  have heq : s.writePage A q.vpn words = { s with mem := Function.update s.mem q.pfn words } := by
    rw [Memory.writePage, hframe]
  have hother : ∀ {p : Page}, p.pfn ≠ q.pfn → (s.writePage A q.vpn words).mem p.pfn = s.mem p.pfn :=
    fun hne => by rw [heq]; exact Function.update_of_ne hne ..
  have hT : Same s (s.writePage A q.vpn words) T :=
    ⟨fun p hp => hother (h.own.apart hp (.inl hq)), fun _ _ => rfl, fun _ _ => rfl⟩
  have hR : Same s (s.writePage A q.vpn words) R :=
    ⟨fun p hp => hother (h.own_all.apart (.inr hq) hp).symm, fun _ _ => rfl, fun _ _ => rfl⟩
  refine ⟨h.congr rfl hT, hT.union hR, h.tree.leafAt_congr hT, ?_, fun p hp hne => hother fun he => ?_⟩
  · rw [heq]
    exact Function.update_self ..
  · exact hne (V.inj h.own.valid (.inr (.inl hp)) (.inr (.inl hq)) he)

/-- A region is taken. -/
theorem Built.kalloc (h : Built V s r trampoline T Q R) {n b : Nat} (hn : 1 ≤ n)
    (hk : s.kalloc A n = some (b, s')) :
    Built V s' r trampoline T (Q.addRef b n) R ∧ Same s s' (T.union (Q.union R)) ∧
      leafAt s' r = leafAt s r ∧ s'.mem = s.mem := by
  obtain ⟨ho, hall, hR, hnew, hmem, -, -⟩ := (h.own_all.kalloc hn hk)
  have hT := hall.mono Footprint.le_union_left
  have hQ := hall.mono Footprint.le_union_right
  have happart : T.Apart (Q.addRef b n) := by
    refine ⟨h.own.apart_parts.mono (.refl T) Footprint.le_union_left |>.pages, ?_⟩
    rintro a ha a' (rfl | ha')
    · exact hnew a (.inl ha)
    · exact h.own.refs a ha a' (.inl ha')
  rw [← Footprint.addRef_union] at ho
  refine ⟨⟨ho.give_part happart, ?_, h.tree.congr hT, ?_⟩, hT.union (hQ.union hR),
    h.tree.leafAt_congr hT, hmem⟩
  · exact ho.apart_parts.mono Footprint.le_union_right (.refl R)
  · rw [h.tree.leafAt_congr hT]
    exact h.leaves

/-- The slots behind a call of `uptmap`. -/
theorem Mapped.leafAt_eq {F F' : Footprint} {userVpn v : Nat} {e : UInt64}
    (h : Mapped V R r s F s' F' userVpn e v) :
    leafAt s' r = Function.update (leafAt s r) (slotOf userVpn) (e, v) := by
  funext x
  rw [leafAt, h.entry [x.1, x.2.1] x.2.2 rfl]
  by_cases hx : x = slotOf userVpn
  · rw [hx, Function.update_self]
    exact if_pos ⟨rfl, rfl⟩
  · rw [Function.update_of_ne hx]
    refine if_neg fun hc => hx ?_
    obtain ⟨h₁, h₂⟩ := hc
    simp only [pathOf, List.cons.injEq, and_true] at h₁
    exact Prod.ext h₁.1 (Prod.ext h₁.2 h₂)

/-- An entry is put in a slot. -/
theorem Built.uptmap (h : Built V s r trampoline T Q R) {kernelVpn userVpn pfn : Nat}
    {flags : UInt64}
    (hl : Leaves (Function.update (leafAt s r) (slotOf userVpn) (pte pfn flags, kernelVpn)) trampoline
      Q.pages)
    (hu : uptmap A s r.page.vpn r.ref kernelVpn userVpn pfn flags = some s') :
    ∃ T', Built V s' r trampoline T' Q R ∧ Same s s' (Q.union R) ∧
      leafAt s' r = Function.update (leafAt s r) (slotOf userVpn) (pte pfn flags, kernelVpn) ∧
      Takes A s.heap (T.union Q) s'.heap (T'.union Q) ∧ (Reached s r T → Reached s' r T') := by
  obtain ⟨T', hm⟩ := uptmap_mapped h.own h.tree hu
  have he := hm.leafAt_eq
  refine ⟨T', ⟨hm.own, h.apart, hm.tree, ?_⟩, hm.rest, he, hm.takes.union Q, hm.tables⟩
  rw [he]
  exact hl

/-- An entry is put in a slot of a table that is there. -/
theorem Built.putLeaf (h : Built V s r trampoline T Q R) {i j k : Fin 512} {t : Page} {b v : Nat}
    {e : UInt64} (hat : At s r T [i, j] t b)
    (hl : Leaves (Function.update (leafAt s r) (i, j, k) (e, v)) trampoline Q.pages) :
    Built V ((s.store A t.vpn k e).setLeaf b k v) r trampoline T Q R ∧
      Same s ((s.store A t.vpn k e).setLeaf b k v) (Q.union R) ∧
      leafAt ((s.store A t.vpn k e).setLeaf b k v) r = Function.update (leafAt s r) (i, j, k) (e, v) ∧
      ∀ p q c, Short p → At s r T p q c → At ((s.store A t.vpn k e).setLeaf b k v) r T p q c := by
  have heq : (s.store A t.vpn k e).setLeaf b k v = s.putLeaf t.pfn b k e v := by
    rw [h.own.store_eq hat.page]
    rfl
  have hleaf : leafAt ((s.store A t.vpn k e).setLeaf b k v) r =
      Function.update (leafAt s r) (i, j, k) (e, v) := by
    funext x
    rw [heq, leafAt, h.tree.entry_putLeaf hat rfl rfl]
    by_cases hx : x = (i, j, k)
    · rw [hx, Function.update_self]
      exact if_pos ⟨rfl, rfl⟩
    · rw [Function.update_of_ne hx]
      refine if_neg fun hc => hx ?_
      obtain ⟨h₁, h₂⟩ := hc
      simp only [List.cons.injEq, and_true] at h₁
      exact Prod.ext h₁.1 (Prod.ext h₁.2 h₂)
  refine ⟨⟨h.own, h.apart, ?_, ?_⟩, ?_, hleaf, fun p q c hp hat' => ?_⟩
  · rw [heq]
    exact h.tree.putLeaf hat rfl
  · rw [hleaf]
    exact hl
  · exact (h.own.same_store hat.page _ _).trans (h.own.same_setLeaf hat.ref _ _)
  · rw [heq]
    exact h.tree.at_putLeaf hat rfl hat' hp

/-- A table is put below an entry that is empty. -/
theorem Built.link (h : Built V s r trampoline T Q R) {p : List (Fin 512)} {i : Fin 512} {q t : Page}
    {b c : Nat} {s₁ s₂ : Memory ω} (hat : At s r T p q b) (hp : p.length ≤ 1)
    (hempty : (s.refs b i).ptable = 0) (hd : s.dmalloc A true = some (t, s₁))
    (hk : s₁.kalloc A (refPages (p ++ [i])) = some (c, s₂)) :
    ∃ T', Built V ((s₂.store A q.vpn i (pte t.pfn pteValid)).setRef b i ⟨t.vpn, c⟩) r trampoline T' Q R ∧
      Same s ((s₂.store A q.vpn i (pte t.pfn pteValid)).setRef b i ⟨t.vpn, c⟩) (Q.union R) ∧
      leafAt ((s₂.store A q.vpn i (pte t.pfn pteValid)).setRef b i ⟨t.vpn, c⟩) r = leafAt s r ∧
      At ((s₂.store A q.vpn i (pte t.pfn pteValid)).setRef b i ⟨t.vpn, c⟩) r T' (p ++ [i]) t c ∧
      (∀ p' q' c', Short p' → At s r T p' q' c' →
        At ((s₂.store A q.vpn i (pte t.pfn pteValid)).setRef b i ⟨t.vpn, c⟩) r T' p' q' c') ∧
      (∀ p', Short p' → p' ≠ p ++ [i] →
        refOf ((s₂.store A q.vpn i (pte t.pfn pteValid)).setRef b i ⟨t.vpn, c⟩) r p' = refOf s r p') ∧
      Takes A s.heap (T.union Q)
        ((s₂.store A q.vpn i (pte t.pfn pteValid)).setRef b i ⟨t.vpn, c⟩).heap (T'.union Q) ∧
      (Reached s r T →
        Reached ((s₂.store A q.vpn i (pte t.pfn pteValid)).setRef b i ⟨t.vpn, c⟩) r T') := by
  obtain ⟨T', hgrown, hat', hothers⟩ := Grown.link h.own h.tree hat hp hempty hd hk
  have hleaf : leafAt ((s₂.store A q.vpn i (pte t.pfn pteValid)).setRef b i ⟨t.vpn, c⟩) r =
      leafAt s r := funext fun x => hgrown.entry [x.1, x.2.1] x.2.2 rfl
  refine ⟨T', ⟨hgrown.own, h.apart, hgrown.tree, ?_⟩, hgrown.rest, hleaf, hat', hgrown.stay, hothers,
    hgrown.takes.union Q, hgrown.tables⟩
  rw [hleaf]
  exact h.leaves

end Built

end Space
