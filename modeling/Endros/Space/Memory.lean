import Endros.Lib.Radix
import Endros.Paging.Kernel
import Mathlib.Data.Set.Insert

/-!
# Pages of user address spaces

The tables and pages of a user address space come from `dmalloc`, which returns
a frame and a kernel page that maps it.  The tables that shadow them, with the
kernel's pointers to the same pages, come from `kalloc`.

The allocators are a parameter.  `Lawful` is what is asked of them: a set of
pages and a set of regions can be in use together, and an allocation adds a new
one.  `frame` is the kernel page table, so a kernel page of a page in use is
mapped to its frame.

A region from `kalloc` is the array that the kernel keeps in it: `refs` has the
entries of a `PTReference_1` or `PTReference_2` array, `leaves` those of a
`vpn_t` array.  A pointer is the number of its page, and `0` is `NULL`.

`Own` divides what is in use into a footprint `F` and the rest `R`.  Each
operation on pages of the footprint leaves the rest as it is.
-/

namespace Space

open Lib Paging

/-- A page from `dmalloc`. -/
structure Page where
  pfn : Nat
  vpn : Nat
deriving DecidableEq, Repr

/-- `dmalloc` and `dmafree` of one page, and `kalloc` and `kfree` of a number of
pages.  `none` is a panic. -/
structure Allocator (ω : Type) where
  /-- The kernel page table. -/
  frame : ω → Nat → Nat
  /-- The flag is `zeroing`. -/
  dmalloc : ω → Phys → Bool → Option (Page × ω × Phys)
  dmafree : ω → Phys → Page → ω × Phys
  kalloc : ω → Nat → Option (Nat × ω)
  kfree : ω → Nat → Nat → ω

variable {ω : Type} {A : Allocator ω}

/-- The pages and regions in use of allocators that keep to their task. -/
structure Lawful (A : Allocator ω) where
  /-- The pages and the regions, with their sizes, are in use. -/
  Valid : ω → Set Page → Set (Nat × Nat) → Prop
  mono : ∀ {w D K D' K'}, Valid w D K → D' ⊆ D → K' ⊆ K → Valid w D' K'
  page : ∀ {w D K p}, Valid w D K → p ∈ D →
    p.vpn ≠ 0 ∧ p.pfn < 2 ^ 54 ∧ A.frame w p.vpn = p.pfn
  inj : ∀ {w D K p q}, Valid w D K → p ∈ D → q ∈ D → p.pfn = q.pfn → p = q
  dmalloc : ∀ {w D K m z p w' m'}, Valid w D K → A.dmalloc w m z = some (p, w', m') →
    p ∉ D ∧ Valid w' (insert p D) K ∧ (∀ q ∈ D, m' q.pfn = m q.pfn) ∧
      (z = true → m' p.pfn = fun _ => 0)
  dmafree : ∀ {w D K m p}, Valid w D K → p ∈ D →
    Valid (A.dmafree w m p).1 (D \ {p}) K ∧
      ∀ q ∈ D, q ≠ p → (A.dmafree w m p).2 q.pfn = m q.pfn
  kalloc : ∀ {w D K n b w'}, Valid w D K → 1 ≤ n → A.kalloc w n = some (b, w') →
    (∀ a ∈ K, a.1 ≠ b) ∧ Valid w' D (insert (b, n) K)
  kfree : ∀ {w D K b n}, Valid w D K → (b, n) ∈ K → Valid (A.kfree w b n) D (K \ {(b, n)})

/-! ## Memory -/

/-- `PTReference_1` and `PTReference_2`. -/
structure PTReference where
  ptable : Nat
  ptRef : Nat
deriving DecidableEq, Repr

structure Memory (ω : Type) where
  heap : ω
  mem : Phys
  refs : Nat → Fin 512 → PTReference
  leaves : Nat → Fin 512 → Nat

namespace Memory

def dmalloc (A : Allocator ω) (s : Memory ω) (zeroing : Bool) : Option (Page × Memory ω) :=
  (A.dmalloc s.heap s.mem zeroing).map fun r => (r.1, { s with heap := r.2.1, mem := r.2.2 })

def dmafree (A : Allocator ω) (s : Memory ω) (p : Page) : Memory ω :=
  let r := A.dmafree s.heap s.mem p
  { s with heap := r.1, mem := r.2 }

/-- `kalloc` clears the region. -/
def kalloc (A : Allocator ω) (s : Memory ω) (pages : Nat) : Option (Nat × Memory ω) :=
  (A.kalloc s.heap pages).map fun r =>
    (r.1, { s with
      heap := r.2
      refs := Radix.fill s.refs r.1 ⟨0, 0⟩
      leaves := Radix.fill s.leaves r.1 0 })

def kfree (A : Allocator ω) (s : Memory ω) (b pages : Nat) : Memory ω :=
  { s with heap := A.kfree s.heap b pages }

/-- A load of a word of a kernel page. -/
def load (A : Allocator ω) (s : Memory ω) (vpn : Nat) (i : Fin 512) : UInt64 :=
  s.mem (A.frame s.heap vpn) i

/-- A store to a word of a kernel page. -/
def store (A : Allocator ω) (s : Memory ω) (vpn : Nat) (i : Fin 512) (x : UInt64) : Memory ω :=
  { s with mem := Radix.set s.mem (A.frame s.heap vpn) i x }

def setRef (s : Memory ω) (b : Nat) (i : Fin 512) (r : PTReference) : Memory ω :=
  { s with refs := Radix.set s.refs b i r }

def setLeaf (s : Memory ω) (b : Nat) (i : Fin 512) (v : Nat) : Memory ω :=
  { s with leaves := Radix.set s.leaves b i v }

end Memory

/-! ## Footprints -/

structure Footprint where
  pages : Set Page
  refs : Set (Nat × Nat)

namespace Footprint

def addPage (F : Footprint) (p : Page) : Footprint := { F with pages := insert p F.pages }

def addRef (F : Footprint) (b n : Nat) : Footprint := { F with refs := insert (b, n) F.refs }

end Footprint

/-- The footprint and the rest are in use and have nothing in common. -/
structure Own (V : Lawful A) (w : ω) (F R : Footprint) : Prop where
  valid : V.Valid w (F.pages ∪ R.pages) (F.refs ∪ R.refs)
  pages : ∀ p ∈ F.pages, p ∉ R.pages
  refs : ∀ a ∈ F.refs, ∀ a' ∈ R.refs, a.1 ≠ a'.1

/-- The contents of the footprint are the same. -/
structure Same (s s' : Memory ω) (F : Footprint) : Prop where
  mem : ∀ p ∈ F.pages, s'.mem p.pfn = s.mem p.pfn
  refs : ∀ a ∈ F.refs, s'.refs a.1 = s.refs a.1
  leaves : ∀ a ∈ F.refs, s'.leaves a.1 = s.leaves a.1

section Own

variable {V : Lawful A} {s s' s'' : Memory ω} {F R : Footprint} {p q : Page} {b n : Nat}

theorem Same.refl (s : Memory ω) (F : Footprint) : Same s s F :=
  ⟨fun _ _ => rfl, fun _ _ => rfl, fun _ _ => rfl⟩

theorem Same.trans (h₁ : Same s s' F) (h₂ : Same s' s'' F) : Same s s'' F :=
  ⟨fun p hp => (h₂.mem p hp).trans (h₁.mem p hp), fun a ha => (h₂.refs a ha).trans (h₁.refs a ha),
    fun a ha => (h₂.leaves a ha).trans (h₁.leaves a ha)⟩

theorem Own.frame {w : ω} (h : Own V w F R) (hp : p ∈ F.pages) : A.frame w p.vpn = p.pfn :=
  (V.page h.valid (.inl hp)).2.2

theorem Own.good {w : ω} (h : Own V w F R) (hp : p ∈ F.pages) : p.vpn ≠ 0 ∧ p.pfn < 2 ^ 54 :=
  ⟨(V.page h.valid (.inl hp)).1, (V.page h.valid (.inl hp)).2.1⟩

theorem Own.inj {w : ω} (h : Own V w F R) (hp : p ∈ F.pages) (hq : q ∈ F.pages)
    (he : p.pfn = q.pfn) : p = q :=
  V.inj h.valid (.inl hp) (.inl hq) he

/-- Pages of the footprint and of the rest have different frames. -/
theorem Own.apart {w : ω} (h : Own V w F R) (hp : p ∈ F.pages) (hq : q ∈ R.pages) :
    p.pfn ≠ q.pfn := fun he =>
  h.pages p hp (V.inj h.valid (.inl hp) (.inr hq) he ▸ hq)

theorem Own.dmalloc (h : Own V s.heap F R) {z : Bool} (hd : s.dmalloc A z = some (p, s')) :
    Own V s'.heap (F.addPage p) R ∧ Same s s' F ∧ Same s s' R ∧ p ∉ F.pages ∧
      (z = true → s'.mem p.pfn = fun _ => 0) := by
  obtain ⟨⟨p', w, m⟩, hA, he⟩ := Option.map_eq_some_iff.1 hd
  cases he
  obtain ⟨hnew, hvalid, hmem, hzero⟩ := V.dmalloc h.valid hA
  refine ⟨⟨?_, fun q hq hR => ?_, h.refs⟩, ⟨fun q hq => hmem q (.inl hq), fun _ _ => rfl, fun _ _ => rfl⟩,
    ⟨fun q hq => hmem q (.inr hq), fun _ _ => rfl, fun _ _ => rfl⟩, fun hp => hnew (.inl hp), hzero⟩
  · rw [← Set.insert_union] at hvalid
    exact hvalid
  · rcases hq with rfl | hq
    · exact hnew (.inr hR)
    · exact h.pages q hq hR

theorem Own.kalloc (h : Own V s.heap F R) (hn : 1 ≤ n) (hk : s.kalloc A n = some (b, s')) :
    Own V s'.heap (F.addRef b n) R ∧ Same s s' F ∧ Same s s' R ∧ (∀ a ∈ F.refs, a.1 ≠ b) ∧
      s'.mem = s.mem ∧ (∀ i, s'.refs b i = ⟨0, 0⟩) ∧ ∀ i, s'.leaves b i = 0 := by
  obtain ⟨⟨b', w⟩, hA, he⟩ := Option.map_eq_some_iff.1 hk
  cases he
  obtain ⟨hnew, hvalid⟩ := V.kalloc h.valid hn hA
  refine ⟨⟨?_, h.pages, fun a ha a' ha' => ?_⟩,
    ⟨fun _ _ => rfl, fun a ha => Radix.fill_of_ne (hnew a (.inl ha)) _,
      fun a ha => Radix.fill_of_ne (hnew a (.inl ha)) _⟩,
    ⟨fun _ _ => rfl, fun a ha => Radix.fill_of_ne (hnew a (.inr ha)) _,
      fun a ha => Radix.fill_of_ne (hnew a (.inr ha)) _⟩,
    fun a ha => hnew a (.inl ha), rfl, Radix.fill_self _ _ _, Radix.fill_self _ _ _⟩
  · rw [← Set.insert_union] at hvalid
    exact hvalid
  · rcases ha with rfl | ha
    · exact (hnew a' (.inr ha')).symm
    · exact h.refs a ha a' ha'

theorem Own.store_eq (h : Own V s.heap F R) (hp : p ∈ F.pages) (i : Fin 512) (x : UInt64) :
    s.store A p.vpn i x = { s with mem := Radix.set s.mem p.pfn i x } := by
  rw [Memory.store, h.frame hp]

theorem Own.load_eq (h : Own V s.heap F R) (hp : p ∈ F.pages) (i : Fin 512) :
    s.load A p.vpn i = s.mem p.pfn i := by
  rw [Memory.load, h.frame hp]

/-- A store to a page of the footprint. -/
theorem Own.same_store (h : Own V s.heap F R) (hp : p ∈ F.pages) (i : Fin 512) (x : UInt64) :
    Same s (s.store A p.vpn i x) R := by
  rw [h.store_eq hp]
  exact ⟨fun q hq => funext fun _ => Radix.set_of_ne fun he => absurd he.symm (h.apart hp hq),
    fun _ _ => rfl, fun _ _ => rfl⟩

theorem Own.same_setRef {w : ω} (h : Own V w F R) (hb : (b, n) ∈ F.refs) (i : Fin 512)
    (r : PTReference) : Same s (s.setRef b i r) R :=
  ⟨fun _ _ => rfl, fun a ha => funext fun _ =>
    Radix.set_of_ne fun he => absurd he.symm (h.refs _ hb a ha), fun _ _ => rfl⟩

theorem Own.same_setLeaf {w : ω} (h : Own V w F R) (hb : (b, n) ∈ F.refs) (i : Fin 512) (v : Nat) :
    Same s (s.setLeaf b i v) R :=
  ⟨fun _ _ => rfl, fun _ _ => rfl, fun a ha => funext fun _ =>
    Radix.set_of_ne fun he => absurd he.symm (h.refs _ hb a ha)⟩

end Own

end Space
