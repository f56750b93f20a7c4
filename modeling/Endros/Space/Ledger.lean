import Endros.Space.Memory

/-!
# What is taken and given back

`Own` says that a footprint is in use.  It does not say that nothing else is.  `Takes`
and `Gives` say how a footprint came about: by these allocations, and no others.

An `Account` is a statement about the allocators and a footprint that each allocation
keeps, if the footprint is changed along with it.  So it holds at the end of whatever
takes and gives (`Takes.holds`, `Gives.holds`).
-/

namespace Space

variable {ω : Type} {A : Allocator ω}

namespace Footprint

def dropPage (F : Footprint) (p : Page) : Footprint := { F with pages := F.pages \ {p} }

def dropRef (F : Footprint) (b n : Nat) : Footprint := { F with refs := F.refs \ {(b, n)} }

end Footprint

/-- From `w` with `F`, allocations lead to the second heap with the second footprint. -/
inductive Takes (A : Allocator ω) (w : ω) (F : Footprint) : ω → Footprint → Prop where
  | refl : Takes A w F w F
  | dmalloc {w₁ w₂ : ω} {F₁ : Footprint} {m m' : Paging.Phys} {z : Bool} {p : Page} :
      Takes A w F w₁ F₁ → A.dmalloc w₁ m z = some (p, w₂, m') → Takes A w F w₂ (F₁.addPage p)
  | kalloc {w₁ w₂ : ω} {F₁ : Footprint} {b n : Nat} :
      Takes A w F w₁ F₁ → 1 ≤ n → A.kalloc w₁ n = some (b, w₂) → Takes A w F w₂ (F₁.addRef b n)

/-- From `w` with `F`, frees of what is in the footprint lead to the second heap with the
second footprint. -/
inductive Gives (A : Allocator ω) (w : ω) (F : Footprint) : ω → Footprint → Prop where
  | refl : Gives A w F w F
  | dmafree {w₁ : ω} {F₁ : Footprint} {m : Paging.Phys} {p : Page} :
      Gives A w F w₁ F₁ → p ∈ F₁.pages → Gives A w F (A.dmafree w₁ m p).1 (F₁.dropPage p)
  | kfree {w₁ : ω} {F₁ : Footprint} {b n : Nat} :
      Gives A w F w₁ F₁ → (b, n) ∈ F₁.refs → Gives A w F (A.kfree w₁ b n) (F₁.dropRef b n)

/-- A statement that the allocators keep. -/
structure Account (A : Allocator ω) where
  Holds : ω → Footprint → Prop
  dmalloc : ∀ {w F m z p w' m'}, Holds w F → A.dmalloc w m z = some (p, w', m') →
    Holds w' (F.addPage p)
  kalloc : ∀ {w F n b w'}, Holds w F → 1 ≤ n → A.kalloc w n = some (b, w') →
    Holds w' (F.addRef b n)
  dmafree : ∀ {w F m p}, Holds w F → p ∈ F.pages → Holds (A.dmafree w m p).1 (F.dropPage p)
  kfree : ∀ {w F b n}, Holds w F → (b, n) ∈ F.refs → Holds (A.kfree w b n) (F.dropRef b n)

/-- Nothing is said about the heap. -/
def Account.none (A : Allocator ω) : Account A where
  Holds _ _ := True
  dmalloc _ _ := trivial
  kalloc _ _ _ := trivial
  dmafree _ _ := trivial
  kfree _ _ := trivial

section Ledger

variable {w w' w'' : ω} {F F' F'' : Footprint} {s s' : Memory ω} {p : Page} {b n : Nat}

theorem Takes.trans (h : Takes A w F w' F') (h' : Takes A w' F' w'' F'') : Takes A w F w'' F'' := by
  induction h' with
  | refl => exact h
  | dmalloc _ hd ih => exact ih.dmalloc hd
  | kalloc _ hn hk ih => exact ih.kalloc hn hk

theorem Takes.of_dmalloc {z : Bool} (hd : s.dmalloc A z = some (p, s')) :
    Takes A s.heap F s'.heap (F.addPage p) := by
  obtain ⟨⟨p', w, m⟩, hA, he⟩ := Option.map_eq_some_iff.1 hd
  cases he
  exact .dmalloc .refl hA

theorem Takes.of_kalloc (hn : 1 ≤ n) (hk : s.kalloc A n = some (b, s')) :
    Takes A s.heap F s'.heap (F.addRef b n) := by
  obtain ⟨⟨b', w⟩, hA, he⟩ := Option.map_eq_some_iff.1 hk
  cases he
  exact .kalloc .refl hn hA

theorem Takes.holds (U : Account A) (hU : U.Holds w F) (h : Takes A w F w' F') : U.Holds w' F' := by
  induction h with
  | refl => exact hU
  | dmalloc _ hd ih => exact U.dmalloc ih hd
  | kalloc _ hn hk ih => exact U.kalloc ih hn hk

theorem Gives.holds (U : Account A) (hU : U.Holds w F) (h : Gives A w F w' F') : U.Holds w' F' := by
  induction h with
  | refl => exact hU
  | dmafree _ hp ih => exact U.dmafree ih hp
  | kfree _ hb ih => exact U.kfree ih hb

end Ledger

end Space
