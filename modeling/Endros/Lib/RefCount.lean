import Mathlib.Data.Fintype.Card
import Mathlib.Data.Finset.Card

/-!
# Reference counts

Finitely many slots each point to an object or to none.  `refs target p` is the
number of slots that point to `p`.  An allocator that keeps a count with every
object it has handed out is exact when the count of an object is the number of
its slots, and an object without slots is not allocated.

A pointer is set in an empty slot by `Exact.link`, or by `Exact.alloc` for a new
object, and taken out by `Exact.unlink`.
-/

namespace Lib

universe u v

variable {ι : Type u} {P : Type v} [Fintype ι] [DecidableEq P]

/-- The number of slots that point to `p`. -/
def refs (target : ι → Option P) (p : P) : Nat :=
  (Finset.univ.filter fun i => target i = some p).card

/-- `count p` is `none` for an object that is not allocated. -/
def Exact (target : ι → Option P) (count : P → Option Nat) : Prop :=
  ∀ p, count p = if refs target p = 0 then none else some (refs target p)

section

variable {target : ι → Option P} {i : ι} {p : P}

theorem refs_le_card (target : ι → Option P) (p : P) : refs target p ≤ Fintype.card ι :=
  Finset.card_le_univ _

theorem refs_pos (h : target i = some p) : 0 < refs target p :=
  Finset.card_pos.mpr ⟨i, by simpa using h⟩

variable [DecidableEq ι]

theorem refs_update_of_ne {o : Option P} {q : P} (hi : target i ≠ some q) (ho : o ≠ some q) :
    refs (Function.update target i o) q = refs target q := by
  refine congrArg Finset.card (Finset.filter_congr fun j _ => ?_)
  by_cases hj : j = i
  · subst hj
    simp [hi, ho]
  · simp [hj]

theorem refs_link (hi : target i ≠ some p) :
    refs (Function.update target i (some p)) p = refs target p + 1 := by
  have hmem : i ∉ Finset.univ.filter fun j => target j = some p := by simpa using hi
  rw [refs, refs, ← Finset.card_insert_of_notMem hmem]
  refine congrArg Finset.card (Finset.ext fun j => ?_)
  by_cases hj : j = i
  · subst hj
    simp
  · simp [hj]

theorem refs_unlink (hi : target i = some p) :
    refs (Function.update target i none) p + 1 = refs target p := by
  have hnone : Function.update target i none i ≠ some p := by simp
  have h := refs_link hnone
  rw [Function.update_idem, ← hi, Function.update_eq_self] at h
  exact h.symm

end

namespace Exact

variable {target : ι → Option P} {count : P → Option Nat} {i : ι} {p : P}

/-- An object some slot points to is allocated. -/
theorem allocated (h : Exact target count) (hi : target i = some p) :
    count p = some (refs target p) := by
  rw [h p, if_neg (Nat.ne_of_gt (refs_pos hi))]

theorem not_referenced (h : Exact target count) (hp : count p = none) : refs target p = 0 := by
  by_contra hne
  rw [h p, if_neg hne] at hp
  cases hp

theorem count_eq {n : Nat} (h : Exact target count) (hp : count p = some n) :
    n = refs target p ∧ 0 < n := by
  rw [h p] at hp
  split at hp
  · cases hp
  · cases hp
    exact ⟨rfl, by omega⟩

variable [DecidableEq ι]

/-- Exactness may be shown for the one object whose count changes. -/
theorem update {o : Option P} {c : Option Nat} (h : Exact target count)
    (hi : ∀ q, q ≠ p → target i ≠ some q ∧ o ≠ some q)
    (hp : c = if refs (Function.update target i o) p = 0 then none
      else some (refs (Function.update target i o) p)) :
    Exact (Function.update target i o) (Function.update count p c) := by
  intro q
  by_cases hq : q = p
  · subst hq
    rw [Function.update_self]
    exact hp
  · rw [Function.update_of_ne hq, refs_update_of_ne (hi q hq).1 (hi q hq).2]
    exact h q

/-- An empty slot gets a pointer to an allocated object. -/
theorem link {n : Nat} (h : Exact target count) (hi : target i = none) (hp : count p = some n) :
    Exact (Function.update target i (some p)) (Function.update count p (some (n + 1))) := by
  refine h.update (fun q hq => ⟨by rw [hi]; simp, by simpa using Ne.symm hq⟩) ?_
  rw [refs_link (by rw [hi]; simp), (h.count_eq hp).1, if_neg (Nat.succ_ne_zero _)]

/-- An empty slot gets a pointer to a new object. -/
theorem alloc (h : Exact target count) (hi : target i = none) (hp : count p = none) :
    Exact (Function.update target i (some p)) (Function.update count p (some 1)) := by
  refine h.update (fun q hq => ⟨by rw [hi]; simp, by simpa using Ne.symm hq⟩) ?_
  rw [refs_link (by rw [hi]; simp), h.not_referenced hp]
  rfl

/-- A slot loses its pointer, and the object is freed with its last one. -/
theorem unlink {n : Nat} (h : Exact target count) (hi : target i = some p)
    (hp : count p = some n) :
    Exact (Function.update target i none)
      (Function.update count p (if n = 1 then none else some (n - 1))) := by
  refine h.update (fun q hq => ⟨by rw [hi]; simpa using Ne.symm hq, by simp⟩) ?_
  have hn := (h.count_eq hp).1
  have hu := refs_unlink hi
  by_cases h1 : n = 1
  · rw [if_pos h1, if_pos (by omega)]
  · rw [if_neg h1, if_neg (by omega)]
    exact congrArg some (by omega)

/-- Where no pointer is set or lost the counts stay exact. -/
theorem update_none {o : Option P} (h : Exact target count) (hi : target i = none)
    (ho : o = none) : Exact (Function.update target i o) count := by
  rw [ho, ← hi, Function.update_eq_self]
  exact h

end Exact

end Lib
