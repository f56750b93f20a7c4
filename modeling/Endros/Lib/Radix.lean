import Mathlib.Data.List.Infix
import Mathlib.Logic.Function.Basic

/-!
# Radix trees in memory

A memory holds tables: `mem f i` is the entry of the table `f` at the index `i`.
`child` says which table an entry points to, if any.  `walk` follows the indices
of a path from a table.

The tables may share memory in ways that a tree does not.  So the lemmas are
about the paths of a set `A`: `Separated` says that two of these paths never
reach the same table.  An entry that is written then changes only the walks that
use it.  A fresh table that is linked in an empty entry adds exactly one path
(`walk_link`).
-/

namespace Lib

namespace Radix

universe u v w

variable {ν : Type u} {ι : Type v} {α : Type w}

/-- The table that the path leads to from the table `f`. -/
def walk (child : α → Option ν) (mem : ν → ι → α) : ν → List ι → Option ν
  | f, [] => some f
  | f, i :: p =>
      match child (mem f i) with
      | none => none
      | some g => walk child mem g p

/-- A set of paths with all their prefixes. -/
def Prefixes (A : List ι → Prop) : Prop := ∀ p q, A (p ++ q) → A p

/-- No two paths of the set reach one table. -/
def Separated (child : α → Option ν) (mem : ν → ι → α) (root : ν) (A : List ι → Prop) : Prop :=
  ∀ p q f, A p → A q → walk child mem root p = some f → walk child mem root q = some f → p = q

/-- The table `f` is on no path of the set. -/
def Fresh (child : α → Option ν) (mem : ν → ι → α) (root : ν) (A : List ι → Prop) (f : ν) : Prop :=
  ∀ p, A p → walk child mem root p ≠ some f

section Walk

variable {child : α → Option ν} {mem mem' : ν → ι → α} {root f g h : ν} {p q : List ι} {i j : ι}
  {A : List ι → Prop}

theorem walk_cons (f : ν) (i : ι) (p : List ι) :
    walk child mem f (i :: p) = (child (mem f i)).bind fun g => walk child mem g p := by
  rw [walk]
  cases child (mem f i) <;> rfl

theorem walk_append : ∀ (p q : List ι) (f : ν),
    walk child mem f (p ++ q) = (walk child mem f p).bind fun g => walk child mem g q
  | [], _, _ => rfl
  | i :: p, q, f => by
      rw [List.cons_append, walk_cons, walk_cons, Option.bind_assoc]
      exact congrArg _ (funext fun g => walk_append p q g)

theorem walk_snoc (p : List ι) (i : ι) (f : ν) :
    walk child mem f (p ++ [i]) = (walk child mem f p).bind fun g => child (mem g i) := by
  rw [walk_append]
  refine congrArg _ (funext fun g => ?_)
  rw [walk_cons]
  cases child (mem g i) <;> rfl

/-- Walks that see the same entries are the same. -/
theorem walk_congr (hA : Prefixes A)
    (hmem : ∀ p i f, A (p ++ [i]) → walk child mem root p = some f →
      child (mem' f i) = child (mem f i)) :
    A q → walk child mem' root q = walk child mem root q := by
  induction q using List.reverseRecOn with
  | nil => exact fun _ => rfl
  | append_singleton q j ih =>
      intro hq
      rw [walk_snoc, walk_snoc, ih (hA q [j] hq)]
      cases hw : walk child mem root q with
      | none => rfl
      | some f => exact hmem q j f hq hw

theorem Separated.congr (hs : Separated child mem root A)
    (hwalk : ∀ q, A q → walk child mem' root q = walk child mem root q) :
    Separated child mem' root A := by
  intro p q f hp hq hfp hfq
  rw [hwalk p hp] at hfp
  rw [hwalk q hq] at hfq
  exact hs p q f hp hq hfp hfq

end Walk

section Write

variable [DecidableEq ν] [DecidableEq ι]
variable {child : α → Option ν} {mem : ν → ι → α} {root g h : ν} {p q : List ι} {i : ι} {x : α}
  {A : List ι → Prop}

/-- Set one entry. -/
def set (mem : ν → ι → α) (f : ν) (i : ι) (x : α) : ν → ι → α :=
  Function.update mem f (Function.update (mem f) i x)

theorem set_self (mem : ν → ι → α) (f : ν) (i : ι) (x : α) : set mem f i x f i = x := by
  rw [set, Function.update_self, Function.update_self]

theorem set_of_ne {f f' : ν} {i i' : ι} (h : f' = f → i' ≠ i) :
    set mem f i x f' i' = mem f' i' := by
  rw [set]
  by_cases hf : f' = f
  · subst hf
    rw [Function.update_self, Function.update_of_ne (h rfl)]
  · rw [Function.update_of_ne hf]

theorem set_set (mem : ν → ι → α) (f : ν) (i : ι) (x y : α) :
    set (set mem f i x) f i y = set mem f i y := by
  rw [set, set, Function.update_self, Function.update_idem, Function.update_idem, set]

theorem set_eq_self (mem : ν → ι → α) (f : ν) (i : ι) : set mem f i (mem f i) = mem := by
  rw [set, Function.update_eq_self, Function.update_eq_self]

theorem set_comm {f f' : ν} (h : f ≠ f') (mem : ν → ι → α) (i i' : ι) (x y : α) :
    set (set mem f i x) f' i' y = set (set mem f' i' y) f i x := by
  rw [set, set, set, set, Function.update_of_ne h.symm, Function.update_of_ne h,
    Function.update_comm h]

/-- Make all entries of a table `x`. -/
def fill (mem : ν → ι → α) (f : ν) (x : α) : ν → ι → α := Function.update mem f fun _ => x

omit [DecidableEq ι] in
theorem fill_self (mem : ν → ι → α) (f : ν) (x : α) (i : ι) : fill mem f x f i = x := by
  rw [fill, Function.update_self]

omit [DecidableEq ι] in
theorem fill_of_ne {f f' : ν} (h : f' ≠ f) (x : α) : fill mem f x f' = mem f' :=
  Function.update_of_ne h ..

theorem fill_set_comm {f f' : ν} (h : f ≠ f') (mem : ν → ι → α) (i : ι) (x y : α) :
    fill (set mem f i x) f' y = set (fill mem f' y) f i x := by
  rw [fill, fill, set, set, Function.update_of_ne h, Function.update_comm h]

/-- A change of an entry is seen only by the paths through it. -/
theorem walk_set_of_not_prefix (hA : Prefixes A) (hs : Separated child mem root A)
    (hp : A p) (hg : walk child mem root p = some g) (hq : A q) (hpre : ¬ p ++ [i] <+: q) :
    walk child (set mem g i x) root q = walk child mem root q := by
  induction q using List.reverseRecOn with
  | nil => rfl
  | append_singleton q j ih =>
      have hq' := hA q [j] hq
      rw [walk_snoc, walk_snoc, ih hq' fun h => hpre (h.trans (List.prefix_append q [j]))]
      cases hw : walk child mem root q with
      | none => rfl
      | some f =>
          show child (set mem g i x f j) = child (mem f j)
          rw [set_of_ne fun hf hi => hpre ?_]
          -- the path reaches the table that is written, so it is the path `p`
          subst hf
          subst hi
          rw [hs p q f hp hq' hg hw]

/-- A fresh table without children, linked in an entry that pointed nowhere. -/
theorem walk_link (hA : Prefixes A) (hs : Separated child mem root A) (hp : A p)
    (hg : walk child mem root p = some g) (hempty : child (mem g i) = none)
    (hx : child x = some h) (hh : ∀ j r, A (p ++ [i] ++ j :: r) → child (mem h j) = none)
    (hne : h ≠ g) (hq : A q) :
    walk child (set mem g i x) root q =
      if q = p ++ [i] then some h else walk child mem root q := by
  by_cases hpre : p ++ [i] <+: q
  · obtain ⟨r, rfl⟩ := hpre
    have hpath : walk child (set mem g i x) root (p ++ [i]) = some h := by
      have hnot : ¬ p ++ [i] <+: p := fun h => by
        have := h.length_le
        rw [List.length_append, List.length_singleton] at this
        omega
      rw [walk_snoc, walk_set_of_not_prefix hA hs hp hg hp hnot, hg]
      show child (set mem g i x g i) = some h
      rw [set_self, hx]
    cases r with
    | nil => rw [List.append_nil, if_pos rfl, hpath]
    | cons j r =>
        have hlong : p ++ [i] ++ j :: r ≠ p ++ [i] := fun h => by
          have := congrArg List.length h
          rw [List.length_append, List.length_cons] at this
          omega
        rw [if_neg hlong, walk_append, hpath, walk_append, walk_snoc, hg]
        show walk child (set mem g i x) h (j :: r) =
          ((child (mem g i)).bind fun f => walk child mem f (j :: r))
        rw [hempty, walk_cons, set_of_ne fun hgh => absurd hgh hne, hh j r hq]
        rfl
  · have hne' : q ≠ p ++ [i] := fun he => hpre (he ▸ List.prefix_rfl)
    rw [if_neg hne', walk_set_of_not_prefix hA hs hp hg hq hpre]

theorem Separated.link (hA : Prefixes A) (hs : Separated child mem root A) (hp : A p)
    (hg : walk child mem root p = some g) (hempty : child (mem g i) = none)
    (hx : child x = some h) (hh : ∀ j r, A (p ++ [i] ++ j :: r) → child (mem h j) = none)
    (hfresh : Fresh child mem root A h) : Separated child (set mem g i x) root A := by
  have hne : h ≠ g := fun he => hfresh p hp (he ▸ hg)
  intro q q' f hq hq' hf hf'
  rw [walk_link hA hs hp hg hempty hx hh hne hq] at hf
  rw [walk_link hA hs hp hg hempty hx hh hne hq'] at hf'
  split at hf
  · rename_i he
    split at hf'
    · rename_i he'
      rw [he, he']
    · cases hf
      exact absurd hf' (hfresh q' hq')
  · split at hf'
    · cases hf'
      exact absurd hf (hfresh q hq)
    · exact hs q q' f hq hq' hf hf'

end Write

end Radix

end Lib
