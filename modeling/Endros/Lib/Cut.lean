import Mathlib.Data.List.Infix
import Mathlib.Data.Nat.Find

/-!
# Cutting a list

A list is cut at the leftmost occurrence of a delimiter, and what is behind it is cut in
the same way.  The pieces joined with the delimiter are the list (`Cut.join`), and none of
them contains the delimiter (`Cut.not_infix`).  There is exactly one way to cut a list
(`exists_cut`, `Cut.unique`).
-/

namespace Lib

universe u

variable {α : Type u} {d s a t : List α} {ps qs : List (List α)}

/-- The delimiter is not at a position before `n`. -/
def NotBefore (d s : List α) (n : Nat) : Prop := ∀ i, i < n → ¬ d <+: s.drop i

/-- The pieces of a list, cut at the leftmost occurrences of the delimiter `d`. -/
inductive Cut (d : List α) : List α → List (List α) → Prop where
  | last {s : List α} : ¬ d <:+: s → Cut d s [s]
  | next {a t : List α} {ps : List (List α)} : NotBefore d (a ++ (d ++ t)) a.length → Cut d t ps →
      Cut d (a ++ (d ++ t)) (a :: ps)

theorem prefix_drop_append (a d t : List α) : d <+: (a ++ (d ++ t)).drop a.length := by
  rw [List.drop_left]
  exact List.prefix_append d t

/-- Where the delimiter is in a list. -/
theorem infix_iff_drop : d <:+: s ↔ ∃ i, i ≤ s.length ∧ d <+: s.drop i := by
  constructor
  · rintro ⟨a, b, rfl⟩
    refine ⟨a.length, ?_, ?_⟩
    · rw [List.append_assoc, List.length_append]
      exact Nat.le_add_right _ _
    · rw [List.append_assoc]
      exact prefix_drop_append a d b
  · rintro ⟨i, -, h⟩
    exact h.isInfix.trans (List.drop_suffix i s).isInfix

theorem Cut.ne_nil (h : Cut d s ps) : ps ≠ [] := by
  cases h with
  | last _ => exact List.cons_ne_nil _ _
  | next _ _ => exact List.cons_ne_nil _ _

theorem Cut.getLast?_cons (h : Cut d t ps) (a : List α) : (a :: ps).getLast? = ps.getLast? := by
  obtain ⟨p, ps, rfl⟩ := List.exists_cons_of_ne_nil h.ne_nil
  exact List.getLast?_cons_cons

/-- The last piece is the end of the list. -/
theorem Cut.suffix {q : List α} (h : Cut d s ps) (hq : ps.getLast? = some q) : q <:+ s := by
  induction h with
  | last _ =>
      cases hq
      exact List.suffix_rfl
  | next _ ht ih =>
      rw [ht.getLast?_cons] at hq
      exact ((ih hq).trans (List.suffix_append ..)).trans (List.suffix_append ..)

/-- The pieces joined with the delimiter. -/
theorem Cut.join (h : Cut d s ps) : d.intercalate ps = s := by
  induction h with
  | last _ => exact List.intercalate_singleton
  | next _ ht ih =>
      obtain ⟨p, ps, rfl⟩ := List.exists_cons_of_ne_nil ht.ne_nil
      rw [List.intercalate_cons_cons, ih, List.append_assoc]

/-- No piece contains the delimiter. -/
theorem Cut.not_infix (hd : d ≠ []) (h : Cut d s ps) : ∀ p ∈ ps, ¬ d <:+: p := by
  induction h with
  | last hno =>
      intro p hp
      cases List.mem_singleton.mp hp
      exact hno
  | @next a t ps hbefore _ ih =>
      intro p hp
      cases hp with
      | tail _ hp => exact ih p hp
      | head =>
          intro hin
          obtain ⟨i, hi, hpre⟩ := infix_iff_drop.mp hin
          have hlen := hpre.length_le
          have hpos := List.length_pos_of_ne_nil hd
          rw [List.length_drop] at hlen
          refine hbefore i (by omega) ?_
          rw [List.drop_append_of_le_length hi]
          exact hpre.trans (List.prefix_append _ _)

/-- The piece before the first delimiter is unique. -/
theorem NotBefore.eq {a' t' : List α} (h : NotBefore d (a ++ (d ++ t)) a.length)
    (h' : NotBefore d (a' ++ (d ++ t')) a'.length) (heq : a ++ (d ++ t) = a' ++ (d ++ t')) :
    a = a' ∧ t = t' := by
  have hlen : a.length = a'.length := by
    rcases Nat.lt_trichotomy a.length a'.length with hlt | heq' | hgt
    · exact absurd (prefix_drop_append a d t) (heq ▸ h' _ hlt)
    · exact heq'
    · exact absurd (prefix_drop_append a' d t') (heq ▸ h _ hgt)
  obtain ⟨ha, hrest⟩ := List.append_inj heq hlen
  exact ⟨ha, List.append_cancel_left hrest⟩

theorem Cut.unique (h : Cut d s ps) (h' : Cut d s qs) : ps = qs := by
  induction h generalizing qs with
  | last hno =>
      cases h' with
      | last _ => rfl
      | @next a t _ _ _ => exact absurd ⟨a, t, List.append_assoc ..⟩ hno
  | @next a t ps hbefore _ ih =>
      generalize hs : a ++ (d ++ t) = s at h'
      cases h' with
      | last hno => exact absurd ⟨a, t, by rw [List.append_assoc, hs]⟩ hno
      | next hbefore' ht' =>
          obtain ⟨rfl, rfl⟩ := hbefore.eq hbefore' hs
          rw [ih ht']

/-- Every list can be cut. -/
theorem exists_cut (hd : d ≠ []) (s : List α) : ∃ ps, Cut d s ps := by
  classical
  induction hn : s.length using Nat.strong_induction_on generalizing s with
  | _ n ih =>
      by_cases hex : ∃ i, d <+: s.drop i
      · -- the first position
        have hfirst := Nat.find_spec hex
        have hbefore : NotBefore d s (Nat.find hex) := fun i hi => Nat.find_min hex hi
        generalize Nat.find hex = i at hfirst hbefore
        obtain ⟨t, ht⟩ := hfirst
        have hpos := List.length_pos_of_ne_nil hd
        have hlen := congrArg List.length ht
        rw [List.length_append, List.length_drop] at hlen
        obtain ⟨ps, hps⟩ := ih t.length (by omega) t rfl
        obtain ⟨a, rfl, rfl⟩ : ∃ a, s = a ++ (d ++ t) ∧ a.length = i :=
          ⟨s.take i, by rw [ht, List.take_append_drop], List.length_take_of_le (by omega)⟩
        exact ⟨a :: ps, .next hbefore hps⟩
      · refine ⟨[s], .last fun hin => hex ?_⟩
        obtain ⟨i, -, hi⟩ := infix_iff_drop.mp hin
        exact ⟨i, hi⟩

end Lib
