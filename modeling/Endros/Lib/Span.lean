import Mathlib.Data.List.Count
import Mathlib.Data.List.Perm.Basic

/-!
# Spans and tilings

A span is an interval of numbers with a tag.  A list of spans covers a number as
often as it has spans with that number (`cover`), and it tiles an interval when
it covers each number of the interval once and no other number (`Tiles`).  The
order of the list does not matter, so spans may move between two lists that
together tile an interval.

`firstFit` cuts a span of a given size from the first one of a list that is
large enough.  The tag of the rest is advanced by the size that was cut off.
What it returns together with what it leaves covers what the list covered.
-/

namespace Lib

universe u

structure Span (α : Type u) where
  start : Nat
  size : Nat
  tag : α
deriving DecidableEq, Repr

namespace Span

variable {α : Type u} {l l' : List (Span α)} {s t : Span α} {lo hi n x : Nat}

/-- The number is in the span. -/
abbrev Has (s : Span α) (x : Nat) : Prop := s.start ≤ x ∧ x < s.start + s.size

/-- The two spans have no number in common. -/
def Disjoint (s t : Span α) : Prop := ∀ x, s.Has x → ¬ t.Has x

theorem has_start (h : 1 ≤ s.size) : s.Has s.start := ⟨Nat.le_refl _, by omega⟩

/-- How many spans of the list have the number. -/
def cover (l : List (Span α)) (x : Nat) : Nat := l.countP fun s => decide (s.Has x)

theorem cover_cons (s : Span α) (l : List (Span α)) (x : Nat) :
    cover (s :: l) x = cover l x + if s.Has x then 1 else 0 := by
  rw [cover, cover, List.countP_cons]
  by_cases h : s.Has x <;> simp [h]

theorem cover_append (l l' : List (Span α)) (x : Nat) :
    cover (l ++ l') x = cover l x + cover l' x :=
  List.countP_append

theorem cover_perm (h : l.Perm l') (x : Nat) : cover l x = cover l' x := h.countP_eq _

/-- A span covers what its two parts cover. -/
theorem cover_split (a n m : Nat) (u v w : α) (l : List (Span α)) (x : Nat) :
    cover (⟨a, n, u⟩ :: ⟨a + n, m, v⟩ :: l) x = cover (⟨a, n + m, w⟩ :: l) x := by
  rw [cover_cons, cover_cons, cover_cons, Nat.add_assoc]
  refine congrArg _ ?_
  dsimp only [Has]
  split_ifs <;> omega

/-! ## Tilings -/

/-- The spans cover each number of `[lo, hi)` once and nothing else. -/
def Tiles (lo hi : Nat) (l : List (Span α)) : Prop :=
  ∀ x, cover l x = if lo ≤ x ∧ x < hi then 1 else 0

theorem tiles_nil (lo : Nat) : Tiles lo lo ([] : List (Span α)) := fun x => by
  rw [if_neg (by omega)]
  rfl

theorem Tiles.congr (h : Tiles lo hi l) (hcover : ∀ x, cover l' x = cover l x) : Tiles lo hi l' :=
  fun x => (hcover x).trans (h x)

/-- A span behind the end. -/
theorem Tiles.snoc (h : Tiles lo hi l) (hle : lo ≤ hi) (n : Nat) (a : α) :
    Tiles lo (hi + n) (⟨hi, n, a⟩ :: l) := fun x => by
  rw [cover_cons, h x]
  dsimp only [Has]
  split_ifs <;> omega

theorem Tiles.le_one (h : Tiles lo hi l) (x : Nat) : cover l x ≤ 1 := by
  rw [h x]
  split <;> omega

/-- The spans together are the interval. -/
theorem Tiles.mem_iff (h : Tiles lo hi l) (x : Nat) : (∃ s ∈ l, s.Has x) ↔ lo ≤ x ∧ x < hi := by
  have hpos : (∃ s ∈ l, s.Has x) ↔ 0 < cover l x := by
    rw [cover, List.countP_pos_iff]
    simp
  rw [hpos, h x]
  split <;> rename_i hx
  · exact iff_of_true Nat.one_pos hx
  · exact iff_of_false (Nat.lt_irrefl 0) hx

theorem pairwise_of_cover_le_one (h : ∀ x, cover l x ≤ 1) : l.Pairwise Disjoint := by
  induction l with
  | nil => exact .nil
  | cons s l ih =>
      refine .cons (fun t ht x hsx htx => ?_) (ih fun x => ?_)
      · have hx := h x
        have hpos : 1 ≤ cover l x := List.countP_pos_iff.2 ⟨t, ht, decide_eq_true htx⟩
        rw [cover_cons, if_pos hsx] at hx
        omega
      · have hx := h x
        rw [cover_cons] at hx
        omega

theorem Tiles.pairwise (h : Tiles lo hi l) : l.Pairwise Disjoint :=
  pairwise_of_cover_le_one h.le_one

/-- The first span has nothing in common with the others. -/
theorem Tiles.not_has (h : Tiles lo hi (s :: l)) (hsx : s.Has x) (ht : t ∈ l) : ¬ t.Has x :=
  (List.pairwise_cons.1 h.pairwise).1 t ht x hsx

/-- A number of a span that leaves the tiling is covered by what comes in its place. -/
theorem Tiles.cover_right {l₀ l r r' : List (Span α)} (h : Tiles lo hi (l₀ ++ l ++ r))
    (h' : Tiles lo hi (l ++ r')) (hs : s ∈ l₀) (hx : s.Has x) : cover r' x = 1 := by
  have hpos : 1 ≤ cover l₀ x := List.countP_pos_iff.2 ⟨s, hs, decide_eq_true hx⟩
  have hone := h x
  have hone' := h' x
  rw [cover_append, cover_append] at hone
  rw [cover_append] at hone'
  split at hone
  · rename_i hin
    rw [if_pos hin] at hone'
    omega
  · omega

/-! ## First fit -/

/-- Cut a span of size `n` from the first one that is large enough. -/
def firstFit (advance : α → Nat → α) (n : Nat) : List (Span α) → Option (Span α × List (Span α))
  | [] => none
  | s :: l =>
      if n < s.size then
        some (⟨s.start, n, s.tag⟩, ⟨s.start + n, s.size - n, advance s.tag n⟩ :: l)
      else if s.size = n then some (s, l)
      else (firstFit advance n l).map fun r => (r.1, s :: r.2)

variable {advance : α → Nat → α}

theorem firstFit_cover (h : firstFit advance n l = some (s, l')) (x : Nat) :
    cover (s :: l') x = cover l x := by
  induction l generalizing l' with
  | nil => cases h
  | cons r l ih =>
      rw [firstFit] at h
      split at h
      · rename_i hlt
        cases h
        rw [cover_split r.start n (r.size - n) _ _ r.tag, Nat.add_sub_cancel' (Nat.le_of_lt hlt)]
      · split at h
        · cases h
          rfl
        · obtain ⟨⟨t, m⟩, hm, he⟩ := Option.map_eq_some_iff.1 h
          cases he
          rw [cover_perm (.swap r t m), cover_cons, ih hm, cover_cons]

/-- A span that is cut from one of two lists joins the other. -/
theorem Tiles.firstFit {l₀ : List (Span α)} (ht : Tiles lo hi (l₀ ++ l))
    (h : firstFit advance n l = some (s, l')) : Tiles lo hi (s :: l₀ ++ l') := by
  refine ht.congr fun x => ?_
  have hcover := firstFit_cover h x
  rw [cover_cons] at hcover
  rw [List.cons_append, cover_cons, cover_append, cover_append]
  omega

theorem firstFit_size (h : firstFit advance n l = some (s, l')) : s.size = n := by
  induction l generalizing l' with
  | nil => cases h
  | cons r l ih =>
      rw [firstFit] at h
      split at h
      · cases h
        rfl
      · split at h
        · rename_i he
          cases h
          exact he
        · obtain ⟨⟨t, m⟩, hm, he⟩ := Option.map_eq_some_iff.1 h
          cases he
          exact ih hm

/-- What holds of the spans and of the parts they are cut into. -/
theorem firstFit_forall {P : Span α → Prop} (h : firstFit advance n l = some (s, l'))
    (hl : ∀ r ∈ l, P r)
    (hcut : ∀ r ∈ l, n < r.size → P ⟨r.start, n, r.tag⟩ ∧
      P ⟨r.start + n, r.size - n, advance r.tag n⟩) : ∀ r ∈ s :: l', P r := by
  induction l generalizing l' with
  | nil => cases h
  | cons q l ih =>
      rw [firstFit] at h
      split at h
      · rename_i hlt
        cases h
        obtain ⟨hfst, hsnd⟩ := hcut q List.mem_cons_self hlt
        exact List.forall_mem_cons.2 ⟨hfst, List.forall_mem_cons.2
          ⟨hsnd, fun r hr => hl r (List.mem_cons_of_mem q hr)⟩⟩
      · split at h
        · cases h
          exact hl
        · obtain ⟨⟨t, m⟩, hm, he⟩ := Option.map_eq_some_iff.1 h
          cases he
          have hrec := ih hm (fun r hr => hl r (List.mem_cons_of_mem q hr))
            fun r hr => hcut r (List.mem_cons_of_mem q hr)
          rw [List.forall_mem_cons] at hrec
          exact List.forall_mem_cons.2 ⟨hrec.1, List.forall_mem_cons.2
            ⟨hl q List.mem_cons_self, hrec.2⟩⟩

end Span

end Lib
