import Mathlib.Data.List.Iterate
import Mathlib.Data.List.Nodup
import Mathlib.Logic.Function.Basic

/-!
# Singly linked lists

Nodes are linked by a function `next`, with `none` at the end.  `Chain next h l`
says that following the links from `h` visits exactly the nodes of `l`, in that
order.  The edits are those of a list in memory: a new head (`Chain.push`), and a
node taken out by a change of the link before it (`Chain.unlink`).

Where the end is not marked a list is a stretch of the links from one node to
another (`Segment`).
-/

namespace Lib

universe u

variable {ι : Type u}

/-- Following `next` from `h` visits the nodes of the list. -/
def Chain (next : ι → Option ι) : Option ι → List ι → Prop
  | h, [] => h = none
  | h, i :: l => h = some i ∧ Chain next (next i) l

namespace Chain

variable {next : ι → Option ι} {h : Option ι} {i : ι} {l : List ι}

theorem head_eq (hc : Chain next h (i :: l)) : h = some i := hc.1

/-- A chain reads only the links of its nodes. -/
theorem congr {next' : ι → Option ι} : ∀ {l : List ι} {h : Option ι}, Chain next h l →
    (∀ j ∈ l, next' j = next j) → Chain next' h l
  | [], _, hc, _ => hc
  | i :: l, _, hc, heq => by
      refine ⟨hc.1, ?_⟩
      rw [heq i (List.mem_cons_self ..)]
      exact congr hc.2 fun j hj => heq j (List.mem_cons_of_mem _ hj)

/-- A chain is split where a node is. -/
theorem of_append : ∀ {l₁ l₂ : List ι} {h : Option ι}, Chain next h (l₁ ++ i :: l₂) →
    Chain next (next i) l₂
  | [], _, _, hc => hc.2
  | _ :: _, _, _, hc => of_append hc.2

variable [DecidableEq ι]

theorem update_of_notMem {x : Option ι} (hc : Chain next h l) (hi : i ∉ l) :
    Chain (Function.update next i x) h l :=
  hc.congr fun j hj => Function.update_of_ne (fun he => hi (by rw [← he]; exact hj)) ..

/-- A new node in front. -/
theorem push (hc : Chain next h l) (hi : i ∉ l) :
    Chain (Function.update next i h) (some i) (i :: l) := by
  refine ⟨rfl, ?_⟩
  rw [Function.update_self]
  exact hc.update_of_notMem hi

/-- The node behind `p` is taken out. -/
theorem unlink {p : ι} {x : Option ι} : ∀ {l₁ l₂ : List ι} {h : Option ι},
    Chain next h (l₁ ++ p :: i :: l₂) → (l₁ ++ p :: i :: l₂).Nodup → x = next i →
    Chain (Function.update next p x) h (l₁ ++ p :: l₂)
  | [], l₂, h, hc, hnd, hx => by
      obtain ⟨hp, hnd⟩ := List.nodup_cons.mp hnd
      refine ⟨hc.1, ?_⟩
      rw [Function.update_self, hx]
      exact hc.2.2.update_of_notMem fun hm => hp (List.mem_cons_of_mem _ hm)
  | j :: l₁, l₂, h, hc, hnd, hx => by
      obtain ⟨hj, hnd⟩ := List.nodup_cons.mp hnd
      refine ⟨hc.1, ?_⟩
      have hjp : j ≠ p := by
        rintro rfl
        exact hj (by simp)
      rw [Function.update_of_ne hjp]
      exact unlink hc.2 hnd hx

end Chain

/-! ## Stretches of the links -/

/-- Following `next` from `a` visits the nodes of the list and then comes to
`b`. -/
def Segment (next : ι → ι) : ι → List ι → ι → Prop
  | a, [], b => a = b
  | a, i :: l, b => a = i ∧ Segment next (next i) l b

namespace Segment

variable {next : ι → ι} {a b c : ι} {l l' : List ι}

theorem append : ∀ {l : List ι} {a : ι}, Segment next a l b → Segment next b l' c →
    Segment next a (l ++ l') c
  | [], _, h, h' => by
      cases h
      exact h'
  | _ :: _, _, h, h' => ⟨h.1, append h.2 h'⟩

/-- A stretch reads only the links of its nodes. -/
theorem congr {next' : ι → ι} : ∀ {l : List ι} {a : ι}, Segment next a l b →
    (∀ j ∈ l, next' j = next j) → Segment next' a l b
  | [], _, h, _ => h
  | i :: l, _, h, heq => by
      refine ⟨h.1, ?_⟩
      rw [heq i (List.mem_cons_self ..)]
      exact congr h.2 fun j hj => heq j (List.mem_cons_of_mem _ hj)

theorem split : ∀ {l : List ι} {a : ι}, Segment next a (l ++ l') c →
    ∃ b, Segment next a l b ∧ Segment next b l' c
  | [], a, h => ⟨a, rfl, h⟩
  | _ :: _, _, h => by
      obtain ⟨b, h₁, h₂⟩ := split h.2
      exact ⟨b, ⟨h.1, h₁⟩, h₂⟩

/-- The nodes are those that iterating `next` visits. -/
theorem iterate_eq : ∀ {l : List ι} {a : ι}, Segment next a l b →
    List.iterate next a l.length = l
  | [], _, _ => rfl
  | i :: l, _, h => by
      cases h.1
      rw [List.length_cons, List.iterate, iterate_eq h.2]

theorem of_iterate (next : ι → ι) : ∀ (n : Nat) (a : ι),
    ∃ b, Segment next a (List.iterate next a n) b
  | 0, a => ⟨a, rfl⟩
  | n + 1, a => by
      obtain ⟨b, h⟩ := of_iterate next n (next a)
      exact ⟨b, rfl, h⟩

end Segment

end Lib
