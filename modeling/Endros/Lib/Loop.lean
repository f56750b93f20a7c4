import Mathlib.Logic.Basic

/-!
# Counted loops that may fail

`loop f n s` runs `f 0`, ..., `f (n - 1)` on a state and stops at the first
error.  `loop_invariant` is the rule of a loop invariant, and `loop_total` the one
of an invariant under which the loop does not fail.  `loop_congr` and
`loop_simulates` compare two loops body by body.  `Runs` is a part of a loop.
-/

namespace Lib

universe u v

variable {ε : Type u} {σ : Type v}

/-- `f 0`, ..., `f (n - 1)` in this order. -/
def loop (f : Nat → σ → Except ε σ) : Nat → σ → Except ε σ
  | 0, s => .ok s
  | n + 1, s =>
      match loop f n s with
      | .error e => .error e
      | .ok s => f n s

/-- A computation that succeeds has succeeded in its first part. -/
theorem bind_ok {α : Type u} {β : Type u} {ε : Type v} {x : Except ε α} {f : α → Except ε β} {r : β}
    (h : x >>= f = .ok r) : ∃ a, x = .ok a ∧ f a = .ok r := by
  cases x with
  | error e => cases h
  | ok a => exact ⟨a, rfl, h⟩

theorem map_ok {α : Type u} {β : Type u} {ε : Type v} {x : Except ε α} {f : α → β} {b : β}
    (h : x.toOption.map f = some b) : ∃ a, x = .ok a ∧ f a = b := by
  cases x with
  | error e => cases h
  | ok a => exact ⟨a, rfl, Option.some.inj h⟩

theorem ok_bind {α : Type u} {β : Type u} {ε : Type v} (a : α) (f : α → Except ε β) :
    (Except.ok a >>= f) = f a :=
  rfl

theorem error_bind {α : Type u} {β : Type u} {ε : Type v} (e : ε) (f : α → Except ε β) :
    (Except.error e >>= f) = .error e :=
  rfl

theorem loop_succ_ok {f : Nat → σ → Except ε σ} {n : Nat} {s s' : σ}
    (h : loop f (n + 1) s = .ok s') : ∃ s₁, loop f n s = .ok s₁ ∧ f n s₁ = .ok s' := by
  rw [loop] at h
  cases hl : loop f n s with
  | error e => rw [hl] at h; cases h
  | ok s₁ => rw [hl] at h; exact ⟨s₁, rfl, h⟩

/-- Where a computation fails. -/
theorem bind_error {α : Type u} {β : Type u} {ε : Type v} {x : Except ε α} {f : α → Except ε β}
    {e : ε} (h : x >>= f = .error e) : x = .error e ∨ ∃ a, x = .ok a ∧ f a = .error e := by
  cases x with
  | error e' =>
      cases h
      exact .inl rfl
  | ok a => exact .inr ⟨a, rfl, h⟩

/-- A loop that fails has failed in some run of its body. -/
theorem loop_error {f : Nat → σ → Except ε σ} {n : Nat} {s : σ} {e : ε}
    (h : loop f n s = .error e) : ∃ i s', f i s' = .error e := by
  induction n with
  | zero => cases h
  | succ n ih =>
      rw [loop] at h
      cases hl : loop f n s with
      | error e' =>
          rw [hl] at h
          exact ih (hl.trans h)
      | ok s' =>
          rw [hl] at h
          exact ⟨n, s', h⟩

/-- A loop whose first run of the body fails. -/
theorem loop_first_error {f : Nat → σ → Except ε σ} {n : Nat} {s : σ} {e : ε}
    (h : f 0 s = .error e) (hn : 0 < n) : loop f n s = .error e := by
  induction n with
  | zero => cases hn
  | succ n ih =>
      rw [loop]
      cases n with
      | zero => exact h
      | succ n => rw [ih (Nat.succ_pos n)]

/-- A property that the body carries from one index to the next holds after the
loop. -/
theorem loop_invariant {f : Nat → σ → Except ε σ} {P : Nat → σ → Prop} {s s' : σ} {n : Nat}
    (h : loop f n s = .ok s') (h₀ : P 0 s)
    (hstep : ∀ i s s', i < n → P i s → f i s = .ok s' → P (i + 1) s') : P n s' := by
  induction n generalizing s' with
  | zero => cases h; exact h₀
  | succ n ih =>
      obtain ⟨s₁, h₁, h₂⟩ := loop_succ_ok h
      have hs₁ := ih h₁ fun i s s' hi => hstep i s s' (Nat.lt_succ_of_lt hi)
      exact hstep n s₁ s' (Nat.lt_succ_self n) hs₁ h₂

theorem loop_congr {f g : Nat → σ → Except ε σ} {n : Nat} {s : σ}
    (h : ∀ i s, i < n → f i s = g i s) : loop f n s = loop g n s := by
  induction n with
  | zero => rfl
  | succ n ih =>
      rw [loop, loop, ih fun i s hi => h i s (Nat.lt_succ_of_lt hi)]
      cases loop g n s with
      | error e => rfl
      | ok s₁ => exact h n s₁ (Nat.lt_succ_self n)

/-- Two loops whose bodies keep a relation between their states, one of which
succeeds when the other does. -/
theorem loop_simulates {τ : Type v} {f : Nat → σ → Except ε σ} {g : Nat → τ → Except ε τ}
    {R : σ → τ → Prop} {n : Nat} {s s' : σ} {t : τ} (h : loop f n s = .ok s') (hR : R s t)
    (hstep : ∀ i s s' t, R s t → f i s = .ok s' → ∃ t', g i t = .ok t' ∧ R s' t') :
    ∃ t', loop g n t = .ok t' ∧ R s' t' := by
  induction n generalizing s' with
  | zero => cases h; exact ⟨t, rfl, hR⟩
  | succ n ih =>
      obtain ⟨s₁, h₁, h₂⟩ := loop_succ_ok h
      obtain ⟨t₁, ht₁, hR₁⟩ := ih h₁
      obtain ⟨t', ht', hR'⟩ := hstep n s₁ s' t₁ hR₁ h₂
      exact ⟨t', by rw [loop, ht₁]; exact ht', hR'⟩

/-- The body takes the state `s` at the index `i` to the state `s'` at the index `j`. -/
inductive Runs (f : Nat → σ → Except ε σ) (i : Nat) (s : σ) : Nat → σ → Prop where
  | refl : Runs f i s i s
  | step {j : Nat} {s' s'' : σ} (before : Runs f i s j s') (last : f j s' = .ok s'') :
      Runs f i s (j + 1) s''

section Runs

variable {f : Nat → σ → Except ε σ} {i j k : Nat} {s s' s'' : σ}

theorem Runs.one (h : f i s = .ok s') : Runs f i s (i + 1) s' := .step .refl h

theorem Runs.trans (h : Runs f i s j s') (h' : Runs f j s' k s'') : Runs f i s k s'' := by
  induction h' with
  | refl => exact h
  | step _ last ih => exact .step ih last

theorem Runs.loop_eq (h : Runs f 0 s j s') : loop f j s = .ok s' := by
  induction h with
  | refl => rfl
  | step _ last ih => rw [loop, ih]; exact last

theorem runs_of_loop (h : loop f j s = .ok s') : Runs f 0 s j s' := by
  induction j generalizing s' with
  | zero =>
      cases h
      exact .refl
  | succ j ih =>
      obtain ⟨s₁, h₁, h₂⟩ := loop_succ_ok h
      exact .step (ih h₁) h₂

/-- The loop stops at the first error. -/
theorem Runs.loop_error {n : Nat} {e : ε} (h : Runs f 0 s j s') (he : f j s' = .error e)
    (hn : j < n) : loop f n s = .error e := by
  induction hn with
  | refl => rw [loop, h.loop_eq]; exact he
  | step _ ih => rw [loop, ih]

/-- A property under which the body succeeds, and that it carries from one index
to the next: the body runs up to every index. -/
theorem runs_total {P : Nat → σ → Prop} {n : Nat} (h₀ : P 0 s)
    (hstep : ∀ i s, i < n → P i s → ∃ s', f i s = .ok s' ∧ P (i + 1) s') :
    ∃ s', Runs f 0 s n s' ∧ P n s' := by
  induction n with
  | zero => exact ⟨s, .refl, h₀⟩
  | succ n ih =>
      obtain ⟨s₁, h₁, hP⟩ := ih fun i s hi => hstep i s (Nat.lt_succ_of_lt hi)
      obtain ⟨s', h', hP'⟩ := hstep n s₁ (Nat.lt_succ_self n) hP
      exact ⟨s', .step h₁ h', hP'⟩

/-- The loop succeeds then. -/
theorem loop_total {P : Nat → σ → Prop} {n : Nat} (h₀ : P 0 s)
    (hstep : ∀ i s, i < n → P i s → ∃ s', f i s = .ok s' ∧ P (i + 1) s') :
    ∃ s', loop f n s = .ok s' ∧ P n s' := by
  obtain ⟨s', h, hP⟩ := runs_total h₀ hstep
  exact ⟨s', h.loop_eq, hP⟩

end Runs

/-- Where a sequence of two optional results stops. -/
theorem bind_none {α β : Type} {o : Option α} {f : α → Option β} (h : o.bind f = none) :
    o = none ∨ ∃ a, o = some a ∧ f a = none := by
  cases o with
  | none => exact .inl rfl
  | some a => exact .inr ⟨a, rfl, h⟩

end Lib
