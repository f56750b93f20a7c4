import Mathlib.Logic.Basic

/-!
# Runs of a labelled transition system

A system is a relation `R s e s'`: from the state `s` the event `e` can lead to
`s'`.  A run from a state is the list of the events taken, oldest first, each
with the state it leads to.  `EveryState` and `EveryStep` say that a property
holds all along a run.

Two rules carry an invariant along a run.  `IsRun.everyStep` asks of every step
a condition `C` under which the invariant is kept, and gives a property `G` of
every step.  `IsRun.everyState_iff` is for a property that a step keeps exactly
when it meets `C`.
-/

namespace Lib

universe u v

variable {σ : Type u} {ε : Type v}

/-- `IsRun R s r`: the run `r` follows `R` from `s`. -/
def IsRun (R : σ → ε → σ → Prop) : σ → List (ε × σ) → Prop
  | _, [] => True
  | s, (e, s') :: r => R s e s' ∧ IsRun R s' r

/-- The state a run ends in. -/
def finalState : σ → List (ε × σ) → σ
  | s, [] => s
  | _, (_, s') :: r => finalState s' r

/-- `P` holds in every state of a run, the first one included. -/
def EveryState (P : σ → Prop) : σ → List (ε × σ) → Prop
  | s, [] => P s
  | s, (_, s') :: r => P s ∧ EveryState P s' r

/-- `C` holds of every step of a run. -/
def EveryStep (C : σ → ε → σ → Prop) : σ → List (ε × σ) → Prop
  | _, [] => True
  | s, (e, s') :: r => C s e s' ∧ EveryStep C s' r

instance EveryStep.decidable {C : σ → ε → σ → Prop} [∀ s e s', Decidable (C s e s')] :
    ∀ (s : σ) (r : List (ε × σ)), Decidable (EveryStep C s r)
  | _, [] => .isTrue trivial
  | s, (e, s') :: r =>
      have := EveryStep.decidable (C := C) s' r
      inferInstanceAs (Decidable (C s e s' ∧ EveryStep C s' r))

theorem EveryState.first {P : σ → Prop} {s : σ} :
    ∀ {r : List (ε × σ)}, EveryState P s r → P s
  | [], h => h
  | _ :: _, h => h.1

theorem EveryState.final {P : σ → Prop} :
    ∀ {s : σ} {r : List (ε × σ)}, EveryState P s r → P (finalState s r)
  | _, [], h => h
  | _, (_, s') :: r, h => EveryState.final (s := s') (r := r) h.2

theorem EveryState.mono {P Q : σ → Prop} (h : ∀ s, P s → Q s) :
    ∀ {s : σ} {r : List (ε × σ)}, EveryState P s r → EveryState Q s r
  | s, [], hp => h s hp
  | s, (_, _) :: _, hp => ⟨h s hp.1, EveryState.mono h hp.2⟩

/-- A property of every step of a run holds of every step of its second part. -/
theorem EveryStep.drop {C : σ → ε → σ → Prop} :
    ∀ {s : σ} {r r' : List (ε × σ)}, EveryStep C s (r ++ r') → EveryStep C (finalState s r) r'
  | _, [], _, h => h
  | _, (_, s') :: r, _, h => EveryStep.drop (s := s') (r := r) h.2

/-- And of its first part. -/
theorem EveryStep.take {C : σ → ε → σ → Prop} :
    ∀ {s : σ} {r r' : List (ε × σ)}, EveryStep C s (r ++ r') → EveryStep C s r
  | _, [], _, _ => trivial
  | _, (_, s') :: r, _, h => ⟨h.1, EveryStep.take (s := s') (r := r) h.2⟩

section Invariant

variable {R : σ → ε → σ → Prop} {I P : σ → Prop} {C G : σ → ε → σ → Prop}

/-- An invariant that every step meeting `C` keeps holds in every state of a
run whose steps all meet `C`. -/
theorem IsRun.everyState (hI : ∀ s e s', I s → R s e s' → C s e s' → I s') :
    ∀ {s : σ} {r : List (ε × σ)}, IsRun R s r → I s → EveryStep C s r → EveryState I s r
  | _, [], _, h0, _ => h0
  | s, (e, s') :: _, hr, h0, hc =>
      ⟨h0, IsRun.everyState hI hr.2 (hI s e s' h0 hr.1 hc.1) hc.2⟩

/-- An invariant that every step keeps. -/
theorem IsRun.invariant (hI : ∀ s e s', I s → R s e s' → I s') :
    ∀ {s : σ} {r : List (ε × σ)}, IsRun R s r → I s → EveryState I s r
  | _, [], _, h0 => h0
  | s, (e, s') :: _, hr, h0 => ⟨h0, IsRun.invariant hI hr.2 (hI s e s' h0 hr.1)⟩

/-- A property that holds of every step from an invariant state holds of every
step of a run whose steps all meet `C`. -/
theorem IsRun.everyStep (hI : ∀ s e s', I s → R s e s' → C s e s' → I s')
    (hG : ∀ s e s', I s → R s e s' → C s e s' → G s e s') :
    ∀ {s : σ} {r : List (ε × σ)}, IsRun R s r → I s → EveryStep C s r → EveryStep G s r
  | _, [], _, _, _ => trivial
  | s, (e, s') :: _, hr, h0, hc =>
      ⟨hG s e s' h0 hr.1 hc.1, IsRun.everyStep hI hG hr.2 (hI s e s' h0 hr.1 hc.1) hc.2⟩

/-- A property that a step keeps exactly when it meets `C`, next to an invariant
that every step keeps, holds all along a run exactly when every step meets
`C`. -/
theorem IsRun.everyState_iff
    (hI : ∀ s e s', I s → P s → R s e s' → I s' ∧ (P s' ↔ C s e s')) :
    ∀ {s : σ} {r : List (ε × σ)}, IsRun R s r → I s → P s →
      (EveryState P s r ↔ EveryStep C s r)
  | _, [], _, _, h0 => ⟨fun _ => trivial, fun _ => h0⟩
  | s, (e, s') :: _, hr, hi, h0 => by
      obtain ⟨hi', hiff⟩ := hI s e s' hi h0 hr.1
      constructor
      · intro h
        have hs' : P s' := EveryState.first h.2
        exact ⟨hiff.mp hs', (IsRun.everyState_iff hI hr.2 hi' hs').mp h.2⟩
      · intro h
        have hs' : P s' := hiff.mpr h.1
        exact ⟨h0, (IsRun.everyState_iff hI hr.2 hi' hs').mpr h.2⟩

end Invariant

/-- A run can be continued from the state it ends in. -/
theorem IsRun.append {R : σ → ε → σ → Prop} :
    ∀ {s : σ} {r r' : List (ε × σ)}, IsRun R s r → IsRun R (finalState s r) r' →
      IsRun R s (r ++ r')
  | _, [], _, _, h' => h'
  | _, (_, _) :: _, _, h, h' => ⟨h.1, IsRun.append h.2 h'⟩

/-- The second part of a run is one from the state the first part ends in. -/
theorem IsRun.drop {R : σ → ε → σ → Prop} :
    ∀ {s : σ} {r r' : List (ε × σ)}, IsRun R s (r ++ r') → IsRun R (finalState s r) r'
  | _, [], _, h => h
  | _, (_, s') :: r, _, h => IsRun.drop (s := s') (r := r) h.2

theorem IsRun.take {R : σ → ε → σ → Prop} :
    ∀ {s : σ} {r r' : List (ε × σ)}, IsRun R s (r ++ r') → IsRun R s r
  | _, [], _, _ => trivial
  | _, (_, s') :: r, _, h => ⟨h.1, IsRun.take (s := s') (r := r) h.2⟩

theorem finalState_append :
    ∀ (s : σ) (r r' : List (ε × σ)), finalState s (r ++ r') = finalState (finalState s r) r'
  | _, [], _ => rfl
  | _, (_, s') :: r, r' => finalState_append s' r r'

/-! ## Runs of a step function -/

/-- The run that takes the events `es` from `s`, if every one of them can be
taken. -/
def runOf (step : σ → ε → Option σ) : σ → List ε → Option (List (ε × σ))
  | _, [] => some []
  | s, e :: es =>
      match step s e with
      | none => none
      | some s' => (runOf step s' es).map ((e, s') :: ·)

theorem isRun_runOf {step : σ → ε → Option σ} :
    ∀ {s : σ} {es : List ε} {r : List (ε × σ)}, runOf step s es = some r →
      IsRun (fun s e s' => step s e = some s') s r
  | _, [], _, h => by cases h; trivial
  | s, e :: es, r, h => by
      rw [runOf] at h
      cases hs : step s e with
      | none => rw [hs] at h; cases h
      | some s' =>
          rw [hs] at h
          obtain ⟨r', hr', hr⟩ := Option.map_eq_some_iff.mp h
          subst hr
          exact ⟨hs, isRun_runOf hr'⟩

end Lib
