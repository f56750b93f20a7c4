import Endros.Space.Isolation

/-!
# Memory of other processes

Address spaces have no frame in common.  So what a process does, by its instructions or by
system calls, does not change what the others find at their addresses: no entry of their page
tables, and no word of the pages that they can access.  The trap frame is not one of these, and
`sys_exit` does write the exit code into that of the parent.

`sys_fork` takes frames and `sys_exit` and `sys_waitpid` give them back, so this is about frames
that the allocators hand out again.
-/

namespace Space

open Lib Paging Mem

variable {ω : Type} {A : Allocator ω}

/-- Another process that is there before and after the step has its address space, and finds
in it what was there. -/
def Untouched (k : System ω) (_ : Action) (k' : System ω) : Prop :=
  ∀ i, i ≠ k.running → (k.table i).status ≠ .unused → (k'.table i).status ≠ .unused →
    k'.res i = k.res i ∧ ∀ vpn, userEntry k' i vpn = userEntry k i vpn ∧
      (userEntry k i vpn &&& pteValid ≠ 0 → userEntry k i vpn &&& pteUser ≠ 0 →
        k'.world.mem (getPfn (userEntry k i vpn)) = k.world.mem (getPfn (userEntry k i vpn)))

section Step

variable {V : Lawful A} {B : Platform} {k k' : System ω} {F : Nat → Footprint} {i : Nat}

/-- A kernel entry leaves the parts of the others as they are. -/
theorem Spaces.kernel_same {e : Proc.Event Call} (hsched : Proc.Sched k) (h : Spaces V B.trampoline k F)
    (hs : Proc.step (spaces A B) k e = some k') (hi : i ≠ k.running) (hp : k.phase i ≠ .free)
    (hp' : k'.phase i ≠ .free) : k'.res i = k.res i ∧ Same k.world k'.world (F i) := by
  have hlive : k.phase k.running ≠ .free := by
    rw [hsched.live]
    decide
  obtain ⟨T, Q, hF, hheld⟩ := h.held k.running hlive
  cases Proc.step_effect hsched hs with
  | quiet _ hw hr _ =>
      rw [hr, hw]
      exact ⟨rfl, .refl _ _⟩
  | @fork j w r _ hfree hc hw hr _ =>
      obtain ⟨⟨sp, s⟩, hf, he⟩ := Option.map_eq_some_iff.mp hc
      cases he
      have hij : i ≠ j := fun hij => hp (hij ▸ hfree)
      obtain ⟨-, -, -, hsame⟩ := hheld.fork hf
      rw [hr, Function.update_of_ne hij, hw]
      exact ⟨rfl, (hsame.mono Footprint.le_union_right).mono (le_others hi)⟩
  | zombie hc hw hr _ =>
      cases hc
      rw [hr, Function.update_of_ne hi, hw]
      exact ⟨rfl, .refl _ _⟩
  | gone hc hw hr _ =>
      cases hc
      rw [hr, Function.update_of_ne hi, hw]
      exact ⟨rfl, hheld.free.2.mono (le_others hi)⟩
  | @reap _ j _ hdead hw hr hq =>
      have hij : i ≠ j := fun hij => hp' (by rw [hq, hij, Function.update_self])
      obtain ⟨T', Q', -, hheld'⟩ := h.held j (by rw [hdead]; decide)
      rw [hr, hw]
      exact ⟨rfl, hheld'.free.2.mono (le_others hij)⟩
  | @call c w r v hc hw hr _ =>
      rw [hr, Function.update_of_ne hi, hw]
      refine ⟨rfl, Same.mono ?_ (le_others hi)⟩
      cases c with
      | sbrk size =>
          obtain ⟨⟨x, s⟩, hb, he⟩ := Option.map_eq_some_iff.mp hc
          cases he
          obtain ⟨-, -, -, hsame⟩ := hheld.sbrk hb
          exact hsame
      | replace program argc =>
          obtain ⟨⟨sp, s⟩, hl, he⟩ := Option.map_eq_some_iff.mp hc
          cases he
          obtain ⟨-, -, -, hsame⟩ := hheld.replace hl
          exact hsame

/-- What a process finds is in its part, or it is the trampoline. -/
theorem Spaces.finds_same (h : Spaces V B.trampoline k F) (hB : B.strampoline < 2 ^ 54)
    (hp : k.phase i ≠ .free) (hres : k'.res i = k.res i) (hsame : Same k.world k'.world (F i)) (vpn : Nat) :
    userEntry k' i vpn = userEntry k i vpn ∧
      (userEntry k i vpn &&& pteValid ≠ 0 → userEntry k i vpn &&& pteUser ≠ 0 →
        k'.world.mem (getPfn (userEntry k i vpn)) = k.world.mem (getPfn (userEntry k i vpn))) := by
  obtain ⟨T, Q, hF, hheld⟩ := h.held i hp
  rw [hF] at hsame
  have hT := hsame.mono (Footprint.le_union_left (G := Q))
  have htree' : UserTree k'.world (k.res i).root T := hheld.built.tree.congr hT
  refine ⟨?_, fun hv hu => ?_⟩
  · rw [userEntry, userEntry, rootOf, rootOf, hres, htree'.sv39_leafAt, hheld.built.tree.sv39_leafAt,
      hheld.built.tree.leafAt_congr hT]
  · rcases hheld.page_or hv with ⟨q, hq, hpfn⟩ | htramp
    · exact (congrArg k'.world.mem hpfn).symm.trans ((hsame.mem q (.inr hq)).trans (congrArg k.world.mem hpfn))
    · exact absurd ((congrArg (· &&& pteUser) htramp).trans (trampoline_not_user hB)) hu

theorem Safe.untouched (h : Safe V B k) (hB : B.strampoline < 2 ^ 54) {a : Action}
    (hs : SpaceStep A B k a k') : Untouched k a k' := by
  obtain ⟨hsched, F, hspaces⟩ := h
  have hphase : ∀ {κ : System ω} {i}, (κ.table i).status ≠ .unused → κ.phase i ≠ .free := fun {κ i} hne => by
    rw [Proc.Kernel.phase]
    revert hne
    cases (κ.table i).status <;> simp [Proc.Status.phase]
  intro i hi hu hu'
  obtain ⟨hres, hsame⟩ : k'.res i = k.res i ∧ Same k.world k'.world (F i) := by
    cases a with
    | kernel e => exact hspaces.kernel_same hsched hs hi (hphase hu) (hphase hu')
    | store vpn l x =>
        obtain ⟨hv, rfl⟩ := hs
        obtain ⟨T, Q, -, hheld⟩ := hspaces.held k.running (by rw [hsched.live]; decide)
        exact ⟨rfl, (hheld.storeUser hB hv l x).2.mono (le_others hi)⟩
  exact ⟨hres, fun vpn => hspaces.finds_same hB (hphase hu) hres hsame vpn⟩

theorem Safe.run_untouched (h : Safe V B k) (hB : B.strampoline < 2 ^ 54) {run : List (Action × System ω)}
    (hrun : IsRun (SpaceStep A B) k run) : EveryStep Untouched k run := by
  induction run generalizing k with
  | nil => trivial
  | cons _ _ ih => exact ⟨h.untouched hB hrun.1, ih (h.step hB hrun.1) hrun.2⟩

end Step

end Space
