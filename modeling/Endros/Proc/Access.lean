import Endros.Proc.Files

/-!
# Access modes of descriptors

The low two bits of `open_flags` are the access mode.  It is an encoded field:
`sys_read` passes for the modes `0` and `2`, `sys_write` for `1` and `2`, and
mode `3` passes neither.  `sys_dup3` masks the flags of the copy with a word of
the user.  A mask clears bits, and clearing bits of the mode can give access: a
write-only descriptor becomes a read-only one, and a descriptor of mode `3`
becomes any other.

`Weaker` compares two words of flags by what they give access to.  Every slot
that `sys_dup`, `sys_dup3` and `sys_fork` fill comes from an occupied slot on the
same file, and all but `sys_dup3` copy the flags as they are.
-/

namespace Proc

open Lib

/-- `O_ACCMODE`. -/
def oAccmode (flags : UInt32) : UInt32 := flags &&& 3

/-- `O_RDONLY`. -/
def oRdonly : UInt32 := 0

/-- `O_WRONLY`. -/
def oWronly : UInt32 := 1

/-- `O_RDWR`. -/
def oRdwr : UInt32 := 2

/-- The check of `sys_read`. -/
def mayRead (flags : UInt32) : Bool := oAccmode flags == oRdwr || oAccmode flags == oRdonly

/-- The check of `sys_write`. -/
def mayWrite (flags : UInt32) : Bool := oAccmode flags == oRdwr || oAccmode flags == oWronly

/-- The flags `f` give no access that `g` does not give. -/
structure Weaker (f g : UInt32) : Prop where
  read : mayRead f = true → mayRead g = true
  write : mayWrite f = true → mayWrite g = true

theorem Weaker.refl (f : UInt32) : Weaker f f := ⟨id, id⟩

theorem oAccmode_cases (f : UInt32) :
    oAccmode f = 0 ∨ oAccmode f = 1 ∨ oAccmode f = 2 ∨ oAccmode f = 3 := by
  have hmod : (oAccmode f).toNat = f.toNat % 4 := by
    rw [oAccmode, UInt32.toNat_and]
    exact Nat.and_two_pow_sub_one_eq_mod f.toNat 2
  simp only [← UInt32.toNat_inj, hmod, UInt32.toNat_ofNat]
  omega

theorem oAccmode_and (f g : UInt32) : oAccmode (f &&& g) = oAccmode f &&& oAccmode g := by
  apply UInt32.toNat_inj.mp
  simp only [oAccmode, UInt32.toNat_and]
  refine Nat.eq_of_testBit_eq fun i => ?_
  simp only [Nat.testBit_and]
  cases f.toNat.testBit i <;> cases g.toNat.testBit i <;> simp

/-- A mask gives no new access exactly if the flags give access for reading, or
the mask keeps their mode. -/
theorem weaker_and_iff (f mask : UInt32) :
    Weaker (f &&& mask) f ↔ mayRead f = true ∨ oAccmode (f &&& mask) = oAccmode f := by
  have hmode : Weaker (f &&& mask) f ↔
      (mayRead (f &&& mask) = true → mayRead f = true) ∧
        (mayWrite (f &&& mask) = true → mayWrite f = true) :=
    ⟨fun h => ⟨h.read, h.write⟩, fun h => ⟨h.1, h.2⟩⟩
  rw [hmode, mayRead, mayRead, mayWrite, mayWrite, oAccmode_and]
  rcases oAccmode_cases f with h | h | h | h <;> rw [h] <;>
    rcases oAccmode_cases mask with h' | h' | h' | h' <;> rw [h'] <;> decide

/-! ## Where the slots of a table come from -/

/-- Every occupied slot of `t'` comes from one of `t` on the same file, with no
more access. -/
def Derives (t t' : FdTable) : Prop :=
  ∀ fd, (t' fd).occupied = true → ∃ fd₀, (t fd₀).occupied = true ∧
    (t' fd).file = (t fd₀).file ∧ Weaker (t' fd).openFlags (t fd₀).openFlags

theorem Derives.refl (t : FdTable) : Derives t t := fun fd h => ⟨fd, h, rfl, .refl _⟩

/-- A slot is filled from an occupied one. -/
theorem Derives.update {t t' : FdTable} (h : Derives t t') {fd fd₀ : Fin numFiles}
    {d : FileDescriptor} (hocc : (t fd₀).occupied = true) (hfile : d.file = (t fd₀).file)
    (hflags : Weaker d.openFlags (t fd₀).openFlags) : Derives t (Function.update t' fd d) := by
  intro e he
  by_cases hfd : e = fd
  · subst hfd
    rw [Function.update_self] at he ⊢
    exact ⟨fd₀, hocc, hfile, hflags⟩
  · rw [Function.update_of_ne hfd] at he ⊢
    exact h e he

theorem closeFd_derives (h : Heap) (t : FdTable) (fd : Fin numFiles) :
    Derives t (closeFd (h, t) fd).2 := by
  intro e he
  by_cases hfd : e = fd
  · subst hfd
    rw [closeFd_free] at he
    cases he
  · rw [closeFd_of_ne _ hfd] at he ⊢
    exact Derives.refl t e he

theorem sysDup_derives (h : Heap) (t : FdTable) (fd : Fin numFiles) :
    Derives t (sysDup h t fd).2.1 := by
  rw [sysDup]
  split
  · rename_i hocc
    split
    · exact .refl t
    · exact (Derives.refl t).update hocc rfl (.refl _)
  · exact .refl t

/-- The mask of `dup3` gives no access that the descriptor it copies does not
give. -/
theorem sysDup3_derives (h : Heap) {t : FdTable} {oldFd newFd : Fin numFiles} {flags : UInt32}
    (hw : (t oldFd).occupied = true → Weaker ((t oldFd).openFlags &&& flags) (t oldFd).openFlags) :
    Derives t (sysDup3 h t oldFd newFd flags).2.1 := by
  rw [sysDup3]
  split
  · rename_i hocc
    have hclose := closeFd_derives h t newFd
    have hfree := closeFd_free (h, t) newFd
    have hkeep := fun hne : oldFd ≠ newFd => closeFd_of_ne (h, t) hne
    generalize closeFd (h, t) newFd = r at hclose hfree hkeep ⊢
    obtain ⟨h₁, t₁⟩ := r
    dsimp only at hclose hfree hkeep ⊢
    by_cases hne : oldFd = newFd
    · subst hne
      intro e he
      by_cases hfd : e = oldFd
      · subst hfd
        rw [Function.update_self] at he
        exact absurd he (by rw [hfree]; decide)
      · rw [Function.update_of_ne hfd] at he ⊢
        exact hclose e he
    · rw [hkeep hne]
      exact hclose.update hocc rfl (hw hocc)
  · exact .refl t

/-- The loop of `sys_fork` leaves nothing occupied in the child that is not the
parent's. -/
theorem copyList_occupied (parent : FdTable) (fd : Fin numFiles) :
    ∀ (l : List (Fin numFiles)) (s : Heap × FdTable),
      fd ∈ l ∨ ((s.2 fd).occupied = true → s.2 fd = parent fd) →
      ((l.foldl (copyFd parent) s).2 fd).occupied = true →
      (l.foldl (copyFd parent) s).2 fd = parent fd
  | [], s, h, hocc => (h.resolve_left List.not_mem_nil) hocc
  | fd' :: l, s, h, hocc => by
      refine copyList_occupied parent fd l (copyFd parent s fd') ?_ hocc
      by_cases hfd : fd = fd'
      · subst hfd
        refine .inr fun ho => ?_
        rw [copyFd] at ho ⊢
        split at ho
        · simp_all
        · simp at ho
      · refine h.imp (fun hm => (List.mem_cons.mp hm).resolve_left hfd) fun hs ho => ?_
        have hsame : (copyFd parent s fd').2 fd = s.2 fd := by
          rw [copyFd]
          split <;> simp [hfd]
        rw [hsame] at ho ⊢
        exact hs ho

theorem copyAll_derives (parent : FdTable) (s : Heap × FdTable) :
    Derives parent (copyAll parent s).2 := by
  intro fd hocc
  have heq := copyList_occupied parent fd (List.finRange numFiles) s
    (.inl (List.mem_finRange fd)) hocc
  rw [copyAll] at hocc ⊢
  rw [heq] at hocc ⊢
  exact Derives.refl parent fd hocc

/-! ## Runs -/

/-- The process that runs is a live one of the table. -/
structure Awake (k : Kernel Heap FdTable) : Prop where
  lt : k.running < numProcs
  live : k.phase k.running = .live

/-- Some slot of a live process on the file passes a check of its flags. -/
def Grants (may : UInt32 → Bool) (k : Kernel Heap FdTable) (file : File) : Prop :=
  ∃ i fd, i < numProcs ∧ k.phase i = .live ∧ (k.res i fd).occupied = true ∧
    (k.res i fd).file = file ∧ may (k.res i fd).openFlags = true

/-- The calls that duplicate descriptors, and the scheduler in between. -/
inductive Duplicates : Event FileCall → Prop where
  | fork : Duplicates .fork
  | yield : Duplicates .yield
  | dup (fd : Fin numFiles) : Duplicates (.call (.dup fd))
  | dup3 (oldFd newFd : Fin numFiles) (flags : UInt32) : Duplicates (.call (.dup3 oldFd newFd flags))

/-- A `dup3` copies a descriptor that may be read, or its mask keeps the access
mode. -/
def KeepsMode (k : Kernel Heap FdTable) (e : Event FileCall) (_ : Kernel Heap FdTable) : Prop :=
  match e with
  | .call (.dup3 oldFd _ flags) => ((k.res k.running) oldFd).occupied = true →
      mayRead ((k.res k.running) oldFd).openFlags = true ∨
        oAccmode (((k.res k.running) oldFd).openFlags &&& flags) =
          oAccmode ((k.res k.running) oldFd).openFlags
  | _ => True

/-- A step of a run of duplications. -/
def DupStep (k : Kernel Heap FdTable) (e : Event FileCall) (k' : Kernel Heap FdTable) : Prop :=
  Duplicates e ∧ step filesMachine k e = some k'

section Step

variable {k k' : Kernel Heap FdTable} {e : Event FileCall}

theorem dupStep_effect (h : Awake k) (hs : DupStep k e k') : Effect filesMachine k k' e := by
  obtain ⟨hd, hs⟩ := hs
  refine .of_ready h.live ?_
  cases hd with
  | fork => exact fork_effect hs
  | yield =>
      obtain ⟨hw, hr, hp⟩ := schedule_quiet hs
      exact .quiet nofun hw hr hp
  | dup fd => exact call_effect hs
  | dup3 oldFd newFd flags => exact call_effect hs

theorem sysFork_running (hs : sysFork filesMachine k = some k') : k'.running = k.running := by
  rw [sysFork] at hs
  split at hs
  · cases hs
    rfl
  · split at hs <;> cases hs
    rfl

theorem sysCall_running {a : FileCall} (hs : sysCall filesMachine k a = some k') :
    k'.running = k.running := by
  rw [sysCall] at hs
  split at hs <;> cases hs
  rfl

/-- The table of every slot derives from the table of a live slot, and what is live
now was live or has just been forked. -/
theorem dupStep_derives (h : Awake k) (hs : DupStep k e k') (hc : KeepsMode k e k') {i : Nat}
    (hi : k'.phase i = .live) :
    ∃ j, (j = i ∨ j = k.running) ∧ k.phase j = .live ∧ Derives (k.res j) (k'.res i) := by
  cases dupStep_effect h hs with
  | quiet he hw hr hp =>
      rw [hp] at hi
      rw [hr]
      exact ⟨i, .inl rfl, hi, .refl _⟩
  | @fork c w t hlt hfree hcopy hw hr hp =>
      rw [hr]
      by_cases hic : i = c
      · subst hic
        rw [Function.update_self]
        have ht : t = (copyAll (k.res k.running) (k.world, k.res i)).2 :=
          congrArg Prod.snd (Option.some.inj hcopy).symm
        rw [ht]
        exact ⟨k.running, .inr rfl, h.live, copyAll_derives _ _⟩
      · rw [hp, Function.update_of_ne hic] at hi
        rw [Function.update_of_ne hic]
        exact ⟨i, .inl rfl, hi, .refl _⟩
  | zombie => cases hs.1
  | gone => cases hs.1
  | reap => cases hs.1
  | @call a w t v hexec hw hr hp =>
      rw [hp] at hi
      rw [hr]
      by_cases hir : i = k.running
      · subst hir
        rw [Function.update_self]
        refine ⟨k.running, .inl rfl, hi, ?_⟩
        cases hs.1 with
        | dup fd =>
            have ht : t = (sysDup k.world (k.res k.running) fd).2.1 :=
              congrArg (·.2.1) (Option.some.inj hexec).symm
            rw [ht]
            exact sysDup_derives _ _ _
        | dup3 oldFd newFd flags =>
            have ht : t = (sysDup3 k.world (k.res k.running) oldFd newFd flags).2.1 :=
              congrArg (·.2.1) (Option.some.inj hexec).symm
            rw [ht]
            exact sysDup3_derives _ fun hocc => (weaker_and_iff _ _).mpr (hc hocc)
      · rw [Function.update_of_ne hir]
        exact ⟨i, .inl rfl, hi, .refl _⟩

theorem dupStep_awake (h : Awake k) (hs : DupStep k e k') : Awake k' := by
  refine ⟨step_running_lt h.lt hs.2, ?_⟩
  have hsame : k'.running = k.running → k'.phase k'.running = .live := by
    intro hrun
    rw [hrun]
    cases dupStep_effect h hs with
    | quiet he hw hr hp => rw [hp, h.live]
    | fork hi hfree hc hw hr hp =>
        rw [hp]
        exact Function.update_apply .. |>.trans (ite_eq_left_iff.mpr fun _ => h.live)
    | zombie => cases hs.1
    | gone => cases hs.1
    | reap => cases hs.1
    | call hc hw hr hp => rw [hp, h.live]
  obtain ⟨hd, hs⟩ := hs
  cases hd with
  | fork => exact hsame (sysFork_running (k := k.setStatus k.running .ready) hs)
  | yield =>
      obtain ⟨t, -, rfl⟩ := schedule_cases hs
      show ((k.setStatus k.running .ready).setStatus t .running).phase t = .live
      rw [phase_setStatus, Function.update_self]
      rfl
  | dup fd => exact hsame (sysCall_running (k := k.setStatus k.running .ready) (a := .dup fd) hs)
  | dup3 oldFd newFd flags =>
      exact hsame (sysCall_running (k := k.setStatus k.running .ready) (a := .dup3 ..) hs)

/-- What a slot lets pass after the step, some slot has let pass before. -/
theorem dupStep_grants (h : Awake k) (hs : DupStep k e k') (hc : KeepsMode k e k') (file : File) :
    (Grants mayRead k' file → Grants mayRead k file) ∧
      (Grants mayWrite k' file → Grants mayWrite k file) := by
  have hone : ∀ may : UInt32 → Bool,
      (∀ f g, Weaker f g → may f = true → may g = true) → Grants may k' file → Grants may k file := by
    rintro may hmay ⟨i, fd, hi, hlive, hocc, hfile, hm⟩
    obtain ⟨j, hj, hjlive, hd⟩ := dupStep_derives h hs hc hlive
    obtain ⟨fd₀, hocc₀, hfile₀, hw⟩ := hd fd hocc
    have hlt : j < numProcs := by
      rcases hj with rfl | rfl
      · exact hi
      · exact h.lt
    exact ⟨j, fd₀, hlt, hjlive, hocc₀, hfile₀.symm.trans hfile, hmay _ _ hw hm⟩
  exact ⟨hone mayRead fun _ _ hw => hw.read, hone mayWrite fun _ _ hw => hw.write⟩

end Step

theorem filesBoot_awake : Awake filesBoot := ⟨by decide, rfl⟩

end Proc
