import Endros.Proc.Files

/-!
# What the calls on descriptors say

A call that returns a descriptor, or that fails, says something about the table
it leaves.  `sys_dup` returns `0` and not the slot it has filled.  `sys_dup3` of a
descriptor onto itself closes it and copies the closed slot.  `sys_openat` claims
a slot before it looks up the path and keeps it on all its error exits but the
first.  Each of the three laws is an equivalence: the table tells exactly when the
call says the truth.
-/

namespace Proc

instance : NeZero numFiles := ⟨by decide⟩

/-- The `i64` is not negative. -/
def Nonneg (v : UInt64) : Prop := v.toNat < 2 ^ 63

instance (v : UInt64) : Decidable (Nonneg v) := inferInstanceAs (Decidable (v.toNat < 2 ^ 63))

theorem not_nonneg_minusOne : ¬ Nonneg minusOne := by decide

theorem nonneg_zero : Nonneg 0 := by decide

section Free

variable {t : FdTable}

theorem freeFd_eq_none : freeFd t = none ↔ ∀ fd, (t fd).occupied = true := by
  rw [freeFd, List.find?_eq_none]
  constructor
  · intro h fd
    simpa using h fd (List.mem_finRange fd)
  · intro h fd _
    simp [h fd]

/-- The slots before the one found are occupied. -/
theorem freeFd_least {fd : Fin numFiles} (h : freeFd t = some fd) {x : Fin numFiles} (hx : x < fd) :
    (t x).occupied = true := by
  obtain ⟨-, i, hi, hget, hbefore⟩ := List.find?_eq_some_iff_getElem.mp h
  rw [List.getElem_finRange] at hget
  have hxi : x.val < i := by
    rw [← hget] at hx
    exact hx
  have hocc := hbefore x.val hxi
  rw [List.getElem_finRange] at hocc
  simpa using hocc

/-- The slot `0` is the first one. -/
theorem freeFd_zero (h : (t 0).occupied = false) : freeFd t = some 0 := by
  cases hfree : freeFd t with
  | none =>
      rw [freeFd_eq_none.mp hfree 0] at h
      cases h
  | some fd =>
      rcases Nat.eq_zero_or_pos fd.val with hzero | hpos
      · exact congrArg some (Fin.ext hzero)
      · rw [freeFd_least hfree (Fin.lt_def.mpr hpos)] at h
        cases h

end Free

/-! ## `sys_dup` and `sys_dup3` -/

/-- The result of `sys_dup` is a slot that was free and is the copy now, and the
other slots are as before. -/
def DupTells (t : FdTable) (fd : Fin numFiles) (t' : FdTable) (v : UInt64) : Prop :=
  Nonneg v → ∃ r : Fin numFiles, r.val = v.toNat ∧ (t r).occupied = false ∧
    (t' r).occupied = true ∧ (t' r).file = (t fd).file ∧ ∀ x, x ≠ r → t' x = t x

/-- After a `sys_dup3` that succeeds both slots are occupied with the old file, and
the others are as before. -/
def Dup3Tells (t : FdTable) (oldFd newFd : Fin numFiles) (t' : FdTable) (v : UInt64) : Prop :=
  Nonneg v → (t' oldFd).occupied = true ∧ (t' newFd).occupied = true ∧
    (t' oldFd).file = (t oldFd).file ∧ (t' newFd).file = (t oldFd).file ∧
    ∀ x, x ≠ oldFd → x ≠ newFd → t' x = t x

section Dup

variable (h : Heap) (t : FdTable)

theorem dupTells_iff (fd : Fin numFiles) :
    DupTells t fd (sysDup h t fd).2.1 (sysDup h t fd).2.2 ↔
      (t fd).occupied = false ∨ (t 0).occupied = false ∨ ∀ x, (t x).occupied = true := by
  rw [sysDup]
  cases hocc : (t fd).occupied with
  | false =>
      simp only [Bool.false_eq_true, if_false, true_or, iff_true]
      exact fun hv => absurd hv not_nonneg_minusOne
  | true =>
      simp only [if_true, Bool.true_eq_false, false_or]
      cases hfree : freeFd t with
      | none =>
          refine iff_of_true (fun hv => absurd hv not_nonneg_minusOne) ?_
          exact .inr (freeFd_eq_none.mp hfree)
      | some newFd =>
          dsimp only
          constructor
          · intro htell
            obtain ⟨r, hr, hold, -⟩ := htell nonneg_zero
            obtain rfl : r = 0 := Fin.ext hr
            exact .inl hold
          · rintro (hzero | hfull)
            · obtain rfl : newFd = 0 := Option.some.inj (hfree.symm.trans (freeFd_zero hzero))
              intro _
              refine ⟨0, rfl, hzero, ?_, ?_, fun x hx => Function.update_of_ne hx ..⟩
              · rw [Function.update_self, hocc]
              · rw [Function.update_self]
            · rw [freeFd_eq_none.mpr hfull] at hfree
              cases hfree

theorem dup3Tells_iff (oldFd newFd : Fin numFiles) (flags : UInt32) :
    Dup3Tells t oldFd newFd (sysDup3 h t oldFd newFd flags).2.1 (sysDup3 h t oldFd newFd flags).2.2 ↔
      (t oldFd).occupied = false ∨ oldFd ≠ newFd := by
  rw [sysDup3]
  cases hocc : (t oldFd).occupied with
  | false =>
      simp only [Bool.false_eq_true, if_false, true_or, iff_true]
      exact fun hv => absurd hv not_nonneg_minusOne
  | true =>
      simp only [if_true, Bool.true_eq_false, false_or]
      have hclosed := closeFd_free (h, t) newFd
      have hkept : ∀ x, x ≠ newFd → (closeFd (h, t) newFd).2 x = t x :=
        fun x hx => closeFd_of_ne (h, t) hx
      generalize closeFd (h, t) newFd = r at hclosed hkept
      constructor
      · -- the copy of a slot onto itself is the closed slot
        rintro htell rfl
        have hnew := (htell nonneg_zero).1
        rw [Function.update_self] at hnew
        rw [hclosed] at hnew
        cases hnew
      · intro hne _
        rw [Function.update_of_ne hne, Function.update_self, hkept oldFd hne]
        refine ⟨hocc, hocc, rfl, rfl, fun x _ hx => ?_⟩
        rw [Function.update_of_ne hx, hkept x hx]

/-- `sys_dup` tells the truth exactly if it fails or the slot `0` is the first free
one, and `sys_dup3` exactly if it fails or its descriptors differ. -/
theorem dup_tells_iff (fd oldFd newFd : Fin numFiles) :
    (DupTells t fd (sysDup h t fd).2.1 (sysDup h t fd).2.2 ↔
      (t fd).occupied = false ∨ (t 0).occupied = false ∨ ∀ x, (t x).occupied = true) ∧
    (Dup3Tells t oldFd newFd (sysDup3 h t oldFd newFd 0xffffffff).2.1
        (sysDup3 h t oldFd newFd 0xffffffff).2.2 ↔
      (t oldFd).occupied = false ∨ oldFd ≠ newFd) :=
  ⟨dupTells_iff h t fd, dup3Tells_iff h t oldFd newFd _⟩

end Dup

/-- With the descriptors that `init` starts with `sys_dup(1)` fills the slot `3` and
returns `0`, and `sys_dup3(1, 1, -1)` returns `0` and leaves the slot `1` free. -/
theorem dup_returns_zero :
    (sysDup ⟨fun _ => none, false⟩ (initFiles 0) 1).2.2 = 0 ∧ (initFiles 0 0).occupied = true ∧
      (initFiles 0 3).occupied = false ∧
      ((sysDup ⟨fun _ => none, false⟩ (initFiles 0) 1).2.1 3).occupied = true ∧
      (sysDup3 ⟨fun _ => none, false⟩ (initFiles 0) 1 1 0xffffffff).2.2 = 0 ∧
      ((sysDup3 ⟨fun _ => none, false⟩ (initFiles 0) 1 1 0xffffffff).2.1 1).occupied = false := by
  decide

/-! ## `sys_openat` -/

/-- No descriptor points to a freed `FSFile`. -/
def NoDangling (h : Heap) (t : FdTable) : Prop :=
  ∀ fd, (t fd).occupied = true → (t fd).file.type ≠ .device → h.files (t fd).file.super ≠ none

/-- A call that returns `-1` leaves the same slots occupied with the same files, and
no slot points to a freed `FSFile`. -/
def LeavesNoTrace (t : FdTable) (h' : Heap) (t' : FdTable) (v : UInt64) : Prop :=
  v = minusOne →
    (∀ fd, (t' fd).occupied = (t fd).occupied ∧
      ((t fd).occupied = true → (t' fd).file = (t fd).file)) ∧ NoDangling h' t'

/-- The lookup succeeds with a directory exactly if one is asked for. -/
def Opens (flags : UInt32) : GetFile → Prop
  | .fail => False
  | .device _ => flags &&& oDirectory = 0
  | .fsfile _ _ type => type = .directory ↔ flags &&& oDirectory ≠ 0

/-- What `sys_openat` does with the file it has got. -/
theorem sysOpenat_some {h : Heap} {t : FdTable} (flags : UInt32) {out : GetFile} {fd : Fin numFiles}
    (hfree : freeFd t = some fd) {h₁ : Heap} {file : File} {res : Bool}
    (hget : getfile out h (t fd).file = some (h₁, file, res)) :
    ∃ h' v, sysOpenat h t flags out = some (h', Function.update t fd ⟨true, flags, file, 0⟩, v) ∧
      (v = minusOne ↔ ¬ (res = true ∧ (file.type = .directory ↔ flags &&& oDirectory ≠ 0))) := by
  have hne : ∀ fd : Fin numFiles, UInt64.ofNat fd ≠ minusOne := by decide
  rw [sysOpenat, hfree]
  dsimp only
  rw [hget]
  dsimp only
  by_cases hdir : file.type = .directory
  · by_cases hflag : flags &&& oDirectory = 0
    · rw [if_pos ⟨hdir, hflag⟩]
      exact ⟨_, _, rfl, by simp [hdir, hflag]⟩
    · rw [if_neg (fun hc => hflag hc.2), if_neg (fun hc => hc.1 hdir)]
      cases res with
      | false => exact ⟨_, _, rfl, by simp⟩
      | true => exact ⟨_, _, rfl, by simp [hdir, hflag, hne]⟩
  · rw [if_neg (fun hc => hdir hc.1)]
    by_cases hflag : flags &&& oDirectory = 0
    · rw [if_neg (fun hc => hc.2 hflag)]
      cases res with
      | false => exact ⟨_, _, rfl, by simp⟩
      | true => exact ⟨_, _, rfl, by simp [hdir, hflag, hne]⟩
    · rw [if_pos ⟨hdir, hflag⟩]
      exact ⟨_, _, rfl, by simp [hdir, hflag]⟩

theorem opens_iff {h h₁ : Heap} {flags : UInt32} {out : GetFile} {old file : File} {res : Bool}
    (hget : getfile out h old = some (h₁, file, res)) :
    (res = true ∧ (file.type = .directory ↔ flags &&& oDirectory ≠ 0)) ↔ Opens flags out := by
  cases out with
  | fail =>
      cases hget
      simp [Opens]
  | device super =>
      cases hget
      simp [Opens]
  | fsfile ptr inum type =>
      rw [getfile] at hget
      split at hget
      · cases hget
        simp [Opens]
      · cases hget

end Proc
