import Endros.Exec.Call

/-!
# The buffers of `sys_execve`

Up to the check of the permission `sys_execve` takes buffers and gives some of them back,
and leaves the process alone.  `Temps` has the list of the buffers that it still has.
What it copies is what the process had at the beginning, since the buffers are new.

An `Account` goes along, so that statements about the allocators can be made for the list
of buffers as well.
-/

namespace Exec

open Lib Mem Space
open Fs (Chr Disk GetfileLocals Mount Target Walk)

variable {ω : Type} {A : Allocator ω}

/-- The regions, as a footprint. -/
def buffers (l : List (Nat × Nat)) : Footprint := ⟨∅, {a | a ∈ l}⟩

theorem buffers_cons (b n : Nat) (l : List (Nat × Nat)) :
    buffers ((b, n) :: l) = (buffers l).addRef b n :=
  congrArg (Footprint.mk ∅) (Set.ext fun _ => List.mem_cons)

/-- The process is as it was at the beginning, in `s₀`, and the regions of the list are
there in addition. -/
structure Temps (V : Lawful A) (U : Account A) (s₀ : Memory ω) (sp : AddressSpace)
    (trampoline : UInt64) (T Q R : Footprint) (l : List (Nat × Nat)) (s : Memory ω) : Prop where
  start : Held V s₀ sp trampoline T Q R
  held : Held V s sp trampoline T Q ((buffers l).union R)
  nodup : (l.map Prod.fst).Nodup
  fresh : ∀ a ∈ l, ∀ a' ∈ ((T.union Q).union R).refs, a.1 ≠ a'.1
  same : Same s₀ s ((T.union Q).union R)
  account : U.Holds s.heap ((buffers l).union ((T.union Q).union R))

section Temps

variable {V : Lawful A} {U : Account A} {s₀ s s' : Memory ω} {sp : AddressSpace} {trampoline : UInt64}
  {T Q R : Footprint} {l l' : List (Nat × Nat)} {b n : Nat}

theorem Temps.begin (h : Held V s sp trampoline T Q R)
    (hU : U.Holds s.heap ((T.union Q).union R)) : Temps V U s sp trampoline T Q R [] s := by
  have hnone : ∀ F : Footprint, (buffers []).union F = F := fun F => by
    have he : buffers [] = .none := congrArg (Footprint.mk ∅) (Set.ext fun a => by simp)
    rw [he, Footprint.union, Footprint.none, Set.empty_union, Set.empty_union]
  refine ⟨h, ?_, List.nodup_nil, fun a ha => absurd ha List.not_mem_nil, .refl s _, ?_⟩
  · rw [hnone]
    exact h
  · rw [hnone]
    exact hU

theorem Temps.perm (h : Temps V U s₀ sp trampoline T Q R l s) (hl : l.Perm l') :
    Temps V U s₀ sp trampoline T Q R l' s := by
  have he : buffers l' = buffers l := congrArg (Footprint.mk ∅) (Set.ext fun a => hl.mem_iff.symm)
  refine ⟨h.start, ?_, (hl.map Prod.fst).nodup_iff.mp h.nodup, fun a ha => h.fresh a (hl.mem_iff.mpr ha),
    h.same, ?_⟩
  · rw [he]
    exact h.held
  · rw [he]
    exact h.account

/-- A buffer is taken. -/
theorem Temps.kalloc (h : Temps V U s₀ sp trampoline T Q R l s) (hn : 1 ≤ n)
    (hk : s.kalloc A n = some (b, s')) :
    Temps V U s₀ sp trampoline T Q R ((b, n) :: l) s' := by
  obtain ⟨hb, hsame, hleaf, hnew⟩ := h.held.built.kalloc_rest hn hk
  have hle : ((T.union Q).union R).Le (T.union (Q.union ((buffers l).union R))) := by
    refine Footprint.union_le (Footprint.union_mono (.refl T) Footprint.le_union_left) ?_
    exact (Footprint.le_union_right.trans Footprint.le_union_right).trans Footprint.le_union_right
  have haccount : U.Holds s'.heap (((buffers l).union ((T.union Q).union R)).addRef b n) := by
    obtain ⟨⟨b', w⟩, hA, he⟩ := Option.map_eq_some_iff.1 hk
    cases he
    exact U.kalloc h.account hn hA
  refine ⟨h.start, ⟨?_, hleaf ▸ h.held.trap, h.held.trap_ne, h.held.stack, h.held.heap⟩, ?_, ?_,
    h.same.trans (hsame.mono hle), ?_⟩
  · rw [buffers_cons, Footprint.union_addRef]
    exact hb
  · refine List.nodup_cons.mpr ⟨fun hin => ?_, h.nodup⟩
    obtain ⟨a, ha, he⟩ := List.mem_map.mp hin
    exact hnew a (.inr (.inr (.inl ha))) he
  · intro a ha a' ha'
    rcases List.mem_cons.mp ha with rfl | ha
    · exact (hnew a' (hle.refs ha')).symm
    · exact h.fresh a ha a' ha'
  · rw [buffers_cons, Footprint.union_addRef]
    exact haccount

/-- The first buffer of the list is given back. -/
theorem Temps.kfree (h : Temps V U s₀ sp trampoline T Q R ((b, n) :: l) s) :
    Temps V U s₀ sp trampoline T Q R l (s.kfree A b n) := by
  obtain ⟨hnot, hnodup⟩ := List.nodup_cons.mp h.nodup
  have hbl : (b, n) ∉ l := fun hin => hnot (List.mem_map_of_mem hin)
  have hfresh : ∀ a ∈ ((T.union Q).union R).refs, a.1 ≠ b := fun a ha he =>
    h.fresh _ List.mem_cons_self a ha he.symm
  have hin : (b, n) ∈ ((buffers ((b, n) :: l)).union R).refs := .inl List.mem_cons_self
  have hle : ((buffers l).union R).Le ((buffers ((b, n) :: l)).union R) :=
    Footprint.union_mono ⟨subset_rfl, fun a ha => List.mem_cons_of_mem _ ha⟩ (.refl R)
  have hout : (b, n) ∉ ((buffers l).union R).refs := by
    rintro (hl | hR)
    · exact hbl hl
    · exact hfresh _ (.inr hR) rfl
  have hall : (b, n) ∉ ((buffers l).union ((T.union Q).union R)).refs := by
    rintro (hl | hR)
    · exact hbl hl
    · exact hfresh _ hR rfl
  have hdrop : ((buffers ((b, n) :: l)).union ((T.union Q).union R)).dropRef b n =
      (buffers l).union ((T.union Q).union R) := by
    rw [buffers_cons, Footprint.union_addRef]
    exact congrArg (Footprint.mk _) (Set.insert_sdiff_self_of_notMem hall)
  refine ⟨h.start, ⟨h.held.built.kfree_rest hin hle hout, h.held.trap, h.held.trap_ne, h.held.stack,
    h.held.heap⟩, hnodup, fun a ha => h.fresh a (List.mem_cons_of_mem _ ha),
    h.same.trans ⟨fun _ _ => rfl, fun _ _ => rfl, fun _ _ => rfl⟩, ?_⟩
  rw [← hdrop]
  exact U.kfree h.account (.inl List.mem_cons_self)

/-- A buffer of the list is given back. -/
theorem Temps.kfree_mem (h : Temps V U s₀ sp trampoline T Q R l s) (hb : (b, n) ∈ l) :
    Temps V U s₀ sp trampoline T Q R (l.erase (b, n)) (s.kfree A b n) :=
  (h.perm (List.perm_cons_erase hb)).kfree

/-- The buffers of strings. -/
def regions (xs : List Argument) : List (Nat × Nat) := xs.map fun x => (x.region, bufferPages)

/-! ## Copies -/

/-- The kernel sees the pages that the process had at the beginning. -/
theorem Temps.pages_eq (h : Temps V U s₀ sp trampoline T Q R l s) (v : Nat) :
    (view A s sp.root).pages ((view A s sp.root).walkupt v) =
      (view A s₀ sp.root).pages ((view A s₀ sp.root).walkupt v) := by
  have hT : Same s₀ s T := h.same.mono (Footprint.le_union_left.trans Footprint.le_union_left)
  have hleaf := h.start.built.tree.leafAt_congr hT
  have hwalk : (view A s sp.root).walkupt v = (view A s₀ sp.root).walkupt v := by
    show walkupt s sp.root.ref v = walkupt s₀ sp.root.ref v
    rw [h.held.built.tree.walkupt_eq, h.start.built.tree.walkupt_eq, hleaf]
  have hslot : (view A s₀ sp.root).walkupt v = (leafAt s₀ sp.root (slotOf v)).2 :=
    h.start.built.tree.walkupt_eq v
  rw [hwalk, hslot, view, view]
  dsimp only
  by_cases hne : (leafAt s₀ sp.root (slotOf v)).2 = 0
  · rw [if_pos hne, if_pos hne]
  · have hq := h.start.built.leaves.held _ hne
    have hframe : A.frame s.heap (leafAt s₀ sp.root (slotOf v)).2 =
        (leafPage (leafAt s₀ sp.root (slotOf v))).pfn := (h.held.built.good hq).2.2
    have hframe₀ : A.frame s₀.heap (leafAt s₀ sp.root (slotOf v)).2 =
        (leafPage (leafAt s₀ sp.root (slotOf v))).pfn := (h.start.built.good hq).2.2
    rw [if_neg hne, if_neg hne, hframe, hframe₀, h.same.mem _ (.inl (.inr hq))]

/-- A copy to a buffer. -/
theorem Temps.copyIn {a : UInt64} {unitSize : Nat} {buf : Nat → UInt8}
    (h : Temps V U s₀ sp trampoline T Q R l s)
    (hc : copyIn A sp.root a unitSize s = some (b, buf, s')) :
    Temps V U s₀ sp trampoline T Q R ((b, bufferPages) :: l) s' ∧
      (view A s₀ sp.root).translate2Pages 3 (fun _ => 0) a unitSize = some buf := by
  obtain ⟨⟨b', s₁⟩, hk, hc⟩ := Option.bind_eq_some_iff.mp hc
  obtain ⟨buf', hbuf, hc⟩ := Option.bind_eq_some_iff.mp hc
  cases hc
  have h₁ := h.kalloc (by decide) hk
  refine ⟨h₁, ?_⟩
  rw [← hbuf]
  exact (Io.UserMemory.translate2Pages_congr h₁.pages_eq ..).symm

/-- The string of the process at an address. -/
def userString (m : Io.UserMemory) (a : UInt64) : Option (List Chr) :=
  (m.translate2Pages 3 (fun _ => 0) a 1).bind fun buf => cString buf bufferBytes 0

theorem Temps.copyString {a : UInt64} {x : Argument} (h : Temps V U s₀ sp trampoline T Q R l s)
    (hc : copyString A sp.root a s = some (x, s')) :
    Temps V U s₀ sp trampoline T Q R ((x.region, bufferPages) :: l) s' ∧
      userString (view A s₀ sp.root) a = some x.text := by
  obtain ⟨⟨b, buf, s₁⟩, hin, hc⟩ := Option.bind_eq_some_iff.mp hc
  obtain ⟨text, htext, hc⟩ := Option.bind_eq_some_iff.mp hc
  cases hc
  obtain ⟨h', hbuf⟩ := h.copyIn hin
  exact ⟨h', Option.bind_eq_some_iff.mpr ⟨buf, hbuf, htext⟩⟩

/-- The pointers of an array from `i` on, up to the one that is zero. -/
def pointersFrom (pointers : Nat → UInt8) : Nat → Nat → Option (List UInt64)
  | 0, _ => none
  | n + 1, i =>
      if le64 pointers (8 * i) = 0 then some []
      else (pointersFrom pointers n (i + 1)).map (le64 pointers (8 * i) :: ·)

theorem Temps.copyStrings {pointers : Nat → UInt8} {i : Nat} {xs : List Argument}
    (h : Temps V U s₀ sp trampoline T Q R l s)
    (hc : copyStrings A sp.root pointers n i s = some (xs, s')) :
    Temps V U s₀ sp trampoline T Q R (regions xs ++ l) s' ∧
      ∃ ps, pointersFrom pointers n i = some ps ∧
        List.Forall₂ (fun p x => userString (view A s₀ sp.root) p = some x.text) ps xs := by
  induction n generalizing i l s xs with
  | zero => cases hc
  | succ n ih =>
      rw [Exec.copyStrings] at hc
      rw [pointersFrom]
      split at hc
      · rename_i hzero
        cases hc
        exact ⟨h, [], if_pos hzero, .nil⟩
      · rename_i hzero
        obtain ⟨⟨x, s₁⟩, hx, hc⟩ := Option.bind_eq_some_iff.mp hc
        obtain ⟨⟨xs', s₂⟩, hxs, hc⟩ := Option.bind_eq_some_iff.mp hc
        cases hc
        obtain ⟨h₁, htext⟩ := h.copyString hx
        obtain ⟨h₂, ps, hps, htexts⟩ := ih h₁ hxs
        refine ⟨h₂.perm List.perm_middle, _, ?_, .cons htext htexts⟩
        rw [if_neg hzero, hps, Option.map_some]

/-- The regions of the arguments, and others. -/
def Arguments.on (x : Arguments) (l : List (Nat × Nat)) : List (Nat × Nat) :=
  regions x.strings ++ (x.region, bufferPages) :: l

def Arguments.texts (x : Arguments) : List (List Chr) := x.strings.map Argument.text

/-- The strings of the array at an address, as the kernel copies them. -/
def UserStrings (m : Io.UserMemory) (a : UInt64) (texts : List (List Chr)) : Prop :=
  ∃ buf ps, m.translate2Pages 3 (fun _ => 0) a 8 = some buf ∧ pointersFrom buf 1024 0 = some ps ∧
    List.Forall₂ (fun p text => userString m p = some text) ps texts

/-- The buffers behind the copies. -/
theorem Temps.copyArguments {path argv envp : UInt64} {x : Argument} {y z : Arguments}
    (h : Temps V U s₀ sp trampoline T Q R l s)
    (hc : copyArguments A sp.root path argv envp s = some (x, y, z, s')) :
    Temps V U s₀ sp trampoline T Q R ((x.region, bufferPages) :: y.on (z.on l)) s' ∧
      userString (view A s₀ sp.root) path = some x.text ∧
      UserStrings (view A s₀ sp.root) argv y.texts ∧ UserStrings (view A s₀ sp.root) envp z.texts := by
  obtain ⟨⟨kernelPath, s₁⟩, hpath, hc⟩ := Option.bind_eq_some_iff.mp hc
  obtain ⟨⟨kernelArgv, pointers, s₂⟩, hargv, hc⟩ := Option.bind_eq_some_iff.mp hc
  obtain ⟨⟨kernelEnvp, pointers', s₃⟩, henvp, hc⟩ := Option.bind_eq_some_iff.mp hc
  obtain ⟨⟨args, s₄⟩, hargs, hc⟩ := Option.bind_eq_some_iff.mp hc
  obtain ⟨⟨vars, s₅⟩, hvars, hc⟩ := Option.bind_eq_some_iff.mp hc
  cases hc
  obtain ⟨h₁, htext⟩ := h.copyString hpath
  obtain ⟨h₂, hbuf⟩ := h₁.copyIn hargv
  obtain ⟨h₃, hbuf'⟩ := h₂.copyIn henvp
  obtain ⟨h₄, ps, hps, htexts⟩ := h₃.copyStrings hargs
  obtain ⟨h₅, qs, hqs, htexts'⟩ := h₄.copyStrings hvars
  refine ⟨h₅.perm ?_, htext, ⟨pointers, ps, hbuf, hps, List.forall₂_map_right_iff.mpr htexts⟩,
    ⟨pointers', qs, hbuf', hqs, List.forall₂_map_right_iff.mpr htexts'⟩⟩
  rw [List.perm_iff_count]
  intro a
  simp only [Arguments.on, List.count_append, List.count_cons]
  omega

/-! ## `getfile` -/

/-- What `getfile` leaves of `fileout`: a file keeps it, and a device does not. -/
structure Kept (t : Option Target) (fileout : Nat) (l l' : List (Nat × Nat)) : Prop where
  rest : ∀ a ∈ l, a ∈ l'
  file : ∀ inum, t = some (.file inum) → l' = (fileout, 1) :: l
  device : ∀ u, t = some u → (∀ inum, u ≠ .file inum) → l' = l

theorem Temps.kallocBytes {size : Nat} (h : Temps V U s₀ sp trampoline T Q R l s)
    (hk : kallocBytes A size s = some (b, s')) :
    Temps V U s₀ sp trampoline T Q R l (kfreeBytes A b size s') := by
  rw [Exec.kallocBytes] at hk
  rw [kfreeBytes]
  split at hk
  · rename_i hsize
    cases hk
    rw [if_pos hsize]
    exact h
  · rename_i hsize
    rw [if_neg hsize]
    exact (h.kalloc (addr2PageUp_pos hsize) hk).kfree

theorem Temps.lookup {m : Mount} {d : Disk} {u : GetfileLocals} {fileout : Nat} {w : Walk}
    {t : Option Target} (h : Temps V U s₀ sp trampoline T Q R ((fileout, 1) :: l) s)
    (hl : lookup A m d u fileout n w s = some (t, s')) :
    ∃ l', Temps V U s₀ sp trampoline T Q R l' s' ∧ Kept t fileout l l' := by
  have hfile : ∀ inum, Kept (some (.file inum)) fileout l ((fileout, 1) :: l) := fun inum =>
    ⟨fun a ha => List.mem_cons_of_mem _ ha, fun _ _ => rfl, fun u hu hne => by
      cases hu
      exact absurd rfl (hne inum)⟩
  induction n generalizing w s with
  | zero =>
      cases hl
      exact ⟨_, h, hfile _⟩
  | succ n ih =>
      rw [Exec.lookup] at hl
      split at hl
      · cases hl
        exact ⟨_, h, hfile _⟩
      · split at hl
        · cases hl
          exact ⟨_, h, fun a ha => List.mem_cons_of_mem _ ha, fun _ ht => (by cases ht),
            fun _ ht => (by cases ht)⟩
        · obtain ⟨⟨entries, s₁⟩, hk, hl⟩ := Option.bind_eq_some_iff.mp hl
          have h₁ := h.kallocBytes hk
          dsimp only at hl
          split at hl
          · rename_i t' hdev
            cases hl
            refine ⟨l, h₁.kfree, fun _ ha => ha, fun inum ht => ?_, fun _ _ _ => rfl⟩
            cases ht
            rw [Walk.device] at hdev
            split at hdev
            · exact absurd rfl ((Fs.deviceNamed_some hdev).2.2 inum)
            · cases hdev
          · split at hl
            · cases hl
              exact ⟨l, h₁.kfree, fun _ ha => ha, fun _ ht => (by cases ht), fun _ ht => (by cases ht)⟩
            · exact ih h₁ hl

theorem Temps.getfile {m : Mount} {d : Disk} {u : GetfileLocals} {cwd : UInt32} {path : List Chr}
    {t : Option Target} (h : Temps V U s₀ sp trampoline T Q R l s)
    (hg : getfile A m d u cwd path s = some (t, s')) :
    ∃ l' fileout, Temps V U s₀ sp trampoline T Q R l' s' ∧ Kept t fileout l l' := by
  rw [Exec.getfile] at hg
  dsimp only at hg
  split at hg
  · cases hg
    exact ⟨l, 0, h, fun _ ha => ha, fun _ ht => (by cases ht), fun _ ht => (by cases ht)⟩
  · obtain ⟨⟨fileout, s₁⟩, hk, hl⟩ := Option.bind_eq_some_iff.mp hg
    obtain ⟨l', h', hkept⟩ := (h.kalloc (Nat.le_refl 1) hk).lookup hl
    exact ⟨l', fileout, h', hkept⟩

/-! ## Giving back -/

theorem Temps.kfreeAll {xs : List Argument}
    (h : Temps V U s₀ sp trampoline T Q R (regions xs ++ l) s) :
    Temps V U s₀ sp trampoline T Q R l
      (xs.foldl (fun s x => s.kfree A x.region bufferPages) s) := by
  induction xs generalizing s with
  | nil => exact h
  | cons x xs ih => exact ih h.kfree

theorem Temps.freeArguments {x : Arguments}
    (h : Temps V U s₀ sp trampoline T Q R (regions x.strings ++ (x.region, bufferPages) :: l) s) :
    Temps V U s₀ sp trampoline T Q R l (freeArguments A x s) :=
  h.kfreeAll.kfree

end Temps

/-! ## The call -/

section Call

variable {V : Lawful A} {U : Account A} {B : Platform} {m : Mount} {d : Disk} {u : Locals} {cwd : UInt32}
  {s s' : Memory ω} {sp sp' : AddressSpace} {T Q R : Footprint} {path argv envp : UInt64} {ret : Int}

/-- How the call ends: no file is found, the file is not executable, or the image is
replaced. -/
inductive Ended (V : Lawful A) (U : Account A) (B : Platform) (m : Mount) (d : Disk) (u : Locals)
    (s : Memory ω) (sp : AddressSpace) (T Q R : Footprint) (args vars : List (List Chr)) :
    Option Target → Int × AddressSpace × Memory ω → Prop where
  | missing {s' : Memory ω} {l : List (Nat × Nat)} :
      Temps V U s sp B.trampoline T Q R l s' → l ≠ [] →
      Ended V U B m d u s sp T Q R args vars none (-1, sp, s')
  | refused {t : Target} {s' : Memory ω} {l : List (Nat × Nat)} (fileout : Nat) :
      notExecutable m d u t → Temps V U s sp B.trampoline T Q R l s' →
      (∀ inum, t = .file inum → l = [(fileout, 1)]) → ((∀ inum, t ≠ .file inum) → l = []) →
      Ended V U B m d u s sp T Q R args vars (some t) (-1, sp, s')
  | replaced {t : Target} {s₁ s' : Memory ω} {sp' : AddressSpace} {ret : Int} {argv envp : Arguments}
      (fileout : Nat) : ¬ notExecutable m d u t → argv.texts = args → envp.texts = vars →
      Temps V U s sp B.trampoline T Q R (argv.on (envp.on [(fileout, 1)])) s₁ →
      replaceImage A B (programOf m d u t) argv envp (freeProcessSpace A s₁ sp) = some (ret, sp', s') →
      Ended V U B m d u s sp T Q R args vars (some t) (ret, sp', s')

/-- `fileout` is taken last, and is the last one to stay. -/
theorem fileout_last (x : Argument) (y z : Arguments) (fileout : Nat) :
    ((fileout, 1) :: (x.region, bufferPages) :: y.on (z.on [])).Perm
      ((x.region, bufferPages) :: y.on (z.on [(fileout, 1)])) := by
  rw [List.perm_iff_count]
  intro a
  simp only [Arguments.on, List.count_append, List.count_cons, List.count_nil]
  omega

theorem sysExecve_ended (h : Held V s sp B.trampoline T Q R) (hU : U.Holds s.heap ((T.union Q).union R))
    (hrun : sysExecve A B m d u cwd sp path argv envp s = some (ret, sp', s')) :
    ∃ text args vars found, userString (view A s sp.root) path = some text ∧
      UserStrings (view A s sp.root) argv args ∧ UserStrings (view A s sp.root) envp vars ∧
      Fs.getfile m d u.getfile cwd text false = some (found, d) ∧
      Ended V U B m d u s sp T Q R args vars found (ret, sp', s') := by
  obtain ⟨⟨x, y, z, s₁⟩, hcopy, hrun⟩ := Option.bind_eq_some_iff.mp hrun
  obtain ⟨⟨found, s₂⟩, hfound, hrun⟩ := Option.bind_eq_some_iff.mp hrun
  obtain ⟨h₁, htext, hargs, hvars⟩ := (Temps.begin h hU).copyArguments hcopy
  obtain ⟨l, fileout, h₂, hkept⟩ := h₁.getfile hfound
  refine ⟨x.text, y.texts, z.texts, found, htext, hargs, hvars, getfile_target hfound, ?_⟩
  dsimp only at hrun
  split at hrun
  · cases hrun
    have hpath : (x.region, bufferPages) ∈ l := hkept.rest _ List.mem_cons_self
    have hargv : (y.region, bufferPages) ∈ l.erase (x.region, bufferPages) := by
      have hin : (y.region, bufferPages) ∈ y.on (z.on []) :=
        List.mem_append_right _ List.mem_cons_self
      refine (List.mem_erase_of_ne fun he => ?_).mpr (hkept.rest _ (List.mem_cons_of_mem _ hin))
      exact (List.nodup_cons.mp h₁.nodup).1 (List.mem_map.mpr ⟨_, hin, congrArg Prod.fst he⟩)
    exact .missing (h₂.kfree_mem hpath) (List.ne_nil_of_mem hargv)
  · rename_i t
    by_cases hfile : ∃ inum, t = .file inum
    · obtain ⟨inum, rfl⟩ := hfile
      rw [hkept.file inum rfl] at h₂
      have h₃ := (h₂.perm (fileout_last x y z fileout)).kfree
      split at hrun
      · rename_i hnot
        cases hrun
        exact .refused fileout hnot h₃.freeArguments.freeArguments (fun _ _ => rfl)
          fun hne => absurd rfl (hne inum)
      · rename_i hexec
        exact .replaced fileout hexec rfl rfl h₃ hrun
    · have hdevice : ∀ inum, t ≠ .file inum := fun inum he => hfile ⟨inum, he⟩
      rw [hkept.device t rfl hdevice] at h₂
      have hnot := notExecutable_device m d u hdevice
      rw [if_pos hnot] at hrun
      cases hrun
      exact .refused fileout hnot h₂.kfree.freeArguments.freeArguments
        (fun inum he => absurd he (hdevice inum)) fun _ => rfl

end Call

end Exec
