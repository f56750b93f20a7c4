import Endros.Paging.Fault

/-!
# Guard pages

The first page of a kernel stack is unmapped while the stack is in use, and mapped again
before it is freed.  The tables of the page are there all the time, so no frame is
taken, and all other pages are translated as before.

The calls are taken through the windows, as in `Reachable`.
-/

namespace Paging

open Lib

section Guard

variable {s : Tables} {vpn t u f : Nat}

/-- The two pages have one entry. -/
def SamePath (v vpn : Nat) : Prop :=
  vpnAt 2 v = vpnAt 2 vpn ∧ vpnAt 1 v = vpnAt 1 vpn ∧ vpnAt 0 v = vpnAt 0 vpn

/-- A walk through three levels whose last table is known. -/
theorem windows_eq_child {v w : Nat} (hw : tableAt s [vpnAt 2 v, vpnAt 1 v] = some w) (a : Access) :
    windows s.ptBase s.mem v a = child (s.mem w (vpnAt 0 v)) :=
  tableAt_snoc hw (vpnAt 0 v)

theorem windows_eq_none {v : Nat} (hw : tableAt s [vpnAt 2 v, vpnAt 1 v] = none) (a : Access) :
    windows s.ptBase s.mem v a = none := by
  have hwalk : Radix.walk child s.mem s.ptBase [vpnAt 2 v, vpnAt 1 v] = none := hw
  show Radix.walk child s.mem s.ptBase ([vpnAt 2 v, vpnAt 1 v] ++ [vpnAt 0 v]) = none
  rw [Radix.walk_append, hwalk]
  rfl

section Mapped

variable (h : Tree s) (hi : KernelPath [vpnAt 2 vpn]) (ht : tableAt s [vpnAt 2 vpn] = some t)
  (hu : tableAt s [vpnAt 2 vpn, vpnAt 1 vpn] = some u)
include h hi ht hu

theorem Tree.mapped_entry (e : UInt64) : (Paging.mapped s vpn t u e).mem u (vpnAt 0 vpn) = e := by
  have hut : u ≠ t := h.ne (kernelPath_two hi) hi hu ht fun he => by cases he
  show Radix.set (Radix.set s.mem u (vpnAt 0 vpn) e) t (vpnAt 1 vpn) _ u (vpnAt 0 vpn) = e
  rw [Radix.set_of_ne fun he => absurd he hut, Radix.set_self]

/-- The page behind a change of its entry. -/
theorem Tree.windows_mapped_self (e : UInt64) (a : Access) :
    windows s.ptBase (Paging.mapped s vpn t u e).mem vpn a = child e := by
  have hu' := ((h.mapped hi ht hu e).1 _ (kernelPath_two hi)).trans hu
  exact (windows_eq_child hu' a).trans (congrArg child (h.mapped_entry hi ht hu e))

/-- The other pages. -/
theorem Tree.windows_mapped (e : UInt64) {v : Nat} (hv : KernelPath [vpnAt 2 v])
    (hne : ¬ SamePath v vpn)
    (a : Access) : windows s.ptBase (Paging.mapped s vpn t u e).mem v a = windows s.ptBase s.mem v a := by
  have hpath := (h.mapped hi ht hu e).1 _ (kernelPath_two (j := vpnAt 1 v) hv)
  cases hw : tableAt s [vpnAt 2 v, vpnAt 1 v] with
  | none =>
      rw [windows_eq_none hw]
      exact windows_eq_none (hpath.trans hw) a
  | some w =>
      rw [windows_eq_child hw]
      refine (windows_eq_child (hpath.trans hw) a).trans (congrArg child ?_)
      have hwt : w ≠ t := h.ne (kernelPath_two hv) hi hw ht fun he =>
        absurd (congrArg List.length he) (Nat.succ_ne_self 1)
      show Radix.set (Radix.set s.mem u (vpnAt 0 vpn) e) t (vpnAt 1 vpn) _ w (vpnAt 0 v) = _
      rw [Radix.set_of_ne fun he => absurd he hwt, Radix.set_of_ne fun hwu he => ?_]
      by_cases hpaths : [vpnAt 2 v, vpnAt 1 v] = [vpnAt 2 vpn, vpnAt 1 vpn]
      · obtain ⟨h₂, h₁⟩ := List.cons.inj hpaths
        exact hne ⟨h₂, (List.cons.inj h₁).1, he⟩
      · exact h.ne (kernelPath_two hv) (kernelPath_two hi) hw hu hpaths hwu

/-- The hardware finds the page behind `ptmap`. -/
theorem Tree.sv39_mapped (hf : f < 2 ^ 54) (a : Access) :
    sv39 s.ptBase (Paging.mapped s vpn t u (pte f pteTable)).mem vpn a = some f := by
  have hstart := h.pfnStart
  have htlt : t < 2 ^ 54 := by
    have := h.below _ t hi ht
    omega
  have hult : u < 2 ^ 54 := by
    have := h.below _ u (kernelPath_two hi) hu
    omega
  obtain ⟨hwalk, htree⟩ := h.mapped hi ht hu (pte f pteTable)
  have hroot : (Paging.mapped s vpn t u (pte f pteTable)).mem s.ptBase (vpnAt 2 vpn) = pte t pteValid :=
    htree.entry_eq hi ((hwalk _ hi).trans ht)
  have hlevel1 : (Paging.mapped s vpn t u (pte f pteTable)).mem t (vpnAt 1 vpn) = pte u pteValid :=
    Radix.set_self ..
  rw [sv39, hroot]
  dsimp only
  rw [if_neg (valid_pteValid htlt), if_neg (isLeaf_pteValid htlt), getPfn_pte htlt pteValid_lt, hlevel1,
    if_neg (valid_pteValid hult), if_neg (isLeaf_pteValid hult), getPfn_pte hult pteValid_lt,
    h.mapped_entry hi ht hu, if_neg (valid_pteTable hf), if_pos (permits_pteTable hf a),
    getPfn_pte hf pteTable_lt]

end Mapped

/-- `s₁` is `s` without the page, and `s₂` has it again. -/
structure MappedAgain (s s₁ s₂ : Tables) (vpn f : Nat) : Prop where
  unmapped : ptunmap (windows s.ptBase) s vpn = .ok (f, s₁)
  gone : ∀ a, windows s₁.ptBase s₁.mem vpn a = none
  mapped : ptmap (windows s₁.ptBase) s₁ vpn f pteTable = .ok s₂
  found : ∀ a, sv39 s₂.ptBase s₂.mem vpn a = some f
  others : ∀ v, KernelPath [vpnAt 2 v] →
    ¬ SamePath v vpn →
    ∀ a, windows s₂.ptBase s₂.mem v a = windows s.ptBase s.mem v a
  /-- No frame is taken. -/
  frames : s₂.pfnStart = s.pfnStart ∧ s₂.pfreelist = s.pfreelist

/-- The tables that a page needs are there. -/
theorem Tree.levels_found (h : Tree s) (ht : tableAt s [vpnAt 2 vpn] = some t)
    (hu : tableAt s [vpnAt 2 vpn, vpnAt 1 vpn] = some u) :
    Paging.physicalLevels s vpn = .ok (t, u, s) ∧ Levels s vpn t u s := by
  have hpfn : ∀ {e : UInt64} {x : Nat}, child e = some x → getPfn e = x := fun he =>
    Option.some.inj ((child_of_valid (valid_of_child he)).symm.trans he)
  have ht' : child (s.mem s.ptBase (vpnAt 2 vpn)) = some t := (tableAt_one s _).symm.trans ht
  have hu' : child (s.mem t (vpnAt 1 vpn)) = some u := (tableAt_snoc ht (vpnAt 1 vpn)).symm.trans hu
  have hl₂ : Level s [] (vpnAt 2 vpn) s.ptBase t s := hpfn ht' ▸ .found (valid_of_child ht')
  have hl₁ : Level s [vpnAt 2 vpn] (vpnAt 1 vpn) t u s := hpfn hu' ▸ .found (valid_of_child hu')
  refine ⟨?_, ⟨s, hl₂, hl₁⟩⟩
  rw [Paging.physicalLevels, physicalLevel_eq h.pfreelist, if_neg (valid_of_child ht'), hpfn ht',
    ok_bind]
  dsimp only
  rw [physicalLevel_eq h.pfreelist, if_neg (valid_of_child hu'), hpfn hu', ok_bind]

/-- A page that is mapped can be unmapped and mapped again. -/
theorem Tree.mappedAgain (h : Tree s) (hi : KernelPath [vpnAt 2 vpn])
    (hm : windows s.ptBase s.mem vpn .read = some f) : ∃ s₁ s₂, MappedAgain s s₁ s₂ vpn f := by
  have hmapped : IsMapped s vpn := by
    rw [IsMapped, hm]
    exact Option.some_ne_none f
  obtain ⟨t, u, ht, hu⟩ := hmapped.tables
  have hentry : child (s.mem u (vpnAt 0 vpn)) = some f := (windows_eq_child hu .read).symm.trans hm
  have hf : getPfn (s.mem u (vpnAt 0 vpn)) = f :=
    Option.some.inj ((child_of_valid (valid_of_child hentry)).symm.trans hentry)
  have hlt : f < 2 ^ 54 := hf ▸ getPfn_lt _
  have hcleared : child (withFlags (s.mem u (vpnAt 0 vpn)) 0) = none :=
    child_of_invalid (valid_iff_flags.2 (by rw [getFlags_withFlags (by decide)]; rfl))
  -- the tables are still there when the page is unmapped
  obtain ⟨hwalk, h₁⟩ := h.mapped hi ht hu (withFlags (s.mem u (vpnAt 0 vpn)) 0)
  have ht₁ := (hwalk _ hi).trans ht
  have hu₁ := (hwalk _ (kernelPath_two hi)).trans hu
  obtain ⟨hl, hlevels⟩ := h₁.levels_found ht₁ hu₁
  refine ⟨_, _, ⟨?_, fun a => ?_, h₁.ptmap_of_levels hi hl hlevels f pteTable, fun a => ?_,
    fun v hv hne a => ?_, rfl, rfl⟩⟩
  · rw [← hf]
    exact h.ptunmap_windows hi ht hu
  · exact (h.windows_mapped_self hi ht hu _ a).trans hcleared
  · exact h₁.sv39_mapped hi ht₁ hu₁ hlt a
  · exact (h₁.windows_mapped hi ht₁ hu₁ _ hv hne a).trans (h.windows_mapped hi ht hu _ hv hne a)

end Guard

end Paging
