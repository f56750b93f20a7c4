import Endros.Paging.Init

/-!
# `ptmap` agrees with `ptmap_physical`

`KernelTree` is a tree of tables in which all entries that point to tables are
closed.  `ptmap` opens such entries and closes them again, so it leaves the memory
that `ptmap_physical` leaves.
-/

namespace Paging

open Lib

/-- A tree of tables that is closed on both levels. -/
structure KernelTree (s : Tables) : Prop extends Tree s where
  closed₁ : ∀ i j t, KernelPath [i] → tableAt s [i] = some t → s.mem t j &&& pteValid ≠ 0 →
    getFlags (s.mem t j) = pteValid

section

variable {s s' : Tables} {p : List (Fin 512)} {i : Fin 512} {t u vpn : Nat}

/-- A new table keeps the entries closed. -/
theorem KernelTree.level (h : KernelTree s) (hl : Level s p i t u s') (hp : KernelPath (p ++ [i]))
    (ht : tableAt s p = some t) : KernelTree s' := by
  refine ⟨hl.tree h.toTree hp ht, fun j k v hj hv hvalid => ?_⟩
  cases hl with
  | found => exact h.closed₁ j k v hj hv hvalid
  | made hinv hroom =>
      have hlt := h.below p t (kernelPath_prefixes p [i] hp) ht
      have hmax := h.maxPfn
      rw [withTable_tableAt h.toTree hp ht hinv hroom hj] at hv
      split at hv
      · cases hv
        rw [withTable_new hlt] at hvalid
        exact absurd rfl hvalid
      · have hvlt := h.below _ v hj hv
        by_cases hvi : v = t ∧ k = i
        · rw [hvi.1, hvi.2, withTable_entry]
          exact getFlags_pte (by omega) pteValid_lt
        · rw [withTable_mem (Nat.ne_of_lt hvlt) fun h₁ h₂ => hvi ⟨h₁, h₂⟩] at hvalid ⊢
          exact h.closed₁ j k v hj hv hvalid

/-- The entry that the table of a page is reached by. -/
theorem KernelTree.entry₁_eq (h : KernelTree s) {i₂ i₁ : Fin 512} (hi : KernelPath [i₂])
    (ht : tableAt s [i₂] = some t) (hu : tableAt s [i₂, i₁] = some u) :
    s.mem t i₁ = pte u pteValid := by
  have hchild := tableAt_snoc ht i₁
  rw [show [i₂] ++ [i₁] = [i₂, i₁] from rfl, hu] at hchild
  by_cases hv : s.mem t i₁ &&& pteValid = 0
  · rw [child_of_invalid hv] at hchild
    cases hchild
  · rw [child_of_valid hv] at hchild
    rw [Option.some.inj hchild, ← h.closed₁ i₂ i₁ t hi ht hv, pte_getPfn]

/-- One mapping: `ptmap` and `ptmap_physical` panic together or leave the same
tables, which are closed again. -/
theorem KernelTree.ptmap (h : KernelTree s) (hi : KernelPath [vpnAt 2 vpn]) (pfn : Nat)
    (flags : UInt64) :
    Paging.ptmap (windows s.ptBase) s vpn pfn flags = ptmapPhysical s vpn pfn flags ∧
      (ptmapPhysical s vpn pfn flags = .error .panic ∨
        ∃ s', ptmapPhysical s vpn pfn flags = .ok s' ∧ KernelTree s') := by
  rw [ptmapPhysical_eq]
  rcases h.physicalLevels hi with ⟨hl, -⟩ | ⟨t, u, s', hl, hlevels, -⟩
  · rw [h.ptmap_eq (windows_windows s.ptBase) hi, hl]
    exact ⟨rfl, .inl rfl⟩
  · obtain ⟨hs', ht, hu⟩ := hlevels.spec h.toTree hi
    have hk : KernelTree s' := by
      obtain ⟨s₁, hl₁, hl₂⟩ := hlevels
      exact (h.level hl₁ hi rfl).level hl₂ (kernelPath_two hi) (hl₁.tableAt_self h.toTree hi rfl)
    have hut : t ≠ u := hs'.ne hi (kernelPath_two hi) ht hu fun he => by cases he
    -- the entry that `ptmap` closes was closed before
    have hmapped : mapped s' vpn t u (pte pfn flags) =
        { s' with mem := Radix.set s'.mem u (vpnAt 0 vpn) (pte pfn flags) } := by
      rw [mapped, ← hk.entry₁_eq hi ht hu, Radix.set_comm hut.symm, Radix.set_eq_self]
    rw [h.ptmap_of_levels hi hl hlevels, hl, ok_bind, hmapped]
    refine ⟨rfl, .inr ⟨_, rfl, ?_⟩⟩
    obtain ⟨hwalk, htree⟩ := hs'.mapped hi ht hu (pte pfn flags)
    rw [hmapped] at hwalk htree
    refine ⟨htree, fun i j v hi' hv hvalid => ?_⟩
    rw [hwalk _ hi'] at hv
    have hvu : v ≠ u := hs'.ne hi' (kernelPath_two hi) hv hu fun he => by cases he
    dsimp only at hvalid ⊢
    rw [Radix.set_of_ne fun he => absurd he hvu] at hvalid ⊢
    exact hk.closed₁ i j v hi' hv hvalid

end

/-! ## Sequences of mappings -/

/-- A sequence of mappings with `ptmap`. -/
def ptmapAll (s : Tables) (ms : List Mapping) : Except Stop Tables :=
  ms.foldlM (fun s m => ptmap (windows s.ptBase) s m.vpn m.pfn m.flags) s

/-- Both leave the same tables and the same `pfn_start`, or both panic. -/
theorem ptmapAll_eq {s : Tables} (h : KernelTree s) {ms : List Mapping}
    (hms : ∀ m ∈ ms, vpnAt 2 m.vpn ≠ 0 ∧ vpnAt 2 m.vpn ≠ 1) :
    ptmapAll s ms = ptmapPhysicalAll s ms := by
  induction ms generalizing s with
  | nil => rfl
  | cons m ms ih =>
      obtain ⟨h₀, h₁⟩ := hms m (List.mem_cons_self ..)
      obtain ⟨heq, hpanic | ⟨s', hs', htree⟩⟩ := h.ptmap (kernelPath_one h₀ h₁) m.pfn m.flags
      · rw [ptmapAll, ptmapPhysicalAll, List.foldlM_cons, List.foldlM_cons, heq, hpanic]
        rfl
      · rw [ptmapAll, ptmapPhysicalAll, List.foldlM_cons, List.foldlM_cons, heq, hs', ok_bind,
          ok_bind]
        exact ih htree fun m hm => hms m (List.mem_cons_of_mem _ hm)

theorem rooted_kernelTree {root maxPfn : Nat} (mem : Phys) (hroot : root < maxPfn)
    (hmax : maxPfn ≤ 2 ^ 52) : KernelTree (rooted mem root maxPfn) :=
  ⟨rooted_tree mem hroot hmax, fun _ _ _ hi ht => by cases (rooted_tableAt hi ht).1⟩

/-- Two pages of one table and a page elsewhere, from the root alone. -/
theorem ptmapAll_eq_rooted :
    ptmapAll (rooted (fun _ _ => 7) 0x80400 0x88000)
        [⟨0x100000, 0x80500, pteTable⟩, ⟨0x100001, 0x80501, pteTable⟩, ⟨0xffffffe000000, 5, 0⟩] =
      ptmapPhysicalAll (rooted (fun _ _ => 7) 0x80400 0x88000)
        [⟨0x100000, 0x80500, pteTable⟩, ⟨0x100001, 0x80501, pteTable⟩, ⟨0xffffffe000000, 5, 0⟩] :=
  ptmapAll_eq (rooted_kernelTree _ (by decide) (by decide)) (by decide)

end Paging
