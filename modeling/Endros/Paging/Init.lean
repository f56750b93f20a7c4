import Endros.Paging.Tree

/-!
# The tables that `init_pagetable` leaves

The kernel sections lie in the third and the fourth gigabyte, so their pages use
the root entries `2` and `3`.  The trampoline uses the last root entry.  The pages
of the virtio headers lie in the first gigabyte, which belongs to the recursive
entry `0`: what `ptmap_physical` takes for their level 1 table is the root, so the
table it makes hangs at the root entry `vpnAt 1` of the page.  Seen from there the
header pages look like tables.  They are frames below the kernel, so the tables
are still a tree.
-/

namespace Paging

open Lib Mem

/-- Where the sections and the devices lie on the machine. -/
structure Layout.Valid (l : Layout) : Prop where
  stext : 0x80000000 ≤ l.stext
  etext : l.etext ≤ 0x100000000
  srodata : 0x80000000 ≤ l.srodata
  erodata : l.erodata ≤ 0x100000000
  sdata : 0x80000000 ≤ l.sdata
  ebss : l.ebss ≤ 0x100000000
  ekernel : 0x80000000 ≤ l.ekernel
  headers : ∀ a ∈ l.virtioMmioHeaders, 0x08a00000 ≤ a ∧ a < 0x30000000

/-! ## The root alone -/

/-- The memory after the recursive entries are set. -/
def rooted (mem : Phys) (root maxPfn : Nat) : Tables :=
  { mem := Radix.set (Radix.set (Radix.fill mem root 0) root 0 (pte root pteValid)) root 1
      (pte root pteTable)
    ptBase := root
    pfnStart := root + 1
    maxPfn := maxPfn
    pfreelist := 0 }

theorem initPagetable_eq (mem : Phys) (maxPfn : Nat) (l : Layout) :
    initPagetable mem maxPfn l =
      if addr2Page l.ekernel ≥ maxPfn then .error .panic
      else ptmapPhysicalAll (rooted mem (addr2Page l.ekernel) maxPfn) l.mappings := by
  rw [initPagetable, palloc_eq rfl]
  by_cases hfull : addr2Page l.ekernel ≥ maxPfn
  · rw [if_pos hfull, if_pos hfull]
    rfl
  · rw [if_neg hfull, if_neg hfull, ok_bind]
    dsimp only
    rw [memset_ok (fun _ _ => rfl), ok_bind, store_ok (show bare _ _ .write = some _ from rfl), ok_bind,
      store_ok (show bare _ _ .write = some _ from rfl), ok_bind]
    rfl

section Rooted

variable {mem : Phys} {root maxPfn : Nat} {p : List (Fin 512)} {t : Nat}

theorem rooted_entry {i : Fin 512} (hi : KernelPath [i]) :
    (rooted mem root maxPfn).mem root i = 0 := by
  show Radix.set (Radix.set (Radix.fill mem root 0) root 0 _) root 1 _ root i = 0
  rw [Radix.set_of_ne fun _ => hi.ne.2, Radix.set_of_ne fun _ => hi.ne.1, Radix.fill_self]

/-- There is no table but the root. -/
theorem rooted_tableAt (hp : KernelPath p) (ht : tableAt (rooted mem root maxPfn) p = some t) :
    p = [] ∧ t = root := by
  cases p with
  | nil => exact ⟨rfl, (Option.some.inj ht).symm⟩
  | cons i p =>
      have hentry : (rooted mem root maxPfn).mem (rooted mem root maxPfn).ptBase i = 0 :=
        rooted_entry (kernelPath_prefixes [i] p hp)
      rw [tableAt, Radix.walk_cons, hentry, child_zero] at ht
      cases ht

theorem rooted_tree (mem : Phys) (hroot : root < maxPfn) (hmax : maxPfn ≤ 2 ^ 52) :
    Tree (rooted mem root maxPfn) := by
  refine ⟨hmax, show root + 1 ≤ 2 ^ 52 by omega, rfl, ⟨show root < 2 ^ 54 by omega, ?_, ?_⟩,
    fun i hi hv => ?_, fun p q t hp hq ht hu => ?_, fun p t hp ht => ?_⟩
  · show Radix.set (Radix.set (Radix.fill mem root 0) root 0 _) root 1 _ root 0 = _
    rw [Radix.set_of_ne fun _ => by decide, Radix.set_self]
    rfl
  · exact Radix.set_self ..
  · rw [show (rooted mem root maxPfn).mem (rooted mem root maxPfn).ptBase i = 0 from
      rooted_entry hi] at hv
    exact absurd rfl hv
  · rw [(rooted_tableAt hp ht).1, (rooted_tableAt hq hu).1]
  · rw [(rooted_tableAt hp ht).2]
    exact Nat.lt_succ_self _

end Rooted

/-! ## The mappings of `init_pagetable` -/

/-- The root entries of the sections and the trampoline. -/
def SectionEntry (i : Fin 512) : Prop := i = 2 ∨ i = 3 ∨ i = 511

/-- The root entries at which the tables of header pages may hang. -/
def HeaderEntry (i : Fin 512) : Prop := 69 ≤ i.val ∧ i.val < 384

/-- The frame of a header page, at the path where it looks like a table. -/
def headerFrame : List (Fin 512) → Option Nat
  | [i, j] => if 69 ≤ i.val ∧ i.val < 384 then some (i * 512 + j) else none
  | _ => none

theorem headerFrame_eq {p : List (Fin 512)} {v : Nat} (h : headerFrame p = some v) :
    ∃ i j : Fin 512, p = [i, j] ∧ HeaderEntry i ∧ i.val * 512 + j.val = v := by
  match p, h with
  | [i, j], h =>
      rw [headerFrame] at h
      split at h
      · rename_i hi
        exact ⟨i, j, rfl, hi, Option.some.inj h⟩
      · cases h

theorem headerFrame_section {i : Fin 512} (h : SectionEntry i) (j : Fin 512) :
    headerFrame [i, j] = none := by
  rw [headerFrame, if_neg]
  rcases h with rfl | rfl | rfl <;> decide

/-- The tables while `init_pagetable` runs and after it. -/
structure Boot (l : Layout) (s : Tables) : Prop where
  tree : Tree s
  ptBase : s.ptBase = addr2Page l.ekernel
  entries : ∀ i t, KernelPath [i] → tableAt s [i] = some t → SectionEntry i ∨ HeaderEntry i
  frames : ∀ p t, KernelPath p → tableAt s p = some t → headerFrame p = some t ∨
    headerFrame p = none ∧ addr2Page l.ekernel ≤ t

section Boot

variable {l : Layout} {s s' : Tables} {vpn : Nat}

theorem Boot.root_lt (h : Boot l s) : addr2Page l.ekernel < s.pfnStart :=
  h.ptBase ▸ h.tree.root_lt

theorem Boot.level (h : Boot l s) {p : List (Fin 512)} {i : Fin 512} {t u : Nat}
    (hl : Level s p i t u s') (hp : KernelPath (p ++ [i])) (ht : tableAt s p = some t)
    (hentry : p = [] → SectionEntry i ∨ HeaderEntry i) (hheader : headerFrame (p ++ [i]) = none) :
    Boot l s' := by
  have hroot := h.root_lt
  refine ⟨hl.tree h.tree hp ht, hl.ptBase.trans h.ptBase, fun j v hj hv => ?_, fun q v hq hv => ?_⟩
  · rw [hl.tableAt_eq h.tree hp ht hj] at hv
    split at hv
    · rename_i he
      have hnil : p = [] := by
        have := congrArg List.length he
        rw [List.length_append] at this
        exact List.eq_nil_of_length_eq_zero (Nat.succ.inj this).symm
      subst hnil
      cases he
      exact hentry rfl
    · exact h.entries j v hj hv
  · cases hl with
    | found => exact h.frames q v hq hv
    | made hinv hroom =>
        rw [withTable_tableAt h.tree hp ht hinv hroom hq] at hv
        split at hv
        · rename_i he
          cases hv
          exact .inr ⟨he ▸ hheader, Nat.le_of_lt hroot⟩
        · exact h.frames q v hq hv

/-- A change that keeps the tables. -/
theorem Boot.congr (h : Boot l s) {mem : Phys}
    (hwalk : ∀ q, KernelPath q → tableAt { s with mem := mem } q = tableAt s q)
    (htree : Tree { s with mem := mem }) : Boot l { s with mem := mem } := by
  refine ⟨htree, h.ptBase, fun j v hj hv => ?_, fun q v hq hv => ?_⟩
  · rw [hwalk _ hj] at hv
    exact h.entries j v hj hv
  · rw [hwalk _ hq] at hv
    exact h.frames q v hq hv

/-- A page of a section, or the trampoline. -/
theorem Boot.ptmapPhysical (h : Boot l s) (hi : KernelPath [vpnAt 2 vpn])
    (hentry : SectionEntry (vpnAt 2 vpn)) {pfn : Nat} {flags : UInt64}
    (hs : Paging.ptmapPhysical s vpn pfn flags = .ok s') : Boot l s' := by
  rw [ptmapPhysical_eq] at hs
  rcases h.tree.physicalLevels hi with ⟨hl, -⟩ | ⟨t, u, s₂, hl, ⟨s₁, hl₁, hl₂⟩, -⟩
  · rw [hl] at hs
    cases hs
  · rw [hl, ok_bind] at hs
    cases hs
    have ht₁ := hl₁.tableAt_self h.tree hi rfl
    have hboot₁ := h.level hl₁ hi rfl (fun _ => .inl hentry) rfl
    have hboot₂ := hboot₁.level hl₂ (kernelPath_two hi) ht₁ (fun he => by cases he)
      (headerFrame_section hentry _)
    have hu := hl₂.tableAt_self hboot₁.tree (kernelPath_two hi) ht₁
    obtain ⟨hwalk, htree⟩ := hboot₂.tree.setLeaf hi hu (vpnAt 0 vpn) (pte pfn flags)
    exact hboot₂.congr hwalk htree

/-- The indices of a header page. -/
theorem header_indices {v : Nat} (h₁ : 0x8a00 ≤ v) (h₂ : v < 0x30000) :
    vpnAt 2 v = 0 ∧ HeaderEntry (vpnAt 1 v) ∧ (vpnAt 1 v).val * 512 + (vpnAt 0 v).val = v := by
  refine ⟨Fin.ext ?_, ⟨?_, ?_⟩, ?_⟩
  · show v / 2 ^ 18 % 512 = 0
    omega
  · show 69 ≤ v / 2 ^ 9 % 512
    omega
  · show v / 2 ^ 9 % 512 < 384
    omega
  · show v / 2 ^ 9 % 512 * 512 + v / 2 ^ 0 % 512 = v
    omega

theorem HeaderEntry.path {i : Fin 512} (h : HeaderEntry i) : KernelPath [i] := by
  refine kernelPath_one (fun he => ?_) fun he => ?_
  · rw [he] at h
    exact absurd h.1 (by decide)
  · rw [he] at h
    exact absurd h.1 (by decide)

/-- The page `v` is entered in its table `u`, which hangs at a root entry. -/
theorem Boot.setHeader (h : Boot l s) (hl : l.Valid) {i j : Fin 512} {u v : Nat}
    (hi : HeaderEntry i) (hu : tableAt s [i] = some u) (hv : i.val * 512 + j.val = v) :
    Boot l { s with mem := Radix.set s.mem u j (pte v pteTable) } := by
  have hp : KernelPath [i, j] := kernelPath_two hi.path
  have hlow : v < addr2Page l.ekernel := by
    have := hl.ekernel
    have := hi.2
    have := j.isLt
    rw [addr2Page, pageSize]
    omega
  have hroot := h.root_lt
  have hstart := h.tree.pfnStart
  have hchild : child (pte v pteTable) = some v := child_pte (by omega) pteTable_lt pteTable_odd
  have hframe : headerFrame [i, j] = some v := by
    rw [headerFrame, if_pos (show 69 ≤ i.val ∧ i.val < 384 from hi), hv]
  cases hold : child (s.mem u j) with
  | some w =>
      -- the page was entered before
      have hw : tableAt s [i, j] = some w := (tableAt_snoc hu j).trans hold
      rcases h.frames _ w hp hw with hf | ⟨hf, -⟩
      · rw [hframe] at hf
        cases hf
        obtain ⟨hwalk, htree⟩ := h.tree.reflag hi.path hu hw hchild
        exact h.congr hwalk htree
      · rw [hframe] at hf
        cases hf
  | none =>
      have huv : u ≠ s.ptBase := h.tree.ne hi.path kernelPath_nil hu rfl (List.cons_ne_nil _ _)
      have hune : v ≠ u := by
        rcases h.frames _ u hi.path hu with hf | ⟨-, hle⟩
        · cases hf
        · omega
      have hfresh : Radix.Fresh child s.mem s.ptBase KernelPath v := by
        intro q hq hw
        rcases h.frames q v hq hw with hf | ⟨-, hle⟩
        · obtain ⟨i', j', rfl, -, he⟩ := headerFrame_eq hf
          have hi' : i' = i := Fin.ext (by omega)
          have hj' : j' = j := Fin.ext (by omega)
          subst hi'
          subst hj'
          have hnone : tableAt s [i', j'] = none := (tableAt_snoc hu j').trans hold
          exact absurd (hnone.symm.trans hw) (Option.some_ne_none v).symm
        · omega
      have hlong : ∀ k r, KernelPath ([i] ++ [j] ++ k :: r) → child (s.mem v k) = none :=
        fun k r hlong => absurd hlong.1 (by
          simp only [List.length_append, List.length_cons]
          omega)
      have hwalk : ∀ q, KernelPath q → tableAt { s with mem := Radix.set s.mem u j (pte v pteTable) } q =
          if q = [i, j] then some v else tableAt s q := fun q hq =>
        Radix.walk_link kernelPath_prefixes h.tree.separated hi.path hu hold hchild hlong hune hq
      have hsame : Radix.set s.mem u j (pte v pteTable) s.ptBase = s.mem s.ptBase :=
        funext fun k => Radix.set_of_ne fun he => absurd he.symm huv
      refine ⟨⟨h.tree.maxPfn, hstart, h.tree.pfreelist, h.tree.recursive.congr hsame, ?_, ?_, ?_⟩,
        h.ptBase, fun k w hk hw => ?_, fun q w hq hw => ?_⟩
      · intro k hk
        dsimp only
        rw [hsame]
        exact h.tree.closed k hk
      · exact h.tree.separated.link kernelPath_prefixes hi.path hu hold hchild hlong hfresh
      · intro q w hq hw
        rw [hwalk q hq] at hw
        split at hw
        · cases hw
          exact Nat.lt_trans hlow hroot
        · exact h.tree.below q w hq hw
      · rw [hwalk _ hk, if_neg fun he => by cases he] at hw
        exact h.entries k w hk hw
      · rw [hwalk q hq] at hw
        split at hw
        · rename_i he
          cases hw
          exact .inl (he ▸ hframe)
        · exact h.frames q w hq hw

/-- A header page. -/
theorem Boot.ptmapPhysical_header (h : Boot l s) (hl : l.Valid) (h₁ : 0x8a00 ≤ vpn)
    (h₂ : vpn < 0x30000) (hs : Paging.ptmapPhysical s vpn vpn pteTable = .ok s') : Boot l s' := by
  obtain ⟨hi₂, hi, hvpn⟩ := header_indices h₁ h₂
  have hroot : physicalLevel s s.ptBase 0 = .ok (s.ptBase, s) := by
    have hvalid : ¬ s.mem s.ptBase 0 &&& pteValid = 0 := by
      intro hinv
      have hchild := h.tree.recursive.child0
      rw [child_of_invalid hinv] at hchild
      cases hchild
    rw [physicalLevel_eq h.tree.pfreelist, if_neg hvalid, h.tree.recursive.entry0,
      getPfn_pte h.tree.recursive.lt pteValid_lt]
  rw [Paging.ptmapPhysical, hi₂, hroot, ok_bind] at hs
  dsimp only at hs
  rcases h.tree.physicalLevel [] (vpnAt 1 vpn) s.ptBase with ⟨hpanic, -⟩ | ⟨u, s₁, hok, hlevel⟩
  · rw [hpanic] at hs
    cases hs
  · rw [hok, ok_bind] at hs
    cases hs
    have hboot := h.level hlevel hi.path rfl (fun _ => .inr hi) rfl
    exact hboot.setHeader hl hi (hlevel.tableAt_self h.tree hi.path rfl) hvpn

/-! ## The whole of `init_pagetable` -/

/-- The page of a mapping is in a section, the trampoline or a header. -/
inductive BootMapping (m : Mapping) : Prop where
  | section : SectionEntry (vpnAt 2 m.vpn) → BootMapping m
  | header : 0x8a00 ≤ m.vpn → m.vpn < 0x30000 → m.pfn = m.vpn → m.flags = pteTable → BootMapping m

theorem SectionEntry.path {i : Fin 512} (h : SectionEntry i) : KernelPath [i] := by
  rcases h with rfl | rfl | rfl <;> exact kernelPath_one (by decide) (by decide)

theorem Boot.ptmapPhysicalAll (hl : l.Valid) : ∀ {ms : List Mapping} {s : Tables}, Boot l s →
    (∀ m ∈ ms, BootMapping m) → Paging.ptmapPhysicalAll s ms = .ok s' → Boot l s'
  | [], s, h, _, hs => by
      cases hs
      exact h
  | m :: ms, s, h, hms, hs => by
      rw [Paging.ptmapPhysicalAll, List.foldlM_cons] at hs
      obtain ⟨s₁, hs₁, hs⟩ := bind_ok hs
      refine Boot.ptmapPhysicalAll hl (s := s₁) ?_ (fun m hm => hms m (List.mem_cons_of_mem _ hm)) hs
      cases hms m (List.mem_cons_self ..) with
      | «section» hentry => exact h.ptmapPhysical hentry.path hentry hs₁
      | header h₁ h₂ hpfn hflags =>
          rw [hpfn, hflags] at hs₁
          exact h.ptmapPhysical_header hl h₁ h₂ hs₁

theorem mapSection_boot {start stop : Nat} {flags : UInt64} (h₁ : 0x80000000 ≤ start)
    (h₂ : stop ≤ 0x100000000) {m : Mapping} (hm : m ∈ mapSection start stop flags) :
    BootMapping m := by
  obtain ⟨pfn, hpfn, rfl⟩ := List.mem_map.mp hm
  have hstop := addr2PageUp_mono h₂
  have hup : addr2PageUp 0x100000000 = 0x100000 := by decide
  rw [List.mem_range'_1] at hpfn
  have hlo : 0x80000 ≤ addr2Page start := by
    rw [addr2Page, pageSize]
    omega
  refine .section ?_
  have hval : (vpnAt 2 pfn).val = 2 ∨ (vpnAt 2 pfn).val = 3 := by
    show pfn / 2 ^ 18 % 512 = 2 ∨ pfn / 2 ^ 18 % 512 = 3
    omega
  rcases hval with hv | hv
  · exact .inl (Fin.ext hv)
  · exact .inr (.inl (Fin.ext hv))

theorem mappings_boot (hl : l.Valid) {m : Mapping} (hm : m ∈ l.mappings) : BootMapping m := by
  rw [Layout.mappings, List.mem_append, List.mem_append, List.mem_append, List.mem_append] at hm
  rcases hm with (((hm | hm) | hm) | hm) | hm
  · exact mapSection_boot hl.stext hl.etext hm
  · exact mapSection_boot hl.srodata hl.erodata hm
  · exact mapSection_boot hl.sdata hl.ebss hm
  · rw [List.mem_singleton.mp hm]
    exact .section (.inr (.inr (show vpnAt 2 (addr2Page trampoline) = 511 by decide)))
  · obtain ⟨a, ha, rfl⟩ := List.mem_map.mp hm
    obtain ⟨h₁, h₂⟩ := hl.headers a ha
    refine .header ?_ ?_ rfl rfl
    · show 0x8a00 ≤ addr2Page a
      rw [addr2Page, pageSize]
      omega
    · show addr2Page a < 0x30000
      rw [addr2Page, pageSize]
      omega

theorem rooted_boot (mem : Phys) {maxPfn : Nat} (hroot : addr2Page l.ekernel < maxPfn)
    (hmax : maxPfn ≤ 2 ^ 52) : Boot l (rooted mem (addr2Page l.ekernel) maxPfn) := by
  refine ⟨rooted_tree mem hroot hmax, rfl, fun i t hi ht => ?_, fun p t hp ht => ?_⟩
  · have := (rooted_tableAt hi ht).1
    cases this
  · obtain ⟨rfl, rfl⟩ := rooted_tableAt hp ht
    exact .inr ⟨rfl, Nat.le_refl _⟩

/-- The tables `init_pagetable` leaves, if it does not panic. -/
theorem initPagetable_boot (hl : l.Valid) {mem : Phys} {maxPfn : Nat} (hmax : maxPfn ≤ 2 ^ 52)
    (h : initPagetable mem maxPfn l = .ok s) : Boot l s := by
  rw [initPagetable_eq] at h
  split at h
  · cases h
  · rename_i hroom
    exact (rooted_boot mem (Nat.lt_of_not_le hroom) hmax).ptmapPhysicalAll hl
      (fun m hm => mappings_boot hl hm) h

end Boot

end Paging
