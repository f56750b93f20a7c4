import Endros.Paging.Init

/-!
# The accesses of `ptmap` and `ptunmap`

`sv39` is the walk of the hardware through the tables as they are.  It refuses an
access that the leaf does not allow, and a last-level entry that allows nothing.

The levels 2 and 1 of `ptmap` are translated.  Level 1 ends with closing the root
entry.  After that level 0 still has to close the entry below, through the window
of the root entry: that window is not translated any more.  So every call that
does not panic for lack of frames faults.  `ptunmap` has the same order.
-/

namespace Paging

open Lib

/-! ## The walk of the hardware -/

/-- The leaf allows the access. -/
def permits (e : UInt64) : Access → Bool
  | .read => e &&& pteRead ≠ 0
  | .write => e &&& pteWrite ≠ 0

/-- The Sv39 walk.  A leaf above the last level maps an aligned larger page. -/
def sv39 (root : Nat) : Translate := fun mem vpn a =>
  let e₂ := mem root (vpnAt 2 vpn)
  if e₂ &&& pteValid = 0 then none
  else if isLeaf e₂ then
    if permits e₂ a ∧ getPfn e₂ % 2 ^ 18 = 0 then some (getPfn e₂ + vpn % 2 ^ 18) else none
  else
    let e₁ := mem (getPfn e₂) (vpnAt 1 vpn)
    if e₁ &&& pteValid = 0 then none
    else if isLeaf e₁ then
      if permits e₁ a ∧ getPfn e₁ % 2 ^ 9 = 0 then some (getPfn e₁ + vpn % 2 ^ 9) else none
    else
      let e₀ := mem (getPfn e₁) (vpnAt 0 vpn)
      if e₀ &&& pteValid = 0 then none
      else if permits e₀ a then some (getPfn e₀) else none

section Entry

variable {t : Nat} (ht : t < 2 ^ 54)
include ht

theorem permits_pteValid (a : Access) : ¬ permits (pte t pteValid) a = true := by
  cases a with
  | read =>
      rw [permits, and_getFlags _ (by decide), getFlags_pte ht pteValid_lt]
      decide
  | write =>
      rw [permits, and_getFlags _ (by decide), getFlags_pte ht pteValid_lt]
      decide

theorem permits_pteTable (a : Access) : permits (pte t pteTable) a = true := by
  cases a with
  | read =>
      rw [permits, and_getFlags _ (by decide), getFlags_pte ht pteTable_lt]
      decide
  | write =>
      rw [permits, and_getFlags _ (by decide), getFlags_pte ht pteTable_lt]
      decide

end Entry

section Windows

variable {mem : Phys} {root : Nat} {a : Access}

/-- The last step of the walk to a window. -/
def lastStep (e : UInt64) (a : Access) : Option Nat :=
  if e &&& pteValid = 0 then none else if permits e a then some (getPfn e) else none

theorem lastStep_open {t : Nat} (ht : t < 2 ^ 54) : lastStep (pte t pteTable) a = some t := by
  rw [lastStep, if_neg (valid_pteTable ht), if_pos (permits_pteTable ht a),
    getPfn_pte ht pteTable_lt]

theorem lastStep_closed {t : Nat} (ht : t < 2 ^ 54) : lastStep (pte t pteValid) a = none := by
  rw [lastStep, if_neg (valid_pteValid ht), if_neg (permits_pteValid ht a)]

theorem Recursive.sv39_table (h : Recursive mem root) (i : Fin 512) (a : Access) :
    sv39 root mem i a = lastStep (mem root i) a := by
  obtain ⟨h₂, h₁, h₀⟩ := vpnAt_window i
  rw [sv39, h₂, h₁, h₀, h.entry0, if_neg (valid_pteValid h.lt), if_neg (isLeaf_pteValid h.lt),
    getPfn_pte h.lt pteValid_lt, h.entry0, if_neg (valid_pteValid h.lt),
    if_neg (isLeaf_pteValid h.lt), getPfn_pte h.lt pteValid_lt]
  rfl

theorem Recursive.sv39_leaf (h : Recursive mem root) {i : Fin 512} {t : Nat} (ht : t < 2 ^ 54)
    (he : mem root i = pte t pteValid) (j : Fin 512) (a : Access) :
    sv39 root mem (i * 512 + j) a = lastStep (mem t j) a := by
  obtain ⟨h₂, h₁, h₀⟩ := vpnAt_window₂ i j
  rw [sv39, h₂, h₁, h₀, h.entry0, if_neg (valid_pteValid h.lt), if_neg (isLeaf_pteValid h.lt),
    getPfn_pte h.lt pteValid_lt, he, if_neg (valid_pteValid ht), if_neg (isLeaf_pteValid ht),
    getPfn_pte ht pteValid_lt]
  rfl

/-- The walk of the hardware serves the levels of `ptmap`. -/
theorem sv39_windows (root : Nat) : Windows (sv39 root) root := by
  refine ⟨fun h => ?_, fun h ht he => ?_, fun h ht hu he₂ he₁ => ?_⟩
  · rw [show kpgdir = ((1 : Fin 512) : Nat) from rfl, h.sv39_table, h.entry1, lastStep_open h.lt]
  · rw [h.sv39_table, he, lastStep_open ht]
  · rw [h.sv39_leaf ht he₂, he₁, lastStep_open hu]

end Windows

/-! ## The last access -/

section Calls

variable {s : Tables} {vpn t u : Nat}

theorem load_fault {tr : Translate} {i : Fin 512} (h : tr s.mem vpn .read = none) :
    load tr s vpn i = .error .fault := by
  rw [load, h]

/-- The root entry is closed, so its window is not translated. -/
theorem Tree.close_sv39 (h : Tree s) (hi : KernelPath [vpnAt 2 vpn])
    (ht : tableAt s [vpnAt 2 vpn] = some t) (hu : tableAt s [vpnAt 2 vpn, vpnAt 1 vpn] = some u)
    (e : UInt64) :
    setFlags (sv39 s.ptBase) (almostMapped s vpn t u e) (vpnAt 2 vpn) (vpnAt 1 vpn) pteValid =
      .error .fault := by
  have hstart := h.pfnStart
  have htlt := h.below _ t hi ht
  have hroot := h.almostMapped_root hi ht hu e
  rw [setFlags, load_fault, error_bind]
  rw [(h.recursive.congr hroot).sv39_table, hroot, h.entry_eq hi ht, lastStep_closed (by omega)]

/-- `ptmap` panics for lack of frames or faults. -/
theorem Tree.ptmap_sv39 (h : Tree s) (hi : KernelPath [vpnAt 2 vpn]) (pfn : Nat) (flags : UInt64) :
    (ptmap (sv39 s.ptBase) s vpn pfn flags = .error .panic ∧ OutOfFrames s vpn) ∨
      (ptmap (sv39 s.ptBase) s vpn pfn flags = .error .fault ∧ ¬ OutOfFrames s vpn) := by
  rw [h.ptmap_eq (sv39_windows s.ptBase) hi]
  rcases h.physicalLevels hi with ⟨hl, hout⟩ | ⟨t, u, s', hl, hlevels, hout⟩
  · rw [hl]
    exact .inl ⟨rfl, hout⟩
  · obtain ⟨hs', ht, hu⟩ := hlevels.spec h hi
    rw [hl, ok_bind, ← hlevels.ptBase]
    dsimp only
    rw [hs'.ptmapLevel0_eq (sv39_windows s'.ptBase) hi ht hu, hs'.close_sv39 hi ht hu]
    exact .inr ⟨rfl, hout⟩

theorem Tree.ptunmap_sv39 (h : Tree s) (hi : KernelPath [vpnAt 2 vpn])
    (ht : tableAt s [vpnAt 2 vpn] = some t) (hu : tableAt s [vpnAt 2 vpn, vpnAt 1 vpn] = some u) :
    ptunmap (sv39 s.ptBase) s vpn = .error .fault := by
  rw [h.ptunmap_eq (sv39_windows s.ptBase) hi ht hu, h.close_sv39 hi ht hu]
  rfl

end Calls

/-! ## Reachable tables -/

/-- The page is mapped. -/
def IsMapped (s : Tables) (vpn : Nat) : Prop := windows s.ptBase s.mem vpn .read ≠ none

/-- The tables of a page that is mapped. -/
theorem IsMapped.tables {s : Tables} {vpn : Nat} (h : IsMapped s vpn) :
    ∃ t u, tableAt s [vpnAt 2 vpn] = some t ∧ tableAt s [vpnAt 2 vpn, vpnAt 1 vpn] = some u := by
  cases ht : tableAt s [vpnAt 2 vpn] with
  | none =>
      refine absurd ?_ h
      have hwalk : Radix.walk child s.mem s.ptBase [vpnAt 2 vpn] = none := ht
      show Radix.walk child s.mem s.ptBase ([vpnAt 2 vpn] ++ [vpnAt 1 vpn, vpnAt 0 vpn]) = none
      rw [Radix.walk_append, hwalk]
      rfl
  | some t =>
      cases hu : tableAt s [vpnAt 2 vpn, vpnAt 1 vpn] with
      | none =>
          refine absurd ?_ h
          have hwalk : Radix.walk child s.mem s.ptBase [vpnAt 2 vpn, vpnAt 1 vpn] = none := hu
          show Radix.walk child s.mem s.ptBase ([vpnAt 2 vpn, vpnAt 1 vpn] ++ [vpnAt 0 vpn]) = none
          rw [Radix.walk_append, hwalk]
          rfl
      | some u => exact ⟨t, u, rfl, rfl⟩

/-- The tables that `init_pagetable` and calls of `ptmap` and `ptunmap` leave.  A
call returns because the machine still has the translations it needs, so it is
taken through the windows. -/
inductive Reachable (l : Layout) (maxPfn : Nat) : Tables → Prop where
  | init {mem : Phys} {s : Tables} : initPagetable mem maxPfn l = .ok s → Reachable l maxPfn s
  | ptmap {s s' : Tables} {vpn pfn : Nat} {flags : UInt64} : Reachable l maxPfn s →
      vpnAt 2 vpn ≠ 0 → vpnAt 2 vpn ≠ 1 →
      ptmap (windows s.ptBase) s vpn pfn flags = .ok s' → Reachable l maxPfn s'
  | ptunmap {s s' : Tables} {vpn pfn : Nat} : Reachable l maxPfn s →
      vpnAt 2 vpn ≠ 0 → vpnAt 2 vpn ≠ 1 → IsMapped s vpn →
      ptunmap (windows s.ptBase) s vpn = .ok (pfn, s') → Reachable l maxPfn s'

theorem Reachable.tree {l : Layout} (hl : l.Valid) {maxPfn : Nat} (hmax : maxPfn ≤ 2 ^ 52)
    {s : Tables} (h : Reachable l maxPfn s) : Tree s := by
  induction h with
  | init hs => exact (initPagetable_boot hl hmax hs).tree
  | ptmap _ h₀ h₁ hs ih =>
      have hi := kernelPath_one h₀ h₁
      rcases ih.ptmap_windows hi _ _ with ⟨hpanic, -⟩ | ⟨t, u, s₂, hlevels, -, hok⟩
      · rw [hpanic] at hs
        cases hs
      · rw [hok] at hs
        cases hs
        obtain ⟨hs₂, ht, hu⟩ := hlevels.spec ih hi
        exact (hs₂.mapped hi ht hu _).2
  | ptunmap _ h₀ h₁ hmapped hs ih =>
      have hi := kernelPath_one h₀ h₁
      obtain ⟨t, u, ht, hu⟩ := hmapped.tables
      rw [ih.ptunmap_windows hi ht hu] at hs
      cases hs
      exact (ih.mapped hi ht hu _).2

/-- With the tables walked as they are at each access, a call of `ptmap` is free
of faults exactly when it panics for lack of frames, and no call of `ptunmap` is. -/
theorem ptmap_ptunmap_fault {l : Layout} (hl : l.Valid) {maxPfn : Nat} (hmax : maxPfn ≤ 2 ^ 52)
    {s : Tables} (h : Reachable l maxPfn s) {vpn : Nat} (h₀ : vpnAt 2 vpn ≠ 0)
    (h₁ : vpnAt 2 vpn ≠ 1) :
    (∀ pfn flags, ptmap (sv39 s.ptBase) s vpn pfn flags ≠ .error .fault ↔ OutOfFrames s vpn) ∧
      (IsMapped s vpn → ptunmap (sv39 s.ptBase) s vpn = .error .fault) := by
  have htree := h.tree hl hmax
  have hi := kernelPath_one h₀ h₁
  refine ⟨fun pfn flags => ?_, fun hmapped => ?_⟩
  · rcases htree.ptmap_sv39 hi pfn flags with ⟨hp, hout⟩ | ⟨hf, hout⟩
    · rw [hp]
      exact iff_of_true nofun hout
    · rw [hf]
      exact iff_of_false (fun hne => hne rfl) hout
  · obtain ⟨t, u, ht, hu⟩ := hmapped.tables
    exact htree.ptunmap_sv39 hi ht hu

/-! ## A small kernel -/

/-- A kernel with one page of text. -/
def smallLayout : Layout :=
  { stext := 0x80200000
    etext := 0x80201000
    srodata := 0x80201000
    erodata := 0x80201000
    sdata := 0x80201000
    ebss := 0x80201000
    ekernel := 0x80201000
    strampoline := 0x80200000
    virtioMmioHeaders := [] }

theorem smallLayout_valid : smallLayout.Valid := by
  constructor <;> decide

/-- What `init_pagetable` leaves of the frames. -/
theorem smallLayout_init : ∃ s, initPagetable (fun _ _ => 0) 0x88000 smallLayout = .ok s ∧
    s.pfnStart = 0x80206 ∧ s.maxPfn = 0x88000 := by
  have hrun : (initPagetable (fun _ _ => 0) 0x88000 smallLayout).toOption.map
      (fun s => (s.pfnStart, s.maxPfn)) = some (0x80206, 0x88000) := by
    decide +kernel
  obtain ⟨s, hs, he⟩ := map_ok hrun
  exact ⟨s, hs, congrArg Prod.fst he, congrArg Prod.snd he⟩

/-- No page is mapped at the start of the arena of `dmalloc`, and there are frames
for its tables. -/
theorem smallLayout_roomy {s : Tables} (h : Boot smallLayout s) (hstart : s.pfnStart = 0x80206)
    (hmax : s.maxPfn = 0x88000) : ¬ OutOfFrames s 0x100000 := by
  have hi : KernelPath [vpnAt 2 0x100000] := kernelPath_one (by decide) (by decide)
  have hinv : s.mem s.ptBase (vpnAt 2 0x100000) &&& pteValid = 0 := by
    by_contra hv
    have hentry := h.entries _ _ hi ((tableAt_one s _).trans (child_of_valid hv))
    exact absurd hentry (show ¬ (SectionEntry 4 ∨ HeaderEntry 4) by
      unfold SectionEntry HeaderEntry
      decide)
  rw [OutOfFrames, if_pos hinv, hstart, hmax]
  decide

/-- The first page that `dmalloc` maps. -/
theorem ptmap_closes_window : ∃ s, Reachable smallLayout 0x88000 s ∧ vpnAt 2 0x100000 = 4 ∧
    ptmap (sv39 s.ptBase) s 0x100000 0x80206 (pteRead ||| pteWrite ||| pteValid) =
      .error .fault := by
  obtain ⟨s, hs, hstart, hmax⟩ := smallLayout_init
  have hboot := initPagetable_boot smallLayout_valid (by decide) hs
  have hi : KernelPath [vpnAt 2 0x100000] := kernelPath_one (by decide) (by decide)
  refine ⟨s, .init hs, by decide, ?_⟩
  rcases hboot.tree.ptmap_sv39 hi 0x80206 (pteRead ||| pteWrite ||| pteValid) with
    ⟨-, hout⟩ | ⟨hf, -⟩
  · exact absurd hout (smallLayout_roomy hboot hstart hmax)
  · exact hf

theorem ptmap_ptunmap_fault_small : ∃ s, Reachable smallLayout 0x88000 s ∧
    ∀ pfn flags, ptmap (sv39 s.ptBase) s 0x100000 pfn flags ≠ .error .fault ↔
      OutOfFrames s 0x100000 := by
  obtain ⟨s, hs, -, -⟩ := smallLayout_init
  have hreach : Reachable smallLayout 0x88000 s := .init hs
  exact ⟨s, hreach, (ptmap_ptunmap_fault smallLayout_valid (by decide) hreach
    (show vpnAt 2 0x100000 ≠ 0 by decide) (by decide)).1⟩

end Paging
