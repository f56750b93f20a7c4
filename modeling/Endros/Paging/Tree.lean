import Endros.Paging.Kernel

/-!
# The tree of kernel tables

`Tree` says that the tables below the root, apart from the two recursive entries,
are a tree of distinct frames below `pfn_start`, and that the root entries are
closed: the flags of a valid one are `PTE_VALID` and no others.

The levels of `ptmap` need little of the translation (`Windows`): a window is
translated when the entry of its table is open for reading and writing and the
entries above are closed.  A level then leaves the tables that the same level of
`ptmap_physical` leaves, with the entry open.
-/

namespace Paging

open Lib

/-! ## Windows -/

theorem vpnAt_window (i : Fin 512) : vpnAt 2 i = 0 ∧ vpnAt 1 i = 0 ∧ vpnAt 0 i = i := by
  have hi := i.isLt
  refine ⟨Fin.ext ?_, Fin.ext ?_, Fin.ext ?_⟩
  · show i.val / 2 ^ 18 % 512 = 0
    omega
  · show i.val / 2 ^ 9 % 512 = 0
    omega
  · show i.val / 2 ^ 0 % 512 = i.val
    omega

theorem vpnAt_window₂ (i j : Fin 512) :
    vpnAt 2 (i * 512 + j) = 0 ∧ vpnAt 1 (i * 512 + j) = i ∧ vpnAt 0 (i * 512 + j) = j := by
  have hi := i.isLt
  have hj := j.isLt
  refine ⟨Fin.ext ?_, Fin.ext ?_, Fin.ext ?_⟩
  · show (i.val * 512 + j.val) / 2 ^ 18 % 512 = 0
    omega
  · show (i.val * 512 + j.val) / 2 ^ 9 % 512 = i.val
    omega
  · show (i.val * 512 + j.val) / 2 ^ 0 % 512 = j.val
    omega

/-- The recursive entries of the root. -/
structure Recursive (mem : Phys) (root : Nat) : Prop where
  lt : root < 2 ^ 54
  entry0 : mem root 0 = pte root pteValid
  entry1 : mem root 1 = pte root pteTable

namespace Recursive

variable {mem : Phys} {root f : Nat} {i j : Fin 512} {x : UInt64}

theorem child0 (h : Recursive mem root) : child (mem root 0) = some root := by
  rw [h.entry0]
  exact child_pte h.lt pteValid_lt pteValid_odd

theorem child1 (h : Recursive mem root) : child (mem root 1) = some root := by
  rw [h.entry1]
  exact child_pte h.lt pteTable_lt pteTable_odd

theorem window_table (h : Recursive mem root) (i : Fin 512) (a : Access) :
    windows root mem i a = child (mem root i) := by
  obtain ⟨h₂, h₁, h₀⟩ := vpnAt_window i
  rw [windows, h₂, h₁, h₀, Radix.walk_cons, h.child0]
  show Radix.walk child mem root [0, i] = _
  rw [Radix.walk_cons, h.child0]
  show Radix.walk child mem root ([] ++ [i]) = _
  rw [Radix.walk_snoc]
  rfl

theorem window_root (h : Recursive mem root) (a : Access) : windows root mem kpgdir a = some root := by
  rw [show kpgdir = ((1 : Fin 512) : Nat) from rfl, h.window_table, h.child1]

theorem window_leaf (h : Recursive mem root) (i j : Fin 512) (a : Access) :
    windows root mem (i * 512 + j) a = (child (mem root i)).bind fun t => child (mem t j) := by
  obtain ⟨h₂, h₁, h₀⟩ := vpnAt_window₂ i j
  rw [windows, h₂, h₁, h₀, Radix.walk_cons, h.child0]
  show Radix.walk child mem root ([i] ++ [j]) = _
  rw [Radix.walk_snoc]
  show ((Radix.walk child mem root ([] ++ [i])).bind _) = _
  rw [Radix.walk_snoc]
  rfl

theorem set (h : Recursive mem root) (hne : f = root → i ≠ 0 ∧ i ≠ 1) :
    Recursive (Radix.set mem f i x) root := by
  refine ⟨h.lt, ?_, ?_⟩
  · rw [Radix.set_of_ne fun he => (hne he.symm).1.symm, h.entry0]
  · rw [Radix.set_of_ne fun he => (hne he.symm).2.symm, h.entry1]

theorem fill (h : Recursive mem root) (hne : root ≠ f) : Recursive (Radix.fill mem f x) root := by
  refine ⟨h.lt, ?_, ?_⟩
  · rw [Radix.fill_of_ne hne, h.entry0]
  · rw [Radix.fill_of_ne hne, h.entry1]

theorem congr {mem' : Phys} (h : Recursive mem root) (he : mem' root = mem root) :
    Recursive mem' root :=
  ⟨h.lt, he ▸ h.entry0, he ▸ h.entry1⟩

end Recursive

/-! ## Accesses that are translated -/

section Accesses

variable {tr : Translate} {s : Tables} {vpn f : Nat} {i : Fin 512}

theorem load_ok (h : tr s.mem vpn .read = some f) : load tr s vpn i = .ok (s.mem f i) := by
  rw [load, h]

theorem store_ok {x : UInt64} (h : tr s.mem vpn .write = some f) :
    store tr s vpn i x = .ok { s with mem := Radix.set s.mem f i x } := by
  rw [store, h]

theorem setFlags_ok {flags : UInt64} (hr : tr s.mem vpn .read = some f)
    (hw : tr s.mem vpn .write = some f) : setFlags tr s vpn i flags =
      .ok { s with mem := Radix.set s.mem f i (withFlags (s.mem f i) flags) } := by
  rw [setFlags, load_ok hr, ok_bind, store_ok hw]

/-- A page is cleared when its translation does not depend on its contents. -/
theorem memset_ok (h : ∀ mem : Phys, (∀ g, g ≠ f → mem g = s.mem g) → tr mem vpn .write = some f) :
    memset tr s vpn = .ok { s with mem := Radix.fill s.mem f 0 } := by
  -- after `n` turns the first `n` words are zero
  have hloop : ∀ n, n ≤ 512 → loop (fun k s => store tr s vpn (Fin.ofNat 512 k) 0) n s =
      .ok { s with mem := Function.update s.mem f fun j => if j.val < n then 0 else s.mem f j } := by
    intro n
    induction n with
    | zero =>
        intro _
        rw [loop]
        have hmem : (fun j : Fin 512 => if j.val < 0 then 0 else s.mem f j) = s.mem f :=
          funext fun j => if_neg (Nat.not_lt_zero _)
        rw [hmem, Function.update_eq_self]
    | succ n ih =>
        intro hn
        rw [loop, ih (Nat.le_of_succ_le hn)]
        show store tr _ vpn (Fin.ofNat 512 n) 0 = _
        rw [store_ok (h _ fun g hg => Function.update_of_ne hg ..)]
        refine congrArg Except.ok (congrArg (fun m => { s with mem := m }) ?_)
        show Function.update (Function.update s.mem f _) f _ = _
        dsimp only
        rw [Function.update_idem, Function.update_self]
        refine congrArg _ (funext fun j => ?_)
        by_cases hj : j = Fin.ofNat 512 n
        · have hval : j.val = n := by
            rw [hj]
            exact Nat.mod_eq_of_lt hn
          rw [hj, Function.update_self, ← hj, if_pos (by omega)]
        · have hval : j.val ≠ n := fun he => hj (Fin.ext (he.trans (Nat.mod_eq_of_lt hn).symm))
          rw [Function.update_of_ne hj]
          by_cases hlt : j.val < n
          · rw [if_pos hlt, if_pos (by omega)]
          · rw [if_neg hlt, if_neg (by omega)]
  rw [memset, hloop 512 (Nat.le_refl _)]
  refine congrArg Except.ok (congrArg (fun m => { s with mem := m }) ?_)
  rw [Radix.fill]
  exact congrArg _ (funext fun j => if_pos j.isLt)

end Accesses

/-! ## What the levels of `ptmap` need of a translation -/

/-- A window is translated when the entries above its table are closed and the
entry of its table is open. -/
structure Windows (tr : Translate) (root : Nat) : Prop where
  directory : ∀ {mem a}, Recursive mem root → tr mem kpgdir a = some root
  table : ∀ {mem a} {i : Fin 512} {t : Nat}, Recursive mem root → t < 2 ^ 54 →
    mem root i = pte t pteTable → tr mem i a = some t
  leaf : ∀ {mem a} {i j : Fin 512} {t u : Nat}, Recursive mem root → t < 2 ^ 54 → u < 2 ^ 54 →
    mem root i = pte t pteValid → mem t j = pte u pteTable → tr mem (i * 512 + j) a = some u

theorem windows_windows (root : Nat) : Windows (windows root) root := by
  refine ⟨fun h => h.window_root _, fun h ht he => ?_, fun h ht hu he₂ he₁ => ?_⟩
  · rw [h.window_table, he, child_pte ht pteTable_lt pteTable_odd]
  · rw [h.window_leaf, he₂, child_pte ht pteValid_lt pteValid_odd]
    show child _ = _
    rw [he₁, child_pte hu pteTable_lt pteTable_odd]

/-! ## The tree of tables -/

/-- The paths to the tables: at most two levels below the root, and not through
its recursive entries. -/
def KernelPath (p : List (Fin 512)) : Prop :=
  p.length ≤ 2 ∧ p.head? ≠ some 0 ∧ p.head? ≠ some 1

theorem kernelPath_nil : KernelPath [] :=
  ⟨Nat.zero_le _, (Option.some_ne_none _).symm, (Option.some_ne_none _).symm⟩

theorem kernelPath_prefixes : Radix.Prefixes KernelPath := by
  intro p q h
  cases p with
  | nil => exact kernelPath_nil
  | cons i p =>
      refine ⟨?_, h.2.1, h.2.2⟩
      have := h.1
      rw [List.length_append] at this
      omega

theorem kernelPath_one {i : Fin 512} (h₀ : i ≠ 0) (h₁ : i ≠ 1) : KernelPath [i] :=
  ⟨Nat.le_succ 1, fun h => h₀ (Option.some.inj h), fun h => h₁ (Option.some.inj h)⟩

theorem kernelPath_two {i j : Fin 512} (h : KernelPath [i]) : KernelPath [i, j] :=
  ⟨Nat.le_refl 2, h.2.1, h.2.2⟩

theorem KernelPath.ne {i : Fin 512} {p : List (Fin 512)} (h : KernelPath (i :: p)) :
    i ≠ 0 ∧ i ≠ 1 :=
  ⟨fun he => h.2.1 (he ▸ rfl), fun he => h.2.2 (he ▸ rfl)⟩

/-- The table at the end of a path. -/
def tableAt (s : Tables) (p : List (Fin 512)) : Option Nat := Radix.walk child s.mem s.ptBase p

/-- The tables of the kernel, with an empty `pfreelist`.  `max_pfn` and
`pfn_start` are page numbers of 64-bit addresses. -/
structure Tree (s : Tables) : Prop where
  maxPfn : s.maxPfn ≤ 2 ^ 52
  pfnStart : s.pfnStart ≤ 2 ^ 52
  pfreelist : s.pfreelist = 0
  recursive : Recursive s.mem s.ptBase
  closed : ∀ i, KernelPath [i] → s.mem s.ptBase i &&& pteValid ≠ 0 →
    getFlags (s.mem s.ptBase i) = pteValid
  separated : Radix.Separated child s.mem s.ptBase KernelPath
  below : ∀ p t, KernelPath p → tableAt s p = some t → t < s.pfnStart

section Tree

variable {s : Tables} {p q : List (Fin 512)} {i : Fin 512} {t u : Nat}

theorem tableAt_snoc (hp : tableAt s p = some t) (i : Fin 512) :
    tableAt s (p ++ [i]) = child (s.mem t i) := by
  have hp' : Radix.walk child s.mem s.ptBase p = some t := hp
  rw [tableAt, Radix.walk_snoc, hp']
  rfl

theorem tableAt_one (s : Tables) (i : Fin 512) : tableAt s [i] = child (s.mem s.ptBase i) :=
  tableAt_snoc (p := []) rfl i

theorem Tree.root_lt (h : Tree s) : s.ptBase < s.pfnStart := h.below [] _ kernelPath_nil rfl

/-- Two tables on different paths. -/
theorem Tree.ne (h : Tree s) (hp : KernelPath p) (hq : KernelPath q)
    (ht : tableAt s p = some t) (hu : tableAt s q = some u) (hne : p ≠ q) : t ≠ u := fun he =>
  hne (h.separated p q t hp hq ht (he ▸ hu))

/-- The root entry that a table is reached by. -/
theorem Tree.entry_eq (h : Tree s) (hi : KernelPath [i]) (ht : tableAt s [i] = some t) :
    s.mem s.ptBase i = pte t pteValid := by
  rw [tableAt_one] at ht
  by_cases hinv : s.mem s.ptBase i &&& pteValid = 0
  · rw [child_of_invalid hinv] at ht
    cases ht
  · rw [child_of_valid hinv] at ht
    cases ht
    rw [← h.closed i hi hinv, pte_getPfn]

/-! ## A new table -/

/-- A new table for entry `i` of the table `t`. -/
def withTable (s : Tables) (t : Nat) (i : Fin 512) : Tables :=
  { s with
    mem := Radix.set (Radix.fill s.mem s.pfnStart 0) t i (pte s.pfnStart pteValid)
    pfnStart := s.pfnStart + 1 }

theorem palloc_eq (hfree : s.pfreelist = 0) (tr : Translate) :
    palloc tr s = if s.pfnStart ≥ s.maxPfn then .error .panic
      else .ok (s.pfnStart, { s with pfnStart := s.pfnStart + 1 }) := by
  rw [palloc, if_neg (fun hne => hne hfree)]

/-- A level of `ptmap_physical`. -/
theorem physicalLevel_eq (hfree : s.pfreelist = 0) (t : Nat) (i : Fin 512) :
    physicalLevel s t i =
      if s.mem t i &&& pteValid = 0 then
        if s.pfnStart ≥ s.maxPfn then .error .panic else .ok (s.pfnStart, withTable s t i)
      else .ok (getPfn (s.mem t i), s) := by
  rw [physicalLevel, load_ok (show bare s.mem t .read = some t from rfl), ok_bind]
  by_cases hv : s.mem t i &&& pteValid = 0
  · rw [if_pos hv, if_pos hv, palloc_eq hfree]
    by_cases hfull : s.pfnStart ≥ s.maxPfn
    · rw [if_pos hfull, if_pos hfull, error_bind]
    · rw [if_neg hfull, if_neg hfull, ok_bind]
      dsimp only
      rw [memset_ok (fun _ _ => rfl), ok_bind, store_ok (show bare _ t .write = some t from rfl)]
      rfl
  · rw [if_neg hv, if_neg hv]

theorem Tree.fill_walk (h : Tree s) : KernelPath q →
    Radix.walk child (Radix.fill s.mem s.pfnStart 0) s.ptBase q = tableAt s q :=
  Radix.walk_congr kernelPath_prefixes fun p' i' f hp' hf => by
    have hlt := h.below p' f (kernelPath_prefixes p' [i'] hp') hf
    rw [Radix.fill_of_ne (Nat.ne_of_lt hlt)]

theorem withTable_mem {v : Nat} {j : Fin 512} (hv : v ≠ s.pfnStart) (hne : v = t → j ≠ i) :
    (withTable s t i).mem v j = s.mem v j := by
  show Radix.set (Radix.fill s.mem s.pfnStart 0) t i _ v j = _
  rw [Radix.set_of_ne hne, Radix.fill_of_ne hv]

theorem withTable_entry (s : Tables) (t : Nat) (i : Fin 512) :
    (withTable s t i).mem t i = pte s.pfnStart pteValid :=
  Radix.set_self ..

theorem withTable_new (ht : t < s.pfnStart) (j : Fin 512) :
    (withTable s t i).mem s.pfnStart j = 0 := by
  show Radix.set (Radix.fill s.mem s.pfnStart 0) t i _ s.pfnStart j = 0
  rw [Radix.set_of_ne fun he => absurd he (Nat.ne_of_gt ht), Radix.fill_self]

section WithTable

variable (h : Tree s) (hp : KernelPath (p ++ [i])) (ht : tableAt s p = some t)
  (hinv : s.mem t i &&& pteValid = 0) (hroom : s.pfnStart < s.maxPfn)
include h hp ht hinv hroom

/-- The new table is the only new one. -/
theorem withTable_tableAt (hq : KernelPath q) :
    tableAt (withTable s t i) q = if q = p ++ [i] then some s.pfnStart else tableAt s q := by
  have hp' := kernelPath_prefixes p [i] hp
  have hlt := h.below p t hp' ht
  have hmax := h.maxPfn
  rw [← h.fill_walk hq]
  refine Radix.walk_link kernelPath_prefixes (h.separated.congr fun q hq => h.fill_walk hq) hp'
    ((h.fill_walk hp').trans ht) ?_ (child_pte (by omega) pteValid_lt pteValid_odd) (fun j _ _ => ?_)
    (Nat.ne_of_gt hlt) hq
  · rw [Radix.fill_of_ne (Nat.ne_of_lt hlt), child_of_invalid hinv]
  · rw [Radix.fill_self, child_zero]

theorem Tree.withTable : Tree (withTable s t i) := by
  have hp' := kernelPath_prefixes p [i] hp
  have hlt := h.below p t hp' ht
  have hmax := h.maxPfn
  have hroot := h.root_lt
  refine ⟨hmax, show s.pfnStart + 1 ≤ 2 ^ 52 by omega, h.pfreelist, ?_, ?_, ?_, ?_⟩
  · refine (h.recursive.fill (Nat.ne_of_lt hroot)).set fun he => ?_
    -- the only path to the root is the empty one
    have hnil : p = [] := h.separated p [] t hp' kernelPath_nil ht (he ▸ rfl)
    subst hnil
    exact hp.ne
  · intro j hj hvalid
    change (Paging.withTable s t i).mem s.ptBase j &&& pteValid ≠ 0 at hvalid
    show getFlags ((Paging.withTable s t i).mem s.ptBase j) = pteValid
    by_cases hti : s.ptBase = t ∧ j = i
    · rw [hti.1, hti.2, withTable_entry]
      exact getFlags_pte (by omega) pteValid_lt
    · rw [withTable_mem (Nat.ne_of_lt hroot) fun h₁ h₂ => hti ⟨h₁, h₂⟩] at hvalid ⊢
      exact h.closed j hj hvalid
  · refine (h.separated.congr fun q hq => h.fill_walk hq).link kernelPath_prefixes hp'
      ((h.fill_walk hp').trans ht) ?_ (child_pte (by omega) pteValid_lt pteValid_odd) (fun j _ _ => ?_)
      fun q hq hw => ?_
    · rw [Radix.fill_of_ne (Nat.ne_of_lt hlt), child_of_invalid hinv]
    · rw [Radix.fill_self, child_zero]
    · exact Nat.lt_irrefl _ (h.below q _ hq ((h.fill_walk hq).symm.trans hw))
  · intro q v hq hv
    show v < s.pfnStart + 1
    rw [withTable_tableAt h hp ht hinv hroom hq] at hv
    split at hv
    · cases hv
      exact Nat.lt_succ_self _
    · exact Nat.lt_succ_of_lt (h.below q v hq hv)

end WithTable

/-- What a level does: the table `u` that entry `i` of the table `t`, at the path
`p`, points to is there in the end. -/
inductive Level (s : Tables) (p : List (Fin 512)) (i : Fin 512) (t : Nat) : Nat → Tables → Prop where
  | found : s.mem t i &&& pteValid ≠ 0 → Level s p i t (getPfn (s.mem t i)) s
  | made : s.mem t i &&& pteValid = 0 → s.pfnStart < s.maxPfn →
      Level s p i t s.pfnStart (withTable s t i)

theorem Tree.physicalLevel (h : Tree s) (p : List (Fin 512)) (i : Fin 512) (t : Nat) :
    (Paging.physicalLevel s t i = .error .panic ∧ s.mem t i &&& pteValid = 0 ∧
        s.maxPfn ≤ s.pfnStart) ∨
      ∃ u s', Paging.physicalLevel s t i = .ok (u, s') ∧ Level s p i t u s' := by
  rw [physicalLevel_eq h.pfreelist]
  by_cases hinv : s.mem t i &&& pteValid = 0
  · rw [if_pos hinv]
    by_cases hfull : s.pfnStart ≥ s.maxPfn
    · rw [if_pos hfull]
      exact .inl ⟨rfl, hinv, hfull⟩
    · rw [if_neg hfull]
      exact .inr ⟨_, _, rfl, .made hinv (Nat.lt_of_not_le hfull)⟩
  · rw [if_neg hinv]
    exact .inr ⟨_, _, rfl, .found hinv⟩

namespace Level

variable {s' : Tables}

theorem tree (hl : Level s p i t u s') (h : Tree s) (hp : KernelPath (p ++ [i]))
    (ht : tableAt s p = some t) : Tree s' := by
  cases hl with
  | found => exact h
  | made hinv hroom => exact h.withTable hp ht hinv hroom

theorem ptBase (hl : Level s p i t u s') : s'.ptBase = s.ptBase := by
  cases hl <;> rfl

theorem tableAt_eq (hl : Level s p i t u s') (h : Tree s) (hp : KernelPath (p ++ [i]))
    (ht : tableAt s p = some t) (hq : KernelPath q) :
    tableAt s' q = if q = p ++ [i] then some u else tableAt s q := by
  cases hl with
  | found hv =>
      split
      · rename_i he
        rw [he, tableAt_snoc ht, child_of_valid hv]
      · rfl
  | made hinv hroom => exact withTable_tableAt h hp ht hinv hroom hq

theorem tableAt_self (hl : Level s p i t u s') (h : Tree s) (hp : KernelPath (p ++ [i]))
    (ht : tableAt s p = some t) : tableAt s' (p ++ [i]) = some u := by
  rw [hl.tableAt_eq h hp ht hp, if_pos rfl]

theorem tableAt_above (hl : Level s p i t u s') (h : Tree s) (hp : KernelPath (p ++ [i]))
    (ht : tableAt s p = some t) : tableAt s' p = some t := by
  have hne : p ≠ p ++ [i] := fun he => by
    have := congrArg List.length he
    rw [List.length_append, List.length_singleton] at this
    omega
  rw [hl.tableAt_eq h hp ht (kernelPath_prefixes p [i] hp), if_neg hne, ht]

end Level

/-! ## The levels of `ptmap` -/

/-- Entry `i` of the table `t` is open for reading and writing. -/
def opened (s : Tables) (t : Nat) (i : Fin 512) : Tables :=
  { s with mem := Radix.set s.mem t i (withFlags (s.mem t i) pteTable) }

theorem opened_withTable (hroom : s.pfnStart < 2 ^ 54) :
    opened (withTable s t i) t i = { s with
      mem := Radix.set (Radix.fill s.mem s.pfnStart 0) t i (pte s.pfnStart pteTable)
      pfnStart := s.pfnStart + 1 } := by
  rw [opened, withTable_entry, withFlags_pte hroom pteValid_lt pteTable_lt, withTable]
  dsimp only
  rw [Radix.set_set]

variable {tr : Translate} {i₂ i₁ i₀ : Fin 512} {vpn : Nat}

/-- Level 2: as `ptmap_physical`, but the root entry is open. -/
theorem Tree.ptmapLevel2 (h : Tree s) (htr : Windows tr s.ptBase) (hi : KernelPath [i₂]) :
    Paging.ptmapLevel2 tr s i₂ = (Paging.physicalLevel s s.ptBase i₂).map
      fun r => opened r.2 s.ptBase i₂ := by
  have hroot := h.root_lt
  have hmax := h.maxPfn
  rw [Paging.ptmapLevel2, load_ok (htr.directory h.recursive), ok_bind, physicalLevel_eq h.pfreelist]
  by_cases hinv : s.mem s.ptBase i₂ &&& pteValid = 0
  · rw [if_pos hinv, if_pos hinv, palloc_eq h.pfreelist]
    by_cases hfull : s.pfnStart ≥ s.maxPfn
    · rw [if_pos hfull, if_pos hfull]
      rfl
    · rw [if_neg hfull, if_neg hfull, ok_bind]
      dsimp only
      rw [store_ok (f := s.ptBase), ok_bind, memset_ok (f := s.pfnStart)]
      · show _ = Except.ok (opened (Paging.withTable s s.ptBase i₂) s.ptBase i₂)
        rw [opened_withTable (by omega), Radix.fill_set_comm (Nat.ne_of_lt hroot)]
      · -- the window of the new table depends on the root only
        intro mem hmem
        have hsame := hmem s.ptBase (Nat.ne_of_lt hroot)
        refine htr.table ((h.recursive.set fun _ => hi.ne).congr hsame) (by omega) ?_
        rw [hsame]
        exact Radix.set_self ..
      · exact htr.directory h.recursive
  · rw [if_neg hinv, if_neg hinv, setFlags_ok (htr.directory h.recursive) (htr.directory h.recursive)]
    rfl

/-- Level 1, after a level 2 that has opened the root entry: as `ptmap_physical`,
but the entry is open. -/
theorem Tree.ptmapLevel1 (h : Tree s) (htr : Windows tr s.ptBase) (hi : KernelPath [i₂])
    (ht : tableAt s [i₂] = some t) :
    Paging.ptmapLevel1 tr (opened s s.ptBase i₂) i₂ i₁ =
      (Paging.physicalLevel s t i₁).map fun r => opened r.2 t i₁ := by
  have he := h.entry_eq hi ht
  have htlt := h.below _ t hi ht
  have hroot := h.root_lt
  have hstart := h.pfnStart
  have hmax := h.maxPfn
  have hne : t ≠ s.ptBase := h.ne hi kernelPath_nil ht rfl (List.cons_ne_nil _ _)
  obtain ⟨m, hm⟩ : ∃ m, m = Radix.set s.mem s.ptBase i₂ (pte t pteTable) := ⟨_, rfl⟩
  have hopen : opened s s.ptBase i₂ = { s with mem := m } := by
    rw [opened, he, withFlags_pte (by omega) pteValid_lt pteTable_lt, hm]
  have hrec : Recursive m s.ptBase := hm ▸ h.recursive.set fun _ => hi.ne
  have hentry : m s.ptBase i₂ = pte t pteTable := hm ▸ Radix.set_self ..
  have htable : m t i₁ = s.mem t i₁ := hm ▸ Radix.set_of_ne fun he => absurd he hne
  have hwin : ∀ a, tr m i₂ a = some t := fun a => htr.table hrec (by omega) hentry
  -- the root entry is closed after the entry of the table is written
  have hclose : ∀ x, Radix.set (Radix.set m t i₁ x) s.ptBase i₂ (pte t pteValid) =
      Radix.set s.mem t i₁ x := fun x => by
    rw [Radix.set_comm hne, hm, Radix.set_set, ← he, Radix.set_eq_self]
  have hroot₂ : ∀ x, Radix.set m t i₁ x s.ptBase i₂ = pte t pteTable := fun x => by
    rw [Radix.set_of_ne fun he => absurd he.symm hne, hentry]
  have hrec₂ : ∀ x, Recursive (Radix.set m t i₁ x) s.ptBase := fun x =>
    hrec.set fun he => absurd he hne
  rw [Paging.ptmapLevel1, hopen, load_ok (f := t) (hwin _), ok_bind, physicalLevel_eq h.pfreelist]
  by_cases hinv : s.mem t i₁ &&& pteValid = 0
  · rw [if_pos (show m t i₁ &&& pteValid = 0 from htable ▸ hinv), if_pos hinv,
      palloc_eq (s := { s with mem := m }) h.pfreelist]
    dsimp only
    by_cases hfull : s.pfnStart ≥ s.maxPfn
    · rw [if_pos hfull, if_pos hfull]
      rfl
    · rw [if_neg hfull, if_neg hfull, ok_bind, store_ok (f := t) (hwin _), ok_bind,
        setFlags_ok (f := s.ptBase) (htr.directory (hrec₂ _)) (htr.directory (hrec₂ _)), ok_bind]
      dsimp only
      rw [hroot₂, withFlags_pte (by omega) pteTable_lt pteValid_lt, hclose,
        memset_ok (f := s.pfnStart)]
      · show _ = Except.ok (opened (Paging.withTable s t i₁) t i₁)
        rw [opened_withTable (by omega), Radix.fill_set_comm (Nat.ne_of_lt htlt)]
      · -- the window of the new table depends on the root and on the table above
        intro mem hmem
        dsimp only at hmem
        have hsame : mem s.ptBase = s.mem s.ptBase := by
          rw [hmem _ (Nat.ne_of_lt hroot)]
          exact funext fun j => Radix.set_of_ne fun he => absurd he.symm hne
        refine htr.leaf (h.recursive.congr hsame) (t := t) (by omega) (by omega) ?_ ?_
        · rw [hsame, he]
        · rw [hmem _ (Nat.ne_of_lt htlt), Radix.set_self]
  · rw [if_neg (show ¬ m t i₁ &&& pteValid = 0 from htable ▸ hinv), if_neg hinv,
      setFlags_ok (f := t) (hwin _) (hwin _), ok_bind,
      setFlags_ok (f := s.ptBase) (htr.directory (hrec₂ _)) (htr.directory (hrec₂ _))]
    dsimp only
    rw [hroot₂, withFlags_pte (by omega) pteTable_lt pteValid_lt, hclose, htable]
    rfl

/-- The entry of a page in its level 1 table. -/
theorem withFlags_entry₁ (ht : tableAt s [i₂] = some t) (hu : tableAt s [i₂, i₁] = some u)
    {flags : UInt64} (hf : flags.toNat < 1024) : withFlags (s.mem t i₁) flags = pte u flags := by
  have hchild := tableAt_snoc ht i₁
  rw [show [i₂] ++ [i₁] = [i₂, i₁] from rfl, hu] at hchild
  have hpfn : getPfn (s.mem t i₁) = u := by
    by_cases hv : s.mem t i₁ &&& pteValid = 0
    · rw [child_of_invalid hv] at hchild
      cases hchild
    · rw [child_of_valid hv] at hchild
      exact (Option.some.inj hchild).symm
  have hflags := getFlags_toNat (s.mem t i₁)
  rw [← pte_getPfn (s.mem t i₁), withFlags_pte (getPfn_lt _) (by omega) hf, hpfn]

/-- The store of level 0, after a level 1 that has opened the entry. -/
theorem Tree.store_leaf (h : Tree s) (htr : Windows tr s.ptBase) (hi : KernelPath [i₂])
    (ht : tableAt s [i₂] = some t) (hu : tableAt s [i₂, i₁] = some u) (i₀ : Fin 512) (e : UInt64) :
    store tr (opened s t i₁) (i₂ * 512 + i₁) i₀ e =
      .ok { s with mem := Radix.set (Radix.set s.mem u i₀ e) t i₁ (pte u pteTable) } := by
  have hstart := h.pfnStart
  have htlt := h.below _ t hi ht
  have hult := h.below _ u (kernelPath_two hi) hu
  have hne : t ≠ s.ptBase := h.ne hi kernelPath_nil ht rfl (List.cons_ne_nil _ _)
  have hut : u ≠ t := h.ne (kernelPath_two hi) hi hu ht fun he => by cases he
  rw [opened, withFlags_entry₁ ht hu pteTable_lt, store_ok (f := u)]
  · dsimp only
    rw [Radix.set_comm hut.symm]
  · refine htr.leaf (h.recursive.set fun he => absurd he hne) (t := t) (by omega) (by omega) ?_
      (Radix.set_self ..)
    dsimp only
    rw [Radix.set_of_ne fun he => absurd he.symm hne, h.entry_eq hi ht]

/-- A change of memory that keeps the root and the tables. -/
theorem Tree.congr (h : Tree s) {mem : Phys} (hroot : mem s.ptBase = s.mem s.ptBase)
    (hchild : ∀ p i v, KernelPath (p ++ [i]) → tableAt s p = some v →
      child (mem v i) = child (s.mem v i)) :
    (∀ q, KernelPath q → tableAt { s with mem := mem } q = tableAt s q) ∧
      Tree { s with mem := mem } := by
  have hwalk : ∀ q, KernelPath q → tableAt { s with mem := mem } q = tableAt s q := fun q hq =>
    Radix.walk_congr kernelPath_prefixes hchild hq
  refine ⟨hwalk, h.maxPfn, h.pfnStart, h.pfreelist, h.recursive.congr hroot, ?_,
    h.separated.congr hwalk, ?_⟩
  · intro i hi
    dsimp only
    rw [hroot]
    exact h.closed i hi
  · intro p v hp hv
    rw [hwalk p hp] at hv
    exact h.below p v hp hv

/-- A leaf is written. -/
theorem Tree.setLeaf (h : Tree s) (hi : KernelPath [i₂]) (hu : tableAt s [i₂, i₁] = some u)
    (i₀ : Fin 512) (e : UInt64) :
    (∀ q, KernelPath q → tableAt { s with mem := Radix.set s.mem u i₀ e } q = tableAt s q) ∧
      Tree { s with mem := Radix.set s.mem u i₀ e } := by
  have hur : u ≠ s.ptBase := h.ne (kernelPath_two hi) kernelPath_nil hu rfl (List.cons_ne_nil _ _)
  refine h.congr (funext fun j => Radix.set_of_ne fun he => absurd he.symm hur) ?_
  -- an entry that points to a table is not in the table of the leaf
  intro p i v hp hv
  have hvu : v ≠ u := by
    refine h.ne (kernelPath_prefixes p [i] hp) (kernelPath_two hi) hv hu ?_
    rintro rfl
    exact absurd hp.1 (Nat.not_le_of_lt (Nat.lt_succ_self 2))
  rw [Radix.set_of_ne fun he => absurd he hvu]

/-- An entry below the root has other flags. -/
theorem Tree.reflag (h : Tree s) (hi : KernelPath [i₂]) (ht : tableAt s [i₂] = some t)
    (hu : tableAt s [i₂, i₁] = some u) {x : UInt64} (hx : child x = some u) :
    (∀ q, KernelPath q → tableAt { s with mem := Radix.set s.mem t i₁ x } q = tableAt s q) ∧
      Tree { s with mem := Radix.set s.mem t i₁ x } := by
  have hne : t ≠ s.ptBase := h.ne hi kernelPath_nil ht rfl (List.cons_ne_nil _ _)
  refine h.congr (funext fun j => Radix.set_of_ne fun he => absurd he.symm hne) ?_
  intro p i v _ hv
  by_cases hvt : v = t ∧ i = i₁
  · rw [hvt.1, hvt.2, Radix.set_self, hx, ← hu]
    exact tableAt_snoc ht i₁
  · rw [Radix.set_of_ne fun h₁ h₂ => hvt ⟨h₁, h₂⟩]

/-! ## `ptmap` as a whole -/

/-- `ptmap` lacks a frame for a table it has to make. -/
def OutOfFrames (s : Tables) (vpn : Nat) : Prop :=
  if s.mem s.ptBase (vpnAt 2 vpn) &&& pteValid = 0 then s.maxPfn ≤ s.pfnStart + 1
  else s.mem (getPfn (s.mem s.ptBase (vpnAt 2 vpn))) (vpnAt 1 vpn) &&& pteValid = 0 ∧
    s.maxPfn ≤ s.pfnStart

/-- The two levels of tables of a page are there in `s'`: the table `t` of its
root entry and the table `u` below. -/
inductive Levels (s : Tables) (vpn : Nat) (t u : Nat) (s' : Tables) : Prop where
  | mk (s₁ : Tables) : Level s [] (vpnAt 2 vpn) s.ptBase t s₁ →
      Level s₁ [vpnAt 2 vpn] (vpnAt 1 vpn) t u s' → Levels s vpn t u s'

namespace Levels

variable {s' : Tables}

theorem ptBase (hl : Levels s vpn t u s') : s'.ptBase = s.ptBase := by
  obtain ⟨s₁, h₁, h₂⟩ := hl
  rw [h₂.ptBase, h₁.ptBase]

theorem spec (hl : Levels s vpn t u s') (h : Tree s) (hi : KernelPath [vpnAt 2 vpn]) :
    Tree s' ∧ tableAt s' [vpnAt 2 vpn] = some t ∧
      tableAt s' [vpnAt 2 vpn, vpnAt 1 vpn] = some u := by
  obtain ⟨s₁, h₁, h₂⟩ := hl
  have hs₁ := h₁.tree h hi rfl
  have ht := h₁.tableAt_self h hi rfl
  exact ⟨h₂.tree hs₁ (kernelPath_two hi) ht, h₂.tableAt_above hs₁ (kernelPath_two hi) ht,
    h₂.tableAt_self hs₁ (kernelPath_two hi) ht⟩

end Levels

/-- The loop of `ptmap_physical`: the tables `t` and `u` of a page. -/
def physicalLevels (s : Tables) (vpn : Nat) : Except Stop (Nat × Nat × Tables) := do
  let (t, s) ← physicalLevel s s.ptBase (vpnAt 2 vpn)
  let (u, s) ← physicalLevel s t (vpnAt 1 vpn)
  .ok (t, u, s)

theorem Tree.physicalLevels (h : Tree s) (hi : KernelPath [vpnAt 2 vpn]) :
    (Paging.physicalLevels s vpn = .error .panic ∧ OutOfFrames s vpn) ∨
      ∃ t u s', Paging.physicalLevels s vpn = .ok (t, u, s') ∧ Levels s vpn t u s' ∧
        ¬ OutOfFrames s vpn := by
  rw [Paging.physicalLevels, OutOfFrames]
  rcases h.physicalLevel [] (vpnAt 2 vpn) s.ptBase with ⟨hl, hinv, hfull⟩ | ⟨t, s₁, hl, hl₁⟩
  · rw [hl, if_pos hinv]
    exact .inl ⟨rfl, Nat.le_succ_of_le hfull⟩
  have hs₁ := hl₁.tree h hi rfl
  rw [hl, ok_bind]
  dsimp only
  rcases hs₁.physicalLevel [vpnAt 2 vpn] (vpnAt 1 vpn) t with
    ⟨hl', hinv', hfull'⟩ | ⟨u, s₂, hl', hl₂⟩
  · rw [hl']
    refine .inl ⟨rfl, ?_⟩
    cases hl₁ with
    | found hv => rw [if_neg hv]; exact ⟨hinv', hfull'⟩
    | made hinv => rw [if_pos hinv]; exact hfull'
  · rw [hl']
    refine .inr ⟨t, u, s₂, rfl, ⟨s₁, hl₁, hl₂⟩, ?_⟩
    cases hl₁ with
    | found hv =>
        rw [if_neg hv]
        rintro ⟨hinv', hfull'⟩
        cases hl₂ with
        | found hv' => exact hv' hinv'
        | made _ hroom => exact Nat.not_lt_of_le hfull' hroom
    | made hinv hroom =>
        rw [if_pos hinv]
        intro hfull'
        cases hl₂ with
        | found hv' =>
            -- the new table is empty
            refine hv' ?_
            rw [withTable_new h.root_lt]
            rfl
        | made _ hroom' => exact Nat.not_lt_of_le hfull' hroom'

theorem Tree.ptmap_eq (h : Tree s) (htr : Windows tr s.ptBase) (hi : KernelPath [vpnAt 2 vpn])
    (pfn : Nat) (flags : UInt64) :
    ptmap tr s vpn pfn flags = Paging.physicalLevels s vpn >>= fun r =>
      ptmapLevel0 tr (opened r.2.2 r.1 (vpnAt 1 vpn)) (vpnAt 2 vpn) (vpnAt 1 vpn) (vpnAt 0 vpn)
        (pte pfn flags) := by
  rw [ptmap, h.ptmapLevel2 htr hi, Paging.physicalLevels]
  rcases h.physicalLevel [] (vpnAt 2 vpn) s.ptBase with ⟨hl, -, -⟩ | ⟨t, s₁, hl, hl₁⟩
  · rw [hl]
    rfl
  rw [hl, ok_bind]
  dsimp only [Except.map]
  have hs₁ := hl₁.tree h hi rfl
  rw [← hl₁.ptBase] at htr ⊢
  rw [ok_bind, hs₁.ptmapLevel1 htr hi (hl₁.tableAt_self h hi rfl)]
  cases Paging.physicalLevel s₁ t (vpnAt 1 vpn) with
  | error e => rfl
  | ok r => rfl

theorem ptmapPhysical_eq (s : Tables) (vpn pfn : Nat) (flags : UInt64) :
    ptmapPhysical s vpn pfn flags = Paging.physicalLevels s vpn >>= fun r =>
      .ok { r.2.2 with mem := Radix.set r.2.2.mem r.2.1 (vpnAt 0 vpn) (pte pfn flags) } := by
  rw [ptmapPhysical, Paging.physicalLevels]
  cases Paging.physicalLevel s s.ptBase (vpnAt 2 vpn) with
  | error e => rfl
  | ok r =>
      rw [ok_bind, ok_bind]
      dsimp only
      cases Paging.physicalLevel r.2 r.1 (vpnAt 1 vpn) with
      | error e => rfl
      | ok r => rfl

/-- The page is mapped, and its tables are closed. -/
def mapped (s : Tables) (vpn t u : Nat) (e : UInt64) : Tables :=
  { s with mem := Radix.set (Radix.set s.mem u (vpnAt 0 vpn) e) t (vpnAt 1 vpn) (pte u pteValid) }

/-- The memory before the last access: the page is mapped, the entry above is
still open, and the root is as before. -/
def almostMapped (s : Tables) (vpn t u : Nat) (e : UInt64) : Tables :=
  { s with mem := Radix.set (Radix.set s.mem u (vpnAt 0 vpn) e) t (vpnAt 1 vpn) (pte u pteTable) }

theorem Tree.almostMapped_root (h : Tree s) (hi : KernelPath [vpnAt 2 vpn])
    (ht : tableAt s [vpnAt 2 vpn] = some t) (hu : tableAt s [vpnAt 2 vpn, vpnAt 1 vpn] = some u)
    (e : UInt64) : (almostMapped s vpn t u e).mem s.ptBase = s.mem s.ptBase := by
  have hne : t ≠ s.ptBase := h.ne hi kernelPath_nil ht rfl (List.cons_ne_nil _ _)
  have hur : u ≠ s.ptBase :=
    h.ne (kernelPath_two hi) kernelPath_nil hu rfl (List.cons_ne_nil _ _)
  refine funext fun j => ?_
  show Radix.set (Radix.set s.mem u (vpnAt 0 vpn) e) t (vpnAt 1 vpn) _ s.ptBase j = _
  rw [Radix.set_of_ne fun he => absurd he.symm hne, Radix.set_of_ne fun he => absurd he.symm hur]

/-- The last access, through a window that looks at the valid bits only. -/
theorem Tree.close_windows (h : Tree s) (hi : KernelPath [vpnAt 2 vpn])
    (ht : tableAt s [vpnAt 2 vpn] = some t) (hu : tableAt s [vpnAt 2 vpn, vpnAt 1 vpn] = some u)
    (e : UInt64) :
    setFlags (windows s.ptBase) (almostMapped s vpn t u e) (vpnAt 2 vpn) (vpnAt 1 vpn) pteValid =
      .ok (mapped s vpn t u e) := by
  have hstart := h.pfnStart
  have htlt := h.below _ t hi ht
  have hult := h.below _ u (kernelPath_two hi) hu
  have hroot := h.almostMapped_root hi ht hu e
  have hwin : ∀ a, windows s.ptBase (almostMapped s vpn t u e).mem (vpnAt 2 vpn) a = some t :=
    fun a => by
      rw [(h.recursive.congr hroot).window_table, hroot, h.entry_eq hi ht,
        child_pte (by omega) pteValid_lt pteValid_odd]
  rw [setFlags_ok (f := t) (hwin _) (hwin _), almostMapped]
  dsimp only
  rw [Radix.set_self, withFlags_pte (by omega) pteTable_lt pteValid_lt, Radix.set_set]
  rfl

theorem Tree.ptmapLevel0_eq (h : Tree s) (htr : Windows tr s.ptBase) (hi : KernelPath [vpnAt 2 vpn])
    (ht : tableAt s [vpnAt 2 vpn] = some t) (hu : tableAt s [vpnAt 2 vpn, vpnAt 1 vpn] = some u)
    (e : UInt64) :
    ptmapLevel0 tr (opened s t (vpnAt 1 vpn)) (vpnAt 2 vpn) (vpnAt 1 vpn) (vpnAt 0 vpn) e =
      setFlags tr (almostMapped s vpn t u e) (vpnAt 2 vpn) (vpnAt 1 vpn) pteValid := by
  rw [ptmapLevel0, h.store_leaf htr hi ht hu, ok_bind]
  rfl

theorem Tree.ptmap_of_levels (h : Tree s) (hi : KernelPath [vpnAt 2 vpn]) {s' : Tables}
    (hl : Paging.physicalLevels s vpn = .ok (t, u, s')) (hlevels : Levels s vpn t u s') (pfn : Nat)
    (flags : UInt64) :
    ptmap (windows s.ptBase) s vpn pfn flags = .ok (mapped s' vpn t u (pte pfn flags)) := by
  obtain ⟨hs', ht, hu⟩ := hlevels.spec h hi
  rw [h.ptmap_eq (windows_windows s.ptBase) hi, hl, ok_bind, ← hlevels.ptBase]
  dsimp only
  rw [hs'.ptmapLevel0_eq (windows_windows s'.ptBase) hi ht hu, hs'.close_windows hi ht hu]

/-- `ptmap` through windows panics for lack of frames or maps the page. -/
theorem Tree.ptmap_windows (h : Tree s) (hi : KernelPath [vpnAt 2 vpn]) (pfn : Nat)
    (flags : UInt64) :
    (ptmap (windows s.ptBase) s vpn pfn flags = .error .panic ∧ OutOfFrames s vpn) ∨
      ∃ t u s', Levels s vpn t u s' ∧ ¬ OutOfFrames s vpn ∧
        ptmap (windows s.ptBase) s vpn pfn flags = .ok (mapped s' vpn t u (pte pfn flags)) := by
  rcases h.physicalLevels hi with ⟨hl, hout⟩ | ⟨t, u, s', hl, hlevels, hout⟩
  · rw [h.ptmap_eq (windows_windows s.ptBase) hi, hl]
    exact .inl ⟨rfl, hout⟩
  · exact .inr ⟨t, u, s', hlevels, hout, h.ptmap_of_levels hi hl hlevels pfn flags⟩

theorem Tree.mapped (h : Tree s) (hi : KernelPath [vpnAt 2 vpn])
    (ht : tableAt s [vpnAt 2 vpn] = some t) (hu : tableAt s [vpnAt 2 vpn, vpnAt 1 vpn] = some u)
    (e : UInt64) : (∀ q, KernelPath q → tableAt (mapped s vpn t u e) q = tableAt s q) ∧
      Tree (mapped s vpn t u e) := by
  have hstart := h.pfnStart
  have hult := h.below _ u (kernelPath_two hi) hu
  obtain ⟨hwalk, hleaf⟩ := h.setLeaf hi hu (vpnAt 0 vpn) e
  obtain ⟨hwalk', hflag⟩ := hleaf.reflag hi ((hwalk _ hi).trans ht)
    ((hwalk _ (kernelPath_two hi)).trans hu) (child_pte (by omega) pteValid_lt pteValid_odd)
  exact ⟨fun q hq => (hwalk' q hq).trans (hwalk q hq), hflag⟩

/-! ## `ptunmap` -/

theorem valid_of_child {e : UInt64} (h : child e = some t) : ¬ e &&& pteValid = 0 := fun hinv => by
  rw [child_of_invalid hinv] at h
  cases h

/-- `ptunmap` of a page with tables, up to its last access. -/
theorem Tree.ptunmap_eq (h : Tree s) (htr : Windows tr s.ptBase) (hi : KernelPath [vpnAt 2 vpn])
    (ht : tableAt s [vpnAt 2 vpn] = some t) (hu : tableAt s [vpnAt 2 vpn, vpnAt 1 vpn] = some u) :
    ptunmap tr s vpn = (setFlags tr
      (almostMapped s vpn t u (withFlags (s.mem u (vpnAt 0 vpn)) 0)) (vpnAt 2 vpn) (vpnAt 1 vpn)
      pteValid).map fun s' => (getPfn (s.mem u (vpnAt 0 vpn)), s') := by
  have hstart := h.pfnStart
  have htlt := h.below _ t hi ht
  have hult := h.below _ u (kernelPath_two hi) hu
  have hne : t ≠ s.ptBase := h.ne hi kernelPath_nil ht rfl (List.cons_ne_nil _ _)
  have hut : u ≠ t := h.ne (kernelPath_two hi) hi hu ht fun he => by cases he
  have hv₂ : ¬ s.mem s.ptBase (vpnAt 2 vpn) &&& pteValid = 0 :=
    valid_of_child ((tableAt_one s _).symm.trans ht)
  have hv₁ : ¬ s.mem t (vpnAt 1 vpn) &&& pteValid = 0 :=
    valid_of_child ((tableAt_snoc ht (vpnAt 1 vpn)).symm.trans hu)
  -- the first accesses are those of `ptmap` for tables that are there
  have h₂ := h.ptmapLevel2 htr hi
  rw [Paging.ptmapLevel2, load_ok (htr.directory h.recursive), ok_bind, if_neg hv₂,
    physicalLevel_eq h.pfreelist, if_neg hv₂] at h₂
  have hload : load tr (opened s s.ptBase (vpnAt 2 vpn)) (vpnAt 2 vpn) (vpnAt 1 vpn) =
      .ok (s.mem t (vpnAt 1 vpn)) := by
    rw [opened, h.entry_eq hi ht, withFlags_pte (by omega) pteValid_lt pteTable_lt, load_ok (f := t)]
    · exact congrArg Except.ok (Radix.set_of_ne fun he => absurd he hne)
    · exact htr.table (h.recursive.set fun _ => hi.ne) (by omega) (Radix.set_self ..)
  have h₁ : Paging.ptmapLevel1 tr (opened s s.ptBase (vpnAt 2 vpn)) (vpnAt 2 vpn) (vpnAt 1 vpn) =
      (Paging.physicalLevel s t (vpnAt 1 vpn)).map fun r => opened r.2 t (vpnAt 1 vpn) :=
    h.ptmapLevel1 htr hi ht
  rw [Paging.ptmapLevel1, hload, ok_bind, if_neg hv₁, physicalLevel_eq h.pfreelist, if_neg hv₁] at h₁
  obtain ⟨s₁, hs₁, hs₂⟩ := bind_ok h₁
  have hleaf : load tr (opened s t (vpnAt 1 vpn)) (vpnAt 2 vpn * 512 + vpnAt 1 vpn) (vpnAt 0 vpn) =
      .ok (s.mem u (vpnAt 0 vpn)) := by
    rw [opened, withFlags_entry₁ ht hu pteTable_lt, load_ok (f := u)]
    · exact congrArg Except.ok (Radix.set_of_ne fun he => absurd he hut)
    · refine htr.leaf (h.recursive.set fun he => absurd he hne) (t := t) (by omega) (by omega) ?_
        (Radix.set_self ..)
      dsimp only
      rw [Radix.set_of_ne fun he => absurd he.symm hne, h.entry_eq hi ht]
  rw [ptunmap, load_ok (htr.directory h.recursive), ok_bind, if_neg hv₂, h₂]
  dsimp only [Except.map]
  rw [ok_bind, hload, ok_bind, if_neg hv₁, hs₁, ok_bind, hs₂, ok_bind, hleaf, ok_bind]
  dsimp only
  rw [show setFlags tr (opened s t (vpnAt 1 vpn)) (vpnAt 2 vpn * 512 + vpnAt 1 vpn) (vpnAt 0 vpn) 0 =
      .ok (almostMapped s vpn t u (withFlags (s.mem u (vpnAt 0 vpn)) 0)) by
    rw [setFlags, hleaf, ok_bind, h.store_leaf htr hi ht hu]
    rfl, ok_bind]
  cases setFlags tr _ (vpnAt 2 vpn) (vpnAt 1 vpn) pteValid with
  | error e => rfl
  | ok s' => rfl

/-- `ptunmap` through windows. -/
theorem Tree.ptunmap_windows (h : Tree s) (hi : KernelPath [vpnAt 2 vpn])
    (ht : tableAt s [vpnAt 2 vpn] = some t) (hu : tableAt s [vpnAt 2 vpn, vpnAt 1 vpn] = some u) :
    ptunmap (windows s.ptBase) s vpn = .ok (getPfn (s.mem u (vpnAt 0 vpn)),
      Paging.mapped s vpn t u (withFlags (s.mem u (vpnAt 0 vpn)) 0)) := by
  rw [h.ptunmap_eq (windows_windows s.ptBase) hi ht hu, h.close_windows hi ht hu]
  rfl

end Tree

end Paging
