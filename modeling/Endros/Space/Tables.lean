import Endros.Space.Ledger
import Mathlib.Data.List.Infix

/-!
# User page tables

A user address space is two radix trees with the same paths.  The hardware
walks the tables from the root frame.  The kernel walks the references from
`ptref_base`: an entry has the kernel page of the table and the array of the
references below.  At the last level the tables have the entries of the pages,
and the arrays have the kernel pages that map them.

`uptmap` adds the tables that are missing on the way to a page, in both trees.
`UserTree` says that they agree, and that no two paths share a table.
-/

namespace Space

open Lib Paging

variable {ω : Type} {A : Allocator ω}

/-! ## The routines -/

/-- One level of `uptmap`: the entry `i` of the table at the kernel page `ptable`
has a table below, and so has the array `ptref`. -/
def uptLevel (A : Allocator ω) (s : Memory ω) (ptable ptref pages : Nat) (i : Fin 512) :
    Option (Memory ω) :=
  if (s.refs ptref i).ptable = 0 then do
    let (temp, s) ← s.dmalloc A true
    let (nextPtref, s) ← s.kalloc A pages
    some ((s.store A ptable i (pte temp.pfn pteValid)).setRef ptref i ⟨temp.vpn, nextPtref⟩)
  else some s

/-- `uptmap`.  A `PTReference_1` array has two pages, a `vpn_t` array has one. -/
def uptmap (A : Allocator ω) (s : Memory ω) (uptbase ptrefBase kernelVpn userVpn pfn : Nat)
    (flags : UInt64) : Option (Memory ω) := do
  let s ← uptLevel A s uptbase ptrefBase 2 (vpnAt 2 userVpn)
  let ptref2 := s.refs ptrefBase (vpnAt 2 userVpn)
  let s ← uptLevel A s ptref2.ptable ptref2.ptRef 1 (vpnAt 1 userVpn)
  let ptref1 := s.refs ptref2.ptRef (vpnAt 1 userVpn)
  some ((s.store A ptref1.ptable (vpnAt 0 userVpn) (pte pfn flags)).setLeaf ptref1.ptRef
    (vpnAt 0 userVpn) kernelVpn)

/-- `walkupt`. -/
def walkupt (s : Memory ω) (ptrefBase userVpn : Nat) : Nat :=
  let ptref2 := s.refs ptrefBase (vpnAt 2 userVpn)
  if ptref2.ptable = 0 then 0
  else
    let ptref1 := s.refs ptref2.ptRef (vpnAt 1 userVpn)
    if ptref1.ptable = 0 then 0 else s.leaves ptref1.ptRef (vpnAt 0 userVpn)

/-! ## Paths -/

/-- `ptbase_pfn`, `ptbase_vpn` and `ptref_base` of a process. -/
structure Root where
  page : Page
  ref : Nat
deriving DecidableEq, Repr

/-- The array below an entry. -/
def refChild (r : PTReference) : Option Nat := if r.ptable = 0 then none else some r.ptRef

/-- The frame of the table at a path. -/
def tableOf (s : Memory ω) (r : Root) (p : List (Fin 512)) : Option Nat :=
  Radix.walk child s.mem r.page.pfn p

/-- The array at a path. -/
def refOf (s : Memory ω) (r : Root) (p : List (Fin 512)) : Option Nat :=
  Radix.walk refChild s.refs r.ref p

/-- The paths of tables. -/
def Short (p : List (Fin 512)) : Prop := p.length ≤ 2

theorem short_prefixes : Radix.Prefixes Short := fun p q h => by
  have h' : (p ++ q).length ≤ 2 := h
  rw [List.length_append] at h'
  exact Nat.le_trans (Nat.le_add_right _ _) h'

/-- The pages of the array at a path. -/
def refPages (p : List (Fin 512)) : Nat := if p.length = 2 then 1 else 2

/-- An entry of a table and the reference beside it.  The array below has `n` pages. -/
inductive Linked (s : Memory ω) (F : Footprint) (n b f : Nat) (i : Fin 512) : Prop where
  | empty : (s.refs b i).ptable = 0 → s.mem f i = 0 → Linked s F n b f i
  | table (q : Page) : q ∈ F.pages → (s.refs b i).ptable = q.vpn → s.mem f i = pte q.pfn pteValid →
      ((s.refs b i).ptRef, n) ∈ F.refs → Linked s F n b f i

/-- The two trees agree, and their tables are in the footprint. -/
structure UserTree (s : Memory ω) (r : Root) (F : Footprint) : Prop where
  good : ∀ q ∈ F.pages, q.vpn ≠ 0 ∧ q.pfn < 2 ^ 54
  page : r.page ∈ F.pages
  ref : (r.ref, 2) ∈ F.refs
  linked : ∀ p i b f, p.length ≤ 1 → refOf s r p = some b → tableOf s r p = some f →
    Linked s F (refPages (p ++ [i])) b f i
  tables : Radix.Separated child s.mem r.page.pfn Short
  refs : Radix.Separated refChild s.refs r.ref Short

/-- The path leads to the page of a table and to an array. -/
structure At (s : Memory ω) (r : Root) (F : Footprint) (p : List (Fin 512)) (q : Page) (b : Nat) :
    Prop where
  page : q ∈ F.pages
  ref : (b, refPages p) ∈ F.refs
  tableOf : tableOf s r p = some q.pfn
  refOf : refOf s r p = some b

section Walks

variable {s s' : Memory ω} {r : Root} {F : Footprint} {p q : List (Fin 512)} {i : Fin 512} {b f n : Nat}

theorem refOf_snoc (hp : refOf s r p = some b) (i : Fin 512) :
    refOf s r (p ++ [i]) = refChild (s.refs b i) := by
  have hp' : Radix.walk refChild s.refs r.ref p = some b := hp
  rw [refOf, Radix.walk_snoc, hp']
  rfl

theorem tableOf_snoc (hp : tableOf s r p = some f) (i : Fin 512) :
    tableOf s r (p ++ [i]) = child (s.mem f i) := by
  have hp' : Radix.walk child s.mem r.page.pfn p = some f := hp
  rw [tableOf, Radix.walk_snoc, hp']
  rfl

theorem UserTree.at_nil (h : UserTree s r F) : At s r F [] r.page r.ref :=
  ⟨h.page, h.ref, rfl, rfl⟩

/-- A path leads to a table in both trees or in none. -/
theorem UserTree.at_or (h : UserTree s r F) (hp : Short p) :
    (∃ q b, At s r F p q b) ∨ tableOf s r p = none ∧ refOf s r p = none := by
  induction p using List.reverseRecOn with
  | nil => exact .inl ⟨r.page, r.ref, h.at_nil⟩
  | append_singleton p i ih =>
      have hlen : p.length ≤ 1 := by
        have : (p ++ [i]).length ≤ 2 := hp
        rw [List.length_append, List.length_singleton] at this
        omega
      rcases ih (short_prefixes p [i] hp) with ⟨q, b, hat⟩ | ⟨ht, hr⟩
      · cases h.linked p i b q.pfn hlen hat.refOf hat.tableOf with
        | empty hptable hentry =>
            refine .inr ⟨?_, ?_⟩
            · rw [tableOf_snoc hat.tableOf, hentry, child_zero]
            · rw [refOf_snoc hat.refOf, refChild, if_pos hptable]
        | table q' hq' hptable hentry href =>
            have hgood := h.good q' hq'
            refine .inl ⟨q', (s.refs b i).ptRef, hq', href, ?_, ?_⟩
            · rw [tableOf_snoc hat.tableOf, hentry, child_pte hgood.2 pteValid_lt pteValid_odd]
            · rw [refOf_snoc hat.refOf, refChild, if_neg (hptable ▸ hgood.1)]
      · refine .inr ⟨?_, ?_⟩
        · have ht' : Radix.walk child s.mem r.page.pfn p = none := ht
          rw [tableOf, Radix.walk_snoc, ht']
          rfl
        · have hr' : Radix.walk refChild s.refs r.ref p = none := hr
          rw [refOf, Radix.walk_snoc, hr']
          rfl

theorem UserTree.at_of_table (h : UserTree s r F) (hp : Short p) (hf : tableOf s r p = some f) :
    ∃ q b, At s r F p q b ∧ q.pfn = f := by
  rcases h.at_or hp with ⟨q, b, hat⟩ | ⟨ht, -⟩
  · exact ⟨q, b, hat, Option.some.inj (hat.tableOf.symm.trans hf)⟩
  · rw [ht] at hf
    cases hf

theorem UserTree.at_of_ref (h : UserTree s r F) (hp : Short p) (hb : refOf s r p = some b) :
    ∃ q, At s r F p q b := by
  rcases h.at_or hp with ⟨q, b', hat⟩ | ⟨-, hr⟩
  · exact ⟨q, Option.some.inj (hat.refOf.symm.trans hb) ▸ hat⟩
  · rw [hr] at hb
    cases hb

/-- Memory with the same tables has the same walks. -/
theorem UserTree.walks_eq (h : UserTree s r F)
    (hmem : ∀ p q b, Short p → At s r F p q b → s'.mem q.pfn = s.mem q.pfn ∧ s'.refs b = s.refs b)
    (hp : Short p) : tableOf s' r p = tableOf s r p ∧ refOf s' r p = refOf s r p := by
  constructor
  · refine Radix.walk_congr short_prefixes (fun q i f hq hf => ?_) hp
    obtain ⟨page, b, hat, rfl⟩ := h.at_of_table (short_prefixes q [i] hq) hf
    rw [(hmem q page b (short_prefixes q [i] hq) hat).1]
  · refine Radix.walk_congr short_prefixes (fun q i b hq hb => ?_) hp
    obtain ⟨page, hat⟩ := h.at_of_ref (short_prefixes q [i] hq) hb
    rw [(hmem q page b (short_prefixes q [i] hq) hat).2]

theorem UserTree.of_tables (h : UserTree s r F)
    (hmem : ∀ p q b, Short p → At s r F p q b → s'.mem q.pfn = s.mem q.pfn ∧ s'.refs b = s.refs b) :
    UserTree s' r F where
  good := h.good
  page := h.page
  ref := h.ref
  linked p i b f hp hb hf := by
    have hshort : Short p := Nat.le_succ_of_le hp
    rw [(h.walks_eq hmem hshort).1] at hf
    rw [(h.walks_eq hmem hshort).2] at hb
    obtain ⟨page, b', hat, rfl⟩ := h.at_of_table hshort hf
    have hb' : b' = b := Option.some.inj (hat.refOf.symm.trans hb)
    subst hb'
    obtain ⟨hpage, href⟩ := hmem p page b' hshort hat
    cases h.linked p i b' page.pfn hp hb hf with
    | empty hptable hentry => exact .empty (by rw [href, hptable]) (by rw [hpage, hentry])
    | table q hq hptable hentry hr =>
        exact .table q hq (by rw [href, hptable]) (by rw [hpage, hentry]) (by rw [href]; exact hr)
  tables := h.tables.congr fun _ hq => (h.walks_eq hmem hq).1
  refs := h.refs.congr fun _ hq => (h.walks_eq hmem hq).2

theorem Same.tables (hs : Same s s' F) (p : List (Fin 512)) (q : Page) (b : Nat) (_ : Short p)
    (hat : At s r F p q b) : s'.mem q.pfn = s.mem q.pfn ∧ s'.refs b = s.refs b :=
  ⟨hs.mem q hat.page, hs.refs _ hat.ref⟩

/-- Memory with the same contents of the footprint has the same walks. -/
theorem UserTree.walks_congr (h : UserTree s r F) (hs : Same s s' F) (hp : Short p) :
    tableOf s' r p = tableOf s r p ∧ refOf s' r p = refOf s r p :=
  h.walks_eq hs.tables hp

theorem UserTree.congr (h : UserTree s r F) (hs : Same s s' F) : UserTree s' r F :=
  h.of_tables hs.tables

theorem At.congr {q : Page} (hat : At s r F p q b) (h : UserTree s r F) (hs : Same s s' F)
    (hp : Short p) : At s' r F p q b where
  page := hat.page
  ref := hat.ref
  tableOf := (h.walks_congr hs hp).1.trans hat.tableOf
  refOf := (h.walks_congr hs hp).2.trans hat.refOf

end Walks

/-! ## A new table -/

/-- A table and an array below an entry. -/
def Memory.link (s : Memory ω) (f b : Nat) (i : Fin 512) (t : Page) (c : Nat) : Memory ω :=
  { s with
    mem := Radix.set s.mem f i (pte t.pfn pteValid)
    refs := Radix.set s.refs b i ⟨t.vpn, c⟩ }

section Link

variable {s : Memory ω} {r : Root} {F : Footprint} {p p' : List (Fin 512)} {i : Fin 512} {q t : Page}
  {b c : Nat}

/-- What makes a page and a region new and empty. -/
structure Blank (s : Memory ω) (F : Footprint) (t : Page) (c : Nat) : Prop where
  good : t.vpn ≠ 0 ∧ t.pfn < 2 ^ 54
  page : ∀ q ∈ F.pages, q.pfn ≠ t.pfn
  ref : ∀ a ∈ F.refs, a.1 ≠ c
  mem : ∀ j, s.mem t.pfn j = 0
  refs : ∀ j, s.refs c j = ⟨0, 0⟩
  leaves : ∀ j, s.leaves c j = 0

theorem snoc_short (hp : p.length ≤ 1) (i : Fin 512) : Short (p ++ [i]) := by
  show (p ++ [i]).length ≤ 2
  rw [List.length_append, List.length_singleton]
  exact Nat.succ_le_succ hp

variable (h : UserTree s r F) (hat : At s r F p q b) (hp : p.length ≤ 1)
  (hempty : (s.refs b i).ptable = 0)
include h hat hp hempty

theorem UserTree.entry_empty : s.mem q.pfn i = 0 := by
  cases h.linked p i b q.pfn hp hat.refOf hat.tableOf with
  | empty _ hentry => exact hentry
  | table q' hq' hptable _ _ => exact absurd (hptable.symm.trans hempty) (h.good q' hq').1

variable (hblank : Blank s F t c)
include hblank

theorem UserTree.tableOf_link (hp' : Short p') :
    tableOf (s.link q.pfn b i t c) r p' = if p' = p ++ [i] then some t.pfn else tableOf s r p' := by
  have hchild : child (s.mem q.pfn i) = none := by
    rw [h.entry_empty hat hp hempty, child_zero]
  exact Radix.walk_link short_prefixes h.tables (Nat.le_succ_of_le hp) hat.tableOf hchild
    (child_pte hblank.good.2 pteValid_lt pteValid_odd)
    (fun j _ _ => by rw [hblank.mem j, child_zero]) (hblank.page q hat.page).symm hp'

theorem UserTree.refOf_link (hp' : Short p') :
    refOf (s.link q.pfn b i t c) r p' = if p' = p ++ [i] then some c else refOf s r p' := by
  have hchild : refChild (s.refs b i) = none := if_pos hempty
  exact Radix.walk_link short_prefixes h.refs (Nat.le_succ_of_le hp) hat.refOf hchild
    (if_neg hblank.good.1) (fun j _ _ => by rw [hblank.refs j]; rfl)
    (hblank.ref _ hat.ref).symm hp'

/-- The two trees with the new table. -/
theorem UserTree.link :
    UserTree (s.link q.pfn b i t c) r ((F.addPage t).addRef c (refPages (p ++ [i]))) := by
  have hshort : Short p := Nat.le_succ_of_le hp
  have hqt : t.pfn ≠ q.pfn := (hblank.page q hat.page).symm
  have hbc : c ≠ b := (hblank.ref _ hat.ref).symm
  refine ⟨?_, .inr h.page, .inr h.ref, ?_, ?_, ?_⟩
  · rintro q' (rfl | hq')
    · exact hblank.good
    · exact h.good q' hq'
  · intro p' j b' f' hp' hb' hf'
    have hshort' : Short p' := Nat.le_succ_of_le hp'
    rw [h.refOf_link hat hp hempty hblank hshort'] at hb'
    rw [h.tableOf_link hat hp hempty hblank hshort'] at hf'
    split at hb'
    · -- the new table is empty
      rename_i he
      rw [if_pos he] at hf'
      cases hb'
      cases hf'
      refine .empty ?_ ?_
      · show (Radix.set s.refs b i _ c j).ptable = 0
        rw [Radix.set_of_ne fun he => absurd he hbc, hblank.refs]
      · show Radix.set s.mem q.pfn i _ t.pfn j = 0
        rw [Radix.set_of_ne fun he => absurd he hqt, hblank.mem]
    · rename_i hne
      rw [if_neg hne] at hf'
      by_cases hij : p' = p ∧ j = i
      · -- the entry that was written
        obtain ⟨rfl, rfl⟩ := hij
        have hb := Option.some.inj (hat.refOf.symm.trans hb')
        have hf := Option.some.inj (hat.tableOf.symm.trans hf')
        subst hb
        subst hf
        refine .table t (.inl rfl) ?_ ?_ ?_
        · show (Radix.set s.refs b j _ b j).ptable = t.vpn
          rw [Radix.set_self]
        · show Radix.set s.mem q.pfn j _ q.pfn j = _
          rw [Radix.set_self]
        · show ((Radix.set s.refs b j _ b j).ptRef, _) ∈ _
          rw [Radix.set_self]
          exact .inl rfl
      · have href : (s.link q.pfn b i t c).refs b' j = s.refs b' j :=
          Radix.set_of_ne fun he hj => hij ⟨h.refs p' p b' hshort' hshort hb' (he ▸ hat.refOf), hj⟩
        have hmem : (s.link q.pfn b i t c).mem f' j = s.mem f' j :=
          Radix.set_of_ne fun he hj =>
            hij ⟨h.tables p' p f' hshort' hshort hf' (he ▸ hat.tableOf), hj⟩
        cases h.linked p' j b' f' hp' hb' hf' with
        | empty hptable hentry => exact .empty (by rw [href, hptable]) (hmem.trans hentry)
        | table q' hq' hptable hentry hr =>
            refine .table q' (.inr hq') (by rw [href, hptable]) (hmem.trans hentry) (.inr ?_)
            rw [href]
            exact hr
  · have hchild : child (s.mem q.pfn i) = none := by
      rw [h.entry_empty hat hp hempty, child_zero]
    refine h.tables.link short_prefixes hshort hat.tableOf hchild
      (child_pte hblank.good.2 pteValid_lt pteValid_odd)
      (fun j _ _ => by rw [hblank.mem j, child_zero]) fun p' hp' hf' => ?_
    obtain ⟨q', b', hat', he⟩ := h.at_of_table hp' hf'
    exact hblank.page q' hat'.page he
  · have hchild : refChild (s.refs b i) = none := if_pos hempty
    refine h.refs.link short_prefixes hshort hat.refOf hchild (if_neg hblank.good.1)
      (fun j _ _ => by rw [hblank.refs j]; rfl) fun p' hp' hb' => ?_
    obtain ⟨q', hat'⟩ := h.at_of_ref hp' hb'
    exact hblank.ref _ hat'.ref rfl

/-- The tables that were there still are. -/
theorem UserTree.at_link {q' : Page} {b' : Nat} (hat' : At s r F p' q' b') (hp' : Short p') :
    At (s.link q.pfn b i t c) r ((F.addPage t).addRef c (refPages (p ++ [i]))) p' q' b' := by
  have hne : p' ≠ p ++ [i] := fun he => by
    have hnone := tableOf_snoc hat.tableOf i
    rw [h.entry_empty hat hp hempty, child_zero, ← he, hat'.tableOf] at hnone
    cases hnone
  refine ⟨.inr hat'.page, .inr hat'.ref, ?_, ?_⟩
  · rw [h.tableOf_link hat hp hempty hblank hp', if_neg hne, hat'.tableOf]
  · rw [h.refOf_link hat hp hempty hblank hp', if_neg hne, hat'.refOf]

theorem UserTree.at_link_self :
    At (s.link q.pfn b i t c) r ((F.addPage t).addRef c (refPages (p ++ [i]))) (p ++ [i]) t c where
  page := .inl rfl
  ref := .inl rfl
  tableOf := by rw [h.tableOf_link hat hp hempty hblank (snoc_short hp i), if_pos rfl]
  refOf := by rw [h.refOf_link hat hp hempty hblank (snoc_short hp i), if_pos rfl]

end Link

/-! ## The entries of pages -/

/-- The entry `k` of the table at the path and the kernel page beside it.  Both are
zero when there is no table. -/
def entry (s : Memory ω) (r : Root) (p : List (Fin 512)) (k : Fin 512) : UInt64 × Nat :=
  match tableOf s r p, refOf s r p with
  | some f, some b => (s.mem f k, s.leaves b k)
  | _, _ => (0, 0)

/-- An entry of a page and the kernel page beside it. -/
def Memory.putLeaf (s : Memory ω) (f b : Nat) (k : Fin 512) (x : UInt64) (v : Nat) : Memory ω :=
  { s with mem := Radix.set s.mem f k x, leaves := Radix.set s.leaves b k v }

section Entry

variable {s s' : Memory ω} {r : Root} {F : Footprint} {p p' : List (Fin 512)} {i k k' : Fin 512}
  {q t : Page} {b c : Nat} {x : UInt64} {v : Nat}

theorem At.entry_eq (hat : At s r F p q b) (k : Fin 512) :
    entry s r p k = (s.mem q.pfn k, s.leaves b k) := by
  rw [entry, hat.tableOf, hat.refOf]

theorem UserTree.entry_congr (h : UserTree s r F) (hs : Same s s' F) (hp : Short p) (k : Fin 512) :
    entry s' r p k = entry s r p k := by
  rcases h.at_or hp with ⟨q, b, hat⟩ | ⟨ht, hr⟩
  · rw [hat.entry_eq, (hat.congr h hs hp).entry_eq, hs.mem q hat.page, hs.leaves _ hat.ref]
  · rw [entry, entry, (h.walks_congr hs hp).1, (h.walks_congr hs hp).2, ht, hr]

theorem UserTree.entry_link (h : UserTree s r F) (hat : At s r F p q b) (hp : p.length ≤ 1)
    (hempty : (s.refs b i).ptable = 0) (hblank : Blank s F t c) (hp' : p'.length = 2) (k : Fin 512) :
    entry (s.link q.pfn b i t c) r p' k = entry s r p' k := by
  have hshort : Short p' := Nat.le_of_eq hp'
  have hqt : t.pfn ≠ q.pfn := (hblank.page q hat.page).symm
  rw [entry, entry, h.tableOf_link hat hp hempty hblank hshort,
    h.refOf_link hat hp hempty hblank hshort]
  by_cases he : p' = p ++ [i]
  · -- the table was not there, and the new one is empty
    rw [if_pos he, if_pos he, he, tableOf_snoc hat.tableOf, h.entry_empty hat hp hempty, child_zero]
    show (Radix.set s.mem q.pfn i _ t.pfn k, s.leaves c k) = (0, 0)
    rw [Radix.set_of_ne fun he => absurd he hqt, hblank.mem, hblank.leaves]
  · rw [if_neg he, if_neg he]
    rcases h.at_or hshort with ⟨q', b', hat'⟩ | ⟨ht, hr⟩
    · rw [hat'.tableOf, hat'.refOf]
      show (Radix.set s.mem q.pfn i _ q'.pfn k, s.leaves b' k) = _
      rw [Radix.set_of_ne fun hf => ?_]
      -- tables on paths of different lengths are different
      have hpp := h.tables p' p q'.pfn hshort (Nat.le_succ_of_le hp) hat'.tableOf (hf ▸ hat.tableOf)
      rw [hpp] at hp'
      omega
    · rw [ht, hr]

section PutLeaf

variable (h : UserTree s r F) (hat : At s r F p q b) (hp : p.length = 2)
include h hat hp

theorem UserTree.tableOf_putLeaf (hp' : Short p') :
    tableOf (s.putLeaf q.pfn b k x v) r p' = tableOf s r p' :=
  Radix.walk_set_of_not_prefix short_prefixes h.tables (Nat.le_of_eq hp) hat.tableOf hp' fun hpre => by
    have hlen := hpre.length_le
    have hp'' : p'.length ≤ 2 := hp'
    rw [List.length_append, List.length_singleton] at hlen
    omega

theorem UserTree.putLeaf : UserTree (s.putLeaf q.pfn b k x v) r F where
  good := h.good
  page := h.page
  ref := h.ref
  linked p' j b' f' hp' hb' hf' := by
    rw [h.tableOf_putLeaf hat hp (Nat.le_succ_of_le hp')] at hf'
    have hmem : (s.putLeaf q.pfn b k x v).mem f' j = s.mem f' j := Radix.set_of_ne fun he => by
      have hpp := h.tables p' p f' (Nat.le_succ_of_le hp') (Nat.le_of_eq hp) hf' (he ▸ hat.tableOf)
      rw [hpp] at hp'
      omega
    cases h.linked p' j b' f' hp' hb' hf' with
    | empty hptable hentry => exact .empty hptable (hmem.trans hentry)
    | table q' hq' hptable hentry hr => exact .table q' hq' hptable (hmem.trans hentry) hr
  tables := h.tables.congr fun _ hq => h.tableOf_putLeaf hat hp hq
  refs := h.refs

theorem UserTree.at_putLeaf (hat' : At s r F p' t c) (hp' : Short p') :
    At (s.putLeaf q.pfn b k x v) r F p' t c :=
  ⟨hat'.page, hat'.ref, (h.tableOf_putLeaf hat hp hp').trans hat'.tableOf, hat'.refOf⟩

theorem UserTree.entry_putLeaf (hp' : p'.length = 2) (k' : Fin 512) :
    entry (s.putLeaf q.pfn b k x v) r p' k' =
      if p' = p ∧ k' = k then (x, v) else entry s r p' k' := by
  have hshort' : Short p' := Nat.le_of_eq hp'
  rcases h.at_or hshort' with ⟨q', b', hat'⟩ | ⟨ht, hr⟩
  · rw [(h.at_putLeaf hat hp hat' hshort').entry_eq, hat'.entry_eq]
    show (Radix.set s.mem q.pfn k x q'.pfn k', Radix.set s.leaves b k v b' k') = _
    split
    · rename_i he
      obtain ⟨rfl, rfl⟩ := he
      rw [Option.some.inj (hat'.tableOf.symm.trans hat.tableOf),
        Option.some.inj (hat'.refOf.symm.trans hat.refOf), Radix.set_self, Radix.set_self]
    · rename_i hne
      have hmem : Radix.set s.mem q.pfn k x q'.pfn k' = s.mem q'.pfn k' :=
        Radix.set_of_ne fun he hk => hne ⟨h.tables p' p q'.pfn hshort' (Nat.le_of_eq hp) hat'.tableOf
          (he ▸ hat.tableOf), hk⟩
      have hleaf : Radix.set s.leaves b k v b' k' = s.leaves b' k' :=
        Radix.set_of_ne fun he hk => hne ⟨h.refs p' p b' hshort' (Nat.le_of_eq hp) hat'.refOf
          (he ▸ hat.refOf), hk⟩
      rw [hmem, hleaf]
  · have hne : ¬ (p' = p ∧ k' = k) := fun he => by
      rw [he.1, hat.tableOf] at ht
      cases ht
    have hr' : refOf (s.putLeaf q.pfn b k x v) r p' = none := hr
    rw [if_neg hne, entry, entry, h.tableOf_putLeaf hat hp hshort', ht, hr, hr']

end PutLeaf

end Entry

/-! ## `uptmap` -/

/-- The pages and regions of `F` are in `F'`. -/
structure Footprint.Le (F F' : Footprint) : Prop where
  pages : F.pages ⊆ F'.pages
  refs : F.refs ⊆ F'.refs

/-- The footprint has nothing but tables of the trees. -/
structure Reached (s : Memory ω) (r : Root) (F : Footprint) : Prop where
  pages : ∀ q ∈ F.pages, ∃ p b, Short p ∧ At s r F p q b
  refs : ∀ a ∈ F.refs, ∃ p q b, Short p ∧ At s r F p q b ∧ (b, refPages p) = a

/-- Tables were added to the trees.  The entries of pages, and the rest of the memory,
are as before. -/
structure Grown (V : Lawful A) (R : Footprint) (r : Root) (s : Memory ω) (F : Footprint)
    (s' : Memory ω) (F' : Footprint) : Prop where
  own : Own V s'.heap F' R
  tree : UserTree s' r F'
  rest : Same s s' R
  le : F.Le F'
  stay : ∀ p q b, Short p → At s r F p q b → At s' r F' p q b
  fresh : ∀ p q b, Short p → At s' r F' p q b → At s r F p q b ∨ q ∉ F.pages
  entry : ∀ p k, p.length = 2 → entry s' r p k = entry s r p k
  takes : Takes A s.heap F s'.heap F'
  tables : Reached s r F → Reached s' r F'

section Uptmap

variable {V : Lawful A} {s s' s'' : Memory ω} {r : Root} {F F' F'' R : Footprint} {p : List (Fin 512)}
  {i : Fin 512} {q : Page} {b : Nat}

theorem Reached.stay (h : Reached s r F) (hstay : ∀ p q b, Short p → At s r F p q b → At s' r F p q b) :
    Reached s' r F where
  pages q hq := by
    obtain ⟨p, b, hp, hat⟩ := h.pages q hq
    exact ⟨p, b, hp, hstay p q b hp hat⟩
  refs a ha := by
    obtain ⟨p, q, b, hp, hat, he⟩ := h.refs a ha
    exact ⟨p, q, b, hp, hstay p q b hp hat, he⟩

theorem Reached.congr (h : Reached s r F) (ht : UserTree s r F) (hs : Same s s' F) :
    Reached s' r F :=
  h.stay fun _ _ _ hp hat => hat.congr ht hs hp

theorem Grown.refl (ho : Own V s.heap F R) (ht : UserTree s r F) : Grown V R r s F s F :=
  ⟨ho, ht, .refl s R, ⟨subset_rfl, subset_rfl⟩, fun _ _ _ _ => id, fun _ _ _ _ => .inl,
    fun _ _ _ => rfl, .refl, id⟩

theorem Grown.trans (h₁ : Grown V R r s F s' F') (h₂ : Grown V R r s' F' s'' F'') :
    Grown V R r s F s'' F'' where
  own := h₂.own
  tree := h₂.tree
  rest := h₁.rest.trans h₂.rest
  le := ⟨h₁.le.pages.trans h₂.le.pages, h₁.le.refs.trans h₂.le.refs⟩
  stay p q b hp hat := h₂.stay p q b hp (h₁.stay p q b hp hat)
  fresh p q b hp hat := by
    rcases h₂.fresh p q b hp hat with hat' | hnew
    · exact h₁.fresh p q b hp hat'
    · exact .inr fun hq => hnew (h₁.le.pages hq)
  entry p k hp := (h₂.entry p k hp).trans (h₁.entry p k hp)
  takes := h₁.takes.trans h₂.takes
  tables h := h₂.tables (h₁.tables h)

theorem Grown.link {t : Page} {c : Nat} {s₁ s₂ : Memory ω} (ho : Own V s.heap F R) (ht : UserTree s r F)
    (hat : At s r F p q b) (hp : p.length ≤ 1) (hempty : (s.refs b i).ptable = 0)
    (hd : s.dmalloc A true = some (t, s₁)) (hk : s₁.kalloc A (refPages (p ++ [i])) = some (c, s₂)) :
    ∃ F', Grown V R r s F ((s₂.store A q.vpn i (pte t.pfn pteValid)).setRef b i ⟨t.vpn, c⟩) F' ∧
      At ((s₂.store A q.vpn i (pte t.pfn pteValid)).setRef b i ⟨t.vpn, c⟩) r F' (p ++ [i]) t c ∧
      ∀ p', Short p' → p' ≠ p ++ [i] →
        refOf ((s₂.store A q.vpn i (pte t.pfn pteValid)).setRef b i ⟨t.vpn, c⟩) r p' = refOf s r p' := by
  have hpages : 1 ≤ refPages (p ++ [i]) := by
    unfold refPages
    split <;> decide
  have hshort : Short p := Nat.le_succ_of_le hp
  obtain ⟨ho₁, hF₁, hR₁, hnew, hzero⟩ := ho.dmalloc hd
  obtain ⟨ho₂, hF₂, hR₂, hnew₂, hmem₂, hrefs₂, hleaves₂⟩ := ho₁.kalloc hpages hk
  have hF : Same s s₂ F := hF₁.trans
    ⟨fun x hx => hF₂.mem x (.inr hx), hF₂.refs, hF₂.leaves⟩
  have ht₂ := ht.congr hF
  have hat₂ := hat.congr ht hF hshort
  have hblank : Blank s₂ F t c :=
    { good := ho₁.good (.inl rfl)
      page := fun x hx he => hnew (ho₁.inj (.inl rfl) (.inr hx) he.symm ▸ hx)
      ref := hnew₂
      mem := fun j => by rw [hmem₂, hzero rfl]
      refs := hrefs₂
      leaves := hleaves₂ }
  have hempty₂ : (s₂.refs b i).ptable = 0 := by rw [hF.refs _ hat.ref, hempty]
  have heq : (s₂.store A q.vpn i (pte t.pfn pteValid)).setRef b i ⟨t.vpn, c⟩ =
      s₂.link q.pfn b i t c := by
    rw [ho₂.store_eq (.inr hat.page)]
    rfl
  have hsame : Same s₂ ((s₂.store A q.vpn i (pte t.pfn pteValid)).setRef b i ⟨t.vpn, c⟩) R :=
    (ho₂.same_store (.inr hat.page) _ _).trans (ho₂.same_setRef (.inr hat.ref) _ _)
  have hstay : ∀ p' q' b', Short p' → At s r F p' q' b' → At (s₂.link q.pfn b i t c) r
      ((F.addPage t).addRef c (refPages (p ++ [i]))) p' q' b' := fun p' q' b' hp' hat' =>
    ht₂.at_link hat₂ hp hempty₂ hblank (hat'.congr ht hF hp') hp'
  have hself := ht₂.at_link_self hat₂ hp hempty₂ hblank
  refine ⟨_, ⟨ho₂, ?_, hR₁.trans (hR₂.trans hsame), ⟨fun _ => .inr, fun _ => .inr⟩,
    fun p' q' b' hp' hat' => ?_, fun p' q' b' hp' hat' => ?_, fun p' k hp' => ?_, ?_,
    fun hreached => ?_⟩, ?_, fun p' hp' hne => ?_⟩
  · rw [heq]
    exact ht₂.link hat₂ hp hempty₂ hblank
  · rw [heq]
    exact hstay p' q' b' hp' hat'
  · rw [heq] at hat'
    rcases hat'.page with rfl | hq'
    · exact .inr hnew
    · -- an old page, so the path is not the new one
      have htable := hat'.tableOf
      have href := hat'.refOf
      rw [ht₂.tableOf_link hat₂ hp hempty₂ hblank hp'] at htable
      rw [ht₂.refOf_link hat₂ hp hempty₂ hblank hp'] at href
      by_cases he : p' = p ++ [i]
      · rw [if_pos he] at htable
        exact absurd (Option.some.inj htable).symm (hblank.page q' hq')
      · rw [if_neg he, (ht.walks_congr hF hp').1] at htable
        rw [if_neg he, (ht.walks_congr hF hp').2] at href
        obtain ⟨q₀, b₀, hat₀, hpfn⟩ := ht.at_of_table hp' htable
        rw [← ho.inj hat₀.page hq' hpfn, ← Option.some.inj (hat₀.refOf.symm.trans href)]
        exact .inl hat₀
  · rw [heq, ht₂.entry_link hat₂ hp hempty₂ hblank hp', ht.entry_congr hF (Nat.le_of_eq hp')]
  · have htakes : Takes A s.heap F s₂.heap ((F.addPage t).addRef c (refPages (p ++ [i]))) :=
      (Takes.of_dmalloc hd).trans (Takes.of_kalloc hpages hk)
    exact htakes
  · rw [heq]
    constructor
    · rintro q' (rfl | hq')
      · exact ⟨p ++ [i], c, snoc_short hp i, hself⟩
      · obtain ⟨p', b', hp', hat'⟩ := hreached.pages q' hq'
        exact ⟨p', b', hp', hstay p' q' b' hp' hat'⟩
    · rintro a (rfl | ha)
      · exact ⟨p ++ [i], t, c, snoc_short hp i, hself, rfl⟩
      · obtain ⟨p', q', b', hp', hat', he⟩ := hreached.refs a ha
        exact ⟨p', q', b', hp', hstay p' q' b' hp' hat', he⟩
  · rw [heq]
    exact hself
  · rw [heq, ht₂.refOf_link hat₂ hp hempty₂ hblank hp', if_neg hne, (ht.walks_congr hF hp').2]

/-- A level of `uptmap`. -/
theorem uptLevel_grown (ho : Own V s.heap F R) (ht : UserTree s r F) (hat : At s r F p q b)
    (hp : p.length ≤ 1) (hu : uptLevel A s q.vpn b (refPages (p ++ [i])) i = some s') :
    ∃ F' t c, Grown V R r s F s' F' ∧ At s' r F' (p ++ [i]) t c ∧ s'.refs b i = ⟨t.vpn, c⟩ := by
  rw [uptLevel] at hu
  split at hu
  · rename_i hempty
    obtain ⟨⟨t, s₁⟩, hd, hu⟩ := Option.bind_eq_some_iff.1 hu
    obtain ⟨⟨c, s₂⟩, hk, hu⟩ := Option.bind_eq_some_iff.1 hu
    cases hu
    obtain ⟨F', hgrown, hat', -⟩ := Grown.link ho ht hat hp hempty hd hk
    refine ⟨F', t, c, hgrown, hat', ?_⟩
    show Radix.set _ b i _ b i = _
    rw [Radix.set_self]
  · rename_i hne
    cases hu
    cases ht.linked p i b q.pfn hp hat.refOf hat.tableOf with
    | empty hptable _ => exact absurd hptable hne
    | table t htF hptable hentry hr =>
        have hgood := ht.good t htF
        refine ⟨F, t, (s.refs b i).ptRef, .refl ho ht, ⟨htF, hr, ?_, ?_⟩, ?_⟩
        · rw [tableOf_snoc hat.tableOf, hentry, child_pte hgood.2 pteValid_lt pteValid_odd]
        · rw [refOf_snoc hat.refOf, refChild, if_neg (hptable ▸ hgood.1)]
        · rw [← hptable]

/-- The path of the table that has the entry of a page. -/
def pathOf (vpn : Nat) : List (Fin 512) := [vpnAt 2 vpn, vpnAt 1 vpn]

/-- What `uptmap` does to the trees: the page has the new entry, and tables were added
where they were missing. -/
structure Mapped (V : Lawful A) (R : Footprint) (r : Root) (s : Memory ω) (F : Footprint)
    (s' : Memory ω) (F' : Footprint) (userVpn : Nat) (x : UInt64) (v : Nat) : Prop where
  own : Own V s'.heap F' R
  tree : UserTree s' r F'
  rest : Same s s' R
  le : F.Le F'
  stay : ∀ p q b, Short p → At s r F p q b → At s' r F' p q b
  reached : ∃ q b, At s' r F' (pathOf userVpn) q b
  entry : ∀ p k, p.length = 2 → entry s' r p k =
    if p = pathOf userVpn ∧ k = vpnAt 0 userVpn then (x, v) else entry s r p k
  takes : Takes A s.heap F s'.heap F'
  tables : Reached s r F → Reached s' r F'

theorem uptmap_mapped (ho : Own V s.heap F R) (ht : UserTree s r F) {kernelVpn userVpn pfn : Nat}
    {flags : UInt64}
    (hu : uptmap A s r.page.vpn r.ref kernelVpn userVpn pfn flags = some s') :
    ∃ F', Mapped V R r s F s' F' userVpn (pte pfn flags) kernelVpn := by
  obtain ⟨s₁, hu₁, hu⟩ := Option.bind_eq_some_iff.1 hu
  obtain ⟨s₂, hu₂, hu⟩ := Option.bind_eq_some_iff.1 hu
  cases hu
  obtain ⟨F₁, t₁, c₁, hg₁, hat₁, href₁⟩ := uptLevel_grown ho ht ht.at_nil (Nat.zero_le 1) hu₁
  rw [href₁] at hu₂ ⊢
  obtain ⟨F₂, t₂, c₂, hg₂, hat₂, href₂⟩ := uptLevel_grown hg₁.own hg₁.tree hat₁ (Nat.le_refl 1) hu₂
  rw [href₂]
  dsimp only
  have hg := hg₁.trans hg₂
  have heq : (s₂.store A t₂.vpn (vpnAt 0 userVpn) (pte pfn flags)).setLeaf c₂ (vpnAt 0 userVpn)
      kernelVpn = s₂.putLeaf t₂.pfn c₂ (vpnAt 0 userVpn) (pte pfn flags) kernelVpn := by
    rw [hg.own.store_eq hat₂.page]
    rfl
  refine ⟨F₂, hg.own, ?_, hg.rest.trans ((hg.own.same_store hat₂.page _ _).trans
    (hg.own.same_setLeaf hat₂.ref _ _)), hg.le, fun p q b hp hat => ?_, ⟨t₂, c₂, ?_⟩, fun p k hp => ?_,
    hg.takes, fun hreached => (hg.tables hreached).stay fun p q b hp hat => ?_⟩
  · rw [heq]
    exact hg.tree.putLeaf hat₂ rfl
  · rw [heq]
    exact hg.tree.at_putLeaf hat₂ rfl (hg.stay p q b hp hat) hp
  · rw [heq]
    exact hg.tree.at_putLeaf hat₂ rfl hat₂ (Nat.le_refl 2)
  · rw [heq, hg.tree.entry_putLeaf hat₂ rfl hp, hg.entry p k hp]
    rfl
  · rw [heq]
    exact hg.tree.at_putLeaf hat₂ rfl hat hp

end Uptmap

end Space
