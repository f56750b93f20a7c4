import Endros.Space.Heap
import Endros.Space.Tables

/-!
# User page tables are a map

A sequence of `uptmap` calls from an empty root is a map from pages to entries
and kernel pages.  The hardware finds the entry of the last call for a page, and
`walkupt` finds its kernel page.  Pages are taken modulo `2 ^ 27`.
-/

namespace Space

open Lib Paging

variable {ω : Type} {A : Allocator ω}

/-- The Sv39 walk for a page: the level at which it ends and the entry there. -/
def sv39Entry (mem : Phys) (root vpn : Nat) : Nat × UInt64 :=
  let e₂ := mem root (vpnAt 2 vpn)
  if e₂ &&& pteValid = 0 ∨ isLeaf e₂ then (2, e₂)
  else
    let e₁ := mem (getPfn e₂) (vpnAt 1 vpn)
    if e₁ &&& pteValid = 0 ∨ isLeaf e₁ then (1, e₁) else (0, mem (getPfn e₁) (vpnAt 0 vpn))

/-- The arguments of a call of `uptmap`. -/
structure UptmapCall where
  kernelVpn : Nat
  userVpn : Nat
  pfn : Nat
  flags : UInt64

/-- A sequence of calls for one address space. -/
def uptmapAll (A : Allocator ω) (r : Root) : Memory ω → List UptmapCall → Option (Memory ω)
  | s, [] => some s
  | s, c :: cs =>
      (uptmap A s r.page.vpn r.ref c.kernelVpn c.userVpn c.pfn c.flags).bind fun s =>
        uptmapAll A r s cs

/-- The two pages are one page of the address space. -/
def SamePage (u v : Nat) : Prop := u % 2 ^ 27 = v % 2 ^ 27

instance (u v : Nat) : Decidable (SamePage u v) := inferInstanceAs (Decidable (_ = _))

/-- The last call for a page. -/
def lastCall (v : Nat) : List UptmapCall → Option UptmapCall
  | [] => none
  | c :: cs => (lastCall v cs).or (if SamePage c.userVpn v then some c else none)

/-- An allocation panics. -/
def Allocator.Panics (A : Allocator ω) : Prop :=
  (∃ w m, A.dmalloc w m true = none) ∨ ∃ w n, A.kalloc w n = none

theorem samePage_iff (u v : Nat) :
    SamePage u v ↔ pathOf u = pathOf v ∧ vpnAt 0 u = vpnAt 0 v := by
  simp only [SamePage, pathOf, vpnAt, List.cons.injEq, and_true, Fin.mk.injEq]
  omega

section Walk

variable {s : Memory ω} {r : Root} {F : Footprint} {q : Page} {b : Nat}

/-- The entries on the way to a table. -/
theorem UserTree.entry_of_at (h : UserTree s r F) {p : List (Fin 512)} {i : Fin 512} {q' : Page}
    {b' : Nat} (hp : p.length ≤ 1) (hat : At s r F p q b) (hat' : At s r F (p ++ [i]) q' b') :
    s.mem q.pfn i = pte q'.pfn pteValid ∧ (s.refs b i).ptable ≠ 0 ∧ (s.refs b i).ptRef = b' := by
  have ht := (tableOf_snoc hat.tableOf i).symm.trans hat'.tableOf
  have hr := (refOf_snoc hat.refOf i).symm.trans hat'.refOf
  cases h.linked p i b q.pfn hp hat.refOf hat.tableOf with
  | empty _ hentry =>
      rw [hentry, child_zero] at ht
      cases ht
  | table t htF hptable hentry _ =>
      have hgood := h.good t htF
      rw [hentry, child_pte hgood.2 pteValid_lt pteValid_odd] at ht
      have hne : (s.refs b i).ptable ≠ 0 := hptable ▸ hgood.1
      rw [refChild, if_neg hne] at hr
      exact ⟨by rw [hentry, Option.some.inj ht], hne, Option.some.inj hr⟩

/-- A step of the walk through an entry that points to a table. -/
theorem step_pte {t : Nat} (ht : t < 2 ^ 54) :
    ¬ (pte t pteValid &&& pteValid = 0 ∨ isLeaf (pte t pteValid) = true) :=
  not_or.2 ⟨valid_pteValid ht, isLeaf_pteValid ht⟩

/-- Both walks end at the entry of the page. -/
theorem UserTree.walks_at (h : UserTree s r F) {v : Nat} (hat : At s r F (pathOf v) q b) :
    sv39Entry s.mem r.page.pfn v = (0, s.mem q.pfn (vpnAt 0 v)) ∧
      walkupt s r.ref v = s.leaves b (vpnAt 0 v) := by
  rcases h.at_or (snoc_short (p := []) (Nat.zero_le 1) (vpnAt 2 v)) with ⟨t, c, hat₁⟩ | ⟨ht, -⟩
  · obtain ⟨he₂, hne₂, href₂⟩ := h.entry_of_at (p := []) (Nat.zero_le 1) h.at_nil hat₁
    obtain ⟨he₁, hne₁, href₁⟩ := h.entry_of_at (p := [vpnAt 2 v]) (i := vpnAt 1 v) (Nat.le_refl 1) hat₁ hat
    have ht := (h.good t hat₁.page).2
    have hq := (h.good q hat.page).2
    constructor
    · rw [sv39Entry, he₂, if_neg (step_pte ht), getPfn_pte ht pteValid_lt, he₁, if_neg (step_pte hq),
        getPfn_pte hq pteValid_lt]
    · rw [walkupt, if_neg hne₂, href₂, if_neg hne₁, href₁]
  · -- a table cannot hang below one that is missing
    have htable := hat.tableOf
    have ht' : Radix.walk child s.mem r.page.pfn [vpnAt 2 v] = none := ht
    rw [tableOf, show pathOf v = [vpnAt 2 v] ++ [vpnAt 1 v] from rfl, Radix.walk_snoc, ht'] at htable
    cases htable

/-- Both walks find nothing for a page without a table. -/
theorem UserTree.walks_none (h : UserTree s r F) {v : Nat} (hnone : refOf s r (pathOf v) = none) :
    (sv39Entry s.mem r.page.pfn v).2 = 0 ∧ walkupt s r.ref v = 0 := by
  cases h.linked [] (vpnAt 2 v) r.ref r.page.pfn (Nat.zero_le 1) rfl rfl with
  | empty hptable hentry =>
      constructor
      · rw [sv39Entry, hentry, if_pos (.inl rfl)]
      · rw [walkupt, if_pos hptable]
  | table t htF hptable hentry _ =>
      have hgood := h.good t htF
      have hne : (s.refs r.ref (vpnAt 2 v)).ptable ≠ 0 := hptable ▸ hgood.1
      have htable : tableOf s r [vpnAt 2 v] = some t.pfn := by
        refine (tableOf_snoc h.at_nil.tableOf (vpnAt 2 v)).trans ?_
        rw [hentry, child_pte hgood.2 pteValid_lt pteValid_odd]
      have href : refOf s r [vpnAt 2 v] = some (s.refs r.ref (vpnAt 2 v)).ptRef :=
        (refOf_snoc h.at_nil.refOf (vpnAt 2 v)).trans (if_neg hne)
      have hchild := (refOf_snoc href (vpnAt 1 v)).symm.trans hnone
      cases h.linked [vpnAt 2 v] (vpnAt 1 v) _ t.pfn (Nat.le_refl 1) href htable with
      | empty hptable₁ hentry₁ =>
          constructor
          · rw [sv39Entry, hentry, if_neg (step_pte hgood.2), getPfn_pte hgood.2 pteValid_lt, hentry₁,
              if_pos (.inl rfl)]
          · rw [walkupt, if_neg hne, if_pos hptable₁]
      | table t₁ htF₁ hptable₁ _ _ =>
          rw [refChild, if_neg (hptable₁ ▸ (h.good t₁ htF₁).1)] at hchild
          cases hchild

end Walk

section Run

variable {V : Lawful A} {s s' : Memory ω} {r : Root} {F R : Footprint}

/-- The entry of a page after a sequence of calls. -/
theorem uptmapAll_entry {cs : List UptmapCall} (ho : Own V s.heap F R) (ht : UserTree s r F)
    (hu : uptmapAll A r s cs = some s') (v : Nat) :
    ∃ F', UserTree s' r F' ∧ (∀ p q b, Short p → At s r F p q b → At s' r F' p q b) ∧
      match lastCall v cs with
      | some c => (∃ q b, At s' r F' (pathOf v) q b) ∧
          entry s' r (pathOf v) (vpnAt 0 v) = (pte c.pfn c.flags, c.kernelVpn)
      | none => entry s' r (pathOf v) (vpnAt 0 v) = entry s r (pathOf v) (vpnAt 0 v) := by
  induction cs generalizing s F with
  | nil =>
      cases hu
      exact ⟨F, ht, fun _ _ _ _ => id, rfl⟩
  | cons c cs ih =>
      obtain ⟨s₁, hu₁, hu⟩ := Option.bind_eq_some_iff.1 hu
      obtain ⟨F₁, hm⟩ := uptmap_mapped ho ht hu₁
      obtain ⟨F', ht', hstay, hlast⟩ := ih hm.own hm.tree hu
      refine ⟨F', ht', fun p q b hp hat => hstay p q b hp (hm.stay p q b hp hat), ?_⟩
      rw [lastCall]
      cases hcs : lastCall v cs with
      | some d =>
          rw [hcs] at hlast
          exact hlast
      | none =>
          rw [hcs] at hlast
          have hentry := hm.entry (pathOf v) (vpnAt 0 v) rfl
          by_cases hc : SamePage c.userVpn v
          · obtain ⟨hpath, hleaf⟩ := (samePage_iff c.userVpn v).1 hc
            obtain ⟨q, b, hat⟩ := hm.reached
            rw [if_pos hc]
            refine ⟨⟨q, b, hstay _ q b (Nat.le_refl 2) (hpath ▸ hat)⟩, ?_⟩
            rw [hlast, hentry, if_pos ⟨hpath.symm, hleaf.symm⟩]
          · rw [if_neg hc]
            refine hlast.trans (hentry.trans (if_neg fun he => hc ?_))
            exact (samePage_iff c.userVpn v).2 ⟨he.1.symm, he.2.symm⟩

/-- A call returns unless an allocation panics. -/
theorem uptLevel_panics {ptable ptref pages : Nat} {i : Fin 512}
    (hu : uptLevel A s ptable ptref pages i = none) : A.Panics := by
  rw [uptLevel] at hu
  split at hu
  · rcases bind_none hu with hd | ⟨⟨t, s₁⟩, -, hu⟩
    · exact .inl ⟨s.heap, s.mem, Option.map_eq_none_iff.1 hd⟩
    · rcases bind_none hu with hk | ⟨r, -, hu⟩
      · exact .inr ⟨s₁.heap, pages, Option.map_eq_none_iff.1 hk⟩
      · cases hu
  · cases hu

theorem uptmap_panics {uptbase ptrefBase kernelVpn userVpn pfn : Nat} {flags : UInt64}
    (hu : uptmap A s uptbase ptrefBase kernelVpn userVpn pfn flags = none) : A.Panics := by
  rcases bind_none hu with hu | ⟨s₁, -, hu⟩
  · exact uptLevel_panics hu
  · rcases bind_none hu with hu | ⟨s₂, -, hu⟩
    · exact uptLevel_panics hu
    · cases hu

theorem uptmapAll_panics {cs : List UptmapCall} (hu : uptmapAll A r s cs = none) : A.Panics := by
  induction cs generalizing s with
  | nil => cases hu
  | cons c cs ih =>
      cases h : uptmap A s r.page.vpn r.ref c.kernelVpn c.userVpn c.pfn c.flags with
      | none => exact uptmap_panics h
      | some s₁ =>
          rw [uptmapAll, h] at hu
          exact ih hu

/-- A zeroed root table and a zeroed array of references. -/
structure Empty (V : Lawful A) (s : Memory ω) (r : Root) : Prop where
  valid : V.Valid s.heap {r.page} {(r.ref, 2)}
  mem : ∀ i, s.mem r.page.pfn i = 0
  refs : ∀ i, s.refs r.ref i = ⟨0, 0⟩

/-- The pages and regions of an empty address space. -/
def Root.footprint (r : Root) : Footprint := ⟨{r.page}, {(r.ref, 2)}⟩

/-- The root table and the array of references that `load_process` and `sys_fork` allocate. -/
def newRoot (A : Allocator ω) (s : Memory ω) : Option (Root × Memory ω) := do
  let (page, s) ← s.dmalloc A true
  let (ref, s) ← s.kalloc A 2
  some (⟨page, ref⟩, s)

theorem newRoot_empty (ho : Own V s.heap ⟨∅, ∅⟩ R) (hn : newRoot A s = some (r, s')) :
    Own V s'.heap r.footprint R ∧ Same s s' R ∧ Empty V s' r := by
  obtain ⟨⟨page, s₁⟩, hd, hn⟩ := Option.bind_eq_some_iff.1 hn
  obtain ⟨⟨ref, s₂⟩, hk, hn⟩ := Option.bind_eq_some_iff.1 hn
  cases hn
  obtain ⟨ho₁, -, hR₁, -, hzero⟩ := ho.dmalloc hd
  obtain ⟨ho₂, -, hR₂, -, hmem, hrefs, -⟩ := ho₁.kalloc (by decide) hk
  have hF : (Footprint.addRef (Footprint.addPage ⟨∅, ∅⟩ page) ref 2) =
      Root.footprint ⟨page, ref⟩ := by
    rw [Footprint.addRef, Footprint.addPage, Root.footprint, insert_empty_eq, insert_empty_eq]
  rw [hF] at ho₂
  refine ⟨ho₂, hR₁.trans hR₂, ⟨?_, fun i => ?_, hrefs⟩⟩
  · exact V.mono ho₂.valid Set.subset_union_left Set.subset_union_left
  · rw [hmem, hzero rfl]

/-- No path leads out of an empty table. -/
theorem walk_eq_none {ν α : Type} {child : α → Option ν} {mem : ν → Fin 512 → α} {f : ν}
    (h : ∀ i, child (mem f i) = none) {p : List (Fin 512)} (hp : p ≠ []) :
    Radix.walk child mem f p = none := by
  cases p with
  | nil => exact absurd rfl hp
  | cons i p =>
      rw [Radix.walk_cons, h i]
      rfl

theorem Empty.walks (h : Empty V s r) {p : List (Fin 512)} (hp : p ≠ []) :
    tableOf s r p = none ∧ refOf s r p = none :=
  ⟨walk_eq_none (fun i => by rw [h.mem i, child_zero]) hp,
    walk_eq_none (fun i => by rw [h.refs i]; rfl) hp⟩

theorem Empty.own (h : Empty V s r) : Own V s.heap r.footprint ⟨∅, ∅⟩ where
  valid := by
    rw [Set.union_empty, Set.union_empty]
    exact h.valid
  pages _ _ := id
  refs _ _ _ h := h.elim

theorem Empty.tree (h : Empty V s r) : UserTree s r r.footprint where
  good q hq := h.own.good hq
  page := rfl
  ref := rfl
  linked p i b f hp hb hf := by
    cases p with
    | nil =>
        cases hb
        cases hf
        exact .empty (by rw [h.refs i]) (h.mem i)
    | cons j p =>
        rw [(h.walks (List.cons_ne_nil j p)).2] at hb
        cases hb
  tables p q f _ _ hf hf' := by
    cases p with
    | cons j p =>
        rw [← tableOf, (h.walks (List.cons_ne_nil j p)).1] at hf
        cases hf
    | nil =>
        cases q with
        | nil => rfl
        | cons j q =>
            rw [← tableOf, (h.walks (List.cons_ne_nil j q)).1] at hf'
            cases hf'
  refs p q f _ _ hf hf' := by
    cases p with
    | cons j p =>
        rw [← refOf, (h.walks (List.cons_ne_nil j p)).2] at hf
        cases hf
    | nil =>
        cases q with
        | nil => rfl
        | cons j q =>
            rw [← refOf, (h.walks (List.cons_ne_nil j q)).2] at hf'
            cases hf'

end Run

/-- Two calls, one for a page whose number is beyond `2 ^ 27`. -/
def twoCalls : List UptmapCall :=
  [⟨7, 5, 9, pteValid ||| pteRead⟩, ⟨8, 2 ^ 27 + 5, 10, pteValid ||| pteWrite⟩]

/-- A machine of 128 MiB at boot. -/
def bootMemory : Memory Alloc.Heap :=
  { heap := .boot 0x80206 0x88000 [] fun _ => 0
    mem := fun _ _ => 0
    refs := fun _ _ => ⟨0, 0⟩
    leaves := fun _ _ => 0 }

theorem bootMemory_own : Own (heapLawful 0x80206) bootMemory.heap ⟨∅, ∅⟩ ⟨∅, ∅⟩ where
  valid := ⟨[], [], Alloc.Heap.boot_inv [] _ (by decide) (by decide),
    fun _ h => h.elim False.elim False.elim, fun _ h => h.elim False.elim False.elim⟩
  pages _ h := h.elim
  refs _ h := h.elim

end Space
