import Endros.Space.Load

/-!
# `ptref_free`

`ptref_free` gives back the pages of the slots, then their table and its array, one
table after the other, and the root at last.  It reads an entry before it frees the
table that has it, and `dmafree` writes only to pages that are free.  So it always
reads what was there at the beginning.

`Left` is what is left when some tables and slots are done.  No page is in two slots
and no table on two paths, so what is done stays done.
-/

namespace Space

open Lib Paging

variable {ω : Type} {A : Allocator ω}

/-! ## The routines -/

/-- The loop over the slots of a table. -/
def freeLeaves (A : Allocator ω) (ptable ptRef : Nat) : List (Fin 512) → Memory ω → Memory ω
  | [], s => s
  | k :: ks, s =>
      let kernelVpn := s.leaves ptRef k
      freeLeaves A ptable ptRef ks
        (if kernelVpn = 0 then s else s.dmafree A ⟨getPfn (s.load A ptable k), kernelVpn⟩)

/-- The table below an entry, and its array, when `below` has given back what the
table has. -/
def freeBelow (A : Allocator ω) (ptable pages : Nat) (i : Fin 512) (ref : PTReference)
    (below : Nat → Nat → Memory ω → Memory ω) (s : Memory ω) : Memory ω :=
  if ref.ptable = 0 then s
  else
    let s := below ref.ptable ref.ptRef s
    (s.dmafree A ⟨getPfn (s.load A ptable i), ref.ptable⟩).kfree A ref.ptRef pages

/-- The loop over the entries of a table of the level 1. -/
def freeLevel1 (A : Allocator ω) (ptable ptRef : Nat) : List (Fin 512) → Memory ω → Memory ω
  | [], s => s
  | j :: js, s => freeLevel1 A ptable ptRef js
      (freeBelow A ptable 1 j (s.refs ptRef j)
        (fun ptable ptRef => freeLeaves A ptable ptRef (List.finRange 512)) s)

/-- The loop over the entries of the root. -/
def freeLevel2 (A : Allocator ω) (ptable ptRef : Nat) : List (Fin 512) → Memory ω → Memory ω
  | [], s => s
  | i :: is, s => freeLevel2 A ptable ptRef is
      (freeBelow A ptable 2 i (s.refs ptRef i)
        (fun ptable ptRef => freeLevel1 A ptable ptRef (List.finRange 512)) s)

/-- `ptref_free`. -/
def ptrefFree (A : Allocator ω) (s : Memory ω) (r : Root) : Memory ω :=
  ((freeLevel2 A r.page.vpn r.ref (List.finRange 512) s).dmafree A r.page).kfree A r.ref 2

/-- `free_process_space`. -/
def freeProcessSpace (A : Allocator ω) (s : Memory ω) (sp : AddressSpace) : Memory ω :=
  (ptrefFree A s sp.root).kfree A sp.kernelStackVpn kernelStackPages

/-! ## Giving back -/

section Give

variable {V : Lawful A} {s : Memory ω} {F F' R : Footprint} {p : Page} {b n : Nat}

theorem Own.dmafree (h : Own V s.heap F R) (hp : p ∈ F.pages) (hF : F'.Le F) (hnot : p ∉ F'.pages) :
    Own V (s.dmafree A p).heap F' R ∧ Same s (s.dmafree A p) (F'.union R) := by
  obtain ⟨hv, hmem⟩ := V.dmafree (m := s.mem) h.valid (.inl hp)
  have hne : ∀ q ∈ F'.pages ∪ R.pages, q ≠ p := by
    rintro q (hq | hq) rfl
    · exact hnot hq
    · exact h.pages q hp hq
  have hin : ∀ q ∈ F'.pages ∪ R.pages, q ∈ F.pages ∪ R.pages :=
    fun q hq => hq.imp (fun h => hF.pages h) id
  refine ⟨.of (V.mono hv (fun q hq => ⟨hin q hq, hne q hq⟩) ?_) (h.apart_parts.mono hF (.refl R)), ?_⟩
  · exact fun a ha => ha.imp (fun h => hF.refs h) id
  · exact ⟨fun q hq => hmem q (hin q hq) (hne q hq), fun _ _ => rfl, fun _ _ => rfl⟩

theorem Own.kfree (h : Own V s.heap F R) (hb : (b, n) ∈ F.refs) (hF : F'.Le F)
    (hnot : (b, n) ∉ F'.refs) :
    Own V (s.kfree A b n).heap F' R ∧ Same s (s.kfree A b n) (F'.union R) := by
  have hv := V.kfree h.valid (.inl hb)
  have hne : ∀ a ∈ F'.refs ∪ R.refs, a ≠ (b, n) := by
    rintro a (ha | ha) rfl
    · exact hnot ha
    · exact h.refs _ hb _ ha rfl
  refine ⟨.of (V.mono hv ?_ fun a ha => ⟨?_, hne a ha⟩) (h.apart_parts.mono hF (.refl R)),
    ⟨fun _ _ => rfl, fun _ _ => rfl, fun _ _ => rfl⟩⟩
  · exact fun q hq => hq.imp (fun h => hF.pages h) id
  · exact ha.imp (fun h => hF.refs h) id

end Give

/-! ## What is left -/

section Free

variable {V : Lawful A} {s₀ s : Memory ω} {r : Root} {trampoline : UInt64} {T Q R R' : Footprint}
  {D D' : Set (List (Fin 512))} {S S' : Set Slot} {p : List (Fin 512)} {i j : Fin 512} {t : Page}
  {b : Nat} {x : Slot}

/-- The tables on the paths outside of `D`, and the pages of the slots outside of `S`. -/
def left (s₀ : Memory ω) (r : Root) (T : Footprint) (D : Set (List (Fin 512))) (S : Set Slot) :
    Footprint where
  pages := {q | (∃ p b, Short p ∧ p ∉ D ∧ At s₀ r T p q b) ∨
    ∃ x, x ∉ S ∧ (leafAt s₀ r x).2 ≠ 0 ∧ leafPage (leafAt s₀ r x) = q}
  refs := {a | ∃ p q b, Short p ∧ p ∉ D ∧ At s₀ r T p q b ∧ (b, refPages p) = a}

/-- What is left is still in use, with the contents it had, and the rest of it has been
given back. -/
structure Left (V : Lawful A) (s₀ : Memory ω) (r : Root) (T R : Footprint)
    (D : Set (List (Fin 512))) (S : Set Slot) (s : Memory ω) : Prop where
  own : Own V s.heap (left s₀ r T D S) R
  same : Same s₀ s ((left s₀ r T D S).union R)
  gives : Gives A s₀.heap (left s₀ r T ∅ ∅) s.heap (left s₀ r T D S)

theorem left_le (hD : D ⊆ D') (hS : S ⊆ S') : (left s₀ r T D' S').Le (left s₀ r T D S) where
  pages := by
    rintro q (⟨p, b, hp, hpD, hat⟩ | ⟨x, hx, hne, hpage⟩)
    · exact .inl ⟨p, b, hp, fun h => hpD (hD h), hat⟩
    · exact .inr ⟨x, fun h => hx (hS h), hne, hpage⟩
  refs := by
    rintro a ⟨p, q, b, hp, hpD, hat, rfl⟩
    exact ⟨p, q, b, hp, fun h => hpD (hD h), hat, rfl⟩

/-- Paths without tables and slots without pages do not count. -/
theorem left_eq (hD : D ⊆ D') (hS : S ⊆ S')
    (hnone : ∀ p ∈ D', p ∉ D → Short p → refOf s₀ r p = none)
    (hzero : ∀ x ∈ S', x ∉ S → (leafAt s₀ r x).2 = 0) :
    left s₀ r T D' S' = left s₀ r T D S := by
  have hle : (left s₀ r T D' S').Le (left s₀ r T D S) := left_le hD hS
  have hstays : ∀ {p q b}, Short p → p ∉ D → At s₀ r T p q b → p ∉ D' := fun hp hpD hat hin => by
    have href := hnone _ hin hpD hp
    rw [hat.refOf] at href
    cases href
  refine congrArg₂ Footprint.mk (subset_antisymm hle.pages ?_) (subset_antisymm hle.refs ?_)
  · rintro q (⟨p, b, hp, hpD, hat⟩ | ⟨x, hx, hne, hpage⟩)
    · exact .inl ⟨p, b, hp, hstays hp hpD hat, hat⟩
    · exact .inr ⟨x, fun hin => hne (hzero x hin hx), hne, hpage⟩
  · rintro a ⟨p, q, b, hp, hpD, hat, rfl⟩
    exact ⟨p, q, b, hp, hstays hp hpD hat, hat, rfl⟩

theorem Left.skip (h : Left V s₀ r T R D S s) (hD : D ⊆ D') (hS : S ⊆ S')
    (hnone : ∀ p ∈ D', p ∉ D → Short p → refOf s₀ r p = none)
    (hzero : ∀ x ∈ S', x ∉ S → (leafAt s₀ r x).2 = 0) : Left V s₀ r T R D' S' s := by
  obtain ⟨ho, hs, hg⟩ := h
  rw [← left_eq hD hS hnone hzero] at ho hs hg
  exact ⟨ho, hs, hg⟩

/-- The entries of a table that is left. -/
theorem Left.reads (h : Left V s₀ r T R D S s) (hat : At s₀ r T p t b) (hp : Short p) (hD : p ∉ D)
    (k : Fin 512) : s.load A t.vpn k = s₀.mem t.pfn k ∧ s.refs b k = s₀.refs b k ∧
      s.leaves b k = s₀.leaves b k := by
  have ht : t ∈ (left s₀ r T D S).pages := .inl ⟨p, b, hp, hD, hat⟩
  have hb : (b, refPages p) ∈ (left s₀ r T D S).refs := ⟨p, t, b, hp, hD, hat, rfl⟩
  refine ⟨?_, congrFun (h.same.refs _ (.inl hb)) k, congrFun (h.same.leaves _ (.inl hb)) k⟩
  rw [h.own.load_eq ht, h.same.mem t (.inl ht)]

/-- Below a path without a table there are no tables, and no pages. -/
theorem refOf_append_none (h : refOf s r p = none) (q : List (Fin 512)) :
    refOf s r (p ++ q) = none := by
  induction q using List.reverseRecOn with
  | nil =>
      rw [List.append_nil]
      exact h
  | append_singleton q i ih =>
      have hwalk : Radix.walk refChild s.refs r.ref (p ++ q) = none := ih
      rw [← List.append_assoc, refOf, Radix.walk_snoc, hwalk]
      rfl

theorem leafAt_none (hnone : refOf s r [x.1, x.2.1] = none) : leafAt s r x = (0, 0) := by
  rw [leafAt, entry, hnone]
  cases tableOf s r [x.1, x.2.1] <;> rfl

/-- What is below an entry of a table. -/
theorem UserTree.below (h : UserTree s r T) (hat : At s r T p t b) (hp : p.length ≤ 1)
    (i : Fin 512) : (s.refs b i).ptable = 0 ∨ ∃ t' b', At s r T (p ++ [i]) t' b' ∧
      s.refs b i = ⟨t'.vpn, b'⟩ ∧ t'.vpn ≠ 0 ∧ getPfn (s.mem t.pfn i) = t'.pfn := by
  cases h.linked p i b t.pfn hp hat.refOf hat.tableOf with
  | empty hptable _ => exact .inl hptable
  | table t' ht' hptable hentry hr =>
      have hgood := h.good t' ht'
      refine .inr ⟨t', (s.refs b i).ptRef, ⟨ht', hr, ?_, ?_⟩, by rw [← hptable], hgood.1, ?_⟩
      · rw [tableOf_snoc hat.tableOf, hentry, child_pte hgood.2 pteValid_lt pteValid_odd]
      · rw [refOf_snoc hat.refOf, refChild, if_neg (hptable ▸ hgood.1)]
      · rw [hentry, getPfn_pte hgood.2 pteValid_lt]

section Steps

variable (hb : Built V s₀ r trampoline T Q R')
include hb

/-- The page of a slot is given back. -/
theorem Left.slot (h : Left V s₀ r T R D S s) (hx : x ∉ S) (hne : (leafAt s₀ r x).2 ≠ 0) :
    Left V s₀ r T R D (insert x S) (s.dmafree A (leafPage (leafAt s₀ r x))) := by
  have hle : (left s₀ r T D (insert x S)).Le (left s₀ r T D S) :=
    left_le subset_rfl (Set.subset_insert x S)
  have hnot : leafPage (leafAt s₀ r x) ∉ (left s₀ r T D (insert x S)).pages := by
    rintro (⟨p', b', -, -, hat⟩ | ⟨y, hy, -, he⟩)
    · exact hb.own.pages _ hat.page (.inl (hb.leaves.held x hne))
    · have hvpn : (leafAt s₀ r x).2 = (leafAt s₀ r y).2 := congrArg Page.vpn he.symm
      exact hy (hb.leaves.inj x y hne hvpn ▸ Set.mem_insert x S)
  have hin : leafPage (leafAt s₀ r x) ∈ (left s₀ r T D S).pages := .inr ⟨x, hx, hne, rfl⟩
  obtain ⟨ho, hs⟩ := h.own.dmafree hin hle hnot
  have hdrop : (left s₀ r T D S).dropPage (leafPage (leafAt s₀ r x)) = left s₀ r T D (insert x S) := by
    refine congrArg (Footprint.mk · _) (subset_antisymm ?_ fun q hq => ⟨hle.pages hq, ?_⟩)
    · rintro q ⟨⟨p, b, hp, hpD, hat⟩ | ⟨y, hy, hney, rfl⟩, hq⟩
      · exact .inl ⟨p, b, hp, hpD, hat⟩
      · refine .inr ⟨y, ?_, hney, rfl⟩
        rintro (rfl | hin)
        · exact hq rfl
        · exact hy hin
    · rintro rfl
      exact hnot hq
  exact ⟨ho, (h.same.mono (Footprint.union_mono hle (.refl R))).trans hs,
    hdrop ▸ h.gives.dmafree hin⟩

/-- A table and its array are given back. -/
theorem Left.table (h : Left V s₀ r T R D S s) (hat : At s₀ r T p t b) (hp : Short p) (hD : p ∉ D) :
    Left V s₀ r T R (insert p D) S ((s.dmafree A t).kfree A b (refPages p)) := by
  have hle : (left s₀ r T (insert p D) S).Le (left s₀ r T D S) :=
    left_le (Set.subset_insert p D) subset_rfl
  -- the page first, the array is still there
  have hle₁ : (⟨(left s₀ r T (insert p D) S).pages, (left s₀ r T D S).refs⟩ : Footprint).Le
      (left s₀ r T D S) := ⟨hle.pages, subset_rfl⟩
  have hnot₁ : t ∉ (left s₀ r T (insert p D) S).pages := by
    rintro (⟨p', b', hp', hD', hat'⟩ | ⟨y, -, hne, he⟩)
    · have hpp := hb.tree.tables p' p t.pfn hp' hp hat'.tableOf hat.tableOf
      exact hD' (hpp ▸ Set.mem_insert p D)
    · exact hb.own.pages t hat.page (.inl (he ▸ hb.leaves.held y hne))
  have hin₁ : t ∈ (left s₀ r T D S).pages := .inl ⟨p, b, hp, hD, hat⟩
  obtain ⟨ho₁, hs₁⟩ := h.own.dmafree hin₁ hle₁ hnot₁
  have hle₂ : (left s₀ r T (insert p D) S).Le
      ⟨(left s₀ r T (insert p D) S).pages, (left s₀ r T D S).refs⟩ := ⟨subset_rfl, hle.refs⟩
  have hnot₂ : (b, refPages p) ∉ (left s₀ r T (insert p D) S).refs := by
    rintro ⟨p', t', b', hp', hD', hat', he⟩
    have hbb : b' = b := (Prod.mk.inj he).1
    have hpp := hb.tree.refs p' p b hp' hp (hbb ▸ hat'.refOf) hat.refOf
    exact hD' (hpp ▸ Set.mem_insert p D)
  have hin₂ : (b, refPages p) ∈ (left s₀ r T D S).refs := ⟨p, t, b, hp, hD, hat, rfl⟩
  obtain ⟨ho₂, hs₂⟩ := ho₁.kfree hin₂ hle₂ hnot₂
  have hpages : (left s₀ r T D S).pages \ {t} = (left s₀ r T (insert p D) S).pages := by
    refine subset_antisymm ?_ fun q hq => ⟨hle.pages hq, ?_⟩
    · rintro q ⟨⟨p', b', hp', hpD', hat'⟩ | ⟨x, hx, hne, rfl⟩, hq⟩
      · refine .inl ⟨p', b', hp', ?_, hat'⟩
        rintro (rfl | hin)
        · -- the path leads to this table
          exact hq (hb.own.inj hat'.page hat.page
            (Option.some.inj (hat'.tableOf.symm.trans hat.tableOf)))
        · exact hpD' hin
      · exact .inr ⟨x, hx, hne, rfl⟩
    · rintro rfl
      exact hnot₁ hq
  have hrefs : (left s₀ r T D S).refs \ {(b, refPages p)} = (left s₀ r T (insert p D) S).refs := by
    refine subset_antisymm ?_ fun a ha => ⟨hle.refs ha, ?_⟩
    · rintro a ⟨⟨p', q', b', hp', hpD', hat', rfl⟩, ha⟩
      refine ⟨p', q', b', hp', ?_, hat', rfl⟩
      rintro (rfl | hin)
      · rw [Option.some.inj (hat'.refOf.symm.trans hat.refOf)] at ha
        exact ha rfl
      · exact hpD' hin
    · rintro rfl
      exact hnot₂ ha
  have hdrop : ((left s₀ r T D S).dropPage t).dropRef b (refPages p) = left s₀ r T (insert p D) S :=
    congrArg₂ Footprint.mk hpages hrefs
  exact ⟨ho₂, (h.same.mono (Footprint.union_mono hle (.refl R))).trans
    ((hs₁.mono (Footprint.union_mono hle₂ (.refl R))).trans hs₂),
    hdrop ▸ (h.gives.dmafree hin₁).kfree hin₂⟩

/-- The loop over the slots of a table. -/
theorem Left.freeLeaves (hat : At s₀ r T [i, j] t b) (hD : [i, j] ∉ D) {ks : List (Fin 512)}
    (hks : ks.Nodup) (h : Left V s₀ r T R D S s) (hS : ∀ k ∈ ks, (i, j, k) ∉ S) :
    Left V s₀ r T R D (S ∪ {x | ∃ k ∈ ks, (i, j, k) = x}) (Space.freeLeaves A t.vpn b ks s) := by
  induction ks generalizing S s with
  | nil =>
      refine h.skip subset_rfl Set.subset_union_left (fun _ hp hnot => absurd hp hnot) ?_
      rintro x (hin | ⟨k, hk, -⟩) hx
      · exact absurd hin hx
      · cases hk
  | cons k ks ih =>
      obtain ⟨hk, hks⟩ := List.nodup_cons.mp hks
      have hshort : Short [i, j] := Nat.le_refl 2
      obtain ⟨hload, -, hleaf⟩ := h.reads hat hshort hD k
      have hentry : leafAt s₀ r (i, j, k) = (s₀.mem t.pfn k, s₀.leaves b k) := hat.entry_eq k
      have hrest : ∀ k' ∈ ks, (i, j, k') ∉ insert (i, j, k) S := fun k' hk' hin => by
        rcases hin with he | hin
        · cases he
          exact hk hk'
        · exact hS k' (List.mem_cons_of_mem k hk') hin
      have hstep : Left V s₀ r T R D (insert (i, j, k) S)
          (if s.leaves b k = 0 then s
            else s.dmafree A ⟨getPfn (s.load A t.vpn k), s.leaves b k⟩) := by
        split
        · rename_i hzero
          refine h.skip subset_rfl (Set.subset_insert _ S) (fun _ hp hnot => absurd hp hnot) ?_
          rintro x (rfl | hin) hx
          · rw [hentry, ← hleaf]
            exact hzero
          · exact absurd hin hx
        · rename_i hne
          have hne' : (leafAt s₀ r (i, j, k)).2 ≠ 0 := by
            rw [hentry, ← hleaf]
            exact hne
          have hslot := h.slot hb (hS k List.mem_cons_self) hne'
          rw [hentry] at hslot
          rw [hload, hleaf]
          exact hslot
      have hslots : insert (i, j, k) S ∪ {x | ∃ k' ∈ ks, (i, j, k') = x} =
          S ∪ {x | ∃ k' ∈ k :: ks, (i, j, k') = x} := by
        ext x
        simp only [Set.mem_union, Set.mem_insert_iff, Set.mem_ofPred_eq, List.exists_mem_cons_iff,
          eq_comm (a := x), or_assoc]
        exact or_left_comm
      rw [← hslots]
      exact ih hks hstep hrest

/-- The table below an entry. -/
theorem Left.freeBelow (below : Nat → Nat → Memory ω → Memory ω) (hat : At s₀ r T p t b)
    (hp : p.length ≤ 1) (hD : p ∉ D) (hD' : p ∉ D') (hDi : p ++ [i] ∉ D') (hsub : D ⊆ D')
    (hsubS : S ⊆ S')
    (hpaths : refOf s₀ r (p ++ [i]) = none → ∀ p' ∈ D', p' ∉ D → Short p' → refOf s₀ r p' = none)
    (hslots : refOf s₀ r (p ++ [i]) = none → ∀ x ∈ S', x ∉ S → (leafAt s₀ r x).2 = 0)
    (hbelow : ∀ t' b', At s₀ r T (p ++ [i]) t' b' → Left V s₀ r T R D' S' (below t'.vpn b' s))
    (h : Left V s₀ r T R D S s) :
    Left V s₀ r T R (insert (p ++ [i]) D') S'
      (Space.freeBelow A t.vpn (refPages (p ++ [i])) i (s.refs b i) below s) := by
  have hshort : Short p := Nat.le_succ_of_le hp
  have href := (h.reads hat hshort hD i).2.1
  rw [Space.freeBelow, href]
  rcases hb.tree.below hat hp i with hnone | ⟨t', b', hat', hentry, hne, hpfn⟩
  · have hno : refOf s₀ r (p ++ [i]) = none := by
      rw [refOf_snoc hat.refOf, refChild, if_pos hnone]
    rw [if_pos hnone]
    refine h.skip (hsub.trans (Set.subset_insert _ D')) hsubS ?_ (hslots hno)
    rintro p' (rfl | hin) hnot hshort'
    · exact hno
    · exact hpaths hno p' hin hnot hshort'
  · rw [hentry, if_neg hne]
    have hl := hbelow t' b' hat'
    have hload := (hl.reads hat hshort hD' i).1
    have htable := hl.table hb hat' (snoc_short hp i) hDi
    dsimp only
    rw [hload, hpfn]
    exact htable

/-- The loop over the entries of a table of the level 1. -/
theorem Left.freeLevel1 (hat : At s₀ r T [i] t b) (hi : [i] ∉ D) {js : List (Fin 512)}
    (hjs : js.Nodup) (h : Left V s₀ r T R D S s) (hD : ∀ j ∈ js, [i, j] ∉ D)
    (hS : ∀ j ∈ js, ∀ k, (i, j, k) ∉ S) :
    Left V s₀ r T R (D ∪ {p | ∃ j ∈ js, [i, j] = p}) (S ∪ {x | ∃ j ∈ js, ∃ k, (i, j, k) = x})
      (Space.freeLevel1 A t.vpn b js s) := by
  induction js generalizing D S s with
  | nil =>
      refine h.skip Set.subset_union_left Set.subset_union_left ?_ ?_
      · rintro p (hin | ⟨j, hj, -⟩) hp
        · exact absurd hin hp
        · cases hj
      · rintro x (hin | ⟨j, hj, -⟩) hx
        · exact absurd hin hx
        · cases hj
  | cons j js ih =>
      obtain ⟨hj, hjs⟩ := List.nodup_cons.mp hjs
      have hDj := hD j List.mem_cons_self
      have hstep := Left.freeBelow hb (i := j)
        (fun ptable ptRef => Space.freeLeaves A ptable ptRef (List.finRange 512)) hat
        (Nat.le_refl 1) hi hi hDj subset_rfl
        (Set.subset_union_left (t := {x | ∃ k ∈ List.finRange 512, (i, j, k) = x}))
        (fun _ p' hp' hnot => absurd hp' hnot)
        (by
          rintro hno x (hin | ⟨k, -, rfl⟩) hx
          · exact absurd hin hx
          · rw [leafAt_none hno])
        (fun t' b' hat' => Left.freeLeaves hb hat' hDj (List.nodup_finRange 512) h
          fun k _ => hS j List.mem_cons_self k) h
      have hpaths : insert ([i] ++ [j]) D ∪ {p | ∃ j' ∈ js, [i, j'] = p} =
          D ∪ {p | ∃ j' ∈ j :: js, [i, j'] = p} := by
        ext p
        simp only [Set.mem_union, Set.mem_insert_iff, Set.mem_ofPred_eq, List.exists_mem_cons_iff,
          eq_comm (a := p), or_assoc]
        exact or_left_comm
      have hslots : S ∪ {x | ∃ k ∈ List.finRange 512, (i, j, k) = x} ∪
          {x | ∃ j' ∈ js, ∃ k, (i, j', k) = x} = S ∪ {x | ∃ j' ∈ j :: js, ∃ k, (i, j', k) = x} := by
        simp only [Set.union_assoc, List.exists_mem_cons_iff, List.mem_finRange, true_and]
        rfl
      rw [← hpaths, ← hslots]
      refine ih ?_ hjs hstep ?_ ?_
      · rintro (he | hin)
        · cases he
        · exact hi hin
      · rintro j' hj' (he | hin)
        · cases he
          exact hj hj'
        · exact hD j' (List.mem_cons_of_mem j hj') hin
      · rintro j' hj' k (hin | ⟨k', -, he⟩)
        · exact hS j' (List.mem_cons_of_mem j hj') k hin
        · cases he
          exact hj hj'

/-- The loop over the entries of the root. -/
theorem Left.freeLevel2 {is : List (Fin 512)} (his : is.Nodup) (h : Left V s₀ r T R D S s)
    (hroot : [] ∉ D) (hD : ∀ i ∈ is, ∀ p, i :: p ∉ D) (hS : ∀ i ∈ is, ∀ x, (i, x) ∉ S) :
    Left V s₀ r T R (D ∪ {p | ∃ i ∈ is, ∃ p', i :: p' = p}) (S ∪ {x | ∃ i ∈ is, ∃ x', (i, x') = x})
      (Space.freeLevel2 A r.page.vpn r.ref is s) := by
  induction is generalizing D S s with
  | nil =>
      refine h.skip Set.subset_union_left Set.subset_union_left ?_ ?_
      · rintro p (hin | ⟨i, hi, -⟩) hp
        · exact absurd hin hp
        · cases hi
      · rintro x (hin | ⟨i, hi, -⟩) hx
        · exact absurd hin hx
        · cases hi
  | cons i is ih =>
      obtain ⟨hi, his⟩ := List.nodup_cons.mp his
      have hDi := hD i List.mem_cons_self
      have hroot' : [] ∉ D ∪ {p | ∃ j ∈ List.finRange 512, [i, j] = p} := by
        rintro (hin | ⟨j, -, he⟩)
        · exact hroot hin
        · cases he
      have hDi' : [i] ∉ D ∪ {p | ∃ j ∈ List.finRange 512, [i, j] = p} := by
        rintro (hin | ⟨j, -, he⟩)
        · exact hDi [] hin
        · cases he
      have hstep := Left.freeBelow hb (i := i)
        (fun ptable ptRef => Space.freeLevel1 A ptable ptRef (List.finRange 512))
        hb.tree.at_nil (Nat.zero_le 1) hroot hroot' hDi' Set.subset_union_left
        (Set.subset_union_left (t := {x | ∃ j ∈ List.finRange 512, ∃ k, (i, j, k) = x}))
        (by
          rintro hno p (hin | ⟨j, -, rfl⟩) hp -
          · exact absurd hin hp
          · exact refOf_append_none hno [j])
        (by
          rintro hno x (hin | ⟨j, -, k, rfl⟩) hx
          · exact absurd hin hx
          · rw [leafAt_none (refOf_append_none hno [j])])
        (fun t' b' hat' => Left.freeLevel1 hb hat' (hDi []) (List.nodup_finRange 512) h
          (fun j _ => hDi [j]) fun j _ k => hS i List.mem_cons_self (j, k)) h
      have hslots : S ∪ {x | ∃ j ∈ List.finRange 512, ∃ k, (i, j, k) = x} ∪
          {x | ∃ i' ∈ is, ∃ x', (i', x') = x} = S ∪ {x | ∃ i' ∈ i :: is, ∃ x', (i', x') = x} := by
        simp only [Set.union_assoc, List.exists_mem_cons_iff, List.mem_finRange, true_and,
          Prod.exists]
        rfl
      rw [← hslots]
      refine (ih his hstep ?_ ?_ ?_).skip ?_ subset_rfl ?_ fun x hx hnot => absurd hx hnot
      · rintro (he | hin)
        · cases he
        · exact hroot' hin
      · rintro i' hi' p (he | hin | ⟨j, -, he⟩)
        · cases he
          exact hi hi'
        · exact hD i' (List.mem_cons_of_mem i hi') p hin
        · cases he
          exact hi hi'
      · rintro i' hi' x (hin | ⟨j, -, k, he⟩)
        · exact hS i' (List.mem_cons_of_mem i hi') x hin
        · cases he
          exact hi hi'
      · rintro p ((rfl | hp | ⟨j, -, rfl⟩) | ⟨i', hi', p', rfl⟩)
        · exact .inr ⟨i, List.mem_cons_self, [], rfl⟩
        · exact .inl hp
        · exact .inr ⟨i, List.mem_cons_self, [j], rfl⟩
        · exact .inr ⟨i', List.mem_cons_of_mem i hi', p', rfl⟩
      · -- the paths below `i` that lead to tables are done
        rintro p (hin | ⟨i', hi', p', rfl⟩) hp hshort
        · exact absurd (.inl (.inr (.inl hin))) hp
        · rcases List.mem_cons.mp hi' with rfl | hi'
          · exfalso
            match p', hshort with
            | [], _ => exact hp (.inl (.inl rfl))
            | [j], _ => exact hp (.inl (.inr (.inr ⟨j, List.mem_finRange j, rfl⟩)))
          · exact absurd (.inr ⟨i', hi', p', rfl⟩) hp

/-- Nothing is left. -/
theorem Left.ptrefFree (h : Left V s₀ r T R ∅ ∅ s₀) :
    Own V (Space.ptrefFree A s₀ r).heap .none R ∧ Same s₀ (Space.ptrefFree A s₀ r) R ∧
      Gives A s₀.heap (left s₀ r T ∅ ∅) (Space.ptrefFree A s₀ r).heap .none := by
  have hall := Left.freeLevel2 hb (List.nodup_finRange 512) h (fun h => h) (fun _ _ _ h => h)
    fun _ _ _ h => h
  have hend := hall.table hb hb.tree.at_nil (Nat.zero_le 2) (by
    rintro (hin | ⟨i, -, p, he⟩)
    · exact hin
    · cases he)
  have hpaths : ∀ p, p ∈ insert [] (∅ ∪ {p | ∃ i ∈ List.finRange 512, ∃ p', i :: p' = p} :
      Set (List (Fin 512)))
    | [] => .inl rfl
    | i :: p => .inr (.inr ⟨i, List.mem_finRange i, p, rfl⟩)
  have hnone : left s₀ r T (insert [] (∅ ∪ {p | ∃ i ∈ List.finRange 512, ∃ p', i :: p' = p}))
      (∅ ∪ {x | ∃ i ∈ List.finRange 512, ∃ x', (i, x') = x}) = .none := by
    refine congrArg₂ Footprint.mk (Set.eq_empty_of_forall_notMem ?_)
      (Set.eq_empty_of_forall_notMem ?_)
    · rintro q (⟨p, b, -, hp, -⟩ | ⟨x, hx, -⟩)
      · exact hp (hpaths p)
      · exact hx (.inr ⟨x.1, List.mem_finRange x.1, x.2, rfl⟩)
    · rintro a ⟨p, q, b, -, hp, -⟩
      exact hp (hpaths p)
  obtain ⟨ho, hs, hg⟩ := hend
  rw [hnone] at ho hs hg
  exact ⟨ho, hs.mono Footprint.le_union_right, hg⟩

end Steps

/-- All that was taken is left at the beginning. -/
theorem Built.left_eq (h : Built V s₀ r trampoline T Q R) (hreached : Reached s₀ r T)
    (hplaced : ∀ q ∈ Q.pages, ∃ x, (leafAt s₀ r x).2 ≠ 0 ∧ leafPage (leafAt s₀ r x) = q) :
    left s₀ r T ∅ ∅ = T.union ⟨Q.pages, ∅⟩ := by
  refine congrArg₂ Footprint.mk (subset_antisymm ?_ ?_) (subset_antisymm ?_ ?_)
  · rintro q (⟨p, b, -, -, hat⟩ | ⟨x, -, hne, rfl⟩)
    · exact .inl hat.page
    · exact .inr (h.leaves.held x hne)
  · rintro q (hq | hq)
    · obtain ⟨p, b, hp, hat⟩ := hreached.pages q hq
      exact .inl ⟨p, b, hp, fun hin => hin, hat⟩
    · obtain ⟨x, hne, hx⟩ := hplaced q hq
      exact .inr ⟨x, fun hin => hin, hne, hx⟩
  · rintro a ⟨p, q, b, -, -, hat, rfl⟩
    exact .inl hat.ref
  · rintro a (ha | ha)
    · obtain ⟨p, q, b, hp, hat, he⟩ := hreached.refs a ha
      exact ⟨p, q, b, hp, fun hin => hin, hat, he⟩
    · exact ha.elim

/-- At the beginning everything is left. -/
theorem Built.left (h : Built V s₀ r trampoline T Q R) :
    Left V s₀ r T (Footprint.union ⟨∅, Q.refs⟩ R) ∅ ∅ s₀ := by
  have hpages : (Space.left s₀ r T ∅ ∅).pages ⊆ T.pages ∪ Q.pages := by
    rintro q (⟨p, b, -, -, hat⟩ | ⟨x, -, hne, rfl⟩)
    · exact .inl hat.page
    · exact .inr (h.leaves.held x hne)
  have hrefs : (Space.left s₀ r T ∅ ∅).refs ⊆ T.refs := by
    rintro a ⟨p, q, b, -, -, hat, rfl⟩
    exact hat.ref
  refine ⟨.of (V.mono h.own.valid ?_ ?_) ⟨?_, ?_⟩, .refl s₀ _, .refl⟩
  · rintro q (hq | hq | hq)
    · exact (hpages hq).imp id .inl
    · exact hq.elim
    · exact .inr (.inr hq)
  · exact fun a ha => ha.imp (fun h => hrefs h) id
  · rintro q hq (hq' | hq')
    · exact hq'
    · exact h.own_all.pages q (hpages hq) hq'
  · exact fun a ha a' ha' => h.own.refs a (hrefs ha) a' ha'

/-- `free_process_space` gives back all that a process has, and leaves the rest alone. -/
theorem Held.free {sp : AddressSpace} (h : Held V s₀ sp trampoline T Q R) :
    Own V (freeProcessSpace A s₀ sp).heap .none R ∧ Same s₀ (freeProcessSpace A s₀ sp) R := by
  obtain ⟨ho, hs, -⟩ := Left.ptrefFree h.built h.built.left
  have hapart : Footprint.Apart ⟨∅, Q.refs⟩ R := ⟨fun _ h => h.elim, h.built.apart.refs⟩
  have ho' := ho.take_part hapart
  obtain ⟨ho'', hs'⟩ := ho'.kfree (.inr h.stack) Footprint.none_le fun hin => hin
  exact ⟨ho'', (hs.mono Footprint.le_union_right).trans (hs'.mono Footprint.le_union_right)⟩

end Free

end Space
