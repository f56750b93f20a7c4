import Endros.Space.Free

/-!
# `ptref_copy`

`sys_fork` makes a root for the child and `ptref_copy` fills it.  Where the parent has
a table the child gets a new one.  Where the parent has a kernel page in a slot, the
child gets a new page with the flags and the contents of the parent's page.

The parent's space is part of the rest, so it stays as it is.  `Copying` is the state
in the middle of the loops: the slots that are done have copies, and the others are
still empty.
-/

namespace Space

open Lib Paging

variable {ω : Type} {A : Allocator ω}

/-! ## The routines -/

/-- A page of the parent is copied to the new page `p`. -/
def copyPage (A : Allocator ω) (srcTable srcRef dstTable dstRef : Nat) (k : Fin 512) (p : Page)
    (s : Memory ω) : Memory ω :=
  let s := s.store A dstTable k (pte p.pfn (getFlags (s.load A srcTable k)))
  let s := s.setLeaf dstRef k p.vpn
  s.writePage A p.vpn (s.mem (A.frame s.heap (s.leaves srcRef k)))

/-- The loop over the slots of a table. -/
def copyLeaves (A : Allocator ω) (srcTable srcRef dstTable dstRef : Nat) :
    List (Fin 512) → Memory ω → Option (Memory ω)
  | [], s => some s
  | k :: ks, s =>
      if s.leaves srcRef k = 0 then copyLeaves A srcTable srcRef dstTable dstRef ks s
      else do
        let (p, s) ← s.dmalloc A false
        copyLeaves A srcTable srcRef dstTable dstRef ks
          (copyPage A srcTable srcRef dstTable dstRef k p s)

/-- A new table below an entry, where the parent has one, which `below` fills. -/
def copyBelow (A : Allocator ω) (dstTable dstRef pages : Nat) (i : Fin 512) (src : PTReference)
    (below : Nat → Nat → Nat → Nat → Memory ω → Option (Memory ω)) (s : Memory ω) :
    Option (Memory ω) :=
  if src.ptable = 0 then some s
  else do
    let (t, s) ← s.dmalloc A true
    let (b, s) ← s.kalloc A pages
    let s := s.setRef dstRef i ⟨t.vpn, b⟩
    let s := s.store A dstTable i (pte t.pfn pteValid)
    below src.ptable src.ptRef t.vpn b s

/-- The loop over the entries of a table of the level 1. -/
def copyLevel1 (A : Allocator ω) (srcRef dstTable dstRef : Nat) :
    List (Fin 512) → Memory ω → Option (Memory ω)
  | [], s => some s
  | j :: js, s =>
      (copyBelow A dstTable dstRef 1 j (s.refs srcRef j)
        (fun srcTable srcRef dstTable dstRef =>
          copyLeaves A srcTable srcRef dstTable dstRef (List.finRange 512)) s).bind
        (copyLevel1 A srcRef dstTable dstRef js)

/-- The loop over the entries of the root. -/
def copyLevel2 (A : Allocator ω) (srcRef dstTable dstRef : Nat) :
    List (Fin 512) → Memory ω → Option (Memory ω)
  | [], s => some s
  | i :: is, s =>
      (copyBelow A dstTable dstRef 2 i (s.refs srcRef i)
        (fun _ srcRef dstTable dstRef => copyLevel1 A srcRef dstTable dstRef (List.finRange 512))
        s).bind (copyLevel2 A srcRef dstTable dstRef is)

/-- `ptref_copy`. -/
def ptrefCopy (A : Allocator ω) (s : Memory ω) (dst src : Root) : Option (Memory ω) :=
  copyLevel2 A src.ref dst.page.vpn dst.ref (List.finRange 512) s

/-- The memory steps of `sys_fork`. -/
def forkSpace (A : Allocator ω) (B : Platform) (s : Memory ω) (sp : AddressSpace) :
    Option (AddressSpace × Memory ω) := do
  let (root, s) ← newRoot A s
  let s ← ptrefCopy A s root sp.root
  let s ← mapTrampoline A B s root
  let trapframe := walkupt s root.ref trapframeVpn
  let (kernelStackVpn, s) ← s.kalloc A kernelStackPages
  let s := s.store A trapframe 35 (kernelSp kernelStackVpn)
  let s := s.store A trapframe 10 0
  some (⟨⟨root, sp.brk, sp.heapBottom⟩, trapframe, kernelStackVpn⟩, s)

/-! ## Copies -/

/-- The slot `x` of `dst` has a copy of what `src` had.  The contents are those of the
page, if it is one of `R`. -/
structure CopyOf (R : Footprint) (s₀ s : Memory ω) (src dst : Root) (x : Slot) : Prop where
  none : (leafAt s₀ src x).2 = 0 → leafAt s dst x = (0, 0)
  some : (leafAt s₀ src x).2 ≠ 0 → (leafAt s dst x).2 ≠ 0
  flags : (leafAt s₀ src x).2 ≠ 0 →
    getFlags (leafAt s dst x).1 = getFlags (leafAt s₀ src x).1
  words : (leafAt s₀ src x).2 ≠ 0 → leafPage (leafAt s₀ src x) ∈ R.pages →
    s.mem (leafPage (leafAt s dst x)).pfn = s₀.mem (leafPage (leafAt s₀ src x)).pfn

/-- All pages are in slots. -/
def Placed (s : Memory ω) (r : Root) (Q : Footprint) : Prop :=
  ∀ q ∈ Q.pages, ∃ x, (leafAt s r x).2 ≠ 0 ∧ leafPage (leafAt s r x) = q

/-- The slots of `S` and the tables on the paths of `E` are done. -/
structure Copying (V : Lawful A) (s₀ : Memory ω) (src dst : Root) (trampoline : UInt64)
    (R : Footprint) (E : Set (List (Fin 512))) (S : Set Slot) (T Q : Footprint) (s : Memory ω) :
    Prop where
  built : Built V s dst trampoline T Q R
  rest : Same s₀ s R
  tables : ∀ p, Short p → p ∉ E → refOf s dst p = none
  todo : ∀ x, x ∉ S → leafAt s dst x = (0, 0)
  done : ∀ x ∈ S, CopyOf R s₀ s src dst x
  takes : Takes A s₀.heap .none s.heap (T.union Q)
  reached : Reached s dst T
  placed : Placed s dst Q
  refs : Q.refs = ∅

section Copy

variable {V : Lawful A} {s₀ s s' : Memory ω} {src dst : Root} {trampoline : UInt64}
  {T Q R Ts : Footprint} {E E' : Set (List (Fin 512))} {S : Set Slot} {p : List (Fin 512)}
  {i j k : Fin 512} {t ts td q : Page} {b bs bd : Nat} {x : Slot}

theorem CopyOf.congr (h : CopyOf R s₀ s src dst x) (hleaf : leafAt s' dst x = leafAt s dst x)
    (hmem : (leafAt s dst x).2 ≠ 0 →
      s'.mem (leafPage (leafAt s dst x)).pfn = s.mem (leafPage (leafAt s dst x)).pfn) :
    CopyOf R s₀ s' src dst x where
  none hx := hleaf.trans (h.none hx)
  some hx := hleaf ▸ h.some hx
  flags hx := by rw [hleaf, h.flags hx]
  words hx hR := by rw [hleaf, hmem (h.some hx), h.words hx hR]

theorem Placed.congr (h : Placed s dst Q) (hleaf : leafAt s' dst = leafAt s dst) : Placed s' dst Q := by
  unfold Placed
  rw [hleaf]
  exact h

/-- A new page is put in a slot that was empty. -/
theorem Placed.put {e : UInt64} (h : Placed s dst Q) (hempty : (leafAt s dst x).2 = 0)
    (hleaf : leafAt s' dst = Function.update (leafAt s dst) x (e, q.vpn)) (hq : q.vpn ≠ 0)
    (hpage : leafPage (e, q.vpn) = q) : Placed s' dst (Q.addPage q) := by
  unfold Placed
  rw [hleaf]
  rintro q' (rfl | hq')
  · exact ⟨x, by rw [Function.update_self]; exact hq, by rw [Function.update_self]; exact hpage⟩
  · obtain ⟨y, hne, hy⟩ := h q' hq'
    have hyx : y ≠ x := fun he => hne (he ▸ hempty)
    refine ⟨y, ?_, ?_⟩
    · rw [Function.update_of_ne hyx]
      exact hne
    · rw [Function.update_of_ne hyx]
      exact hy

theorem goodFlags_getFlags (e : UInt64) : GoodFlags (getFlags e) := by
  rw [GoodFlags, getFlags_toNat]
  omega

/-- The paths that led to tables still do. -/
def Stay (dst : Root) (s : Memory ω) (T : Footprint) (s' : Memory ω) (T' : Footprint) : Prop :=
  ∀ p q c, Short p → At s dst T p q c → At s' dst T' p q c

theorem Stay.refl (dst : Root) (s : Memory ω) (T : Footprint) : Stay dst s T s T :=
  fun _ _ _ _ hat => hat

theorem Stay.trans {s'' : Memory ω} {T' T'' : Footprint} (h : Stay dst s T s' T')
    (h' : Stay dst s' T' s'' T'') : Stay dst s T s'' T'' :=
  fun p q c hp hat => h' p q c hp (h p q c hp hat)

theorem Copying.mono (h : Copying V s₀ src dst trampoline R E S T Q s) (hE : E ⊆ E') :
    Copying V s₀ src dst trampoline R E' S T Q s :=
  { h with tables := fun p hp hnot => h.tables p hp fun hin => hnot (hE hin) }

/-- Slots where the parent has no page are done. -/
theorem Copying.skip (S' : Set Slot) (h : Copying V s₀ src dst trampoline R E S T Q s)
    (hS : ∀ x ∈ S', (leafAt s₀ src x).2 = 0) :
    Copying V s₀ src dst trampoline R E (S ∪ S') T Q s :=
  { h with
    todo := fun x hx => h.todo x fun hin => hx (.inl hin)
    done := fun x hx => by
      by_cases hin : x ∈ S
      · exact h.done x hin
      · have hzero := hS x (hx.resolve_left hin)
        exact ⟨fun _ => h.todo x hin, fun hne => absurd hzero hne, fun hne => absurd hzero hne,
          fun hne => absurd hzero hne⟩ }

/-- The parent's tables are read as they were. -/
theorem Built.reads (h : Built V s dst trampoline T Q R) (hrest : Same s₀ s R) (hle : Ts.Le R)
    (hat : At s₀ src Ts p ts bs) (k : Fin 512) :
    s.load A ts.vpn k = s₀.mem ts.pfn k ∧ s.refs bs k = s₀.refs bs k ∧
      s.leaves bs k = s₀.leaves bs k := by
  have ht : ts ∈ R.pages := hle.pages hat.page
  have hb : (bs, refPages p) ∈ R.refs := hle.refs hat.ref
  have hframe := (V.page h.own.valid (.inr (.inr ht))).2.2
  refine ⟨?_, congrFun (hrest.refs _ hb) k, congrFun (hrest.leaves _ hb) k⟩
  rw [Memory.load, hframe, hrest.mem ts ht]

/-- A page of the parent is copied. -/
theorem Copying.copyPage (hle : Ts.Le R) (h : Copying V s₀ src dst trampoline R E S T Q s)
    (hat₀ : At s₀ src Ts [i, j] ts bs) (hat : At s dst T [i, j] td bd) (hx : (i, j, k) ∉ S)
    (hne : s₀.leaves bs k ≠ 0) (hd : s.dmalloc A false = some (q, s')) :
    Copying V s₀ src dst trampoline R E (insert (i, j, k) S) T (Q.addPage q)
        (Space.copyPage A ts.vpn bs td.vpn bd k q s') ∧
      Stay dst s T (Space.copyPage A ts.vpn bs td.vpn bd k q s') T := by
  obtain ⟨hb₁, hsame₁, hleaf₁, hnew, -⟩ := h.built.dmalloc hd
  have hT₁ := hsame₁.mono Footprint.le_union_left
  have hQR₁ := hsame₁.mono Footprint.le_union_right
  have hR₁ : Same s₀ s' R := h.rest.trans (hQR₁.mono Footprint.le_union_right)
  have hshort : Short [i, j] := Nat.le_refl 2
  have hq : q ∈ (Q.addPage q).pages := .inl rfl
  have hgood := hb₁.good hq
  -- what the parent has in the slot
  have hentry : leafAt s₀ src (i, j, k) = (s₀.mem ts.pfn k, s₀.leaves bs k) := hat₀.entry_eq k
  have hne₀ : (leafAt s₀ src (i, j, k)).2 ≠ 0 := by
    rw [hentry]
    exact hne
  have hload := (hb₁.reads hR₁ hle hat₀ k).1
  have hflags := goodFlags_getFlags (s₀.mem ts.pfn k)
  -- the entry and the kernel page
  have hold : Leaves (leafAt s' dst) trampoline Q.pages := hleaf₁ ▸ h.built.leaves
  obtain ⟨hb₂, hsame₂, hleaf₂, hstay₂⟩ := hb₁.putLeaf (hat.congr h.built.tree hT₁ hshort)
    (hb₁.leaves.put (x := (i, j, k)) hq hgood.2.1 hflags (hb₁.unused hold hnew) hgood.1)
  obtain ⟨s₂, hs₂⟩ : ∃ s₂, s₂ = (s'.store A td.vpn k
    (pte q.pfn (getFlags (s₀.mem ts.pfn k)))).setLeaf bd k q.vpn := ⟨_, rfl⟩
  obtain ⟨words, hw⟩ : ∃ words, words = s₂.mem (A.frame s₂.heap (s₂.leaves bs k)) := ⟨_, rfl⟩
  have hcopy : Space.copyPage A ts.vpn bs td.vpn bd k q s' = s₂.writePage A q.vpn words := by
    rw [Space.copyPage, hload, hw, hs₂]
  have hrefs : s₂.refs = s'.refs := by rw [hs₂]; rfl
  have hheap : s₂.heap = s'.heap := by rw [hs₂]; rfl
  rw [← hs₂] at hb₂ hsame₂ hleaf₂ hstay₂
  have hR₂ : Same s₀ s₂ R := hR₁.trans (hsame₂.mono Footprint.le_union_right)
  rw [hcopy]
  obtain ⟨hb₃, hsame₃, hleaf₃, hwords, hother⟩ := hb₂.writePage hq words
  have hleaf : leafAt (s₂.writePage A q.vpn words) dst =
      Function.update (leafAt s dst) (i, j, k) (pte q.pfn (getFlags (s₀.mem ts.pfn k)), q.vpn) := by
    rw [hleaf₃, hleaf₂, hleaf₁]
  have hothers : ∀ x, x ≠ (i, j, k) → leafAt (s₂.writePage A q.vpn words) dst x = leafAt s dst x :=
    fun x hx => by rw [hleaf, Function.update_of_ne hx]
  have hstay : Stay dst s T (s₂.writePage A q.vpn words) T := fun p c b hp hat' =>
    (hstay₂ p c b hp (hat'.congr h.built.tree hT₁ hp)).congr hb₂.tree
      (hsame₃.mono Footprint.le_union_left) hp
  have htakes : Takes A s₀.heap .none s'.heap (T.union (Q.addPage q)) := by
    rw [Footprint.addPage_union]
    exact h.takes.trans (.of_dmalloc hd)
  refine ⟨⟨hb₃, hR₂.trans (hsame₃.mono Footprint.le_union_right), fun p hp hE => ?_, fun x hx' => ?_,
    fun x hx' => ?_, hheap ▸ htakes, h.reached.stay hstay, ?_, h.refs⟩, hstay⟩
  · have hwalk : refOf (s₂.writePage A q.vpn words) dst p = refOf s' dst p :=
      congrArg (fun f => Radix.walk refChild f dst.ref p) hrefs
    rw [hwalk, (h.built.tree.walks_congr hT₁ hp).2]
    exact h.tables p hp hE
  · rw [hothers x fun he => hx' (.inl he)]
    exact h.todo x fun hin => hx' (.inr hin)
  · rcases hx' with rfl | hin
    · refine ⟨fun hz => absurd hz hne₀, fun _ => ?_, fun _ => ?_, fun _ hR => ?_⟩
      · rw [hleaf, Function.update_self]
        exact hgood.1
      · rw [hleaf, Function.update_self, hentry]
        exact getFlags_pte hgood.2.1 hflags
      · -- the contents of a page that stays as it is
        have hleaves : s₂.leaves bs k = (leafPage (leafAt s₀ src (i, j, k))).vpn := by
          rw [hR₂.leaves _ (hle.refs hat₀.ref), leafPage, hentry]
        rw [hleaf, Function.update_self, leafPage_pte hgood.2.1 hflags, hwords, hw, hleaves,
          (V.page hb₂.own.valid (.inr (.inr hR))).2.2, hR₂.mem _ hR]
    · refine (h.done x hin).congr (hothers x fun he => hx (he ▸ hin)) fun hnex => ?_
      have hpx : leafPage (leafAt s dst x) ∈ Q.pages := h.built.leaves.held x hnex
      rw [hother _ (.inr hpx) fun he => hnew (he ▸ hpx), hsame₂.mem _ (.inl (.inr hpx))]
      exact hQR₁.mem _ (.inl hpx)
  · exact h.placed.put (by rw [h.todo _ hx]) hleaf hgood.1 (leafPage_pte hgood.2.1 hflags)

section Steps

variable (hsrc : UserTree s₀ src Ts) (hle : Ts.Le R)

include hle in
/-- The loop over the slots of a table. -/
theorem Copying.copyLeaves (hat₀ : At s₀ src Ts [i, j] ts bs) {ks : List (Fin 512)} (hks : ks.Nodup)
    (h : Copying V s₀ src dst trampoline R E S T Q s) (hat : At s dst T [i, j] td bd)
    (hS : ∀ k ∈ ks, (i, j, k) ∉ S)
    (hrun : Space.copyLeaves A ts.vpn bs td.vpn bd ks s = some s') :
    ∃ Q', Copying V s₀ src dst trampoline R E (S ∪ {x | ∃ k ∈ ks, (i, j, k) = x}) T Q' s' ∧
      Stay dst s T s' T := by
  induction ks generalizing S Q s with
  | nil =>
      cases hrun
      exact ⟨Q, h.skip _ (by rintro x ⟨k, hk, -⟩; cases hk), .refl dst _ T⟩
  | cons k ks ih =>
      obtain ⟨hk, hks⟩ := List.nodup_cons.mp hks
      have hSk := hS k List.mem_cons_self
      have hleaf := (h.built.reads h.rest hle hat₀ k).2.2
      have hentry : leafAt s₀ src (i, j, k) = (s₀.mem ts.pfn k, s₀.leaves bs k) := hat₀.entry_eq k
      have hrest : ∀ k' ∈ ks, (i, j, k') ∉ insert (i, j, k) S := fun k' hk' hin => by
        rcases hin with he | hin
        · cases he
          exact hk hk'
        · exact hS k' (List.mem_cons_of_mem k hk') hin
      have hslots : insert (i, j, k) S ∪ {x | ∃ k' ∈ ks, (i, j, k') = x} =
          S ∪ {x | ∃ k' ∈ k :: ks, (i, j, k') = x} := by
        ext x
        simp only [Set.mem_union, Set.mem_insert_iff, Set.mem_ofPred_eq, List.exists_mem_cons_iff,
          eq_comm (a := x), or_assoc]
        exact or_left_comm
      rw [← hslots]
      rw [Space.copyLeaves, hleaf] at hrun
      split at hrun
      · rename_i hzero
        have hskip := h.skip {(i, j, k)} (by
          rintro x rfl
          rw [hentry]
          exact hzero)
        rw [Set.union_singleton] at hskip
        exact ih hks hskip hat hrest hrun
      · rename_i hne
        obtain ⟨⟨q, s₁⟩, hd, hrun⟩ := Option.bind_eq_some_iff.1 hrun
        obtain ⟨hstep, hstay⟩ := h.copyPage hle hat₀ hat hSk hne hd
        obtain ⟨Q', h', hstay'⟩ := ih hks hstep (hstay _ _ _ (Nat.le_refl 2) hat) hrest hrun
        exact ⟨Q', h', hstay.trans hstay'⟩

include hsrc hle

/-- A table below an entry. -/
theorem Copying.copyBelow (S' : Set Slot)
    (below : Nat → Nat → Nat → Nat → Memory ω → Option (Memory ω)) (hat₀ : At s₀ src Ts p ts bs)
    (hat : At s dst T p td bd) (hp : p.length ≤ 1) (hE : p ++ [i] ∉ E)
    (hnone : refOf s₀ src (p ++ [i]) = none → ∀ x ∈ S', (leafAt s₀ src x).2 = 0)
    (hsub : insert (p ++ [i]) E ⊆ E')
    (hbelow : ∀ t₀ b₀ t₁ b₁ T₁ s₁, At s₀ src Ts (p ++ [i]) t₀ b₀ → At s₁ dst T₁ (p ++ [i]) t₁ b₁ →
      Copying V s₀ src dst trampoline R (insert (p ++ [i]) E) S T₁ Q s₁ →
      below t₀.vpn b₀ t₁.vpn b₁ s₁ = some s' →
      ∃ T' Q', Copying V s₀ src dst trampoline R E' (S ∪ S') T' Q' s' ∧ Stay dst s₁ T₁ s' T')
    (h : Copying V s₀ src dst trampoline R E S T Q s)
    (hrun : Space.copyBelow A td.vpn bd (refPages (p ++ [i])) i (s.refs bs i) below s = some s') :
    ∃ T' Q', Copying V s₀ src dst trampoline R E' (S ∪ S') T' Q' s' ∧ Stay dst s T s' T' := by
  rw [Space.copyBelow, (h.built.reads h.rest hle hat₀ i).2.1] at hrun
  rcases hsrc.below hat₀ hp i with hzero | ⟨t₀, b₀, hat₀', hentry, hne, -⟩
  · rw [if_pos hzero] at hrun
    cases hrun
    have href : refOf s₀ src (p ++ [i]) = none := by
      rw [refOf_snoc hat₀.refOf, refChild, if_pos hzero]
    exact ⟨T, Q, (h.skip S' (hnone href)).mono ((Set.subset_insert _ E).trans hsub), .refl dst _ T⟩
  · rw [hentry, if_neg hne] at hrun
    obtain ⟨⟨t, s₁⟩, hd, hrun⟩ := Option.bind_eq_some_iff.1 hrun
    obtain ⟨⟨c, s₂⟩, hk, hrun⟩ := Option.bind_eq_some_iff.1 hrun
    have hempty : (s.refs bd i).ptable = 0 := by
      have hno := h.tables (p ++ [i]) (snoc_short hp i) hE
      rw [refOf_snoc hat.refOf, refChild] at hno
      by_contra hcon
      rw [if_neg hcon] at hno
      cases hno
    obtain ⟨T₁, hb, hsame, hleaf, hat', hstay, hothers, htakes, hreached⟩ :=
      h.built.link hat hp hempty hd hk
    have h₁ : Copying V s₀ src dst trampoline R (insert (p ++ [i]) E) S T₁ Q
        ((s₂.store A td.vpn i (pte t.pfn pteValid)).setRef bd i ⟨t.vpn, c⟩) := by
      refine ⟨hb, h.rest.trans (hsame.mono Footprint.le_union_right), fun p' hp' hnot => ?_,
        fun x hx => ?_, fun x hx => ?_, h.takes.trans htakes, hreached h.reached,
        h.placed.congr hleaf, h.refs⟩
      · rw [hothers p' hp' fun he => hnot (.inl he)]
        exact h.tables p' hp' fun hin => hnot (.inr hin)
      · rw [hleaf]
        exact h.todo x hx
      · exact (h.done x hx).congr (congrFun hleaf x) fun hnex =>
          hsame.mem _ (.inl (h.built.leaves.held x hnex))
    obtain ⟨T', Q', h', hstay'⟩ := hbelow t₀ b₀ t c T₁ _ hat₀' hat' h₁ hrun
    exact ⟨T', Q', h', Stay.trans hstay hstay'⟩

/-- The loop over the entries of a table of the level 1. -/
theorem Copying.copyLevel1 (hat₀ : At s₀ src Ts [i] ts bs) {js : List (Fin 512)} (hjs : js.Nodup)
    (h : Copying V s₀ src dst trampoline R E S T Q s) (hat : At s dst T [i] td bd)
    (hE : ∀ j ∈ js, [i, j] ∉ E) (hS : ∀ j ∈ js, ∀ k, (i, j, k) ∉ S)
    (hrun : Space.copyLevel1 A bs td.vpn bd js s = some s') :
    ∃ T' Q', Copying V s₀ src dst trampoline R (E ∪ {p | ∃ j ∈ js, [i, j] = p})
        (S ∪ {x | ∃ j ∈ js, ∃ k, (i, j, k) = x}) T' Q' s' ∧ Stay dst s T s' T' := by
  induction js generalizing E S T Q s with
  | nil =>
      cases hrun
      refine ⟨T, Q, (h.skip _ ?_).mono Set.subset_union_left, .refl dst _ T⟩
      rintro x ⟨j, hj, -⟩
      cases hj
  | cons j js ih =>
      obtain ⟨hj, hjs⟩ := List.nodup_cons.mp hjs
      obtain ⟨s₁, hrun₁, hrun⟩ := Option.bind_eq_some_iff.1 hrun
      have hSj := hS j List.mem_cons_self
      obtain ⟨T₁, Q₁, h₁, hstay₁⟩ := h.copyBelow hsrc hle (i := j)
        {x | ∃ k ∈ List.finRange 512, (i, j, k) = x}
        (fun srcTable srcRef dstTable dstRef =>
          Space.copyLeaves A srcTable srcRef dstTable dstRef (List.finRange 512)) hat₀ hat (Nat.le_refl 1)
        (hE j List.mem_cons_self)
        (by
          rintro hnone x ⟨k, -, rfl⟩
          rw [leafAt_none hnone])
        subset_rfl
        (fun t₀ b₀ t₁ b₁ T₁ s₁ hat₀' hat' h' hr => by
          obtain ⟨Q', hc, hs⟩ := Copying.copyLeaves hle hat₀' (List.nodup_finRange 512) h' hat'
            (fun k _ => hSj k) hr
          exact ⟨T₁, Q', hc, hs⟩) hrun₁
      have hE₁ : ∀ j' ∈ js, [i, j'] ∉ insert ([i] ++ [j]) E := by
        rintro j' hj' (he | hin)
        · cases he
          exact hj hj'
        · exact hE j' (List.mem_cons_of_mem j hj') hin
      have hS₁ : ∀ j' ∈ js, ∀ k, (i, j', k) ∉ S ∪ {x | ∃ k ∈ List.finRange 512, (i, j, k) = x} := by
        rintro j' hj' k (hin | ⟨k', -, he⟩)
        · exact hS j' (List.mem_cons_of_mem j hj') k hin
        · cases he
          exact hj hj'
      obtain ⟨T', Q', h', hstay⟩ := ih hjs h₁ (hstay₁ _ _ _ (Nat.le_succ 1) hat) hE₁ hS₁ hrun
      refine ⟨T', Q', ?_, hstay₁.trans hstay⟩
      have hslots : S ∪ {x | ∃ k ∈ List.finRange 512, (i, j, k) = x} ∪
          {x | ∃ j' ∈ js, ∃ k, (i, j', k) = x} = S ∪ {x | ∃ j' ∈ j :: js, ∃ k, (i, j', k) = x} := by
        simp only [Set.union_assoc, List.exists_mem_cons_iff, List.mem_finRange, true_and]
        rfl
      rw [← hslots]
      refine h'.mono ?_
      rintro p ((rfl | hp) | ⟨j', hj', rfl⟩)
      · exact .inr ⟨j, List.mem_cons_self, rfl⟩
      · exact .inl hp
      · exact .inr ⟨j', List.mem_cons_of_mem j hj', rfl⟩

/-- The loop over the entries of the root. -/
theorem Copying.copyLevel2 {is : List (Fin 512)} (his : is.Nodup)
    (h : Copying V s₀ src dst trampoline R E S T Q s) (hE : ∀ i ∈ is, ∀ p, i :: p ∉ E)
    (hS : ∀ i ∈ is, ∀ x, (i, x) ∉ S)
    (hrun : Space.copyLevel2 A src.ref dst.page.vpn dst.ref is s = some s') :
    ∃ E' T' Q', Copying V s₀ src dst trampoline R E' (S ∪ {x | ∃ i ∈ is, ∃ x', (i, x') = x})
      T' Q' s' := by
  induction is generalizing E S T Q s with
  | nil =>
      cases hrun
      refine ⟨E, T, Q, h.skip _ ?_⟩
      rintro x ⟨i, hi, -⟩
      cases hi
  | cons i is ih =>
      obtain ⟨hi, his⟩ := List.nodup_cons.mp his
      obtain ⟨s₁, hrun₁, hrun⟩ := Option.bind_eq_some_iff.1 hrun
      have hEi := hE i List.mem_cons_self
      have hSi := hS i List.mem_cons_self
      obtain ⟨T₁, Q₁, h₁, -⟩ := h.copyBelow hsrc hle (i := i)
        {x | ∃ j ∈ List.finRange 512, ∃ k, (i, j, k) = x}
        (fun _ srcRef dstTable dstRef =>
          Space.copyLevel1 A srcRef dstTable dstRef (List.finRange 512)) hsrc.at_nil
        h.built.tree.at_nil (Nat.zero_le 1) (hEi [])
        (by
          rintro hnone x ⟨j, -, k, rfl⟩
          rw [leafAt_none (refOf_append_none hnone [j])])
        Set.subset_union_left
        (fun t₀ b₀ t₁ b₁ T₁ s₁ hat₀' hat' h' hr =>
          Copying.copyLevel1 hsrc hle hat₀' (List.nodup_finRange 512) h' hat'
            (by
              rintro j - (he | hin)
              · cases he
              · exact hEi [j] hin)
            (fun j _ k => hSi (j, k)) hr) hrun₁
      have hE₁ : ∀ i' ∈ is, ∀ p, i' :: p ∉ insert ([] ++ [i]) E ∪
          {p | ∃ j ∈ List.finRange 512, [i, j] = p} := by
        rintro i' hi' p ((he | hin) | ⟨j, -, he⟩)
        · cases he
          exact hi hi'
        · exact hE i' (List.mem_cons_of_mem i hi') p hin
        · cases he
          exact hi hi'
      have hS₁ : ∀ i' ∈ is, ∀ x, (i', x) ∉ S ∪ {x | ∃ j ∈ List.finRange 512, ∃ k, (i, j, k) = x} := by
        rintro i' hi' x (hin | ⟨j, -, k, he⟩)
        · exact hS i' (List.mem_cons_of_mem i hi') x hin
        · cases he
          exact hi hi'
      obtain ⟨E', T', Q', h'⟩ := ih his h₁ hE₁ hS₁ hrun
      refine ⟨E', T', Q', ?_⟩
      have hslots : S ∪ {x | ∃ j ∈ List.finRange 512, ∃ k, (i, j, k) = x} ∪
          {x | ∃ i' ∈ is, ∃ x', (i', x') = x} = S ∪ {x | ∃ i' ∈ i :: is, ∃ x', (i', x') = x} := by
        simp only [Set.union_assoc, List.exists_mem_cons_iff, List.mem_finRange, true_and,
          Prod.exists]
        rfl
      rw [← hslots]
      exact h'

/-- `ptref_copy` fills an empty space with copies, and leaves the rest alone. -/
theorem Built.ptrefCopy (h : Built V s dst trampoline T Q R) (hrest : Same s₀ s R)
    (htables : ∀ p, Short p → p ≠ [] → refOf s dst p = none)
    (hempty : ∀ x, leafAt s dst x = (0, 0)) (htakes : Takes A s₀.heap .none s.heap (T.union Q))
    (hreached : Reached s dst T) (hplaced : Placed s dst Q) (hrefs : Q.refs = ∅)
    (hrun : Space.ptrefCopy A s dst src = some s') :
    ∃ E T' Q', Copying V s₀ src dst trampoline R E Set.univ T' Q' s' := by
  have hstart : Copying V s₀ src dst trampoline R {[]} ∅ T Q s :=
    ⟨h, hrest, htables, fun x _ => hempty x, fun _ hx => hx.elim, htakes, hreached, hplaced, hrefs⟩
  obtain ⟨E', T', Q', h'⟩ := Copying.copyLevel2 hsrc hle (List.nodup_finRange 512) hstart
    (fun i _ p he => by cases he) (fun _ _ _ hx => hx) hrun
  have hall : (∅ ∪ {x | ∃ i ∈ List.finRange 512, ∃ x', (i, x') = x} : Set Slot) = Set.univ :=
    Set.eq_univ_of_forall fun x => .inr ⟨x.1, List.mem_finRange x.1, x.2, rfl⟩
  rw [hall] at h'
  exact ⟨E', T', Q', h'⟩

end Steps

theorem UserTree.walkupt_eq (h : UserTree s src T) (v : Nat) :
    walkupt s src.ref v = (leafAt s src (slotOf v)).2 := by
  rcases h.at_or (show Short (pathOf v) from Nat.le_refl 2) with ⟨q, b, hat⟩ | ⟨-, hr⟩
  · rw [(h.walks_at hat).2]
    exact (congrArg Prod.snd (hat.entry_eq (vpnAt 0 v))).symm
  · rw [(h.walks_none hr).2, leafAt_none hr]

theorem UserTree.sv39_leafAt (h : UserTree s src T) (v : Nat) :
    (sv39Entry s.mem src.page.pfn v).2 = (leafAt s src (slotOf v)).1 := h.sv39_eq v

/-- A word of a page of the space is written. -/
theorem Built.store (h : Built V s src trampoline T Q R) (hq : q ∈ Q.pages) (k : Fin 512)
    (w : UInt64) :
    Built V (s.store A q.vpn k w) src trampoline T Q R ∧
      Same s (s.store A q.vpn k w) (T.union R) ∧
      leafAt (s.store A q.vpn k w) src = leafAt s src ∧
      (s.store A q.vpn k w).mem q.pfn = Function.update (s.mem q.pfn) k w ∧
      ∀ p ∈ Q.pages, p ≠ q → (s.store A q.vpn k w).mem p.pfn = s.mem p.pfn := by
  rw [Memory.store_eq_writePage, (h.good hq).2.2]
  exact h.writePage hq _

theorem trapframe_ne_trampoline : slotOf trapframeVpn ≠ slotOf trampolineVpn := by decide

/-- The address space of the child, up to the stores to its trap frame. -/
structure Forked (V : Lawful A) (B : Platform) (s₀ : Memory ω) (src dst : Root) (R T Q : Footprint)
    (s : Memory ω) : Prop where
  built : Built V s dst B.trampoline T Q R
  rest : Same s₀ s R
  trampoline : leafAt s dst (slotOf trampolineVpn) = (B.trampoline, 0)
  copies : ∀ x, x ≠ slotOf trampolineVpn → CopyOf R s₀ s src dst x
  takes : Takes A s₀.heap .none s.heap (T.union Q)
  reached : Reached s dst T
  placed : (leafAt s₀ src (slotOf trampolineVpn)).2 = 0 → Placed s dst Q
  refs : Q.refs = ∅

/-- The root, `ptref_copy` and the trampoline. -/
theorem UserTree.forked {B : Platform} {s₁ s₂ : Memory ω} (hsrc : UserTree s₀ src Ts) (hle : Ts.Le R)
    (ho : Own V s₀.heap .none R) (hroot : newRoot A s₀ = some (dst, s₁))
    (hcopy : Space.ptrefCopy A s₁ dst src = some s₂) (htramp : mapTrampoline A B s₂ dst = some s) :
    ∃ T Q, Forked V B s₀ src dst R T Q s := by
  obtain ⟨h₁, hR₁, htakes₁, hreached₁⟩ := newRoot_takes B.trampoline ho hroot
  have hwalks := (newRoot_empty ho hroot).2.2
  obtain ⟨E, T₂, Q₂, h₂⟩ := h₁.ptrefCopy hsrc hle hR₁ (fun p _ hp => (hwalks.walks hp).2)
    hwalks.leafAt_eq htakes₁ hreached₁ (fun _ hq => hq.elim) rfl hcopy
  obtain ⟨T₃, h₃, hsame₃, hleaf₃, htakes₃, hreached₃⟩ := h₂.built.mapTrampoline htramp
  refine ⟨T₃, Q₂, h₃, h₂.rest.trans (hsame₃.mono Footprint.le_union_right), ?_, fun x hx => ?_,
    h₂.takes.trans htakes₃, hreached₃ h₂.reached, fun hzero => ?_, h₂.refs⟩
  · rw [hleaf₃, Function.update_self]
  · refine (h₂.done x trivial).congr (by rw [hleaf₃, Function.update_of_ne hx]) fun hne => ?_
    exact hsame₃.mem _ (.inl (h₂.built.leaves.held x hne))
  · -- the slot of the trampoline had no page
    intro q hq
    obtain ⟨x, hne, hx⟩ := h₂.placed q hq
    have hxt : x ≠ slotOf trampolineVpn := by
      rintro rfl
      rw [(h₂.done _ trivial).none hzero] at hne
      exact hne rfl
    refine ⟨x, ?_, ?_⟩
    · rw [hleaf₃, Function.update_of_ne hxt]
      exact hne
    · rw [hleaf₃, Function.update_of_ne hxt]
      exact hx

/-- `sys_fork` makes an address space for the child, and leaves all others alone. -/
theorem Held.fork {B : Platform} {sp sp' : AddressSpace} (h : Held V s sp B.trampoline T Q R)
    (hf : forkSpace A B s sp = some (sp', s')) :
    ∃ T' Q', Held V s' sp' B.trampoline T' Q' ((T.union Q).union R) ∧
      Same s s' ((T.union Q).union R) := by
  obtain ⟨⟨root, s₁⟩, hroot, hf⟩ := Option.bind_eq_some_iff.1 hf
  obtain ⟨s₂, hcopy, hf⟩ := Option.bind_eq_some_iff.1 hf
  obtain ⟨s₃, htramp, hf⟩ := Option.bind_eq_some_iff.1 hf
  obtain ⟨⟨stack, s₄⟩, hk, hf⟩ := Option.bind_eq_some_iff.1 hf
  cases hf
  obtain ⟨T₃, Q₃, h₃⟩ := h.built.tree.forked
    (Footprint.le_union_left.trans Footprint.le_union_left) h.built.own_all.rest hroot hcopy htramp
  obtain ⟨h₄, hR₄, hleaf₄, -⟩ := h₃.built.kalloc (by decide) hk
  -- the trap frame of the child is the copy of its parent's
  have hwalkupt : walkupt s₃ root.ref trapframeVpn = (leafAt s₄ root (slotOf trapframeVpn)).2 := by
    rw [h₃.built.tree.walkupt_eq, hleaf₄]
  have hne : (leafAt s₄ root (slotOf trapframeVpn)).2 ≠ 0 := by
    rw [hleaf₄]
    exact (h₃.copies _ trapframe_ne_trampoline).some (h.trap ▸ h.trap_ne)
  have hpage := h₄.leaves.held _ hne
  rw [hwalkupt]
  obtain ⟨h₅, hR₅, hleaf₅, -⟩ := h₄.store hpage 35 (kernelSp stack)
  obtain ⟨h₆, hR₆, hleaf₆, -⟩ := h₅.store hpage 10 0
  have hright : ∀ {F : Footprint}, ((T.union Q).union R).Le (F.union ((T.union Q).union R)) :=
    Footprint.le_union_right
  refine ⟨T₃, _, ⟨h₆, ?_, hne, .inl rfl, ⟨h.heap.brk, h.heap.aligned, h.heap.lt⟩⟩, ?_⟩
  · exact congrArg Prod.snd (congrFun (hleaf₆.trans hleaf₅) (slotOf trapframeVpn))
  · exact h₃.rest.trans ((hR₄.mono (hright.trans Footprint.le_union_right)).trans
      ((hR₅.mono hright).trans (hR₆.mono hright)))

end Copy

end Space
