import Endros.Space.Room

/-!
# `sys_fork` copies an address space

An address space is loaded, and then pages are mapped in it and written.  Its pages
may be in several slots, and slots may be mapped again (`Parent`).  In between the rest
of the kernel does what it wants with what it has (`Elsewhere`).

What the parent has is part of the rest for the child.  So it stays as it is while the
child is filled, and `CopyOf` holds for all slots but that of the trampoline, which is
mapped after the copy.  Two words of the trap frame are changed last.
-/

namespace Space

open Lib Paging Mem

variable {ω : Type} {A : Allocator ω}

/-! ## The parent -/

/-- What others do with their part leaves all other parts alone. -/
def Elsewhere (V : Lawful A) (s : Memory ω) (O : Footprint) (s' : Memory ω) (O' : Footprint) : Prop :=
  ∀ F, Own V s.heap F O → Own V s'.heap F O' ∧ Same s s' F

/-- The pages in the slots. -/
def pagesOf (s : Memory ω) (r : Root) : Set Page :=
  {q | ∃ x, (leafAt s r x).2 ≠ 0 ∧ leafPage (leafAt s r x) = q}

/-- An address space built by `load_process` and calls of `uptmap`.  It has the pages
`P`, and the others have `O`.  Neither its program nor a later call has a page at
`TRAMPOLINE` or `TRAPFRAME`. -/
inductive Parent (V : Lawful A) (B : Platform) (sp : AddressSpace) :
    Memory ω → Set Page → Footprint → Prop where
  | load {s s' : Memory ω} {O : Footprint} {program : Program} : Own V s.heap .none O →
      loadProcess A B program s = some (sp, s') → program.Avoids (slotOf trampolineVpn) →
      program.Avoids (slotOf trapframeVpn) → Parent V B sp s' (pagesOf s' sp.root) O
  | dmalloc {s s' : Memory ω} {P : Set Page} {O : Footprint} {z : Bool} {p : Page} :
      Parent V B sp s P O → s.dmalloc A z = some (p, s') → Parent V B sp s' (insert p P) O
  | uptmap {s s' : Memory ω} {P : Set Page} {O : Footprint} {p : Page} {userVpn : Nat}
      {flags : UInt64} : Parent V B sp s P O → p ∈ P → slotOf userVpn ≠ slotOf trampolineVpn →
      slotOf userVpn ≠ slotOf trapframeVpn → GoodFlags flags →
      uptmap A s sp.root.page.vpn sp.root.ref p.vpn userVpn p.pfn flags = some s' →
      Parent V B sp s' P O
  | store {s : Memory ω} {P : Set Page} {O : Footprint} {p : Page} (i : Fin 512) (x : UInt64) :
      Parent V B sp s P O → p ∈ P → Parent V B sp (s.store A p.vpn i x) P O
  | others {s s' : Memory ω} {P : Set Page} {O O' : Footprint} :
      Parent V B sp s P O → Elsewhere V s O s' O' → Parent V B sp s' P O'

/-- What `sys_fork` needs of a parent. -/
structure Ready (V : Lawful A) (B : Platform) (s : Memory ω) (r : Root) (T Q O : Footprint) : Prop where
  own : Own V s.heap T (Q.union O)
  apart : Q.Apart O
  tree : UserTree s r T
  held : ∀ x, (leafAt s r x).2 ≠ 0 → leafPage (leafAt s r x) ∈ Q.pages
  trampoline : leafAt s r (slotOf trampolineVpn) = (B.trampoline, 0)
  trap : (leafAt s r (slotOf trapframeVpn)).2 ≠ 0

section Parent

variable {V : Lawful A} {B : Platform} {s s' : Memory ω} {r : Root} {sp : AddressSpace}
  {T Q O O' : Footprint} {P : Set Page} {p : Page}

/-- The tables keep their contents. -/
theorem Ready.congr {Q' : Footprint} (h : Ready V B s r T Q O) (ho : Own V s'.heap T (Q'.union O'))
    (hapart : Q'.Apart O') (hs : Same s s' T) (hQ : Q.pages ⊆ Q'.pages) : Ready V B s' r T Q' O' := by
  have hleaf := h.tree.leafAt_congr hs
  refine ⟨ho, hapart, h.tree.congr hs, fun x hx => ?_, ?_, ?_⟩
  · rw [hleaf] at hx ⊢
    exact hQ (h.held x hx)
  · rw [hleaf]
    exact h.trampoline
  · rw [hleaf]
    exact h.trap

theorem Held.ready (h : Held V s sp B.trampoline T Q O)
    (ht : leafAt s sp.root (slotOf trampolineVpn) = (B.trampoline, 0)) :
    Ready V B s sp.root T ⟨pagesOf s sp.root, Q.refs⟩ O := by
  have hle : Footprint.Le ⟨pagesOf s sp.root, Q.refs⟩ Q := by
    refine ⟨?_, subset_rfl⟩
    rintro q ⟨x, hx, rfl⟩
    exact h.built.leaves.held x hx
  refine ⟨h.built.own.mono (.refl T) (Footprint.union_mono hle (.refl O)),
    h.built.apart.mono hle (.refl O), h.built.tree, fun x hx => ⟨x, hx, rfl⟩, ht, ?_⟩
  rw [h.trap]
  exact h.trap_ne

theorem Ready.dmalloc (h : Ready V B s r T Q O) {z : Bool} (hd : s.dmalloc A z = some (p, s')) :
    Ready V B s' r T (Q.addPage p) O := by
  obtain ⟨ho, hT, -, hnew, -⟩ := h.own.dmalloc hd
  have hnotin : p ∉ (Q.union O).pages := ho.pages p (.inl rfl)
  have ho' := ho.give hnew
  rw [← Footprint.union_addPage] at ho'
  refine h.congr ho' ⟨?_, h.apart.refs⟩ hT fun q hq => .inr hq
  rintro q (rfl | hq) hO
  · exact hnotin (.inr hO)
  · exact h.apart.pages q hq hO

theorem Ready.uptmap (h : Ready V B s r T Q O) (hp : p ∈ Q.pages) {userVpn : Nat} {flags : UInt64}
    (htramp : slotOf userVpn ≠ slotOf trampolineVpn) (htrap : slotOf userVpn ≠ slotOf trapframeVpn)
    (hf : GoodFlags flags)
    (hu : uptmap A s r.page.vpn r.ref p.vpn userVpn p.pfn flags = some s') :
    ∃ T', Ready V B s' r T' Q O := by
  obtain ⟨T', hm⟩ := uptmap_mapped h.own h.tree hu
  have hleaf := hm.leafAt_eq
  have hpfn := (V.page h.own.valid (.inr (.inl hp))).2.1
  refine ⟨T', hm.own, h.apart, hm.tree, fun x hx => ?_, ?_, ?_⟩
  · rw [hleaf] at hx ⊢
    by_cases he : x = slotOf userVpn
    · rw [he, Function.update_self, leafPage_pte hpfn hf]
      exact hp
    · rw [Function.update_of_ne he] at hx ⊢
      exact h.held x hx
  · rw [hleaf, Function.update_of_ne htramp.symm]
    exact h.trampoline
  · rw [hleaf, Function.update_of_ne htrap.symm]
    exact h.trap

theorem Ready.store (h : Ready V B s r T Q O) (hp : p ∈ Q.pages) (i : Fin 512) (x : UInt64) :
    Ready V B (s.store A p.vpn i x) r T Q O := by
  have hframe := (V.page h.own.valid (.inr (.inl hp))).2.2
  refine h.congr h.own h.apart ⟨fun q hq => ?_, fun _ _ => rfl, fun _ _ => rfl⟩ subset_rfl
  show Radix.set s.mem (A.frame s.heap p.vpn) i x q.pfn = s.mem q.pfn
  rw [hframe]
  exact funext fun _ => Radix.set_of_ne fun he => absurd he (h.own.apart hq (.inl hp))

theorem Ready.others (h : Ready V B s r T Q O) (he : Elsewhere V s O s' O') :
    Ready V B s' r T Q O' := by
  obtain ⟨ho, hs⟩ := he _ (h.own.take_part h.apart)
  have hTQ := h.own.apart_parts.mono (.refl T) Footprint.le_union_left
  exact h.congr (ho.give_part hTQ) (ho.apart_parts.mono Footprint.le_union_right (.refl O'))
    (hs.mono Footprint.le_union_left) subset_rfl

/-- Whatever is done to it, the address space can be copied. -/
theorem Parent.ready (h : Parent V B sp s P O) : ∃ T Q, Q.pages = P ∧ Ready V B s sp.root T Q O := by
  induction h with
  | load ho hl htramp htrap =>
      obtain ⟨T, Q, hheld, -, hslots⟩ := loadProcess_held ho hl
      have ht := hslots _ htramp trapframe_ne_trampoline.symm
      rw [if_pos rfl] at ht
      exact ⟨T, _, rfl, hheld.ready ht⟩
  | dmalloc _ hd ih =>
      obtain ⟨T, Q, rfl, h⟩ := ih
      exact ⟨T, _, rfl, h.dmalloc hd⟩
  | uptmap _ hp htramp htrap hf hu ih =>
      obtain ⟨T, Q, rfl, h⟩ := ih
      obtain ⟨T', h'⟩ := h.uptmap hp htramp htrap hf hu
      exact ⟨T', Q, rfl, h'⟩
  | store i x _ hp ih =>
      obtain ⟨T, Q, rfl, h⟩ := ih
      exact ⟨T, Q, rfl, h.store hp i x⟩
  | others _ he ih =>
      obtain ⟨T, Q, rfl, h⟩ := ih
      exact ⟨T, Q, rfl, h.others he⟩

end Parent

/-! ## The copy -/

/-- The entry that the hardware finds for a page. -/
def entryOf (s : Memory ω) (r : Root) (v : Nat) : UInt64 := (sv39Entry s.mem r.page.pfn v).2

/-- The contents of a page, as the kernel sees them. -/
def contents (A : Allocator ω) (s : Memory ω) (r : Root) (v : Nat) : Fin 512 → UInt64 :=
  s.mem (A.frame s.heap (walkupt s r.ref v))

/-- The child has a copy of what the parent has, and nothing else has changed. -/
structure ForkCopies (A : Allocator ω) (s : Memory ω) (sp : AddressSpace) (P : Set Page)
    (O : Footprint) (s' : Memory ω) (sp' : AddressSpace) : Prop where
  mapped : ∀ v, walkupt s' sp'.root.ref v ≠ 0 ↔ walkupt s sp.root.ref v ≠ 0
  contents : ∀ v, walkupt s sp.root.ref v ≠ 0 → ¬ SamePage v trapframeVpn →
    contents A s' sp'.root v = contents A s sp.root v
  trapframe : ∀ k, Space.contents A s' sp'.root trapframeVpn k =
    if k = 10 then 0
    else if k = 35 then kernelSp sp'.kernelStackVpn
    else Space.contents A s sp.root trapframeVpn k
  flags : ∀ v, walkupt s sp.root.ref v ≠ 0 →
    getFlags (entryOf s' sp'.root v) = getFlags (entryOf s sp.root v)
  /-- The entry has the frame of the kernel page. -/
  frame : ∀ v, walkupt s sp.root.ref v ≠ 0 →
    getPfn (entryOf s' sp'.root v) = A.frame s'.heap (walkupt s' sp'.root.ref v)
  /-- No other page of the child has the frame, no page of somebody else, and no table. -/
  alone : ∀ v, walkupt s sp.root.ref v ≠ 0 →
    (∀ u, ¬ SamePage v u → entryOf s' sp'.root u &&& pteValid ≠ 0 →
      getPfn (entryOf s' sp'.root u) ≠ getPfn (entryOf s' sp'.root v)) ∧
    (∀ p ∈ P ∪ O.pages, p.pfn ≠ getPfn (entryOf s' sp'.root v)) ∧
    ∀ path f, Short path → tableOf s' sp'.root path = some f ∨ tableOf s' sp.root path = some f →
      f ≠ getPfn (entryOf s' sp'.root v)
  trampoline : entryOf s' sp'.root trampolineVpn = entryOf s sp.root trampolineVpn
  /-- The parent has the same pages with the same contents. -/
  pages : ∀ v, walkupt s' sp.root.ref v = walkupt s sp.root.ref v ∧
    entryOf s' sp.root v = entryOf s sp.root v ∧
    (walkupt s sp.root.ref v ≠ 0 → Space.contents A s' sp.root v = Space.contents A s sp.root v)
  /-- The parent has the same tables with the same contents. -/
  tables : ∀ path, Short path → tableOf s' sp.root path = tableOf s sp.root path ∧
    refOf s' sp.root path = refOf s sp.root path ∧
    (∀ f, tableOf s sp.root path = some f → s'.mem f = s.mem f) ∧
    ∀ b, refOf s sp.root path = some b → s'.refs b = s.refs b ∧ s'.leaves b = s.leaves b
  others : Same s s' O

section Fork

variable {V : Lawful A} {B : Platform} {s s' : Memory ω} {sp sp' : AddressSpace}
  {T Q O R : Footprint} {P : Set Page}

/-- The child behind the stores to its trap frame. -/
structure Child (V : Lawful A) (B : Platform) (s : Memory ω) (sp : AddressSpace) (R : Footprint)
    (s' : Memory ω) (sp' : AddressSpace) (T Q : Footprint) : Prop where
  built : Built V s' sp'.root B.trampoline T Q R
  rest : Same s s' R
  trampoline : leafAt s' sp'.root (slotOf trampolineVpn) = (B.trampoline, 0)
  copies : ∀ x, x ≠ slotOf trampolineVpn → x ≠ slotOf trapframeVpn →
    CopyOf R s s' sp.root sp'.root x
  trapframe : ∃ s₁, CopyOf R s s₁ sp.root sp'.root (slotOf trapframeVpn) ∧
    leafAt s' sp'.root = leafAt s₁ sp'.root ∧
    s'.mem (leafPage (leafAt s' sp'.root (slotOf trapframeVpn))).pfn =
      Function.update (Function.update
        (s₁.mem (leafPage (leafAt s' sp'.root (slotOf trapframeVpn))).pfn) 35
        (kernelSp sp'.kernelStackVpn)) 10 0

theorem Ready.child (h : Ready V B s sp.root T Q O) (hf : forkSpace A B s sp = some (sp', s')) :
    ∃ T' Q', Child V B s sp ((T.union Q).union O) s' sp' T' Q' := by
  obtain ⟨⟨root, s₁⟩, hroot, hf⟩ := Option.bind_eq_some_iff.1 hf
  obtain ⟨s₂, hcopy, hf⟩ := Option.bind_eq_some_iff.1 hf
  obtain ⟨s₃, htramp, hf⟩ := Option.bind_eq_some_iff.1 hf
  obtain ⟨⟨stack, s₄⟩, hk, hf⟩ := Option.bind_eq_some_iff.1 hf
  cases hf
  have hall : Own V s.heap .none ((T.union Q).union O) := (h.own.take_part h.apart).rest
  obtain ⟨T₃, Q₃, h₃⟩ := h.tree.forked (Footprint.le_union_left.trans Footprint.le_union_left) hall hroot
    hcopy htramp
  obtain ⟨h₄, hR₄, hleaf₄, hmem₄⟩ := h₃.built.kalloc (by decide) hk
  have htrap := h₃.copies _ trapframe_ne_trampoline
  obtain ⟨q, hq⟩ : ∃ q, q = leafPage (leafAt s₄ root (slotOf trapframeVpn)) := ⟨_, rfl⟩
  have hne : (leafAt s₄ root (slotOf trapframeVpn)).2 ≠ 0 := by
    rw [hleaf₄]
    exact htrap.some h.trap
  have hpage : q ∈ (Q₃.addRef stack kernelStackPages).pages := hq ▸ h₄.leaves.held _ hne
  have hwalkupt : walkupt s₃ root.ref trapframeVpn = q.vpn := by
    rw [h₃.built.tree.walkupt_eq, hq, hleaf₄]
    rfl
  rw [hwalkupt]
  obtain ⟨h₅, hR₅, hleaf₅, hwords₅, hother₅⟩ := h₄.store hpage 35 (kernelSp stack)
  obtain ⟨h₆, hR₆, hleaf₆, hwords₆, hother₆⟩ := h₅.store hpage 10 0
  have hleaf : leafAt (((s₄.store A q.vpn 35 (kernelSp stack))).store A q.vpn 10 0) root =
      leafAt s₃ root := by
    rw [hleaf₆, hleaf₅, hleaf₄]
  have hright : ∀ {F : Footprint}, ((T.union Q).union O).Le (F.union ((T.union Q).union O)) :=
    Footprint.le_union_right
  refine ⟨T₃, _, h₆, ?_, ?_, fun x hx hx' => ?_, s₃, htrap, hleaf, ?_⟩
  · exact h₃.rest.trans ((hR₄.mono (hright.trans Footprint.le_union_right)).trans
      ((hR₅.mono hright).trans (hR₆.mono hright)))
  · exact (congrFun hleaf _).trans h₃.trampoline
  · refine (h₃.copies x hx).congr (congrFun hleaf x) fun hnex => ?_
    have hpx : leafPage (leafAt s₃ root x) ∈ Q₃.pages := h₃.built.leaves.held x hnex
    have hxq : leafPage (leafAt s₃ root x) ≠ q := fun he => by
      rw [hq, hleaf₄] at he
      exact hx' (h₃.built.leaves.inj x _ hnex (congrArg Page.vpn he))
    rw [hother₆ _ hpx hxq, hother₅ _ hpx hxq, hmem₄]
  · show Memory.mem _ (leafPage (leafAt _ root _)).pfn = Function.update (Function.update
      (s₃.mem (leafPage (leafAt _ root _)).pfn) 35 _) 10 0
    rw [hleaf, ← hleaf₄, ← hq, hwords₆, hwords₅, hmem₄]

/-- The slots of the child. -/
theorem Child.slot {T' Q' : Footprint} (c : Child V B s sp R s' sp' T' Q') {x : Slot}
    (hx : x ≠ slotOf trampolineVpn) :
    ((leafAt s sp.root x).2 = 0 → leafAt s' sp'.root x = (0, 0)) ∧
      ((leafAt s sp.root x).2 ≠ 0 → (leafAt s' sp'.root x).2 ≠ 0 ∧
        getFlags (leafAt s' sp'.root x).1 = getFlags (leafAt s sp.root x).1) := by
  by_cases htrap : x = slotOf trapframeVpn
  · obtain ⟨s₁, hcopy, hleaf, -⟩ := c.trapframe
    rw [htrap, hleaf]
    exact ⟨hcopy.none, fun hne => ⟨hcopy.some hne, hcopy.flags hne⟩⟩
  · have hcopy := c.copies x hx htrap
    exact ⟨hcopy.none, fun hne => ⟨hcopy.some hne, hcopy.flags hne⟩⟩

/-- The contents of a page in use. -/
theorem UserTree.contents_eq {r : Root} {D : Set Page} {K : Set (Nat × Nat)} (h : UserTree s r T)
    (hv : V.Valid s.heap D K) {v : Nat} (hD : leafPage (leafAt s r (slotOf v)) ∈ D) :
    contents A s r v = s.mem (leafPage (leafAt s r (slotOf v))).pfn := by
  have hframe := (V.page hv hD).2.2
  rw [contents, h.walkupt_eq]
  exact congrArg s.mem hframe

/-- The frame of a page of the child is that of no other page. -/
theorem Built.alone {r : Root} {trampoline : UInt64} (h : Built V s r trampoline T Q R)
    (htramp : ∀ q ∈ Q.pages, q.pfn ≠ getPfn trampoline) {x : Slot} (hx : (leafAt s r x).2 ≠ 0) :
    (∀ y, y ≠ x → (leafAt s r y).1 &&& pteValid ≠ 0 →
      getPfn (leafAt s r y).1 ≠ getPfn (leafAt s r x).1) ∧
    (∀ p ∈ R.pages, p.pfn ≠ getPfn (leafAt s r x).1) ∧
    ∀ path f, Short path → tableOf s r path = some f → f ≠ getPfn (leafAt s r x).1 := by
  have hpage := h.leaves.held x hx
  refine ⟨fun y hy hvalid he => ?_, fun p hp => ?_, fun path f hpath hf => ?_⟩
  · by_cases hzero : (leafAt s r y).2 = 0
    · rcases h.leaves.unheld y hzero with hentry | hentry
      · rw [hentry] at hvalid
        exact hvalid rfl
      · rw [hentry] at he
        exact htramp _ hpage he.symm
    · have heq : leafPage (leafAt s r y) = leafPage (leafAt s r x) :=
        V.inj h.own.valid (.inr (.inl (h.leaves.held y hzero))) (.inr (.inl hpage)) he
      exact hy (h.leaves.inj y x hzero (congrArg Page.vpn heq))
  · exact (h.own_all.apart (.inr hpage) hp).symm
  · obtain ⟨q, b, hat, rfl⟩ := h.tree.at_of_table hpath hf
    exact h.own.apart hat.page (.inl hpage)

/-- `sys_fork` copies every address space that was built by `load_process` and calls of
`uptmap`. -/
theorem fork_copies (V : Lawful A) (B : Platform) (hB : B.strampoline < 2 ^ 54)
    (hkernel : ∀ w D K, V.Valid w D K → ∀ p ∈ D, p.pfn ≠ B.strampoline)
    {s s' : Memory ω} {sp sp' : AddressSpace} {P : Set Page} {O : Footprint}
    (hparent : Parent V B sp s P O) (hfork : forkSpace A B s sp = some (sp', s')) :
    ForkCopies A s sp P O s' sp' := by
  obtain ⟨T, Q, rfl, h⟩ := hparent.ready
  obtain ⟨T', Q', c⟩ := h.child hfork
  have hw' : ∀ v, walkupt s' sp'.root.ref v = (leafAt s' sp'.root (slotOf v)).2 :=
    c.built.tree.walkupt_eq
  have hw : ∀ v, walkupt s sp.root.ref v = (leafAt s sp.root (slotOf v)).2 := h.tree.walkupt_eq
  have he' : ∀ v, entryOf s' sp'.root v = (leafAt s' sp'.root (slotOf v)).1 :=
    c.built.tree.sv39_leafAt
  have he : ∀ v, entryOf s sp.root v = (leafAt s sp.root (slotOf v)).1 := h.tree.sv39_leafAt
  -- a page of the parent is not at the trampoline
  have hslot : ∀ {v}, walkupt s sp.root.ref v ≠ 0 → slotOf v ≠ slotOf trampolineVpn := fun hv hx => by
    rw [hw, hx, h.trampoline] at hv
    exact hv rfl
  have hsome : ∀ {v}, walkupt s sp.root.ref v ≠ 0 → (leafAt s' sp'.root (slotOf v)).2 ≠ 0 :=
    fun hv => ((c.slot (hslot hv)).2 (hw _ ▸ hv)).1
  have hheld : ∀ {v}, walkupt s sp.root.ref v ≠ 0 →
      leafPage (leafAt s sp.root (slotOf v)) ∈ ((T.union Q).union O).pages :=
    fun hv => .inl (.inr (h.held _ (hw _ ▸ hv)))
  have hvalid : V.Valid s.heap ((T.union Q).union O).pages ((T.union Q).union O).refs :=
    (h.own.take_part h.apart).valid
  have hvalid' := c.built.own.valid
  have hcontents : ∀ {v}, walkupt s sp.root.ref v ≠ 0 → contents A s sp.root v =
      s.mem (leafPage (leafAt s sp.root (slotOf v))).pfn := fun hv =>
    h.tree.contents_eq hvalid (hheld hv)
  have hcontents' : ∀ {v}, walkupt s sp.root.ref v ≠ 0 → contents A s' sp'.root v =
      s'.mem (leafPage (leafAt s' sp'.root (slotOf v))).pfn := fun hv =>
    c.built.tree.contents_eq hvalid' (.inr (.inl (c.built.leaves.held _ (hsome hv))))
  have htrap : walkupt s sp.root.ref trapframeVpn ≠ 0 := hw _ ▸ h.trap
  have hT : Same s s' T := c.rest.mono (Footprint.le_union_left.trans Footprint.le_union_left)
  have hleaf := h.tree.leafAt_congr hT
  have htree' := h.tree.congr hT
  refine ⟨fun v => ?_, fun v hv hne => ?_, fun k => ?_, fun v hv => ?_, fun v hv => ?_, fun v hv => ?_, ?_,
    fun v => ⟨?_, ?_, fun hv => ?_⟩, fun path hpath => ⟨?_, ?_, fun f hf => ?_, fun b hb => ?_⟩,
    c.rest.mono Footprint.le_union_right⟩
  · by_cases hx : slotOf v = slotOf trampolineVpn
    · rw [hw', hw, hx, c.trampoline, h.trampoline]
    · rw [hw', hw]
      constructor
      · intro hv hzero
        rw [(c.slot hx).1 hzero] at hv
        exact hv rfl
      · exact fun hv => ((c.slot hx).2 hv).1
  · have hx : slotOf v ≠ slotOf trapframeVpn := fun heq => hne ((slotOf_eq_iff _ _).mp heq)
    rw [hcontents' hv, hcontents hv]
    exact (c.copies _ (hslot hv) hx).words (hw _ ▸ hv) (hheld hv)
  · obtain ⟨s₁, hcopy, hleaf₁, hwords⟩ := c.trapframe
    have hold := hcopy.words h.trap (hheld htrap)
    rw [hcontents' htrap, hwords, hcontents htrap, hleaf₁, hold, Function.update_apply,
      Function.update_apply]
  · rw [he', he]
    exact ((c.slot (hslot hv)).2 (hw _ ▸ hv)).2
  · have hpage := c.built.leaves.held _ (hsome hv)
    rw [he', hw']
    exact (c.built.good hpage).2.2.symm
  · obtain ⟨hother, hrest, htables⟩ := c.built.alone
      (fun q hq => getPfn_pte hB (show trampolineFlags.toNat < 1024 by decide) ▸
        hkernel _ _ _ hvalid' q (.inr (.inl hq))) (hsome hv)
    refine ⟨fun u hu hvalidu => ?_, fun p hp => ?_, fun path f hpath hf => ?_⟩
    · rw [he'] at hvalidu ⊢
      rw [he']
      exact hother _ (fun heq => hu ((slotOf_eq_iff _ _).mp heq.symm)) hvalidu
    · rw [he']
      exact hrest p (hp.elim (fun hq => .inl (.inr hq)) .inr)
    · rw [he']
      rcases hf with hf | hf
      · exact htables path f hpath hf
      · obtain ⟨q, b, hat, rfl⟩ := htree'.at_of_table hpath hf
        exact hrest q (.inl (.inl hat.page))
  · rw [he', he, c.trampoline, h.trampoline]
  · rw [htree'.walkupt_eq, hw, hleaf]
  · rw [entryOf, htree'.sv39_leafAt, he, hleaf]
  · have hR := hheld hv
    rw [htree'.contents_eq hvalid' (.inr (.inr (by rw [hleaf]; exact hR))), hcontents hv, hleaf]
    exact c.rest.mem _ hR
  · exact (h.tree.walks_congr hT hpath).1
  · exact (h.tree.walks_congr hT hpath).2
  · obtain ⟨q, b, hat, rfl⟩ := h.tree.at_of_table hpath hf
    exact hT.mem q hat.page
  · obtain ⟨q, hat⟩ := h.tree.at_of_ref hpath hb
    exact ⟨hT.refs _ hat.ref, hT.leaves _ hat.ref⟩

end Fork

/-- A machine with as much memory as the tables can name. -/
def largeMemory : Memory Alloc.Heap := { bootMemory with heap := .boot 0x80206 (2 ^ 44) [] fun _ => 0 }

theorem largeMemory_own : Own (heapLawful 0x80206) largeMemory.heap .none .none := by
  refine .of ⟨[], [], Alloc.Heap.boot_inv [] _ (by decide) (by decide), ?_, ?_⟩ Footprint.apart_none
  · exact fun _ h => h.elim False.elim False.elim
  · exact fun _ h => h.elim False.elim False.elim

theorem emptyProgram_avoids {v : Nat} (hv : 2 ^ 26 ≤ v % 2 ^ 27) : emptyProgram.Avoids (slotOf v) where
  segments i hi := absurd hi (Nat.not_lt_zero i)
  stack j hj he := by
    have hsame := (slotOf_eq_iff _ _).mp he
    simp only [SamePage, userStackPages] at hsame hj
    have hzero : emptyProgram.maxVpn emptyProgram.ePhnum = 0 := rfl
    rw [hzero] at hsame
    omega

/-- A process without segments is loaded, and forks. -/
theorem fork_copies_empty : ∃ sp s sp' s', Parent (heapLawful 0x80206) board sp s (pagesOf s sp.root) .none ∧
    forkSpace heapAllocator board s sp = some (sp', s') ∧
    ForkCopies heapAllocator s sp (pagesOf s sp.root) .none s' sp' := by
  obtain ⟨sp, s, hload, hroom⟩ := loadProcess_returns heapRoomy (s := largeMemory) (n := forkPages) board
    emptyProgram (show largeMemory.heap.pfnStart + 3 * (forkPages + emptyProgram.pages) ≤
      largeMemory.heap.maxPfn by decide)
  obtain ⟨sp', s', hfork⟩ := forkSpace_returns heapRoomy board sp hroom
  have hparent : Parent (heapLawful 0x80206) board sp s (pagesOf s sp.root) .none :=
    .load largeMemory_own hload (emptyProgram_avoids (by decide)) (emptyProgram_avoids (by decide))
  have hkernel : ∀ w D K, HeapValid 0x80206 w D K → ∀ p ∈ D, p.pfn ≠ board.strampoline :=
    fun w D K hv p hp he => absurd (he ▸ hv.low_le hp) (by decide)
  exact ⟨sp, s, sp', s', hparent, hfork,
    fork_copies (heapLawful 0x80206) board (by decide) hkernel hparent hfork⟩

end Space
