import Endros.Paging.Guard
import Endros.Space.Fork

/-!
# A fork that is freed

The steps of `sys_fork` take pages and regions, and `free_process_space` of the child
gives back the same ones, if the parent has no page at the trampoline.  A page there is
copied before the trampoline is mapped over it, and then it is in no slot.

The regions in use are counted with lists (`heapAccount`): those in use before, and
beside them those of the footprint.  So at the end the lists are what they were.
-/

namespace Space

open Lib Paging Alloc

variable {ω : Type} {A : Allocator ω}

/-! ## The lists of the heap -/

/-- The region of a page from `dmalloc`. -/
def Page.span (p : Page) : Span Nat := ⟨p.vpn, 1, p.pfn⟩

/-- The region of an address and a number of pages. -/
def regionSpan (a : Nat × Nat) : Span Unit := ⟨a.1, a.2, ()⟩

theorem span_inj {p q : Page} (h : p.span = q.span) : p = q := by
  cases p
  cases q
  cases h
  rfl

theorem regionSpan_inj {a b : Nat × Nat} (h : regionSpan a = regionSpan b) : a = b := by
  cases a
  cases b
  cases h
  rfl

/-- Beside `live` and `klive`, the pages and regions of the footprint are in use. -/
structure Beside (low : Nat) (live : List (Span Nat)) (klive : List (Span Unit)) (h : Heap)
    (F : Footprint) (L : List (Span Nat)) (K : List (Span Unit)) : Prop where
  inv : Inv low h (L ++ live) (K ++ klive)
  nodup : L.Nodup
  knodup : K.Nodup
  pages : ∀ x, x ∈ L ↔ ∃ p ∈ F.pages, p.span = x
  refs : ∀ x, x ∈ K ↔ ∃ a ∈ F.refs, regionSpan a = x

section Beside

variable {low n b : Nat} {live L : List (Span Nat)} {klive K : List (Span Unit)} {h h' : Heap}
  {F : Footprint} {p : Page} {m m' : Phys} {z : Bool}

theorem Beside.dmalloc (hb : Beside low live klive h F L K)
    (hd : heapAllocator.dmalloc h m z = some (p, h', m')) :
    Beside low live klive h' (F.addPage p) (p.span :: L) K := by
  obtain ⟨⟨s, h₁⟩, hs, he⟩ := Option.map_eq_some_iff.1 hd
  obtain ⟨hi, hsize⟩ := hb.inv.dmalloc (Nat.le_refl 1) hs
  cases he
  have hspan : s = Page.span ⟨s.tag, s.start⟩ := by
    cases s
    cases hsize
    rfl
  rw [← hspan]
  have hhas : s.Has s.start := Span.has_start (hsize ▸ Nat.le_refl 1)
  refine ⟨hi, List.nodup_cons.2 ⟨fun hin => ?_, hb.nodup⟩, hb.knodup, fun x => ?_, hb.refs⟩
  · exact hi.dma.not_has hhas (List.mem_append_left _ (List.mem_append_left _ hin)) hhas
  · rw [List.mem_cons, hb.pages]
    constructor
    · rintro (rfl | ⟨q, hq, rfl⟩)
      · exact ⟨_, .inl rfl, hspan.symm⟩
      · exact ⟨q, .inr hq, rfl⟩
    · rintro ⟨q, rfl | hq, rfl⟩
      · exact .inl hspan.symm
      · exact .inr ⟨q, hq, rfl⟩

theorem Beside.kalloc (hb : Beside low live klive h F L K) (hn : 1 ≤ n)
    (hk : heapAllocator.kalloc h n = some (b, h')) :
    Beside low live klive h' (F.addRef b n) L (regionSpan (b, n) :: K) := by
  obtain ⟨⟨s, h₁⟩, hs, he⟩ := Option.map_eq_some_iff.1 hk
  obtain ⟨hi, hsize⟩ := hb.inv.kalloc hn hs
  cases he
  have hspan : s = regionSpan (s.start, n) := by
    cases s
    cases hsize
    rfl
  rw [← hspan]
  have hhas : s.Has s.start := Span.has_start (hsize ▸ hn)
  refine ⟨hi, hb.nodup, List.nodup_cons.2 ⟨fun hin => ?_, hb.knodup⟩, hb.pages, fun x => ?_⟩
  · exact hi.kernel.not_has hhas (List.mem_append_left _ (List.mem_append_left _ hin)) hhas
  · rw [List.mem_cons, hb.refs]
    constructor
    · rintro (rfl | ⟨a, ha, rfl⟩)
      · exact ⟨_, .inl rfl, hspan.symm⟩
      · exact ⟨a, .inr ha, rfl⟩
    · rintro ⟨a, rfl | ha, rfl⟩
      · exact .inl hspan.symm
      · exact .inr ⟨a, ha, rfl⟩

theorem Beside.dmafree (hb : Beside low live klive h F L K) (hp : p ∈ F.pages) :
    Beside low live klive (heapAllocator.dmafree h m p).1 (F.dropPage p) (L.erase p.span) K := by
  have hin : p.span ∈ L := (hb.pages _).2 ⟨p, hp, rfl⟩
  have hi := hb.inv.dmafree (List.mem_append_left live hin)
  rw [List.erase_append_left live hin] at hi
  refine ⟨hi, hb.nodup.erase _, hb.knodup, fun x => ?_, hb.refs⟩
  rw [hb.nodup.mem_erase_iff, hb.pages]
  constructor
  · rintro ⟨hne, q, hq, rfl⟩
    exact ⟨q, ⟨hq, fun he => hne (congrArg Page.span he)⟩, rfl⟩
  · rintro ⟨q, ⟨hq, hne⟩, rfl⟩
    exact ⟨fun he => hne (span_inj he), q, hq, rfl⟩

theorem Beside.kfree (hb : Beside low live klive h F L K) (ha : (b, n) ∈ F.refs) :
    Beside low live klive (heapAllocator.kfree h b n) (F.dropRef b n) L
      (K.erase (regionSpan (b, n))) := by
  have hin : regionSpan (b, n) ∈ K := (hb.refs _).2 ⟨_, ha, rfl⟩
  have hi := hb.inv.kfree (List.mem_append_left klive hin)
  rw [List.erase_append_left klive hin] at hi
  refine ⟨hi, hb.nodup, hb.knodup.erase _, hb.pages, fun x => ?_⟩
  rw [hb.knodup.mem_erase_iff, hb.refs]
  constructor
  · rintro ⟨hne, a, ha, rfl⟩
    exact ⟨a, ⟨ha, fun he => hne (congrArg regionSpan he)⟩, rfl⟩
  · rintro ⟨a, ⟨ha, hne⟩, rfl⟩
    exact ⟨fun he => hne (regionSpan_inj he), a, ha, rfl⟩

end Beside

/-- The lists of the heap are kept with the footprint. -/
def heapAccount (low : Nat) (live : List (Span Nat)) (klive : List (Span Unit)) :
    Account heapAllocator where
  Holds h F := ∃ L K, Beside low live klive h F L K
  dmalloc := fun ⟨_, _, hb⟩ hd => ⟨_, _, hb.dmalloc hd⟩
  kalloc := fun ⟨_, _, hb⟩ hn hk => ⟨_, _, hb.kalloc hn hk⟩
  dmafree := fun ⟨_, _, hb⟩ hp => ⟨_, _, hb.dmafree hp⟩
  kfree := fun ⟨_, _, hb⟩ ha => ⟨_, _, hb.kfree ha⟩

section Account

variable {low : Nat} {live : List (Span Nat)} {klive : List (Span Unit)} {h h' : Heap}
  {F F' : Footprint}

/-- Frees leave the arenas and their frames. -/
theorem Gives.arenas (hg : Gives heapAllocator h F h' F') :
    h'.ptbrk = h.ptbrk ∧ h'.kbrk = h.kbrk ∧ h'.frame = h.frame := by
  induction hg with
  | refl => exact ⟨rfl, rfl, rfl⟩
  | dmafree _ _ ih => exact ih
  | kfree _ _ ih => exact ih

/-- What is taken and given back is free, and what was in use before is in use. -/
theorem gives_back {w : Heap} (hinv : Inv low w live klive)
    (htakes : Takes heapAllocator w .none h F) (hgives : Gives heapAllocator h F h' .none) :
    Inv low h' live klive ∧ (∀ p ∈ F.pages, Span.cover h'.ptfreelist p.vpn = 1) ∧
      ∀ a ∈ F.refs, ∀ i, i < a.2 → Span.cover h'.vfreelist (a.1 + i) = 1 := by
  have hstart : (heapAccount low live klive).Holds w .none := by
    refine ⟨[], [], hinv, .nil, .nil, fun x => ?_, fun x => ?_⟩
    · exact iff_of_false List.not_mem_nil fun ⟨_, hp, _⟩ => hp
    · exact iff_of_false List.not_mem_nil fun ⟨_, ha, _⟩ => ha
  obtain ⟨L, K, hb⟩ := htakes.holds (heapAccount low live klive) hstart
  obtain ⟨L', K', hb'⟩ := hgives.holds (heapAccount low live klive) ⟨L, K, hb⟩
  obtain ⟨hpt, hk, -⟩ := hgives.arenas
  have hL' : L' = [] := List.eq_nil_iff_forall_not_mem.2 fun x hx => by
    obtain ⟨p, hp, -⟩ := (hb'.pages x).1 hx
    exact hp
  have hK' : K' = [] := List.eq_nil_iff_forall_not_mem.2 fun x hx => by
    obtain ⟨a, ha, -⟩ := (hb'.refs x).1 hx
    exact ha
  have hinv' : Inv low h' live klive := by
    have := hb'.inv
    rw [hL', hK'] at this
    exact this
  refine ⟨hinv', fun p hp => ?_, fun a ha i hi => ?_⟩
  · exact Span.Tiles.cover_right hb.inv.dma (hpt ▸ hinv'.dma) ((hb.pages _).2 ⟨p, hp, rfl⟩) (has_vpn p)
  · have hhas : (regionSpan a).Has (a.1 + i) := ⟨Nat.le_add_right _ _, Nat.add_lt_add_left hi _⟩
    exact Span.Tiles.cover_right hb.inv.kernel (hk ▸ hinv'.kernel) ((hb.refs _).2 ⟨a, ha, rfl⟩) hhas

end Account

/-! ## The parent -/

/-- An address space built by calls of `uptmap`, with any arguments.  The others have
`O`. -/
inductive UserSpace (V : Lawful A) (r : Root) : Memory ω → Footprint → Prop where
  | root {s s' : Memory ω} {O : Footprint} : Own V s.heap .none O → newRoot A s = some (r, s') →
      UserSpace V r s' O
  | uptmap {s s' : Memory ω} {O : Footprint} {kernelVpn userVpn pfn : Nat} {flags : UInt64} :
      UserSpace V r s O → uptmap A s r.page.vpn r.ref kernelVpn userVpn pfn flags = some s' →
      UserSpace V r s' O
  | others {s s' : Memory ω} {O O' : Footprint} :
      UserSpace V r s O → Elsewhere V s O s' O' → UserSpace V r s' O'

theorem UserSpace.tree {V : Lawful A} {r : Root} {s : Memory ω} {O : Footprint} (h : UserSpace V r s O) :
    ∃ T, Own V s.heap T O ∧ UserTree s r T := by
  induction h with
  | root ho hroot =>
      obtain ⟨ho', -, hempty⟩ := newRoot_empty ho hroot
      obtain ⟨hb, -⟩ := newRoot_takes 0 ho hroot
      exact ⟨r.footprint, ho', hb.tree⟩
  | uptmap _ hu ih =>
      obtain ⟨T, ho, ht⟩ := ih
      obtain ⟨T', hm⟩ := uptmap_mapped ho ht hu
      exact ⟨T', hm.own, hm.tree⟩
  | others _ he ih =>
      obtain ⟨T, ho, ht⟩ := ih
      obtain ⟨ho', hs⟩ := he T ho
      exact ⟨T, ho', ht.congr hs⟩

/-- Others take a page. -/
theorem Elsewhere.dmalloc {V : Lawful A} {s s' : Memory ω} {O : Footprint} {z : Bool} {p : Page}
    (hd : s.dmalloc A z = some (p, s')) : Elsewhere V s O s' (O.addPage p) := fun F ho => by
  obtain ⟨ho', hF, -, hnew, -⟩ := ho.dmalloc hd
  exact ⟨ho'.give hnew, hF⟩

/-! ## Fork and free -/

/-- The allocations of `sys_fork`: the root, the tables and pages of the child, and its
kernel stack. -/
def forkSteps (A : Allocator ω) (B : Platform) (s : Memory ω) (src : Root) :
    Option (Root × Nat × Memory ω) := do
  let (root, s) ← newRoot A s
  let s ← ptrefCopy A s root src
  let s ← mapTrampoline A B s root
  let (kernelStackVpn, s) ← s.kalloc A kernelStackPages
  some (root, kernelStackVpn, s)

/-- `sys_fork` stores two words of the trap frame behind these steps. -/
theorem forkSpace_eq_forkSteps (B : Platform) (s : Memory ω) (sp : AddressSpace)
    {root : Root} {stack : Nat} {s₁ : Memory ω} (h : forkSteps A B s sp.root = some (root, stack, s₁)) :
    ∃ trapframe, forkSpace A B s sp = some (⟨⟨root, sp.brk, sp.heapBottom⟩, trapframe, stack⟩,
      (s₁.store A trapframe 35 (kernelSp stack)).store A trapframe 10 0) := by
  obtain ⟨⟨root', s₂⟩, hroot, h⟩ := Option.bind_eq_some_iff.1 h
  obtain ⟨s₃, hcopy, h⟩ := Option.bind_eq_some_iff.1 h
  obtain ⟨s₄, hmap, h⟩ := Option.bind_eq_some_iff.1 h
  obtain ⟨⟨b, s₅⟩, hk, he⟩ := Option.bind_eq_some_iff.1 h
  cases he
  exact ⟨_, Option.bind_eq_some_iff.2 ⟨_, hroot, Option.bind_eq_some_iff.2 ⟨_, hcopy,
    Option.bind_eq_some_iff.2 ⟨_, hmap, Option.bind_eq_some_iff.2 ⟨_, hk, rfl⟩⟩⟩⟩⟩

section Fork

variable {V : Lawful A} {B : Platform} {s s₁ : Memory ω} {src root : Root} {stack : Nat}
  {O : Footprint}

/-- What the steps take is what `free_process_space` gives back. -/
theorem UserSpace.forkSteps_gives (h : UserSpace V src s O) (htramp : walkupt s src.ref trampolineVpn = 0)
    (hfork : forkSteps A B s src = some (root, stack, s₁)) :
    ∃ F, Takes A s.heap .none s₁.heap F ∧ (stack, kernelStackPages) ∈ F.refs ∧
      Gives A s₁.heap F ((ptrefFree A s₁ root).kfree A stack kernelStackPages).heap .none := by
  obtain ⟨Ts, ho, hsrc⟩ := h.tree
  obtain ⟨⟨dst, s₂⟩, hroot, hfork⟩ := Option.bind_eq_some_iff.1 hfork
  obtain ⟨s₃, hcopy, hfork⟩ := Option.bind_eq_some_iff.1 hfork
  obtain ⟨s₄, hmap, hfork⟩ := Option.bind_eq_some_iff.1 hfork
  obtain ⟨⟨b, s₅⟩, hk, he⟩ := Option.bind_eq_some_iff.1 hfork
  cases he
  obtain ⟨T, Q, hf⟩ := hsrc.forked Footprint.le_union_left ho.rest hroot hcopy hmap
  have hzero : (leafAt s src (slotOf trampolineVpn)).2 = 0 := by
    rw [← hsrc.walkupt_eq, htramp]
  have hn : 1 ≤ kernelStackPages := by decide
  obtain ⟨hb, hsame, hleaf, -⟩ := hf.built.kalloc hn hk
  have hT : Same s₄ s₁ T := hsame.mono Footprint.le_union_left
  have hreached := hf.reached.congr hf.built.tree hT
  have hplaced : Placed s₁ root Q := (hf.placed hzero).congr hleaf
  have hQ : (⟨(Q.addRef stack kernelStackPages).pages, ∅⟩ : Footprint) = Q :=
    congrArg (Footprint.mk Q.pages) hf.refs.symm
  have hgives := (Left.ptrefFree hb hb.left).2.2
  rw [hb.left_eq hreached hplaced, hQ] at hgives
  refine ⟨_, hf.takes.trans (Takes.of_kalloc hn hk), .inl rfl, hgives.kfree_last ?_⟩
  rintro a (ha | ha)
  · exact hb.own.refs a ha _ (.inl (.inl rfl))
  · rw [hf.refs] at ha
    exact ha.elim

end Fork

/-- What was in use before the fork is in use behind `free_process_space`.  What the
fork took is free, and the guard page of the stack is mapped to its frame. -/
structure Returned (low : Nat) (live : List (Span Nat)) (klive : List (Span Unit))
    (s s₁ s' : Memory Heap) (stack : Nat) : Prop where
  live : Inv low s'.heap live klive
  freed : ∃ F, Takes heapAllocator s.heap .none s₁.heap F ∧
    (∀ p ∈ F.pages, Span.cover s'.heap.ptfreelist p.vpn = 1) ∧
    ∀ a ∈ F.refs, ∀ i, i < a.2 → Span.cover s'.heap.vfreelist (a.1 + i) = 1
  guard : ∀ t, Paging.Tree t → stack < 2 ^ 52 →
    windows t.ptBase t.mem stack .read = some (s₁.heap.frame stack) →
    ∃ t₁ t₂, MappedAgain t t₁ t₂ stack (s'.heap.frame stack)

/-- The arena of `kalloc` is above the windows. -/
theorem kernelPath_arena {x : Nat} (hlow : kallocBase ≤ x) (hlt : x < 2 ^ 52) : KernelPath [vpnAt 2 x] := by
  have hval : (vpnAt 2 x).val = x / 2 ^ 18 % 512 := rfl
  rw [kallocBase] at hlow
  refine kernelPath_one (fun he => ?_) fun he => ?_
  · have := congrArg Fin.val he
    rw [hval] at this
    simp only [Fin.val_zero] at this
    omega
  · have := congrArg Fin.val he
    rw [hval] at this
    simp only [Fin.val_one] at this
    omega

section Returned

variable {low : Nat} {B : Platform} {s s₁ : Memory Heap} {src root : Root} {stack : Nat}
  {O : Footprint} {live : List (Span Nat)} {klive : List (Span Unit)}

end Returned

end Space
