import Endros.Alloc.Heap
import Endros.Space.Memory

/-!
# The allocators are lawful

The allocators of `Alloc.Heap`, for the pages of user address spaces.  The nodes
of `ptfreelist` are in the first words of the free pages, so `dmalloc` and
`dmafree` write there.  A page from the end of the arena is cleared by
`palloc_ptr`, whatever the caller asked for.
-/

namespace Space

open Lib Paging Alloc

/-- The pointer to the first node. -/
def nodePtr : List (Span Nat) → UInt64
  | [] => 0
  | n :: _ => UInt64.ofNat (n.start * 4096)

/-- The nodes in the free pages: `size`, `pfn` and `next`. -/
def putNodes (m : Phys) : List (Span Nat) → Phys
  | [] => m
  | n :: l =>
      let m := Radix.set (putNodes m l) n.tag 0 (UInt64.ofNat n.size)
      let m := Radix.set m n.tag 1 (UInt64.ofNat n.tag)
      Radix.set m n.tag 2 (nodePtr l)

/-- No node of the free list is used, so the page is taken from the end of the arena. -/
def atEnd (h : Heap) : Bool := (Span.firstFit (· + ·) 1 h.ptfreelist).isNone

/-- The allocators.  The stores to the nodes that changed are written as stores to
all nodes of the list. -/
def heapAllocator : Allocator Heap where
  frame h vpn := h.frame vpn
  dmalloc h m zeroing := (h.dmalloc 1).map fun r =>
    let m := putNodes m r.2.ptfreelist
    (⟨r.1.tag, r.1.start⟩, r.2, if zeroing || atEnd h then Radix.fill m r.1.tag 0 else m)
  dmafree h m p :=
    let h := h.dmafree ⟨p.vpn, 1, p.pfn⟩
    (h, putNodes m h.ptfreelist)
  kalloc h pages := (h.kalloc pages).map fun r => (r.1.start, r.2)
  kfree h b pages := h.kfree ⟨b, pages, ()⟩

theorem putNodes_of_ne {m : Phys} {f : Nat} {l : List (Span Nat)} (h : ∀ n ∈ l, n.tag ≠ f) :
    putNodes m l f = m f := by
  induction l with
  | nil => rfl
  | cons n l ih =>
      rw [List.forall_mem_cons] at h
      have hset : ∀ (m : Phys) i x, Radix.set m n.tag i x f = m f := fun m i x =>
        funext fun j => Radix.set_of_ne fun he => absurd he.symm h.1
      rw [putNodes, hset, hset, hset, ih h.2]

/-- The pages and regions are among those in use. -/
def HeapValid (low : Nat) (h : Heap) (D : Set Page) (K : Set (Nat × Nat)) : Prop :=
  ∃ live klive, Alloc.Inv low h live klive ∧ (∀ p ∈ D, ⟨p.vpn, 1, p.pfn⟩ ∈ live) ∧
    ∀ a ∈ K, ⟨a.1, a.2, ()⟩ ∈ klive

section Lawful

variable {low : Nat} {h : Heap} {live : List (Span Nat)} {klive : List (Span Unit)} {p q : Page}
  {s : Span Nat}

theorem has_vpn (p : Page) : (⟨p.vpn, 1, p.pfn⟩ : Span Nat).Has p.vpn :=
  ⟨Nat.le_refl _, Nat.lt_succ_self _⟩

/-- The page of a span is in the arena and mapped to the first frame. -/
theorem arena_start (hi : Alloc.Inv low h live klive) (hs : s ∈ live ++ h.ptfreelist) :
    h.Arena s.start ∧ h.frame s.start = s.tag := by
  have hpos := hi.dma_pos s hs
  exact ⟨.inl ((hi.dma.mem_iff s.start).1 ⟨s, hs, Span.has_start hpos⟩), hi.mapped s hs 0 hpos⟩

theorem arena_page (hi : Alloc.Inv low h live klive) (hp : ⟨p.vpn, 1, p.pfn⟩ ∈ live) :
    h.Arena p.vpn ∧ h.frame p.vpn = p.pfn :=
  arena_start hi (List.mem_append_left _ hp)

/-- Pages with one frame are one page. -/
theorem page_inj (hi : Alloc.Inv low h live klive) (hp : ⟨p.vpn, 1, p.pfn⟩ ∈ live)
    (hq : ⟨q.vpn, 1, q.pfn⟩ ∈ live) (he : p.pfn = q.pfn) : p = q := by
  obtain ⟨hpa, hpf⟩ := arena_page hi hp
  obtain ⟨hqa, hqf⟩ := arena_page hi hq
  have hvpn := hi.inj p.vpn q.vpn hpa hqa (by rw [hpf, hqf, he])
  cases p
  cases q
  cases he
  cases hvpn
  rfl

/-- The frame of a page in use is not that of another span. -/
theorem tag_ne (hi : Alloc.Inv low h live klive) (hp : ⟨p.vpn, 1, p.pfn⟩ ∈ live)
    (hs : s ∈ live ++ h.ptfreelist) (hne : ¬ s.Has p.vpn) : s.tag ≠ p.pfn := fun he => by
  obtain ⟨hpa, hpf⟩ := arena_page hi hp
  obtain ⟨hsa, hsf⟩ := arena_start hi hs
  have hstart := hi.inj s.start p.vpn hsa hpa (by rw [hsf, hpf, he])
  exact hne (hstart ▸ Span.has_start (hi.dma_pos s hs))

/-- A free node does not have a page in use. -/
theorem free_ne (hi : Alloc.Inv low h live klive) (hp : ⟨p.vpn, 1, p.pfn⟩ ∈ live)
    (hs : s ∈ h.ptfreelist) : s.tag ≠ p.pfn := by
  refine tag_ne hi hp (List.mem_append_right _ hs) fun hhas => ?_
  obtain ⟨l₁, l₂, rfl⟩ := List.append_of_mem hp
  have hpair := hi.dma.pairwise
  rw [List.append_assoc, List.cons_append] at hpair
  have hcons := (List.pairwise_append.1 hpair).2.1
  exact (List.pairwise_cons.1 hcons).1 s (List.mem_append_right _ hs) p.vpn (has_vpn p) hhas

/-- No page has a frame of the kernel image. -/
theorem HeapValid.low_le {D : Set Page} {K : Set (Nat × Nat)} (hv : HeapValid low h D K) (hp : p ∈ D) :
    low ≤ p.pfn := by
  obtain ⟨live, klive, hi, hD, -⟩ := hv
  obtain ⟨ha, hf⟩ := arena_page hi (hD p hp)
  rw [← hf]
  exact (hi.frame _ ha).1

theorem heapValid_dmalloc {D : Set Page} {K : Set (Nat × Nat)} {m m' : Phys} {z : Bool} {h' : Heap}
    (hv : HeapValid low h D K) (hd : heapAllocator.dmalloc h m z = some (p, h', m')) :
    p ∉ D ∧ HeapValid low h' (insert p D) K ∧ (∀ q ∈ D, m' q.pfn = m q.pfn) ∧
      (z = true → m' p.pfn = fun _ => 0) := by
  obtain ⟨live, klive, hi, hD, hK⟩ := hv
  obtain ⟨⟨s, h₁⟩, hs, he⟩ := Option.map_eq_some_iff.1 hd
  obtain ⟨hi', hsize⟩ := hi.dmalloc (Nat.le_refl 1) hs
  cases he
  have hs' : s = ⟨s.start, 1, s.tag⟩ := by
    cases s
    cases hsize
    rfl
  have hhas : s.Has s.start := Span.has_start (hsize ▸ Nat.le_refl 1)
  have hnot : ∀ t ∈ live, ¬ t.Has s.start := fun t ht =>
    hi'.dma.not_has hhas (List.mem_append_left _ ht)
  have hlive : ∀ q ∈ D, ⟨q.vpn, 1, q.pfn⟩ ∈ s :: live := fun q hq => List.mem_cons_of_mem s (hD q hq)
  -- the new page is not that of a page in use
  have hne : ∀ q ∈ D, s.tag ≠ q.pfn := fun q hq => by
    refine tag_ne hi' (hlive q hq) (List.mem_append_left _ List.mem_cons_self) fun hq' => ?_
    exact hi'.dma.not_has hq' (List.mem_append_left _ (hD q hq)) (has_vpn q)
  refine ⟨fun hp => hne _ hp rfl, ⟨s :: live, klive, hi', ?_, hK⟩, fun q hq => ?_, fun hz => ?_⟩
  · rintro q (rfl | hq)
    · rw [hs']
      exact List.mem_cons_self
    · exact hlive q hq
  · have hput : putNodes m h₁.ptfreelist q.pfn = m q.pfn :=
      putNodes_of_ne fun n hn => free_ne hi' (hlive q hq) hn
    show (if z || atEnd h then Radix.fill (putNodes m h₁.ptfreelist) s.tag 0
      else putNodes m h₁.ptfreelist) q.pfn = m q.pfn
    split
    · rw [Radix.fill_of_ne (hne q hq).symm, hput]
    · exact hput
  · show (if z || atEnd h then Radix.fill (putNodes m h₁.ptfreelist) s.tag 0
      else putNodes m h₁.ptfreelist) s.tag = fun _ => 0
    rw [if_pos (by rw [hz]; rfl)]
    exact funext fun j => Radix.fill_self ..

theorem heapValid_dmafree {D : Set Page} {K : Set (Nat × Nat)} {m : Phys} (hv : HeapValid low h D K)
    (hp : p ∈ D) : HeapValid low (heapAllocator.dmafree h m p).1 (D \ {p}) K ∧
      ∀ q ∈ D, q ≠ p → (heapAllocator.dmafree h m p).2 q.pfn = m q.pfn := by
  obtain ⟨live, klive, hi, hD, hK⟩ := hv
  have hi' := hi.dmafree (hD p hp)
  have hmem : ∀ q ∈ D, q ≠ p → ⟨q.vpn, 1, q.pfn⟩ ∈ live.erase ⟨p.vpn, 1, p.pfn⟩ := fun q hq hne => by
    refine (List.mem_erase_of_ne fun he => hne ?_).2 (hD q hq)
    cases p
    cases q
    cases he
    rfl
  refine ⟨⟨_, klive, hi', fun q hq => hmem q hq.1 hq.2, hK⟩, fun q hq hne => ?_⟩
  exact putNodes_of_ne fun n hn => free_ne hi' (hmem q hq hne) hn

theorem heapValid_kalloc {D : Set Page} {K : Set (Nat × Nat)} {n b : Nat} {h' : Heap}
    (hv : HeapValid low h D K) (hn : 1 ≤ n) (hk : heapAllocator.kalloc h n = some (b, h')) :
    (∀ a ∈ K, a.1 ≠ b) ∧ HeapValid low h' D (insert (b, n) K) := by
  obtain ⟨live, klive, hi, hD, hK⟩ := hv
  obtain ⟨⟨s, h₁⟩, hs, he⟩ := Option.map_eq_some_iff.1 hk
  obtain ⟨hi', hsize⟩ := hi.kalloc hn hs
  cases he
  have hs' : s = ⟨s.start, n, ()⟩ := by
    cases s
    cases hsize
    rfl
  refine ⟨fun a ha hb => ?_, ⟨live, s :: klive, hi', hD, ?_⟩⟩
  · have hpos := hi.kernel_pos _ (List.mem_append_left _ (hK a ha))
    have hhas : s.Has s.start := Span.has_start (hsize ▸ hn)
    refine hi'.kernel.not_has hhas (List.mem_append_left _ (hK a ha)) ?_
    exact hb ▸ Span.has_start hpos
  · rintro a (rfl | ha)
    · rw [hs']
      exact List.mem_cons_self
    · exact List.mem_cons_of_mem s (hK a ha)

theorem heapValid_kfree {D : Set Page} {K : Set (Nat × Nat)} {b n : Nat} (hv : HeapValid low h D K)
    (hb : (b, n) ∈ K) : HeapValid low (heapAllocator.kfree h b n) D (K \ {(b, n)}) := by
  obtain ⟨live, klive, hi, hD, hK⟩ := hv
  refine ⟨live, _, hi.kfree (hK _ hb), hD, fun a ha => ?_⟩
  refine (List.mem_erase_of_ne fun he => ha.2 ?_).2 (hK a ha.1)
  cases a
  cases he
  rfl

end Lawful

/-- The allocators keep to their task, whatever frames the kernel image has. -/
def heapLawful (low : Nat) : Lawful heapAllocator where
  Valid := HeapValid low
  mono := fun ⟨live, klive, hi, hD, hK⟩ hD' hK' =>
    ⟨live, klive, hi, fun p hp => hD p (hD' hp), fun a ha => hK a (hK' ha)⟩
  page := fun {w D K p} ⟨live, klive, hi, hD, _⟩ hp => by
    obtain ⟨ha, hf⟩ := arena_page hi (hD p hp)
    have hframe := hi.frame _ ha
    have hle := hi.pfnStart_le
    have hmax := hi.maxPfn_le
    have hvpn := (hi.dma.mem_iff p.vpn).1 ⟨_, List.mem_append_left _ (hD p hp), has_vpn p⟩
    rw [dmaBase] at hvpn
    refine ⟨by omega, ?_, hf⟩
    rw [hf] at hframe
    omega
  inj := fun ⟨_, _, hi, hD, _⟩ hp hq he => page_inj hi (hD _ hp) (hD _ hq) he
  dmalloc := heapValid_dmalloc
  dmafree := heapValid_dmafree
  kalloc := heapValid_kalloc
  kfree := heapValid_kfree

end Space
