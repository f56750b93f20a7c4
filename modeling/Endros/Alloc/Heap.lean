import Endros.Lib.Span
import Endros.Paging.Entry
import Mathlib.Logic.Function.Basic

/-!
# The allocators

`dmalloc` hands out pages together with the frames behind them, `kalloc` hands
out pages only.  Each has an arena that grows at its end and a free list.  A
region of a free list is cut by first fit and never merged.

Here a free list is the list of its nodes.  A node of `ptfreelist` is a span of
kernel pages with the first frame as its tag, a node of `vfreelist` has no tag.
The kernel page table is the frame of each page, and the paths of the tables it
has: `ptmap` takes a frame for every table that is missing.

`Inv` says what holds of the heap and of the regions that are in use.  The free
regions and the regions in use tile the arena, and no frame is behind two pages.
-/

namespace Alloc

open Lib Paging

structure Heap where
  ptfreelist : List (Span Nat)
  vfreelist : List (Span Unit)
  /-- The page at `ptbrk`. -/
  ptbrk : Nat
  /-- The page at `kbrk`. -/
  kbrk : Nat
  pfnStart : Nat
  maxPfn : Nat
  /-- The paths of the tables of the kernel page table. -/
  tables : List (List (Fin 512))
  /-- The frame of a kernel page. -/
  frame : Nat → Nat

/-- The page at which the arena of `dmalloc` starts. -/
def dmaBase : Nat := 0x100000

/-- The page at which the arena of `kalloc` starts. -/
def kallocBase : Nat := 0xffffffe000000

namespace Heap

/-- `palloc`. -/
def palloc (h : Heap) : Option (Nat × Heap) :=
  if h.maxPfn ≤ h.pfnStart then none else some (h.pfnStart, { h with pfnStart := h.pfnStart + 1 })

/-- The table at the path exists afterwards. -/
def table (h : Heap) (p : List (Fin 512)) : Option Heap :=
  if p ∈ h.tables then some h
  else h.palloc.map fun r => { r.2 with tables := p :: r.2.tables }

def ptmap (h : Heap) (vpn pfn : Nat) : Option Heap := do
  let h ← h.table [vpnAt 2 vpn]
  let h ← h.table [vpnAt 2 vpn, vpnAt 1 vpn]
  some { h with frame := Function.update h.frame vpn pfn }

/-- `palloc_ptr`. -/
def pallocPtr (h : Heap) (vpn : Nat) : Option (Nat × Heap) := do
  let (pfn, h) ← h.palloc
  let h ← h.ptmap vpn pfn
  some (pfn, h)

/-- The loop of `dmalloc` that maps the first `n` pages. -/
def ptmapRange (h : Heap) (vpn pfn : Nat) : Nat → Option Heap
  | 0 => some h
  | n + 1 => (h.ptmapRange vpn pfn n).bind fun h => h.ptmap (vpn + n) (pfn + n)

/-- `dmalloc` at the end of the arena. -/
def dmallocEnd (h : Heap) (pages : Nat) : Option (Span Nat × Heap) :=
  let vpn := h.ptbrk
  let h := { h with ptbrk := h.ptbrk + pages }
  if pages = 1 then (h.pallocPtr vpn).map fun r => (⟨vpn, pages, r.1⟩, r.2)
  else if h.maxPfn < h.pfnStart + pages then none
  else
    let pfn := h.pfnStart
    ({ h with pfnStart := h.pfnStart + pages }.ptmapRange vpn pfn pages).map fun h =>
      (⟨vpn, pages, pfn⟩, h)

def dmalloc (h : Heap) (pages : Nat) : Option (Span Nat × Heap) :=
  match Span.firstFit (· + ·) pages h.ptfreelist with
  | some (s, l) => some (s, { h with ptfreelist := l })
  | none => h.dmallocEnd pages

def dmafree (h : Heap) (s : Span Nat) : Heap := { h with ptfreelist := s :: h.ptfreelist }

/-- The loop of `kalloc`, for `n` more pages. -/
def kallocLoop : Nat → Heap → Option Heap
  | 0, h => some h
  | n + 1, h => (h.pallocPtr h.kbrk).bind fun r => kallocLoop n { r.2 with kbrk := r.2.kbrk + 1 }

/-- `kalloc` of a number of pages that is not zero. -/
def kalloc (h : Heap) (pages : Nat) : Option (Span Unit × Heap) :=
  match Span.firstFit (fun _ _ => ()) pages h.vfreelist with
  | some (s, l) => some (s, { h with vfreelist := l })
  | none => (kallocLoop pages h).map fun h' => (⟨h.kbrk, pages, ()⟩, h')

def kfree (h : Heap) (s : Span Unit) : Heap := { h with vfreelist := s :: h.vfreelist }

end Heap

/-! ## What mapping a page does to the heap -/

/-- The lists and the ends of the arenas are the same, and frames are only taken. -/
structure Grew (h h' : Heap) : Prop where
  ptfreelist : h'.ptfreelist = h.ptfreelist
  vfreelist : h'.vfreelist = h.vfreelist
  ptbrk : h'.ptbrk = h.ptbrk
  maxPfn : h'.maxPfn = h.maxPfn
  pfnStart : h.pfnStart ≤ h'.pfnStart
  room : h.pfnStart ≤ h.maxPfn → h'.pfnStart ≤ h.maxPfn

section Spec

variable {h h' h'' : Heap} {p : List (Fin 512)} {vpn pfn n : Nat}

theorem Grew.refl (h : Heap) : Grew h h := ⟨rfl, rfl, rfl, rfl, Nat.le_refl _, id⟩

theorem Grew.trans (h₁ : Grew h h') (h₂ : Grew h' h'') : Grew h h'' where
  ptfreelist := h₂.ptfreelist.trans h₁.ptfreelist
  vfreelist := h₂.vfreelist.trans h₁.vfreelist
  ptbrk := h₂.ptbrk.trans h₁.ptbrk
  maxPfn := h₂.maxPfn.trans h₁.maxPfn
  pfnStart := Nat.le_trans h₁.pfnStart h₂.pfnStart
  room hle := h₁.maxPfn ▸ h₂.room (h₁.maxPfn.symm ▸ h₁.room hle)

theorem Heap.palloc_eq_some (hp : h.palloc = some (pfn, h')) :
    pfn = h.pfnStart ∧ h.pfnStart < h.maxPfn ∧ h' = { h with pfnStart := h.pfnStart + 1 } := by
  rw [Heap.palloc] at hp
  split at hp
  · cases hp
  · rename_i hlt
    cases hp
    exact ⟨rfl, Nat.lt_of_not_le hlt, rfl⟩

theorem Heap.table_spec (ht : h.table p = some h') :
    Grew h h' ∧ h'.frame = h.frame ∧ h'.kbrk = h.kbrk := by
  rw [Heap.table] at ht
  split at ht
  · cases ht
    exact ⟨.refl h, rfl, rfl⟩
  · obtain ⟨⟨f, h₁⟩, hp, he⟩ := Option.map_eq_some_iff.1 ht
    obtain ⟨-, hlt, rfl⟩ := Heap.palloc_eq_some hp
    cases he
    exact ⟨⟨rfl, rfl, rfl, rfl, Nat.le_succ _, fun _ => hlt⟩, rfl, rfl⟩

theorem Heap.ptmap_spec (hm : h.ptmap vpn pfn = some h') :
    Grew h h' ∧ h'.frame = Function.update h.frame vpn pfn ∧ h'.kbrk = h.kbrk := by
  obtain ⟨h₁, ht₁, hm⟩ := Option.bind_eq_some_iff.1 hm
  obtain ⟨h₂, ht₂, hm⟩ := Option.bind_eq_some_iff.1 hm
  cases hm
  obtain ⟨hg₁, hf₁, hk₁⟩ := Heap.table_spec ht₁
  obtain ⟨hg₂, hf₂, hk₂⟩ := Heap.table_spec ht₂
  refine ⟨?_, by rw [hf₂, hf₁], hk₂.trans hk₁⟩
  obtain ⟨a, b, c, d, e, f⟩ := hg₁.trans hg₂
  exact ⟨a, b, c, d, e, f⟩

theorem Heap.pallocPtr_spec (hp : h.pallocPtr vpn = some (pfn, h')) :
    Grew h h' ∧ h'.frame = Function.update h.frame vpn pfn ∧ h'.kbrk = h.kbrk ∧
      pfn = h.pfnStart ∧ h.pfnStart < h'.pfnStart := by
  obtain ⟨⟨f, h₁⟩, hf, hp⟩ := Option.bind_eq_some_iff.1 hp
  obtain ⟨h₂, hm, hp⟩ := Option.bind_eq_some_iff.1 hp
  cases hp
  obtain ⟨rfl, hlt, rfl⟩ := Heap.palloc_eq_some hf
  obtain ⟨hg, hframe, hk⟩ := Heap.ptmap_spec hm
  refine ⟨⟨hg.ptfreelist, hg.vfreelist, hg.ptbrk, hg.maxPfn, ?_, fun _ => hg.room hlt⟩, hframe, hk,
    rfl, hg.pfnStart⟩
  exact Nat.le_trans (Nat.le_succ _) hg.pfnStart

theorem Heap.ptmapRange_spec (hm : h.ptmapRange vpn pfn n = some h') :
    Grew h h' ∧ h'.kbrk = h.kbrk ∧ (∀ i, i < n → h'.frame (vpn + i) = pfn + i) ∧
      ∀ x, x < vpn ∨ vpn + n ≤ x → h'.frame x = h.frame x := by
  induction n generalizing h' with
  | zero =>
      cases hm
      exact ⟨.refl h, rfl, fun i hi => absurd hi (Nat.not_lt_zero i), fun _ _ => rfl⟩
  | succ n ih =>
      obtain ⟨h₁, hm₁, hm⟩ := Option.bind_eq_some_iff.1 hm
      obtain ⟨hg, hk, hin, hout⟩ := ih hm₁
      obtain ⟨hg', hframe, hk'⟩ := Heap.ptmap_spec hm
      refine ⟨hg.trans hg', hk'.trans hk, fun i hi => ?_, fun x hx => ?_⟩
      · rw [hframe]
        by_cases he : i = n
        · rw [he, Function.update_self]
        · rw [Function.update_of_ne (by omega), hin i (by omega)]
      · rw [hframe, Function.update_of_ne (by omega), hout x (by omega)]

end Spec

/-! ## The invariant -/

/-- A page of one of the arenas. -/
def Heap.Arena (h : Heap) (x : Nat) : Prop :=
  (dmaBase ≤ x ∧ x < h.ptbrk) ∨ (kallocBase ≤ x ∧ x < h.kbrk)

/-- What holds of the heap when the regions of `live` and `klive` are in use.  The
frames below `low` are those of the kernel image. -/
structure Inv (low : Nat) (h : Heap) (live : List (Span Nat)) (klive : List (Span Unit)) : Prop where
  dma : Span.Tiles dmaBase h.ptbrk (live ++ h.ptfreelist)
  kernel : Span.Tiles kallocBase h.kbrk (klive ++ h.vfreelist)
  dma_pos : ∀ s ∈ live ++ h.ptfreelist, 1 ≤ s.size
  kernel_pos : ∀ s ∈ klive ++ h.vfreelist, 1 ≤ s.size
  mapped : ∀ s ∈ live ++ h.ptfreelist, ∀ i, i < s.size → h.frame (s.start + i) = s.tag + i
  inj : ∀ x y, h.Arena x → h.Arena y → h.frame x = h.frame y → x = y
  frame : ∀ x, h.Arena x → low ≤ h.frame x ∧ h.frame x < h.pfnStart
  low_le : low ≤ h.pfnStart
  pfnStart_le : h.pfnStart ≤ h.maxPfn
  dma_le : dmaBase ≤ h.ptbrk
  kernel_le : kallocBase ≤ h.kbrk
  /-- The arenas have no more pages than there are frames. -/
  ptbrk_le : h.ptbrk ≤ dmaBase + h.pfnStart
  maxPfn_le : h.maxPfn ≤ 2 ^ 44

section Inv

variable {low : Nat} {h h' : Heap} {live : List (Span Nat)} {klive : List (Span Unit)}
  {s : Span Nat} {k : Span Unit} {n : Nat}

/-- Pages that are mapped to new frames, at the end of an arena. -/
theorem Inv.extend (hi : Inv low h live klive) (hstart : h.pfnStart ≤ h'.pfnStart)
    (hold : ∀ x, h.Arena x → h'.frame x = h.frame x)
    (hnew : ∀ x, h'.Arena x → ¬ h.Arena x → h.pfnStart ≤ h'.frame x ∧ h'.frame x < h'.pfnStart)
    (hinj : ∀ x y, h'.Arena x → h'.Arena y → ¬ h.Arena x → ¬ h.Arena y →
      h'.frame x = h'.frame y → x = y) :
    (∀ x y, h'.Arena x → h'.Arena y → h'.frame x = h'.frame y → x = y) ∧
      (∀ x, h'.Arena x → low ≤ h'.frame x ∧ h'.frame x < h'.pfnStart) := by
  have hlow := hi.low_le
  refine ⟨fun x y hx hy he => ?_, fun x hx => ?_⟩
  · -- an old frame is below the new ones
    by_cases hax : h.Arena x
    · have hfx := hi.frame x hax
      by_cases hay : h.Arena y
      · rw [hold x hax, hold y hay] at he
        exact hi.inj x y hax hay he
      · have := hnew y hy hay
        rw [← he, hold x hax] at this
        omega
    · by_cases hay : h.Arena y
      · have hfy := hi.frame y hay
        have := hnew x hx hax
        rw [he, hold y hay] at this
        omega
      · exact hinj x y hx hy hax hay he
  · by_cases hax : h.Arena x
    · have := hi.frame x hax
      rw [hold x hax]
      omega
    · have := hnew x hx hax
      omega

/-- The two arenas do not meet. -/
theorem Inv.apart (hi : Inv low h live klive) : h.ptbrk ≤ kallocBase := by
  have h₁ := hi.ptbrk_le
  have h₂ := hi.pfnStart_le
  have h₃ := hi.maxPfn_le
  rw [dmaBase] at h₁
  rw [kallocBase]
  omega

/-- The region behind the end of the arena of `dmalloc`, mapped to frames in order. -/
theorem Inv.dmallocGrow (hi : Inv low h live klive) (hn : 1 ≤ n)
    (hg : Grew { h with ptbrk := h.ptbrk + n } h') (hkbrk : h'.kbrk = h.kbrk)
    (hstart : h.pfnStart + n ≤ h'.pfnStart) (hroom : h'.pfnStart ≤ h.maxPfn)
    (hin : ∀ i, i < n → h'.frame (h.ptbrk + i) = h.pfnStart + i)
    (hout : ∀ x, x < h.ptbrk ∨ h.ptbrk + n ≤ x → h'.frame x = h.frame x) :
    Inv low h' (⟨h.ptbrk, n, h.pfnStart⟩ :: live) klive := by
  have hapart := hi.apart
  have hle := hi.dma_le
  have hgpt : h'.ptbrk = h.ptbrk + n := hg.ptbrk
  have hgfree : h'.ptfreelist = h.ptfreelist := hg.ptfreelist
  have hgv : h'.vfreelist = h.vfreelist := hg.vfreelist
  have hgmax : h'.maxPfn = h.maxPfn := hg.maxPfn
  have hptbrk := hi.ptbrk_le
  have hmax := hi.maxPfn_le
  have hbase : dmaBase + 2 ^ 44 ≤ kallocBase := by decide
  have hfar : h.ptbrk + n ≤ kallocBase := by omega
  have hold : ∀ x, h.Arena x → h'.frame x = h.frame x := fun x hx => hout x (by
    unfold Heap.Arena at hx
    omega)
  have hnew : ∀ x, h'.Arena x → ¬ h.Arena x → ∃ i, i < n ∧ x = h.ptbrk + i := fun x hx hax => by
    unfold Heap.Arena at hx hax
    rw [hgpt, hkbrk] at hx
    exact ⟨x - h.ptbrk, by omega, by omega⟩
  obtain ⟨hinj, hframe⟩ := hi.extend (by omega) hold
    (fun x hx hax => by
      obtain ⟨i, hlt, rfl⟩ := hnew x hx hax
      rw [hin i hlt]
      omega)
    (fun x y hx hy hax hay he => by
      obtain ⟨i, hlt, rfl⟩ := hnew x hx hax
      obtain ⟨j, hlt', rfl⟩ := hnew y hy hay
      rw [hin i hlt, hin j hlt'] at he
      omega)
  refine ⟨?_, ?_, ?_, ?_, ?_, hinj, hframe, ?_, ?_, ?_, ?_, ?_, ?_⟩
  · rw [hgpt, hgfree, List.cons_append]
    exact hi.dma.snoc hle n _
  · rw [hkbrk, hgv]
    exact hi.kernel
  · rw [hgfree, List.cons_append]
    exact List.forall_mem_cons.2 ⟨hn, hi.dma_pos⟩
  · rw [hgv]
    exact hi.kernel_pos
  · rw [hgfree, List.cons_append]
    refine List.forall_mem_cons.2 ⟨hin, fun s hs i hlt => ?_⟩
    have hx := (hi.dma.mem_iff (s.start + i)).1 ⟨s, hs, by omega, by omega⟩
    rw [hout _ (.inl hx.2), hi.mapped s hs i hlt]
  · exact Nat.le_trans hi.low_le (Nat.le_trans (Nat.le_add_right _ n) hstart)
  · rw [hgmax]
    exact hroom
  · rw [hgpt]
    exact Nat.le_add_right_of_le hle
  · rw [hkbrk]
    exact hi.kernel_le
  · omega
  · rw [hgmax]
    exact hmax

theorem Inv.dmallocEnd (hi : Inv low h live klive) (hn : 1 ≤ n)
    (hd : h.dmallocEnd n = some (s, h')) : Inv low h' (s :: live) klive ∧ s.size = n := by
  rw [Heap.dmallocEnd] at hd
  dsimp only at hd
  split at hd
  · rename_i h1
    obtain ⟨⟨pfn, h₁⟩, hp, he⟩ := Option.map_eq_some_iff.1 hd
    cases he
    obtain ⟨hg, hframe, hk, hpfn, hlt⟩ := Heap.pallocPtr_spec hp
    have hpfn' : pfn = h.pfnStart := hpfn
    subst hpfn'
    subst h1
    refine ⟨hi.dmallocGrow hn hg hk hlt (hg.room hi.pfnStart_le) (fun i hlt => ?_) fun x hx => ?_, rfl⟩
    · cases Nat.lt_one_iff.1 hlt
      rw [hframe]
      exact Function.update_self ..
    · rw [hframe, Function.update_of_ne (by omega)]
  · split at hd
    · cases hd
    · rename_i hroom
      obtain ⟨h₁, hm, he⟩ := Option.map_eq_some_iff.1 hd
      cases he
      obtain ⟨hg, hk, hin, hout⟩ := Heap.ptmapRange_spec hm
      refine ⟨hi.dmallocGrow hn ⟨hg.ptfreelist, hg.vfreelist, hg.ptbrk, hg.maxPfn, ?_, fun _ => ?_⟩ hk
        hg.pfnStart (hg.room (Nat.le_of_not_lt hroom)) hin hout, rfl⟩
      · exact Nat.le_trans (Nat.le_add_right _ _) hg.pfnStart
      · exact hg.room (Nat.le_of_not_lt hroom)

/-- A region from `dmalloc` is in use. -/
theorem Inv.dmalloc (hi : Inv low h live klive) (hn : 1 ≤ n) (hd : h.dmalloc n = some (s, h')) :
    Inv low h' (s :: live) klive ∧ s.size = n := by
  rw [Heap.dmalloc] at hd
  split at hd
  · rename_i l hfit
    cases hd
    have hall := Span.firstFit_forall
      (P := fun r => 1 ≤ r.size ∧ ∀ i, i < r.size → h.frame (r.start + i) = r.tag + i) hfit
      (fun r hr => ⟨hi.dma_pos r (List.mem_append_right _ hr), hi.mapped r (List.mem_append_right _ hr)⟩)
      fun r hr hlt => by
        have hr' := hi.mapped r (List.mem_append_right _ hr)
        refine ⟨⟨hn, fun i hlt' => hr' i (Nat.lt_trans hlt' hlt)⟩, Nat.sub_pos_of_lt hlt,
          fun i hlt' => ?_⟩
        dsimp only at hlt' ⊢
        rw [Nat.add_assoc, hr' (n + i) (by omega), Nat.add_assoc]
    have hmem : ∀ r ∈ (s :: live) ++ l, r ∈ live ∨ r ∈ s :: l := fun r hr => by
      rcases List.mem_append.1 hr with hr | hr
      · rcases List.mem_cons.1 hr with rfl | hr
        · exact .inr List.mem_cons_self
        · exact .inl hr
      · exact .inr (List.mem_cons_of_mem s hr)
    refine ⟨⟨hi.dma.firstFit hfit, hi.kernel, fun r hr => ?_, hi.kernel_pos, fun r hr => ?_, hi.inj, hi.frame, hi.low_le,
      hi.pfnStart_le, hi.dma_le, hi.kernel_le, hi.ptbrk_le, hi.maxPfn_le⟩, Span.firstFit_size hfit⟩
    · rcases hmem r hr with hr | hr
      · exact hi.dma_pos r (List.mem_append_left _ hr)
      · exact (hall r hr).1
    · rcases hmem r hr with hr | hr
      · exact hi.mapped r (List.mem_append_left _ hr)
      · exact (hall r hr).2
  · exact hi.dmallocEnd hn hd

theorem Inv.dmafree (hi : Inv low h live klive) (hs : s ∈ live) :
    Inv low (h.dmafree s) (live.erase s) klive := by
  have hperm : (live.erase s ++ (h.dmafree s).ptfreelist).Perm (live ++ h.ptfreelist) :=
    (List.perm_middle.trans ((List.perm_cons_erase hs).symm.append_right _))
  refine ⟨hi.dma.congr fun x => Span.cover_perm hperm x, hi.kernel,
    fun r hr => hi.dma_pos r (hperm.mem_iff.1 hr), hi.kernel_pos,
    fun r hr => hi.mapped r (hperm.mem_iff.1 hr), hi.inj, hi.frame, hi.low_le, hi.pfnStart_le, hi.dma_le,
    hi.kernel_le, hi.ptbrk_le, hi.maxPfn_le⟩

/-- What the loop of `kalloc` has done. -/
theorem Heap.kallocLoop_spec {h h' : Heap} (hk : Heap.kallocLoop n h = some h') :
    Grew h h' ∧ h'.kbrk = h.kbrk + n ∧
      (∀ x, h.kbrk ≤ x → x < h.kbrk + n → h.pfnStart ≤ h'.frame x ∧ h'.frame x < h'.pfnStart) ∧
      (∀ x y, h.kbrk ≤ x → x < h.kbrk + n → h.kbrk ≤ y → y < h.kbrk + n →
        h'.frame x = h'.frame y → x = y) ∧
      ∀ x, x < h.kbrk ∨ h.kbrk + n ≤ x → h'.frame x = h.frame x := by
  induction n generalizing h with
  | zero =>
      cases hk
      exact ⟨.refl _, rfl, fun x h₁ h₂ => absurd h₂ (Nat.not_lt.2 h₁),
        fun x y h₁ h₂ => absurd h₂ (Nat.not_lt.2 h₁), fun _ _ => rfl⟩
  | succ n ih =>
      obtain ⟨⟨pfn, h₁⟩, hp, hk⟩ := Option.bind_eq_some_iff.1 hk
      obtain ⟨hg, hframe, hkbrk, hpfn, hlt⟩ := Heap.pallocPtr_spec hp
      obtain ⟨hg', hkbrk', hnew, hinj, hout⟩ := ih hk
      have hstart : h₁.pfnStart ≤ h'.pfnStart := hg'.pfnStart
      dsimp only at hkbrk' hnew hinj hout
      rw [hkbrk] at hkbrk' hnew hinj hout
      -- the first page has the first frame, and all later frames are above it
      have hfirst : h'.frame h.kbrk = h.pfnStart := by
        rw [hout _ (.inl (Nat.lt_succ_self _)), hframe, Function.update_self, hpfn]
      have hlater : ∀ x, h.kbrk ≤ x → x < h.kbrk + (n + 1) → x ≠ h.kbrk →
          h.kbrk + 1 ≤ x ∧ x < h.kbrk + 1 + n := fun x hx hx' hne => by omega
      refine ⟨hg.trans ⟨hg'.ptfreelist, hg'.vfreelist, hg'.ptbrk, hg'.maxPfn, hg'.pfnStart, hg'.room⟩,
        by omega, fun x hx hx' => ?_, fun x y hx hx' hy hy' he => ?_, fun x hx => ?_⟩
      · by_cases he : x = h.kbrk
        · rw [he, hfirst]
          omega
        · have hx'' := hlater x hx hx' he
          have := hnew x hx''.1 hx''.2
          omega
      · by_cases hxe : x = h.kbrk
        · by_cases hye : y = h.kbrk
          · rw [hxe, hye]
          · have hy'' := hlater y hy hy' hye
            have := hnew y hy''.1 hy''.2
            rw [hxe, hfirst] at he
            omega
        · have hx'' := hlater x hx hx' hxe
          by_cases hye : y = h.kbrk
          · have := hnew x hx''.1 hx''.2
            rw [hye, hfirst] at he
            omega
          · have hy'' := hlater y hy hy' hye
            exact hinj x y hx''.1 hx''.2 hy''.1 hy''.2 he
      · rw [hout x (by omega), hframe, Function.update_of_ne (by omega)]

/-- A region from `kalloc` is in use. -/
theorem Inv.kalloc (hi : Inv low h live klive) (hn : 1 ≤ n) (hk : h.kalloc n = some (k, h')) :
    Inv low h' live (k :: klive) ∧ k.size = n := by
  rw [Heap.kalloc] at hk
  split at hk
  · rename_i l hfit
    cases hk
    have hall := Span.firstFit_forall (P := fun r => 1 ≤ r.size) hfit
      (fun r hr => hi.kernel_pos r (List.mem_append_right _ hr))
      fun r _ hlt => ⟨hn, Nat.sub_pos_of_lt hlt⟩
    refine ⟨⟨hi.dma, hi.kernel.firstFit hfit, hi.dma_pos, fun r hr => ?_, hi.mapped, hi.inj, hi.frame, hi.low_le,
      hi.pfnStart_le, hi.dma_le, hi.kernel_le, hi.ptbrk_le, hi.maxPfn_le⟩, Span.firstFit_size hfit⟩
    rcases List.mem_append.1 hr with hr | hr
    · rcases List.mem_cons.1 hr with rfl | hr
      · exact hall r List.mem_cons_self
      · exact hi.kernel_pos r (List.mem_append_left _ hr)
    · exact hall r (List.mem_cons_of_mem k hr)
  · obtain ⟨h₁, hk, he⟩ := Option.map_eq_some_iff.1 hk
    cases he
    obtain ⟨hg, hkbrk, hnew, hinj, hout⟩ := Heap.kallocLoop_spec hk
    have hapart := hi.apart
    have hle := hi.kernel_le
    have hdle := hi.dma_le
    have hgpt := hg.ptbrk
    have hgstart := hg.pfnStart
    have hptbrk := hi.ptbrk_le
    have hlow := hi.low_le
    have hold : ∀ x, h.Arena x → h'.frame x = h.frame x := fun x hx => hout x (by
      unfold Heap.Arena at hx
      omega)
    have hmem : ∀ x, h'.Arena x → ¬ h.Arena x → h.kbrk ≤ x ∧ x < h.kbrk + n := fun x hx hax => by
      unfold Heap.Arena at hx hax
      omega
    obtain ⟨hinj', hframe⟩ := hi.extend hg.pfnStart hold
      (fun x hx hax => hnew x (hmem x hx hax).1 (hmem x hx hax).2)
      (fun x y hx hy hax hay he =>
        hinj x y (hmem x hx hax).1 (hmem x hx hax).2 (hmem y hy hay).1 (hmem y hy hay).2 he)
    refine ⟨⟨?_, ?_, ?_, ?_, ?_, hinj', hframe, ?_, ?_, ?_, ?_, ?_, ?_⟩, rfl⟩
    · rw [hg.ptbrk, hg.ptfreelist]
      exact hi.dma
    · rw [hkbrk, hg.vfreelist, List.cons_append]
      exact hi.kernel.snoc hle n ()
    · rw [hg.ptfreelist]
      exact hi.dma_pos
    · rw [hg.vfreelist, List.cons_append]
      exact List.forall_mem_cons.2 ⟨hn, hi.kernel_pos⟩
    · rw [hg.ptfreelist]
      intro s hs i hlt
      have hx := (hi.dma.mem_iff (s.start + i)).1 ⟨s, hs, by omega, by omega⟩
      rw [hold _ (.inl hx), hi.mapped s hs i hlt]
    · omega
    · rw [hg.maxPfn]
      exact hg.room hi.pfnStart_le
    · omega
    · omega
    · omega
    · rw [hg.maxPfn]
      exact hi.maxPfn_le

theorem Inv.kfree (hi : Inv low h live klive) (hk : k ∈ klive) :
    Inv low (h.kfree k) live (klive.erase k) := by
  have hperm : (klive.erase k ++ (h.kfree k).vfreelist).Perm (klive ++ h.vfreelist) :=
    (List.perm_middle.trans ((List.perm_cons_erase hk).symm.append_right _))
  exact ⟨hi.dma, hi.kernel.congr fun x => Span.cover_perm hperm x, hi.dma_pos,
    fun r hr => hi.kernel_pos r (hperm.mem_iff.1 hr), hi.mapped, hi.inj, hi.frame, hi.low_le,
    hi.pfnStart_le, hi.dma_le, hi.kernel_le, hi.ptbrk_le, hi.maxPfn_le⟩

end Inv

/-! ## The heap at boot -/

/-- The heap that `init_pagetable` leaves: the arenas and the free lists are empty. -/
def Heap.boot (pfnStart maxPfn : Nat) (tables : List (List (Fin 512))) (frame : Nat → Nat) : Heap :=
  { ptfreelist := [], vfreelist := [], ptbrk := dmaBase, kbrk := kallocBase, pfnStart, maxPfn, tables,
    frame }

theorem Heap.boot_arena {pfnStart maxPfn : Nat} {tables : List (List (Fin 512))} {frame : Nat → Nat}
    (x : Nat) : ¬ (Heap.boot pfnStart maxPfn tables frame).Arena x := by
  rintro (⟨h₁, h₂⟩ | ⟨h₁, h₂⟩)
  · exact absurd h₂ (Nat.not_lt.2 h₁)
  · exact absurd h₂ (Nat.not_lt.2 h₁)

theorem Heap.boot_inv {pfnStart maxPfn : Nat} (tables : List (List (Fin 512))) (frame : Nat → Nat)
    (hstart : pfnStart ≤ maxPfn) (hmax : maxPfn ≤ 2 ^ 44) :
    Inv pfnStart (Heap.boot pfnStart maxPfn tables frame) [] [] where
  dma := Span.tiles_nil dmaBase
  kernel := Span.tiles_nil kallocBase
  dma_pos _ h := absurd h List.not_mem_nil
  kernel_pos _ h := absurd h List.not_mem_nil
  mapped _ h := absurd h List.not_mem_nil
  inj x _ hx := absurd hx (Heap.boot_arena x)
  frame x hx := absurd hx (Heap.boot_arena x)
  low_le := Nat.le_refl pfnStart
  pfnStart_le := hstart
  dma_le := Nat.le_refl dmaBase
  kernel_le := Nat.le_refl kallocBase
  ptbrk_le := Nat.le_add_right dmaBase pfnStart
  maxPfn_le := hmax

end Alloc
