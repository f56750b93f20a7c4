import Mathlib.Algebra.Order.BigOperators.Group.Finset
import Endros.Alloc.Heap
import Endros.Block.Contract

/-!
# The list of buffers with the pages of `dmalloc`

`Host` gives the pages of the buffers as a parameter.  Here they come from the allocator.
Between the calls of `get_block_buffer` the rest of the kernel may do what it likes with
the allocator, as long as it leaves the pages of the cache alone (`CacheStep.other`).

In every state the list is a simple list over the slots in use (`SimpleList`).  The pages of
the slots are different because they are in use at the same time.
-/

namespace Block

open Lib Mem
open Alloc (Heap Inv)

/-! ## `get_block_buffer` -/

/-- A new buffer with the page at the head of the list. -/
def addPage (s : State) (blockId vpn pfn : Nat) : State :=
  let i := s.dev.cacheSize
  { s with
    dev :=
      { bufferHead := some i
        cacheSize := i + 1
        bufferList := Function.update s.dev.bufferList i
          { valid := false, dirty := false, blockId, vpn, pfn, next := s.dev.bufferHead } } }

/-- `get_block_buffer`, with `dmalloc` for a new buffer. -/
def getFrom (s : State) (h : Heap) (blockId : Nat) : Option (State × Nat × Heap) :=
  match find s.dev.bufferList blockId (cacheBlocks + 1) none s.dev.bufferHead with
  | none => none
  | some (.hit prev i) => some (touch s prev i, i, h)
  | some (.miss prev ptr) =>
      if s.dev.cacheSize < cacheBlocks then
        (h.dmalloc 1).map fun r => (addPage s blockId r.1.start r.1.tag, s.dev.cacheSize, r.2)
      else
        match prev, ptr with
        | some p, some i => some (evict s p i, i, h)
        | _, _ => none

/-- The page of a buffer, as a region of `dmalloc`. -/
def State.region (s : State) (i : Nat) : Span Nat := ⟨(s.buf i).vpn, 1, (s.buf i).pfn⟩

/-- The pages of the slots are in use. -/
def PagesLive (low : Nat) (s : State) (h : Heap) : Prop :=
  ∃ live klive, Inv low h live klive ∧ ∀ i, i < s.dev.cacheSize → s.region i ∈ live

/-- A step is a call with a block, or something else that leaves the pages alone. -/
inductive CacheStep (low : Nat) : State × Heap → Option Nat → State × Heap → Prop where
  | get {s s' : State} {h h' : Heap} {b i : Nat} :
      getFrom s h b = some (s', i, h') → CacheStep low (s, h) (some b) (s', h')
  | other {s : State} {h h' : Heap} : PagesLive low s h' → CacheStep low (s, h) none (s, h')

/-! ## The list -/

/-- The list is simple, and an eviction finds a buffer before the last one. -/
structure SimpleList (s : State) : Prop where
  size_le : s.dev.cacheSize ≤ cacheBlocks
  visits : ∃ l, Chain s.dev.next s.dev.bufferHead l ∧ l.Perm (List.range s.dev.cacheSize)
  labels : ∀ i j, i < s.dev.cacheSize → j < s.dev.cacheSize → (s.buf i).blockId = (s.buf j).blockId →
    i = j
  vpns : ∀ i j, i < s.dev.cacheSize → j < s.dev.cacheSize → (s.buf i).vpn = (s.buf j).vpn → i = j
  pfns : ∀ i j, i < s.dev.cacheSize → j < s.dev.cacheSize → (s.buf i).pfn = (s.buf j).pfn → i = j
  evicts : ∀ b prev ptr, find s.dev.bufferList b (cacheBlocks + 1) none s.dev.bufferHead =
    some (.miss prev ptr) → ¬ s.dev.cacheSize < cacheBlocks → ∃ p i, prev = some p ∧ ptr = some i

/-- The invariant: a well formed list with pages in use. -/
structure InUse (low : Nat) (s : State) (h : Heap) : Prop where
  listed : ∃ H l, Listed H s.dev l
  pages : PagesLive low s h

section InUse

variable {low : Nat} {s s' : State} {h h' : Heap} {H : Host} {l : List Nat} {b i : Nat}

/-- Finitely many different pages are those of a host. -/
theorem exists_host (vpn pfn : Nat → Nat) (n : Nat)
    (hinj : ∀ i j, i ≤ n → j ≤ n → vpn i = vpn j → i = j) :
    ∃ H : Host, (∀ i, i ≤ n → H.vpn i = vpn i) ∧ H.pfn = pfn := by
  -- the pages behind the `n`-th are above the others
  have hle : ∀ i, i ≤ n → vpn i ≤ ∑ j ∈ Finset.range (n + 1), vpn j := fun i hi =>
    Finset.single_le_sum (fun _ _ => Nat.zero_le _) (Finset.mem_range.mpr (Nat.lt_succ_of_le hi))
  generalize ∑ j ∈ Finset.range (n + 1), vpn j = top at hle
  refine ⟨⟨fun i => if i ≤ n then vpn i else top + i, pfn, fun _ => none, fun i j he => ?_⟩,
    fun i hi => if_pos hi, rfl⟩
  by_cases hi : i ≤ n
  · by_cases hj : j ≤ n
    · rw [if_pos hi, if_pos hj] at he
      exact hinj i j hi hj he
    · rw [if_pos hi, if_neg hj] at he
      have := hle i hi
      omega
  · by_cases hj : j ≤ n
    · rw [if_neg hi, if_pos hj] at he
      have := hle j hj
      omega
    · rw [if_neg hi, if_neg hj] at he
      omega

theorem InUse.simple (hc : InUse low s h) : SimpleList s := by
  obtain ⟨H, l, hl⟩ := hc.listed
  obtain ⟨live, klive, hinv, hpages⟩ := hc.pages
  have hvpns : ∀ i j, i < s.dev.cacheSize → j < s.dev.cacheSize → (s.buf i).vpn = (s.buf j).vpn →
      i = j := by
    intro i j hi hj he
    have hi' : (s.buf i).vpn = H.vpn i := hl.vpn_eq i hi
    have hj' : (s.buf j).vpn = H.vpn j := hl.vpn_eq j hj
    rw [hi', hj'] at he
    exact H.vpn_inj i j he
  refine ⟨hl.size_le, ⟨l, hl.chain, ?_⟩, hl.label_inj, hvpns, fun i j hi hj he => ?_,
    fun b prev ptr hf hfull => ?_⟩
  · refine (List.perm_ext_iff_of_nodup hl.nodup List.nodup_range).mpr fun i => ?_
    rw [hl.mem_iff, List.mem_range]
  · -- a frame backs one page
    have harena : ∀ k, k < s.dev.cacheSize → h.Arena (s.buf k).vpn ∧ h.frame (s.buf k).vpn = (s.buf k).pfn := by
      intro k hk
      have hin := List.mem_append_left h.ptfreelist (hpages k hk)
      have hpos := hinv.dma_pos _ hin
      exact ⟨.inl ((hinv.dma.mem_iff _).mp ⟨_, hin, Span.has_start hpos⟩), hinv.mapped _ hin 0 hpos⟩
    obtain ⟨hai, hfi⟩ := harena i hi
    obtain ⟨haj, hfj⟩ := harena j hj
    exact hvpns i j hi hj (hinv.inj _ _ hai haj (by rw [hfi, hfj, he]))
  · obtain ⟨l₀, p, i, rfl⟩ := hl.last_two (Nat.le_of_not_lt hfull)
    have hlen : (l₀ ++ [p, i]).length < cacheBlocks + 1 := Nat.lt_succ_of_le hl.length_le
    rcases find_spec (b := b) none hl.chain hlen with ⟨-, hf'⟩ | ⟨l₁, j, l₂, -, -, hf'⟩
    · rw [hf'] at hf
      cases hf
      exact ⟨p, i, by simp, by simp⟩
    · rw [hf'] at hf
      cases hf

/-- Only links of the old buffers change. -/
theorem PagesLive.congr (hp : PagesLive low s h) (hsize : s'.dev.cacheSize = s.dev.cacheSize)
    (hsame : ∀ j, s'.buf j = { s.buf j with next := (s'.buf j).next }) : PagesLive low s' h := by
  obtain ⟨live, klive, hinv, hpages⟩ := hp
  refine ⟨live, klive, hinv, fun i hi => ?_⟩
  rw [hsize] at hi
  have hregion : s'.region i = s.region i := by
    rw [State.region, hsame i]
    rfl
  rw [hregion]
  exact hpages i hi

/-- A new buffer with a page from `dmalloc`. -/
theorem InUse.add (hc : InUse low s h) (hlt : s.dev.cacheSize < cacheBlocks)
    (hb : ∀ j, j < s.dev.cacheSize → (s.buf j).blockId ≠ b) {r : Span Nat}
    (hd : h.dmalloc 1 = some (r, h')) : InUse low (addPage s b r.start r.tag) h' := by
  obtain ⟨H, l, hl⟩ := hc.listed
  obtain ⟨live, klive, hinv, hpages⟩ := hc.pages
  obtain ⟨hinv', hsize⟩ := hinv.dmalloc (Nat.le_refl 1) hd
  have hfresh : ∀ i, i < s.dev.cacheSize → (s.buf i).vpn ≠ r.start := by
    intro i hi he
    have hnot := hinv'.dma.not_has (Span.has_start (hsize ▸ Nat.le_refl 1))
      (List.mem_append_left h'.ptfreelist (hpages i hi))
    exact hnot ⟨Nat.le_of_eq he, by rw [← he]; exact Nat.lt_succ_self _⟩
  obtain ⟨H', hvpn, hpfn⟩ := exists_host (Function.update (fun i => (s.buf i).vpn) s.dev.cacheSize r.start)
    (fun _ => r.tag) s.dev.cacheSize fun i j hi hj he => by
      rcases Nat.lt_or_eq_of_le hi with hi | rfl
      · rw [Function.update_of_ne (Nat.ne_of_lt hi)] at he
        rcases Nat.lt_or_eq_of_le hj with hj | rfl
        · rw [Function.update_of_ne (Nat.ne_of_lt hj)] at he
          exact hc.simple.vpns i j hi hj he
        · rw [Function.update_self] at he
          exact absurd he (hfresh i hi)
      · rw [Function.update_self] at he
        rcases Nat.lt_or_eq_of_le hj with hj | rfl
        · rw [Function.update_of_ne (Nat.ne_of_lt hj)] at he
          exact absurd he.symm (hfresh j hj)
        · rfl
  have hl' : Listed H' s.dev l := ⟨hl.chain, hl.nodup, hl.mem_iff, hl.size_le, hl.label_inj, fun i hi => by
    rw [hvpn i (Nat.le_of_lt hi), Function.update_of_ne (Nat.ne_of_lt hi)]
    rfl⟩
  have hadd : addBuffer H' s b = addPage s b r.start r.tag := by
    rw [addBuffer, addPage, hvpn _ (Nat.le_refl _), Function.update_self, hpfn]
  refine ⟨⟨H', _, hadd ▸ addBuffer_listed hl' hlt hb⟩, r :: live, klive, hinv', fun i hi => ?_⟩
  have hi : i < s.dev.cacheSize + 1 := hi
  rcases Nat.lt_succ_iff_lt_or_eq.mp hi with hi | rfl
  · have hregion : (addPage s b r.start r.tag).region i = s.region i := by
      simp only [State.region, State.buf, addPage, Function.update_of_ne (Nat.ne_of_lt hi)]
    rw [hregion]
    exact List.mem_cons_of_mem _ (hpages i hi)
  · have hregion : (addPage s b r.start r.tag).region s.dev.cacheSize = r := by
      simp only [State.region, State.buf, addPage, Function.update_self]
      rw [← hsize]
    rw [hregion]
    exact List.mem_cons_self

/-- The three things a call does: a hit, a new buffer, and an eviction. -/
inductive GetCase (s : State) (h : Heap) (b : Nat) (l : List Nat) : Prop where
  | hit {l₁ l₂ : List Nat} {i : Nat} : l = l₁ ++ i :: l₂ →
      getFrom s h b = some (touch s l₁.getLast? i, i, h) → GetCase s h b l
  | add : s.dev.cacheSize < cacheBlocks → (∀ j, j < s.dev.cacheSize → (s.buf j).blockId ≠ b) →
      getFrom s h b = (h.dmalloc 1).map (fun r => (addPage s b r.1.start r.1.tag, s.dev.cacheSize, r.2)) →
      GetCase s h b l
  | evict {l₀ : List Nat} {p i : Nat} : l = l₀ ++ [p, i] →
      getFrom s h b = some (touch (writeBack s i) (some p) i, i, h) → GetCase s h b l

theorem getFrom_cases (hl : Listed H s.dev l) (h : Heap) (b : Nat) : GetCase s h b l := by
  have hlen : l.length < cacheBlocks + 1 := Nat.lt_succ_of_le hl.length_le
  rcases find_spec (b := b) none hl.chain hlen with ⟨hne, hf⟩ | ⟨l₁, i, l₂, hsplit, -, hf⟩
  · by_cases hlt : s.dev.cacheSize < cacheBlocks
    · refine .add hlt (fun j hj => hne j ((hl.mem_iff j).mpr hj)) ?_
      rw [getFrom, hf]
      exact if_pos hlt
    · obtain ⟨l₀, p, i, rfl⟩ := hl.last_two (Nat.le_of_not_lt hlt)
      have hlast : (l₀ ++ [p, i]).getLast? = some i := by simp
      have hprev : (l₀ ++ [p, i]).dropLast.getLast? = some p := by simp
      refine .evict rfl ?_
      rw [getFrom, hf, hlast, hprev, ← evict_eq_touch hl.last_ne hl.last_next]
      exact if_neg hlt
  · refine .hit hsplit ?_
    rw [getFrom, hf, Option.or_none]

/-- Every call keeps the invariant. -/
theorem InUse.get (hc : InUse low s h) (hg : getFrom s h b = some (s', i, h')) : InUse low s' h' := by
  obtain ⟨H, l, hl⟩ := hc.listed
  cases getFrom_cases hl h b with
  | @hit l₁ l₂ j hsplit he =>
      cases he.symm.trans hg
      rcases List.eq_nil_or_concat l₁ with rfl | ⟨l₀, p, rfl⟩
      · exact ⟨⟨H, _, hl⟩, hc.pages⟩
      · have hlist : Listed H s.dev (l₀ ++ p :: i :: l₂) := by simpa [hsplit] using hl
        rw [List.concat_eq_append, List.getLast?_concat]
        exact ⟨⟨H, _, touch_listed hlist⟩, hc.pages.congr rfl fun j => touch_same hlist j⟩
  | add hlt hb he =>
      obtain ⟨⟨r, h₁⟩, hd, hr⟩ := Option.map_eq_some_iff.mp (he.symm.trans hg)
      cases hr
      exact hc.add hlt hb hd
  | @evict l₀ p j hsplit he =>
      cases he.symm.trans hg
      obtain ⟨hl', hsame⟩ := evicted_listed (hsplit ▸ hl)
      exact ⟨⟨H, _, hl'⟩, hc.pages.congr (congrArg (·.cacheSize) (writeBack_dev s i)) hsame⟩

/-- A call fails only if `dmalloc` does. -/
theorem InUse.get_none (hc : InUse low s h) (hg : getFrom s h b = none) : h.dmalloc 1 = none := by
  obtain ⟨H, l, hl⟩ := hc.listed
  cases getFrom_cases hl h b with
  | hit _ he => cases he.symm.trans hg
  | add _ _ he => exact Option.map_eq_none_iff.mp (he.symm.trans hg)
  | evict _ he => cases he.symm.trans hg

theorem InUse.step {x x' : State × Heap} {e : Option Nat} (hc : InUse low x.1 x.2)
    (hs : CacheStep low x e x') : InUse low x'.1 x'.2 := by
  cases hs with
  | get hg => exact hc.get hg
  | other hp => exact ⟨hc.listed, hp⟩

end InUse

/-- From the state that `wrap_virtio_blk_device` leaves, the list stays simple, and a call
fails only if `dmalloc` has no page. -/
theorem cache_list_simple {low : Nat} {h : Heap} {live : List (Span Nat)} {klive : List (Span Unit)}
    {disk : Nat → UInt8} {mem : Nat → Nat → UInt8} {r : List (Option Nat × State × Heap)}
    (hinv : Inv low h live klive) (hr : IsRun (CacheStep low) (start disk mem, h) r) :
    EveryState (fun x => SimpleList x.1 ∧ ∀ b, getFrom x.1 x.2 b = none → x.2.dmalloc 1 = none)
      (start disk mem, h) r := by
  have hstart : InUse low (start disk mem) h :=
    ⟨⟨plainHost, [], listed_start plainHost disk mem⟩, live, klive, hinv, fun i hi => absurd hi (Nat.not_lt_zero i)⟩
  exact (hr.invariant (I := fun x => InUse low x.1 x.2) (fun _ _ _ hc hs => hc.step hs) hstart).mono
    fun _ hc => ⟨hc.simple, fun _ hg => hc.get_none hg⟩

/-- One block is asked for twice. -/
theorem cache_list_simple_twice : ∃ s h s',
    getFrom (start (fun _ => 0) fun _ _ => 0) (.boot 0x80206 (2 ^ 20) [] fun _ => 0) 3 = some (s, 0, h) ∧
      getFrom s h 3 = some (s', 0, h) ∧ SimpleList s' := by
  obtain ⟨r, h, hd⟩ : ∃ r h, (Heap.boot 0x80206 (2 ^ 20) [] fun _ => 0).dmalloc 1 = some (r, h) :=
    ⟨_, _, rfl⟩
  have hinv : Inv 0x80206 (Heap.boot 0x80206 (2 ^ 20) [] fun _ => 0) [] [] :=
    Heap.boot_inv [] _ (by decide) (by decide)
  have hfirst : getFrom (start (fun _ => 0) fun _ _ => 0) (.boot 0x80206 (2 ^ 20) [] fun _ => 0) 3 =
      some (addPage (start (fun _ => 0) fun _ _ => 0) 3 r.start r.tag, 0, h) := by
    cases getFrom_cases (listed_start plainHost (fun _ => 0) fun _ _ => 0)
        (.boot 0x80206 (2 ^ 20) [] fun _ => 0) 3 with
    | hit hsplit _ => exact absurd hsplit.symm (List.append_ne_nil_of_right_ne_nil _ (List.cons_ne_nil _ _))
    | add _ _ he =>
        rw [he, hd]
        rfl
    | evict hsplit _ =>
        exact absurd hsplit.symm (List.append_ne_nil_of_right_ne_nil _ (List.cons_ne_nil _ _))
  have hsecond : getFrom (addPage (start (fun _ => 0) fun _ _ => 0) 3 r.start r.tag) h 3 =
      some (addPage (start (fun _ => 0) fun _ _ => 0) 3 r.start r.tag, 0, h) := rfl
  have hall := cache_list_simple hinv (r := [(some 3, _, h), (some 3, _, h)])
    ⟨.get hfirst, .get hsecond, trivial⟩
  exact ⟨_, h, _, hfirst, hsecond, hall.final.1⟩

end Block
