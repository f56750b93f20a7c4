import Endros.Lib.Run
import Endros.Mem
import Endros.Space.Map

/-!
# The heap of a process

`sys_sbrk` maps new pages between the old and the new break, and unmaps pages
when the size is negative.  It reads `brk` and never sets it.  `load_process`
makes `brk` and `heap_bottom` equal and `sys_fork` copies both, so they are equal
in every process: a negative size is always refused, and each call that is not
refused starts again at the bottom of the heap.

The state of a run is the memory and the sum of the sizes of the calls that were
not refused.  Between calls the process stores to the pages of its heap.  The heap
is one region (`OneHeap`) as long as no call gets pages once the sum is not zero
(`GrowsOnce`).
-/

namespace Space

open Lib Paging Mem

variable {ω : Type} {A : Allocator ω}

/-! ## One page more -/

/-- A page that is not cleared, and its entry. -/
def mapPage (A : Allocator ω) (s : Memory ω) (r : Root) (userVpn : Nat) (flags : UInt64) :
    Option (Memory ω) := do
  let (p, s) ← s.dmalloc A false
  uptmap A s r.page.vpn r.ref p.vpn userVpn p.pfn flags

theorem short_pathOf (v : Nat) : Short (pathOf v) := Nat.le_refl 2

/-- The entry of a page and the kernel page beside it. -/
def pageEntry (s : Memory ω) (r : Root) (v : Nat) : UInt64 × Nat :=
  entry s r (pathOf v) (vpnAt 0 v)

/-- The page `p` was mapped at `userVpn`.  It is not part of the tables. -/
structure PageMapped (V : Lawful A) (R : Footprint) (r : Root) (s s' : Memory ω) (F' : Footprint)
    (userVpn : Nat) (flags : UInt64) (p : Page) : Prop where
  own : Own V s'.heap F' (R.addPage p)
  tree : UserTree s' r F'
  rest : Same s s' R
  entry : ∀ v, pageEntry s' r v =
    if SamePage userVpn v then (pte p.pfn flags, p.vpn) else pageEntry s r v

section MapPage

variable {V : Lawful A} {s s' : Memory ω} {r : Root} {F R : Footprint} {p : Page}

/-- A page of the footprint goes to the rest. -/
theorem Own.give {w : ω} (h : Own V w (F.addPage p) R) (hp : p ∉ F.pages) :
    Own V w F (R.addPage p) where
  valid := by
    have hpages : F.pages ∪ insert p R.pages = insert p F.pages ∪ R.pages := by
      rw [Set.union_insert, Set.insert_union]
    show V.Valid w (F.pages ∪ insert p R.pages) _
    rw [hpages]
    exact h.valid
  pages q hq hR := by
    rcases hR with rfl | hR
    · exact hp hq
    · exact h.pages q (.inr hq) hR
  refs := h.refs

theorem mapPage_mapped (ho : Own V s.heap F R) (ht : UserTree s r F) {userVpn : Nat}
    {flags : UInt64} (hm : mapPage A s r userVpn flags = some s') :
    ∃ F' p, PageMapped V R r s s' F' userVpn flags p := by
  obtain ⟨⟨p, s₁⟩, hd, hu⟩ := Option.bind_eq_some_iff.1 hm
  obtain ⟨ho₁, hF, hR, hnew, -⟩ := ho.dmalloc hd
  obtain ⟨F', hmap⟩ := uptmap_mapped (ho₁.give hnew) (ht.congr hF) hu
  refine ⟨F', p, hmap.own, hmap.tree, ?_, fun v => ?_⟩
  · exact hR.trans ⟨fun q hq => hmap.rest.mem q (.inr hq), hmap.rest.refs, hmap.rest.leaves⟩
  · rw [pageEntry, hmap.entry (pathOf v) (vpnAt 0 v) rfl, ht.entry_congr hF (short_pathOf v)]
    by_cases hv : SamePage userVpn v
    · obtain ⟨hpath, hleaf⟩ := (samePage_iff userVpn v).1 hv
      rw [if_pos hv, if_pos ⟨hpath.symm, hleaf.symm⟩]
    · rw [if_neg hv, if_neg fun he => hv ((samePage_iff userVpn v).2 ⟨he.1.symm, he.2.symm⟩)]
      rfl

/-- The hardware finds the entry of a page. -/
theorem UserTree.sv39_eq (h : UserTree s r F) (v : Nat) :
    (sv39Entry s.mem r.page.pfn v).2 = (pageEntry s r v).1 := by
  rcases h.at_or (short_pathOf v) with ⟨q, b, hat⟩ | ⟨ht, hr⟩
  · rw [(h.walks_at hat).1, pageEntry, hat.entry_eq]
  · rw [(h.walks_none hr).1, pageEntry, entry, ht]

end MapPage

/-! ## `sys_sbrk` -/

/-- An `i64`. -/
abbrev I64 := { x : Int // -2 ^ 63 ≤ x ∧ x < 2 ^ 63 }

/-- What `sys_sbrk` reads of a process. -/
structure HeapOwner where
  root : Root
  brk : Nat
  heapBottom : Nat

/-- `HEAP_TOP`. -/
def heapTop : Nat := 0x4000000000

/-- The flags of a page of the heap. -/
def heapFlags : UInt64 := pteUser ||| pteValid ||| pteRead ||| pteWrite

/-- `(u64)a + x`. -/
def addSize (a : Nat) (x : Int) : Nat := ((a + x) % 2 ^ 64).toNat

/-- `uptunmap`.  The kernel page beside the entry is left as it is. -/
def uptunmap (A : Allocator ω) (s : Memory ω) (ptrefBase userVpn : Nat) : Option (Memory ω) :=
  let ptref2 := s.refs ptrefBase (vpnAt 2 userVpn)
  if ptref2.ptable = 0 then none
  else
    let ptref1 := s.refs ptref2.ptRef (vpnAt 1 userVpn)
    if ptref1.ptable = 0 then none
    else
      let pfn := getPfn (s.load A ptref1.ptable (vpnAt 0 userVpn))
      let kernelVpn := s.leaves ptref1.ptRef (vpnAt 0 userVpn)
      let s := if kernelVpn = 0 then s else s.dmafree A ⟨pfn, kernelVpn⟩
      some (s.store A ptref1.ptable (vpnAt 0 userVpn) 0)

/-- The loop of `sys_sbrk` that maps `n` pages from `vpn` on. -/
def growHeap (A : Allocator ω) (r : Root) : Nat → Nat → Memory ω → Option (Memory ω)
  | 0, _, s => some s
  | n + 1, vpn, s => (mapPage A s r vpn heapFlags).bind (growHeap A r n (vpn + 1))

/-- The loop of `sys_sbrk` that unmaps `n` pages from `vpn` on. -/
def shrinkHeap (A : Allocator ω) (r : Root) : Nat → Nat → Memory ω → Option (Memory ω)
  | 0, _, s => some s
  | n + 1, vpn, s => (uptunmap A s r.ref vpn).bind (shrinkHeap A r n (vpn + 1))

/-- `sys_sbrk`, with its result.  The pages are counted in an `int`; behind the tests
both ends are below `HEAP_TOP`, which has the page `2 ^ 26`. -/
def sysSbrk (A : Allocator ω) (proc : HeapOwner) (s : Memory ω) (size : I64) :
    Option (Int × Memory ω) :=
  let oldBrk := proc.brk
  let newBrk := addSize oldBrk size
  if newBrk ≥ heapTop ∨ newBrk < proc.heapBottom then some (-1, s)
  else if size.val > 0 then
    (growHeap A proc.root (addr2PageUp newBrk - addr2PageUp oldBrk) (addr2PageUp oldBrk) s).map
      (((oldBrk : Int), ·))
  else if size.val < 0 then
    (shrinkHeap A proc.root (addr2PageUp oldBrk - addr2PageUp newBrk) (addr2PageUp newBrk) s).map
      (((oldBrk : Int), ·))
  else some (oldBrk, s)

/-- A process whose heap is where `load_process` puts it. -/
structure HeapOwner.Loaded (proc : HeapOwner) : Prop where
  brk : proc.brk = proc.heapBottom
  aligned : offset proc.heapBottom = 0
  lt : proc.heapBottom < 2 ^ 64

section Sbrk

variable {V : Lawful A} {s s' : Memory ω} {proc : HeapOwner} {size : I64} {v : Int}

/-- The call is refused. -/
def Refused (proc : HeapOwner) (size : I64) : Prop :=
  size.val < 0 ∨ (heapTop : Int) ≤ proc.heapBottom + size.val

/-- A new break below the bottom of the heap, or one that wraps, is refused. -/
theorem addSize_refused_iff (hp : proc.Loaded) :
    (addSize proc.brk size ≥ heapTop ∨ addSize proc.brk size < proc.heapBottom) ↔
      Refused proc size := by
  obtain ⟨x, hx⟩ := size
  have hlt := hp.lt
  rw [hp.brk]
  simp only [addSize, Refused, heapTop]
  omega

theorem addSize_of_not_refused (hp : proc.Loaded) (h : ¬ Refused proc size) :
    (addSize proc.brk size : Int) = proc.heapBottom + size.val := by
  obtain ⟨x, hx⟩ := size
  rw [hp.brk]
  simp only [addSize, Refused, heapTop] at *
  omega

theorem sysSbrk_refused (hp : proc.Loaded) (h : Refused proc size) :
    sysSbrk A proc s size = some (-1, s) :=
  if_pos ((addSize_refused_iff hp).mpr h)

/-- A call that is not refused returns the bottom of the heap. -/
theorem sysSbrk_of_not_refused (hp : proc.Loaded) (h : ¬ Refused proc size)
    (hs : sysSbrk A proc s size = some (v, s')) :
    v = proc.heapBottom ∧
      growHeap A proc.root (addr2PageUp (proc.heapBottom + size.val).toNat - addr2Page proc.heapBottom)
        (addr2Page proc.heapBottom) s = some s' := by
  have hnew : addSize proc.brk size = (proc.heapBottom + size.val).toNat := by
    have := addSize_of_not_refused hp h
    omega
  have hup : addr2PageUp proc.heapBottom = addr2Page proc.heapBottom := by
    rw [addr2PageUp, if_pos hp.aligned, Nat.add_zero]
  rw [sysSbrk, if_neg fun hr => h ((addSize_refused_iff hp).mp hr)] at hs
  split at hs
  · obtain ⟨s₁, hg, he⟩ := Option.map_eq_some_iff.1 hs
    cases he
    rw [hnew, hp.brk, hup] at hg
    exact ⟨by rw [hp.brk], hg⟩
  · split at hs
    · rename_i hneg
      exact absurd (.inl hneg) h
    · rename_i h₁ h₂
      cases hs
      have hzero : size.val = 0 := by omega
      rw [hzero, Int.add_zero, Int.toNat_natCast, hup, Nat.sub_self]
      exact ⟨by rw [hp.brk], rfl⟩

/-! ## The pages of the heap -/

/-- The page is between the bottom and the top of the heap. -/
def HeapPage (proc : HeapOwner) (vpn : Nat) : Prop :=
  addr2Page proc.heapBottom ≤ vpn ∧ vpn < heapTop / pageSize

/-- The hardware finds a valid entry for the page. -/
def IsMapped (s : Memory ω) (r : Root) (vpn : Nat) : Prop :=
  (sv39Entry s.mem r.page.pfn vpn).2 &&& pteValid ≠ 0

/-- What the process sees on the page. -/
def content (s : Memory ω) (r : Root) (vpn : Nat) : Fin 512 → UInt64 :=
  s.mem (getPfn (sv39Entry s.mem r.page.pfn vpn).2)

/-- The first `n` pages of the heap are mapped, to pages outside of the tables, and no
others. -/
def HeapMapped (V : Lawful A) (s : Memory ω) (proc : HeapOwner) (n : Nat) : Prop :=
  ∃ F R, ∃ ps : Nat → Page, Own V s.heap F R ∧ UserTree s proc.root F ∧
    (∀ j, j < n → ps j ∈ R.pages ∧
      pageEntry s proc.root (addr2Page proc.heapBottom + j) =
        (pte (ps j).pfn heapFlags, (ps j).vpn)) ∧
    ∀ vpn, HeapPage proc vpn → addr2Page proc.heapBottom + n ≤ vpn →
      pageEntry s proc.root vpn = (0, 0)

theorem samePage_refl (u : Nat) : SamePage u u := rfl

theorem samePage_iff_eq {u v : Nat} (hu : u < 2 ^ 27) (hv : v < 2 ^ 27) : SamePage u v ↔ u = v := by
  rw [SamePage, Nat.mod_eq_of_lt hu, Nat.mod_eq_of_lt hv]

/-- The loop maps its pages, and leaves the other entries and the rest alone. -/
theorem growHeap_mapped {r : Root} {F R : Footprint} {n first : Nat} (ho : Own V s.heap F R)
    (ht : UserTree s r F) (hle : first + n ≤ 2 ^ 27) (hg : growHeap A r n first s = some s') :
    ∃ F' R', ∃ ps : Nat → Page, Own V s'.heap F' R' ∧ UserTree s' r F' ∧ R.Le R' ∧ Same s s' R ∧
      (∀ j, j < n → ps j ∈ R'.pages ∧
        pageEntry s' r (first + j) = (pte (ps j).pfn heapFlags, (ps j).vpn)) ∧
      ∀ v, v < 2 ^ 27 → v < first ∨ first + n ≤ v → pageEntry s' r v = pageEntry s r v := by
  induction n generalizing s F R first with
  | zero =>
      cases hg
      exact ⟨F, R, fun _ => r.page, ho, ht, ⟨subset_rfl, subset_rfl⟩, .refl _ R,
        fun j hj => absurd hj (Nat.not_lt_zero j), fun _ _ _ => rfl⟩
  | succ n ih =>
      obtain ⟨s₁, hm, hg⟩ := Option.bind_eq_some_iff.1 hg
      obtain ⟨F₁, p, hpage⟩ := mapPage_mapped ho ht hm
      obtain ⟨F', R', ps, ho', ht', hR, hrest, hin, hout⟩ := ih hpage.own hpage.tree (by omega) hg
      refine ⟨F', R', fun j => if j = 0 then p else ps (j - 1), ho', ht',
        ⟨fun q hq => hR.pages (.inr hq), hR.refs⟩,
        hpage.rest.trans ⟨fun q hq => hrest.mem q (.inr hq), hrest.refs, hrest.leaves⟩,
        fun j hj => ?_, fun v hv hv' => ?_⟩
      · cases j with
        | zero =>
            refine ⟨hR.pages (.inl rfl), ?_⟩
            rw [Nat.add_zero, hout first (by omega) (.inl (Nat.lt_succ_self _)), hpage.entry,
              if_pos (samePage_refl first)]
            rfl
        | succ j =>
            have hj' := hin j (by omega)
            rw [Nat.add_right_comm] at hj'
            exact hj'
      · rw [hout v hv (by omega), hpage.entry, if_neg]
        rw [samePage_iff_eq (by omega) hv]
        omega

theorem valid_heap {pfn : Nat} (hp : pfn < 2 ^ 54) : pte pfn heapFlags &&& pteValid ≠ 0 := fun h => by
  have hchild := child_pte hp (by decide : heapFlags.toNat < 1024) (by decide)
  rw [child_of_invalid h] at hchild
  cases hchild

/-- Which pages are mapped. -/
theorem HeapMapped.isMapped_iff {n vpn : Nat} (h : HeapMapped V s proc n) (hv : HeapPage proc vpn) :
    IsMapped s proc.root vpn ↔ vpn < addr2Page proc.heapBottom + n := by
  obtain ⟨F, R, ps, ho, ht, hin, hout⟩ := h
  rw [IsMapped, ht.sv39_eq]
  rcases Nat.lt_or_ge vpn (addr2Page proc.heapBottom + n) with hlt | hge
  · obtain ⟨j, rfl⟩ := Nat.exists_eq_add_of_le hv.1
    obtain ⟨hR, he⟩ := hin j (by omega)
    rw [he]
    exact ⟨fun _ => hlt, fun _ => valid_heap (V.page ho.valid (.inr hR)).2.1⟩
  · rw [hout vpn hv hge]
    exact ⟨fun hne => absurd rfl hne, fun hlt => absurd hlt (Nat.not_lt.mpr hge)⟩

/-- A store of the process to a word of a page. -/
def storeUser (s : Memory ω) (r : Root) (vpn : Nat) (i : Fin 512) (x : UInt64) : Memory ω :=
  { s with mem := Radix.set s.mem (getPfn (sv39Entry s.mem r.page.pfn vpn).2) i x }

/-- A store to a page of the heap keeps the tables. -/
theorem HeapMapped.storeUser {n vpn : Nat} (h : HeapMapped V s proc n) (hv : HeapPage proc vpn)
    (hm : IsMapped s proc.root vpn) (i : Fin 512) (x : UInt64) :
    HeapMapped V (storeUser s proc.root vpn i x) proc n := by
  have hlt := (h.isMapped_iff hv).mp hm
  obtain ⟨F, R, ps, ho, ht, hin, hout⟩ := h
  obtain ⟨j, rfl⟩ := Nat.exists_eq_add_of_le hv.1
  obtain ⟨hR, he⟩ := hin j (by omega)
  have hframe : getPfn (sv39Entry s.mem proc.root.page.pfn (addr2Page proc.heapBottom + j)).2 =
      (ps j).pfn := by
    rw [ht.sv39_eq, he]
    exact getPfn_pte (V.page ho.valid (.inr hR)).2.1 (by decide)
  have hsame : Same s (Space.storeUser s proc.root (addr2Page proc.heapBottom + j) i x) F := by
    refine ⟨fun p hp => funext fun k => ?_, fun _ _ => rfl, fun _ _ => rfl⟩
    rw [Space.storeUser, hframe]
    exact Radix.set_of_ne fun hpfn => absurd hpfn (ho.apart hp hR)
  have hentry : ∀ v, pageEntry (Space.storeUser s proc.root (addr2Page proc.heapBottom + j) i x)
      proc.root v = pageEntry s proc.root v := fun v => ht.entry_congr hsame (short_pathOf v) _
  refine ⟨F, R, ps, ho, ht.congr hsame, fun k hk => ?_, fun v hv' hge => ?_⟩
  · rw [hentry]
    exact hin k hk
  · rw [hentry]
    exact hout v hv' hge

end Sbrk

/-! ## Runs -/

structure HeapState (ω : Type) where
  memory : Memory ω
  /-- The sum of the sizes of the calls that were not refused. -/
  total : Int

inductive HeapEvent where
  | sbrk (size : I64) (result : Int)
  | store (vpn : Nat) (i : Fin 512) (x : UInt64)

/-- A call of `sys_sbrk` that returns, or a store to the heap. -/
def HeapStep (A : Allocator ω) (proc : HeapOwner) (s : HeapState ω) (e : HeapEvent)
    (s' : HeapState ω) : Prop :=
  match e with
  | .sbrk size v => sysSbrk A proc s.memory size = some (v, s'.memory) ∧
      s'.total = if v < 0 then s.total else s.total + size.val
  | .store vpn i x => HeapPage proc vpn ∧ IsMapped s.memory proc.root vpn ∧
      s' = { s with memory := storeUser s.memory proc.root vpn i x }

/-- The heap is one region from its bottom to the break.  A call that is not refused
returns the old break, the pages up to the new one are mapped, and those that were
mapped before have the same contents. -/
def OneHeap (proc : HeapOwner) (s : HeapState ω) (e : HeapEvent) (s' : HeapState ω) : Prop :=
  match e with
  | .sbrk _ v =>
      (0 ≤ v → v = proc.heapBottom + s.total ∧ 0 ≤ s'.total ∧ proc.heapBottom + s'.total < heapTop) ∧
      (∀ vpn, HeapPage proc vpn → (IsMapped s'.memory proc.root vpn ↔
        vpn < addr2PageUp (proc.heapBottom + s'.total).toNat)) ∧
      ∀ vpn, HeapPage proc vpn → IsMapped s.memory proc.root vpn → IsMapped s'.memory proc.root vpn →
        content s'.memory proc.root vpn = content s.memory proc.root vpn
  | .store .. => True

/-- No call gets pages once the sum is not zero. -/
def GrowsOnce (proc : HeapOwner) (s : HeapState ω) (e : HeapEvent) (_ : HeapState ω) : Prop :=
  match e with
  | .sbrk size _ => s.total = 0 ∨ Refused proc size
  | .store .. => True

/-- The heap of a process before its first call. -/
structure FreshHeap (V : Lawful A) (proc : HeapOwner) (s : HeapState ω) : Prop where
  loaded : proc.Loaded
  total : s.total = 0
  pages : HeapMapped V s.memory proc 0

/-- What holds between the calls. -/
structure HeapInv (V : Lawful A) (proc : HeapOwner) (s : HeapState ω) : Prop where
  nonneg : 0 ≤ s.total
  pages : HeapMapped V s.memory proc
    (addr2PageUp (proc.heapBottom + s.total).toNat - addr2Page proc.heapBottom)

section Run

variable {V : Lawful A} {proc : HeapOwner} {s s' : HeapState ω} {e : HeapEvent}

theorem addr2Page_le_up {b : Nat} {x : Int} (hx : 0 ≤ x) :
    addr2Page b ≤ addr2PageUp (b + x).toNat :=
  Nat.le_trans (Nat.le_add_right ..) (addr2PageUp_mono (by omega))

theorem HeapInv.isMapped_iff (h : HeapInv V proc s) {vpn : Nat} (hv : HeapPage proc vpn) :
    IsMapped s.memory proc.root vpn ↔ vpn < addr2PageUp (proc.heapBottom + s.total).toNat := by
  have hle := @addr2Page_le_up proc.heapBottom _ h.nonneg
  rw [h.pages.isMapped_iff hv]
  omega

/-- A call that gets pages for an empty heap. -/
theorem HeapInv.grow (hp : proc.Loaded) (h : HeapInv V proc s) (hzero : s.total = 0) {size : I64}
    (hr : ¬ Refused proc size)
    (hg : growHeap A proc.root (addr2PageUp (proc.heapBottom + size.val).toNat -
      addr2Page proc.heapBottom) (addr2Page proc.heapBottom) s.memory = some s'.memory)
    (htotal : s'.total = size.val) : HeapInv V proc s' := by
  have hnonneg : 0 ≤ size.val := Int.not_lt.mp fun hlt => hr (.inl hlt)
  have htop : (proc.heapBottom : Int) + size.val < heapTop := Int.not_le.mp fun hle => hr (.inr hle)
  have hle := @addr2Page_le_up proc.heapBottom _ hnonneg
  have hlast : addr2PageUp (proc.heapBottom + size.val).toNat ≤ 2 ^ 26 := by
    have hup := addr2PageUp_lt (proc.heapBottom + size.val).toNat
    simp only [heapTop, pageSize] at *
    omega
  obtain ⟨F, R, ps, ho, ht, -, hout⟩ := h.pages
  obtain ⟨F', R', ps', ho', ht', -, -, hin', hout'⟩ := growHeap_mapped ho ht (by omega) hg
  have hempty : addr2PageUp (proc.heapBottom + s.total).toNat = addr2Page proc.heapBottom := by
    rw [hzero, Int.add_zero, Int.toNat_natCast, addr2PageUp, if_pos hp.aligned, Nat.add_zero]
  refine ⟨by rw [htotal]; exact hnonneg, F', R', ps', ho', ht', ?_, fun vpn hv hge => ?_⟩
  · rw [htotal]
    exact hin'
  · have hlt : vpn < 2 ^ 27 := by
      have := hv.2
      simp only [heapTop, pageSize] at this
      omega
    rw [htotal] at hge
    rw [hout' vpn hlt (.inr hge), hout vpn hv (by have := hv.1; omega)]

/-- One step, from a heap that is one region. -/
theorem HeapInv.step (hp : proc.Loaded) (h : HeapInv V proc s) (hs : HeapStep A proc s e s')
    (hc : GrowsOnce proc s e s') : HeapInv V proc s' ∧ OneHeap proc s e s' := by
  cases e with
  | store vpn i x =>
      obtain ⟨hv, hm, rfl⟩ := hs
      exact ⟨⟨h.nonneg, h.pages.storeUser hv hm i x⟩, trivial⟩
  | sbrk size v =>
      obtain ⟨hs, htotal⟩ := hs
      by_cases hr : Refused proc size
      · -- nothing changes
        rw [sysSbrk_refused hp hr] at hs
        obtain ⟨hv, hmem⟩ := Prod.mk.inj (Option.some.inj hs)
        rw [← hv, if_pos (by decide)] at htotal
        have h' : HeapInv V proc s' := ⟨htotal ▸ h.nonneg, by rw [← hmem, htotal]; exact h.pages⟩
        refine ⟨h', fun hnonneg => ?_, fun vpn hvpn => h'.isMapped_iff hvpn, fun vpn _ _ _ => ?_⟩
        · rw [← hv] at hnonneg
          exact absurd hnonneg (by decide)
        · rw [hmem]
      · obtain ⟨hv, hg⟩ := sysSbrk_of_not_refused hp hr hs
        have hzero : s.total = 0 := hc.resolve_right hr
        have htotal' : s'.total = size.val := by
          rw [htotal, if_neg (by omega), hzero, Int.zero_add]
        have h' := h.grow hp hzero hr hg htotal'
        refine ⟨h', fun _ => ⟨by omega, h'.nonneg, ?_⟩, fun vpn hvpn => h'.isMapped_iff hvpn,
          fun vpn hvpn hm => ?_⟩
        · rw [htotal']
          exact Int.not_le.mp fun hle => hr (.inr hle)
        · -- no page of the heap was mapped
          rw [h.isMapped_iff hvpn, hzero, Int.add_zero, Int.toNat_natCast, addr2PageUp,
            if_pos hp.aligned] at hm
          exact absurd hm (Nat.not_lt.mpr hvpn.1)

/-- A call that gets pages returns the bottom of the heap, so the sum was zero. -/
theorem OneHeap.growsOnce (hp : proc.Loaded) (hs : HeapStep A proc s e s')
    (h : OneHeap proc s e s') : GrowsOnce proc s e s' := by
  cases e with
  | store vpn i x => trivial
  | sbrk size v =>
      by_cases hr : Refused proc size
      · exact .inr hr
      · have hv := (sysSbrk_of_not_refused hp hr hs.1).1
        have := (h.1 (by omega)).1
        exact .inl (by omega)

end Run

/-- The heap stays one region exactly in the runs in which no call gets pages after
one with a size other than zero. -/
theorem oneHeap_iff {V : Lawful A} {proc : HeapOwner} {s : HeapState ω} (h : FreshHeap V proc s)
    {r : List (HeapEvent × HeapState ω)} (hr : IsRun (HeapStep A proc) s r) :
    EveryStep (OneHeap proc) s r ↔ EveryStep (GrowsOnce proc) s r := by
  have hinv : HeapInv V proc s := by
    refine ⟨Int.le_of_eq h.total.symm, ?_⟩
    rw [h.total, Int.add_zero, Int.toNat_natCast, addr2PageUp, if_pos h.loaded.aligned,
      Nat.add_zero, Nat.sub_self]
    exact h.pages
  constructor
  · intro hone
    exact hr.everyStep (I := fun _ => True) (fun _ _ _ _ _ _ => trivial)
      (fun s e s' _ hs hone => OneHeap.growsOnce h.loaded hs hone) trivial hone
  · intro hc
    exact hr.everyStep (fun s e s' hi hs hc => (hi.step h.loaded hs hc).1)
      (fun s e s' hi hs hc => (hi.step h.loaded hs hc).2) hinv hc

/-- An address space with nothing in it has no heap yet. -/
theorem Empty.heapMapped {V : Lawful A} {s : Memory ω} {proc : HeapOwner}
    (h : Empty V s proc.root) : HeapMapped V s proc 0 := by
  refine ⟨_, _, fun _ => proc.root.page, h.own, h.tree, fun j hj => absurd hj (Nat.not_lt_zero j),
    fun vpn _ _ => ?_⟩
  have hpath : pathOf vpn ≠ [] := List.cons_ne_nil _ _
  rw [pageEntry, entry, (h.walks hpath).1]

/-- The process with the root `r` and its heap at `0x10000`. -/
def heapAt (r : Root) : HeapOwner := ⟨r, 0x10000, 0x10000⟩

theorem heapAt_loaded (r : Root) : (heapAt r).Loaded := ⟨rfl, (by decide : offset 0x10000 = 0), (by decide : 0x10000 < 2 ^ 64)⟩

/-- A page. -/
def onePageSize : I64 := ⟨4096, by decide⟩

theorem onePageSize_not_refused (r : Root) : ¬ Refused (heapAt r) onePageSize := by
  have hbottom : (heapAt r).heapBottom = 0x10000 := rfl
  have hsize : onePageSize.val = 4096 := rfl
  rw [Refused, hbottom, hsize]
  decide

/-- Two calls, each for a page. -/
theorem two_calls : ∃ r s s₁ s₂, Empty (heapLawful 0x80206) s r ∧
    sysSbrk heapAllocator (heapAt r) s onePageSize = some (0x10000, s₁) ∧
    sysSbrk heapAllocator (heapAt r) s₁ onePageSize = some (0x10000, s₂) := by
  have hrun : ((newRoot heapAllocator bootMemory).bind fun x =>
      (sysSbrk heapAllocator (heapAt x.1) x.2 onePageSize).bind fun y =>
        sysSbrk heapAllocator (heapAt x.1) y.2 onePageSize).isSome = true := by decide
  obtain ⟨⟨v₂, s₂⟩, hrun⟩ := Option.isSome_iff_exists.1 hrun
  obtain ⟨⟨r, s⟩, hroot, hrun⟩ := Option.bind_eq_some_iff.1 hrun
  obtain ⟨⟨v₁, s₁⟩, h₁, h₂⟩ := Option.bind_eq_some_iff.1 hrun
  obtain ⟨rfl, -⟩ := sysSbrk_of_not_refused (heapAt_loaded r) (onePageSize_not_refused r) h₁
  obtain ⟨rfl, -⟩ := sysSbrk_of_not_refused (heapAt_loaded r) (onePageSize_not_refused r) h₂
  exact ⟨r, s, s₁, s₂, (newRoot_empty bootMemory_own hroot).2.2, h₁, h₂⟩

/-- The first page of a heap. -/
theorem oneHeap_first_page : ∃ proc s s₁, FreshHeap (heapLawful 0x80206) proc s ∧
    EveryStep (OneHeap proc) s [(.sbrk onePageSize 0x10000, s₁)] := by
  obtain ⟨r, s, s₁, -, hempty, h₁, -⟩ := two_calls
  have hfresh : FreshHeap (heapLawful 0x80206) (heapAt r) ⟨s, 0⟩ :=
    ⟨heapAt_loaded r, rfl, hempty.heapMapped⟩
  have hrun : IsRun (HeapStep heapAllocator (heapAt r)) ⟨s, 0⟩
      [(.sbrk onePageSize 0x10000, ⟨s₁, 4096⟩)] := ⟨⟨h₁, rfl⟩, trivial⟩
  exact ⟨heapAt r, ⟨s, 0⟩, ⟨s₁, 4096⟩, hfresh, (oneHeap_iff hfresh hrun).mpr ⟨.inl rfl, trivial⟩⟩

/-- The second call of two gets the first page again. -/
theorem second_call_starts_again : ∃ proc s s₁ s₂, FreshHeap (heapLawful 0x80206) proc s ∧
    IsRun (HeapStep heapAllocator proc) s
      [(.sbrk onePageSize 0x10000, s₁), (.sbrk onePageSize 0x10000, s₂)] ∧
    ¬ OneHeap proc s₁ (.sbrk onePageSize 0x10000) s₂ := by
  obtain ⟨r, s, s₁, s₂, hempty, h₁, h₂⟩ := two_calls
  refine ⟨heapAt r, ⟨s, 0⟩, ⟨s₁, 4096⟩, ⟨s₂, 8192⟩, ⟨heapAt_loaded r, rfl, hempty.heapMapped⟩,
    ⟨⟨h₁, rfl⟩, ⟨h₂, rfl⟩, trivial⟩, fun hone => ?_⟩
  have hv : (0x10000 : Int) = 0x10000 + 4096 := (hone.1 (by decide)).1
  exact absurd hv (by decide)

end Space
