import Endros.Space.Copy

/-!
# Room for a program and for a fork

The routines of `load_process` and `sys_fork` return unless an allocation panics.  `Roomy`
says of the allocators how many more pages they have, and each routine needs no more than a
fixed number: a table and its array need three pages, and a page of the process needs one.
-/

namespace Space

open Lib Paging Alloc Mem

variable {ω : Type} {A : Allocator ω}

/-- The allocators do not panic as long as they have room. -/
structure Roomy (A : Allocator ω) where
  Room : ω → Nat → Prop
  mono : ∀ {w n m}, Room w n → m ≤ n → Room w m
  dmalloc : ∀ {w n} (m : Phys) (z : Bool), Room w (n + 1) →
    ∃ p w' m', A.dmalloc w m z = some (p, w', m') ∧ Room w' n
  kalloc : ∀ {w n k}, 1 ≤ k → Room w (n + k) → ∃ b w', A.kalloc w k = some (b, w') ∧ Room w' n

/-- What is given back does not take any room. -/
structure Roomy.Kept (Y : Roomy A) : Prop where
  dmafree : ∀ {w n} (m : Phys) (p : Page), Y.Room w n → Y.Room (A.dmafree w m p).1 n
  kfree : ∀ {w n} (b pages : Nat), Y.Room w n → Y.Room (A.kfree w b pages) n

theorem Gives.room {Y : Roomy A} (hY : Y.Kept) {w w' : ω} {F F' : Footprint} {n : Nat}
    (h : Gives A w F w' F') (hroom : Y.Room w n) : Y.Room w' n := by
  induction h with
  | refl => exact hroom
  | dmafree _ _ ih => exact hY.dmafree _ _ ih
  | kfree _ _ ih => exact hY.kfree _ _ ih

/-- An address space is given back. -/
theorem Held.free_room {Y : Roomy A} (hY : Y.Kept) {V : Lawful A} {s : Memory ω} {sp : AddressSpace}
    {trampoline : UInt64} {T Q R : Footprint} {n : Nat} (h : Held V s sp trampoline T Q R)
    (hroom : Y.Room s.heap n) : Y.Room (freeProcessSpace A s sp).heap n :=
  hY.kfree _ _ ((Left.ptrefFree h.built h.built.left).2.2.room hY hroom)

section Returns

variable (Y : Roomy A) {s : Memory ω} {n : Nat}

theorem dmalloc_returns (z : Bool) (h : Y.Room s.heap (n + 1)) :
    ∃ p s', s.dmalloc A z = some (p, s') ∧ Y.Room s'.heap n := by
  obtain ⟨p, w, m, hd, hroom⟩ := Y.dmalloc s.mem z h
  exact ⟨p, { s with heap := w, mem := m }, by rw [Memory.dmalloc, hd]; rfl, hroom⟩

theorem kalloc_returns {k : Nat} (hk : 1 ≤ k) (h : Y.Room s.heap (n + k)) :
    ∃ b s', s.kalloc A k = some (b, s') ∧ Y.Room s'.heap n := by
  obtain ⟨b, w, hd, hroom⟩ := Y.kalloc hk h
  have hs : s.kalloc A k = some (b, { s with
      heap := w
      refs := Radix.fill s.refs b ⟨0, 0⟩
      leaves := Radix.fill s.leaves b 0 }) := by
    rw [Memory.kalloc, hd]
    rfl
  exact ⟨b, _, hs, hroom⟩

theorem uptLevel_returns (ptable ptref : Nat) {pages : Nat} (i : Fin 512) (hpages : 1 ≤ pages ∧ pages ≤ 2)
    (h : Y.Room s.heap (n + 3)) :
    ∃ s', uptLevel A s ptable ptref pages i = some s' ∧ Y.Room s'.heap n := by
  rw [uptLevel]
  split
  · obtain ⟨p, s₁, hd, h₁⟩ := dmalloc_returns Y true h
    obtain ⟨b, s₂, hk, h₂⟩ := kalloc_returns Y hpages.1 (Y.mono h₁ (Nat.add_le_add_left hpages.2 n))
    refine ⟨(s₂.store A ptable i (pte p.pfn pteValid)).setRef ptref i ⟨p.vpn, b⟩, ?_, h₂⟩
    exact Option.bind_eq_some_iff.2 ⟨_, hd, Option.bind_eq_some_iff.2 ⟨_, hk, rfl⟩⟩
  · exact ⟨s, rfl, Y.mono h (Nat.le_add_right n 3)⟩

theorem uptmap_returns (uptbase ptrefBase kernelVpn userVpn pfn : Nat) (flags : UInt64)
    (h : Y.Room s.heap (n + 6)) :
    ∃ s', uptmap A s uptbase ptrefBase kernelVpn userVpn pfn flags = some s' ∧ Y.Room s'.heap n := by
  obtain ⟨s₁, hu₁, h₁⟩ := uptLevel_returns Y (n := n + 3) uptbase ptrefBase (vpnAt 2 userVpn)
    ⟨Nat.le_succ 1, Nat.le_refl 2⟩ h
  obtain ⟨s₂, hu₂, h₂⟩ := uptLevel_returns Y (s₁.refs ptrefBase (vpnAt 2 userVpn)).ptable
    (s₁.refs ptrefBase (vpnAt 2 userVpn)).ptRef (vpnAt 1 userVpn) ⟨Nat.le_refl 1, Nat.le_succ 1⟩ h₁
  exact ⟨_, Option.bind_eq_some_iff.2 ⟨s₁, hu₁, Option.bind_eq_some_iff.2 ⟨s₂, hu₂, rfl⟩⟩, h₂⟩

theorem copyLeaves_returns {srcTable srcRef dstTable dstRef : Nat} {ks : List (Fin 512)}
    (h : Y.Room s.heap (n + ks.length)) :
    ∃ s', copyLeaves A srcTable srcRef dstTable dstRef ks s = some s' ∧ Y.Room s'.heap n := by
  induction ks generalizing s with
  | nil => exact ⟨s, rfl, h⟩
  | cons k ks ih =>
      rw [copyLeaves]
      split
      · exact ih (Y.mono h (Nat.add_le_add_left (Nat.le_succ ks.length) n))
      · obtain ⟨p, s₁, hd, h₁⟩ := dmalloc_returns Y (n := n + ks.length) false h
        obtain ⟨s', hrun, h'⟩ := ih (s := copyPage A srcTable srcRef dstTable dstRef k p s₁) h₁
        exact ⟨s', Option.bind_eq_some_iff.2 ⟨_, hd, hrun⟩, h'⟩

theorem copyBelow_returns (dstTable dstRef : Nat) {pages : Nat} (i : Fin 512) (src : PTReference) {k : Nat}
    (below : Nat → Nat → Nat → Nat → Memory ω → Option (Memory ω)) (hpages : 1 ≤ pages ∧ pages ≤ 2)
    (hbelow : ∀ a b c d s, Y.Room s.heap (n + k) → ∃ s', below a b c d s = some s' ∧ Y.Room s'.heap n)
    (h : Y.Room s.heap (n + (k + 3))) :
    ∃ s', copyBelow A dstTable dstRef pages i src below s = some s' ∧ Y.Room s'.heap n := by
  rw [copyBelow]
  split
  · exact ⟨s, rfl, Y.mono h (Nat.le_add_right n _)⟩
  · obtain ⟨t, s₁, hd, h₁⟩ := dmalloc_returns Y (n := n + k + 2) true h
    obtain ⟨b, s₂, hk, h₂⟩ := kalloc_returns Y (n := n + k) hpages.1
      (Y.mono h₁ (Nat.add_le_add_left hpages.2 _))
    obtain ⟨s', hrun, h'⟩ := hbelow src.ptable src.ptRef t.vpn b
      ((s₂.setRef dstRef i ⟨t.vpn, b⟩).store A dstTable i (pte t.pfn pteValid)) h₂
    exact ⟨s', Option.bind_eq_some_iff.2 ⟨_, hd, Option.bind_eq_some_iff.2 ⟨_, hk, hrun⟩⟩, h'⟩

theorem copyLevel1_returns {srcRef dstTable dstRef : Nat} {js : List (Fin 512)}
    (h : Y.Room s.heap (n + js.length * 515)) :
    ∃ s', copyLevel1 A srcRef dstTable dstRef js s = some s' ∧ Y.Room s'.heap n := by
  induction js generalizing s with
  | nil => exact ⟨s, rfl, h⟩
  | cons j js ih =>
      have hlen : n + (j :: js).length * 515 = n + js.length * 515 + (512 + 3) := by
        rw [List.length_cons, Nat.succ_mul, Nat.add_assoc]
      rw [hlen] at h
      obtain ⟨s₁, hrun, h₁⟩ := copyBelow_returns Y dstTable dstRef j (s.refs srcRef j)
        (fun srcTable srcRef dstTable dstRef =>
          copyLeaves A srcTable srcRef dstTable dstRef (List.finRange 512))
        ⟨Nat.le_refl 1, Nat.le_succ 1⟩
        (fun a b c d s hs => copyLeaves_returns Y (by rw [List.length_finRange]; exact hs)) h
      rw [copyLevel1, hrun, Option.bind_some]
      exact ih h₁

theorem copyLevel2_returns (srcRef dstTable dstRef : Nat) (is : List (Fin 512))
    (h : Y.Room s.heap (n + is.length * 263683)) :
    ∃ s', copyLevel2 A srcRef dstTable dstRef is s = some s' ∧ Y.Room s'.heap n := by
  induction is generalizing s with
  | nil => exact ⟨s, rfl, h⟩
  | cons i is ih =>
      have hlen : n + (i :: is).length * 263683 = n + is.length * 263683 + (512 * 515 + 3) := by
        rw [List.length_cons, Nat.succ_mul, Nat.add_assoc]
      rw [hlen] at h
      obtain ⟨s₁, hrun, h₁⟩ := copyBelow_returns Y dstTable dstRef i (s.refs srcRef i)
        (fun _ srcRef dstTable dstRef => copyLevel1 A srcRef dstTable dstRef (List.finRange 512))
        ⟨Nat.le_succ 1, Nat.le_refl 2⟩
        (fun a b c d s hs => copyLevel1_returns Y (by rw [List.length_finRange]; exact hs)) h
      rw [copyLevel2, hrun, Option.bind_some]
      exact ih h₁

/-- The pages that a fork needs at most: the root, three levels, the trampoline and the
kernel stack. -/
def forkPages : Nat := 3 + 512 * 263683 + 6 + kernelStackPages

/-- `sys_fork` returns if there is room. -/
theorem forkSpace_returns (B : Platform) (sp : AddressSpace) (h : Y.Room s.heap forkPages) :
    ∃ sp' s', forkSpace A B s sp = some (sp', s') := by
  obtain ⟨page, s₁, hd, h₁⟩ := dmalloc_returns Y (n := kernelStackPages + 6 + 512 * 263683 + 2) true h
  obtain ⟨ref, s₂, hk, h₂⟩ := kalloc_returns Y (n := kernelStackPages + 6 + 512 * 263683)
    (Nat.le_succ 1) h₁
  obtain ⟨s₃, hcopy, h₃⟩ := copyLevel2_returns Y (n := kernelStackPages + 6) sp.root.ref page.vpn ref
    (List.finRange 512) (by rw [List.length_finRange]; exact h₂)
  obtain ⟨s₄, htramp, h₄⟩ := uptmap_returns Y (n := kernelStackPages) page.vpn ref 0 trampolineVpn
    B.strampoline trampolineFlags h₃
  obtain ⟨stack, s₅, hstack, -⟩ := kalloc_returns Y (n := 0) (k := kernelStackPages) (by decide) h₄
  have hroot : newRoot A s = some (⟨page, ref⟩, s₂) :=
    Option.bind_eq_some_iff.2 ⟨_, hd, Option.bind_eq_some_iff.2 ⟨_, hk, rfl⟩⟩
  exact ⟨_, _, Option.bind_eq_some_iff.2 ⟨_, hroot, Option.bind_eq_some_iff.2 ⟨s₃, hcopy,
    Option.bind_eq_some_iff.2 ⟨s₄, htramp, Option.bind_eq_some_iff.2 ⟨_, hstack, rfl⟩⟩⟩⟩⟩

/-! ## Programs -/

theorem loadPages_returns (r : Root) (program : Program) (ph : ProgramHeader) {k : Nat} (vpn : Nat)
    (h : Y.Room s.heap (n + k * 7)) :
    ∃ s', loadPages A r program ph k vpn s = some s' ∧ Y.Room s'.heap n := by
  induction k generalizing s vpn with
  | zero => exact ⟨s, rfl, h⟩
  | succ k ih =>
      rw [Nat.succ_mul, ← Nat.add_assoc] at h
      obtain ⟨p, s₁, hd, h₁⟩ := dmalloc_returns Y (n := n + k * 7 + 6) false h
      obtain ⟨s₂, hu, h₂⟩ := uptmap_returns Y (s := s₁.writePage A p.vpn (ph.words program vpn))
        (n := n + k * 7) r.page.vpn r.ref p.vpn vpn p.pfn ph.flags h₁
      obtain ⟨s', hrun, h'⟩ := ih (vpn + 1) h₂
      exact ⟨s', Option.bind_eq_some_iff.2 ⟨_, hd, Option.bind_eq_some_iff.2 ⟨s₂, hu, hrun⟩⟩, h'⟩

theorem growHeap_returns {r : Root} {k : Nat} (vpn : Nat) (h : Y.Room s.heap (n + k * 7)) :
    ∃ s', growHeap A r k vpn s = some s' ∧ Y.Room s'.heap n := by
  induction k generalizing s vpn with
  | zero => exact ⟨s, rfl, h⟩
  | succ k ih =>
      rw [Nat.succ_mul, ← Nat.add_assoc] at h
      obtain ⟨p, s₁, hd, h₁⟩ := dmalloc_returns Y (n := n + k * 7 + 6) false h
      obtain ⟨s₂, hu, h₂⟩ := uptmap_returns Y (n := n + k * 7) r.page.vpn r.ref p.vpn vpn p.pfn heapFlags h₁
      obtain ⟨s', hrun, h'⟩ := ih (vpn + 1) h₂
      have hpage : mapPage A s r vpn heapFlags = some s₂ := Option.bind_eq_some_iff.2 ⟨_, hd, hu⟩
      exact ⟨s', Option.bind_eq_some_iff.2 ⟨s₂, hpage, hrun⟩, h'⟩

/-- The pages of the segments of the first `n` headers. -/
def Program.segmentPages (program : Program) : Nat → Nat
  | 0 => 0
  | n + 1 =>
      if (program.header n).pType ≠ ptLoad then program.segmentPages n
      else program.segmentPages n +
        (addr2PageUp (program.header n).endVa - addr2Page (program.header n).pVaddr.toNat)

theorem loadHeaders_returns {r : Root} {program : Program} {k : Nat}
    (h : Y.Room s.heap (n + program.segmentPages k * 7)) :
    ∃ m s', loadHeaders A r program k (0, s) = some (m, s') ∧ Y.Room s'.heap n := by
  induction k generalizing n with
  | zero => exact ⟨0, s, rfl, h⟩
  | succ k ih =>
      rw [Program.segmentPages] at h
      split at h
      · rename_i htype
        obtain ⟨m, s₁, hrun, h₁⟩ := ih h
        refine ⟨m, s₁, ?_, h₁⟩
        rw [loadHeaders, hrun, Option.bind_some, loadHeader, if_pos htype]
      · rename_i htype
        rw [Nat.add_mul, Nat.add_comm (_ * 7), ← Nat.add_assoc] at h
        obtain ⟨m, s₁, hrun, h₁⟩ := ih h
        obtain ⟨s', hpages, h'⟩ := loadPages_returns Y r program (program.header k)
          (addr2Page (program.header k).pVaddr.toNat) h₁
        refine ⟨max m (addr2PageUp (program.header k).endVa), s', ?_, h'⟩
        rw [loadHeaders, hrun, Option.bind_some, loadHeader, if_neg htype]
        dsimp only
        rw [hpages, Option.map_some]

theorem kallocBuffer_returns {size : Nat} (h : Y.Room s.heap (n + addr2PageUp size)) :
    ∃ s', kallocBuffer A s size = some s' ∧ Y.Room s'.heap n := by
  rw [kallocBuffer]
  split
  · exact ⟨s, rfl, Y.mono h (Nat.le_add_right n _)⟩
  · rename_i hsize
    obtain ⟨b, s', hk, h'⟩ := kalloc_returns Y (addr2PageUp_pos hsize) h
    exact ⟨s', by rw [hk, Option.map_some], h'⟩

/-- The pages that a program needs at most: the kernel stack, the trap frame, the stack, the
segments, the buffer, the trampoline and the root. -/
def Program.pages (program : Program) : Nat :=
  kernelStackPages + 7 + userStackPages * 7 + program.segmentPages program.ePhnum * 7 +
    addr2PageUp program.size + 6 + 3

/-- `load_process` returns if there is room. -/
theorem loadProcess_returns (B : Platform) (program : Program) (h : Y.Room s.heap (n + program.pages)) :
    ∃ sp s', loadProcess A B program s = some (sp, s') ∧ Y.Room s'.heap n := by
  simp only [Program.pages, ← Nat.add_assoc] at h
  obtain ⟨page, s₁, hd, h₁⟩ := dmalloc_returns Y true h
  obtain ⟨ref, s₂, hk, h₂⟩ := kalloc_returns Y (k := 2) (Nat.le_succ 1) h₁
  have hroot : newRoot A s = some (⟨page, ref⟩, s₂) :=
    Option.bind_eq_some_iff.2 ⟨_, hd, Option.bind_eq_some_iff.2 ⟨_, hk, rfl⟩⟩
  obtain ⟨s₃, htramp, h₃⟩ := uptmap_returns Y page.vpn ref 0 trampolineVpn B.strampoline
    trampolineFlags h₂
  obtain ⟨s₄, hbuf, h₄⟩ := kallocBuffer_returns Y h₃
  obtain ⟨m, s₅, hheaders, h₅⟩ := loadHeaders_returns Y (r := ⟨page, ref⟩) h₄
  obtain ⟨s₆, hstack, h₆⟩ := growHeap_returns Y (r := ⟨page, ref⟩) (m + 1) h₅
  obtain ⟨trap, s₇, hd', h₇⟩ := dmalloc_returns Y (n := n + kernelStackPages + 6) false h₆
  obtain ⟨s₈, hmap, h₈⟩ := uptmap_returns Y page.vpn ref trap.vpn trapframeVpn trap.pfn pteTable h₇
  obtain ⟨stack, s₉, hk', h₉⟩ := kalloc_returns Y (k := kernelStackPages) (by decide) h₈
  refine ⟨_, _, Option.bind_eq_some_iff.2 ⟨_, hroot, Option.bind_eq_some_iff.2 ⟨s₃, htramp,
    Option.bind_eq_some_iff.2 ⟨s₄, hbuf, Option.bind_eq_some_iff.2 ⟨_, hheaders,
    Option.bind_eq_some_iff.2 ⟨s₆, hstack, Option.bind_eq_some_iff.2 ⟨_, hd',
    Option.bind_eq_some_iff.2 ⟨s₈, hmap, Option.bind_eq_some_iff.2 ⟨_, hk', rfl⟩⟩⟩⟩⟩⟩⟩⟩, ?_⟩
  exact h₉

end Returns

/-! ## The allocators of the kernel -/

section Heap

variable {h : Heap} {n k : Nat}

/-- A page needs a frame, and at most two more for tables of the kernel. -/
def HeapRoom (h : Heap) (n : Nat) : Prop := h.pfnStart + 3 * n ≤ h.maxPfn

theorem table_returns {p : List (Fin 512)} (hroom : h.pfnStart < h.maxPfn) :
    ∃ h', h.table p = some h' ∧ h'.maxPfn = h.maxPfn ∧ h'.pfnStart ≤ h.pfnStart + 1 := by
  rw [Heap.table]
  split
  · exact ⟨h, rfl, rfl, Nat.le_succ _⟩
  · rw [Heap.palloc, if_neg (Nat.not_le_of_lt hroom)]
    exact ⟨_, rfl, rfl, Nat.le_refl _⟩

theorem pallocPtr_returns (vpn : Nat) (hroom : h.pfnStart + 3 ≤ h.maxPfn) :
    ∃ f h', h.pallocPtr vpn = some (f, h') ∧ h'.maxPfn = h.maxPfn ∧ h'.pfnStart ≤ h.pfnStart + 3 := by
  have hpalloc : h.palloc = some (h.pfnStart, { h with pfnStart := h.pfnStart + 1 }) := by
    rw [Heap.palloc, if_neg (by omega)]
  obtain ⟨h₁, ht₁, hm₁, hs₁⟩ := table_returns (h := { h with pfnStart := h.pfnStart + 1 })
    (p := [vpnAt 2 vpn]) (by show h.pfnStart + 1 < h.maxPfn; omega)
  dsimp only at hm₁ hs₁
  obtain ⟨h₂, ht₂, hm₂, hs₂⟩ := table_returns (h := h₁) (p := [vpnAt 2 vpn, vpnAt 1 vpn]) (by omega)
  refine ⟨_, _, Option.bind_eq_some_iff.2 ⟨_, hpalloc, Option.bind_eq_some_iff.2
    ⟨_, Option.bind_eq_some_iff.2 ⟨h₁, ht₁, Option.bind_eq_some_iff.2 ⟨h₂, ht₂, rfl⟩⟩, rfl⟩⟩, ?_, ?_⟩
  · exact hm₂.trans hm₁
  · show h₂.pfnStart ≤ h.pfnStart + 3
    omega

theorem kallocLoop_returns (hroom : HeapRoom h (n + k)) :
    ∃ h', Heap.kallocLoop k h = some h' ∧ HeapRoom h' n := by
  induction k generalizing h with
  | zero => exact ⟨h, rfl, hroom⟩
  | succ k ih =>
      unfold HeapRoom at hroom
      obtain ⟨f, h₁, hp, hm, hs⟩ := pallocPtr_returns (h := h) h.kbrk (by omega)
      obtain ⟨h', hrun, h''⟩ := ih (h := { h₁ with kbrk := h₁.kbrk + 1 }) (by
        show h₁.pfnStart + 3 * (n + k) ≤ h₁.maxPfn
        omega)
      exact ⟨h', Option.bind_eq_some_iff.2 ⟨_, hp, hrun⟩, h''⟩

theorem HeapRoom.mono {m : Nat} (hroom : HeapRoom h n) (hle : m ≤ n) : HeapRoom h m := by
  unfold HeapRoom at hroom ⊢
  omega

theorem heap_dmalloc_returns (m : Phys) (z : Bool) (hroom : HeapRoom h (n + 1)) :
    ∃ p h' m', heapAllocator.dmalloc h m z = some (p, h', m') ∧ HeapRoom h' n := by
  have hd : ∃ r, h.dmalloc 1 = some r ∧ HeapRoom r.2 n := by
    unfold HeapRoom at hroom ⊢
    rw [Heap.dmalloc]
    split
    · exact ⟨_, rfl, by dsimp only; omega⟩
    · obtain ⟨f, h₁, hp, hm, hs⟩ := pallocPtr_returns (h := { h with ptbrk := h.ptbrk + 1 })
        h.ptbrk (by show h.pfnStart + 3 ≤ h.maxPfn; omega)
      refine ⟨(⟨h.ptbrk, 1, f⟩, h₁), ?_, ?_⟩
      · rw [Heap.dmallocEnd]
        dsimp only
        rw [if_pos rfl, hp]
        rfl
      · dsimp only at hm hs ⊢
        omega
  obtain ⟨r, hr, hroom'⟩ := hd
  exact ⟨_, _, _, Option.map_eq_some_iff.2 ⟨r, hr, rfl⟩, hroom'⟩

theorem heap_kalloc_returns (hroom : HeapRoom h (n + k)) :
    ∃ b h', heapAllocator.kalloc h k = some (b, h') ∧ HeapRoom h' n := by
  have hd : ∃ r, h.kalloc k = some r ∧ HeapRoom r.2 n := by
    rw [Heap.kalloc]
    split
    · refine ⟨_, rfl, ?_⟩
      unfold HeapRoom at hroom ⊢
      dsimp only
      omega
    · obtain ⟨h', hrun, h''⟩ := kallocLoop_returns hroom
      exact ⟨(⟨h.kbrk, k, ()⟩, h'), by rw [hrun]; rfl, h''⟩
  obtain ⟨r, hr, hroom'⟩ := hd
  exact ⟨_, _, Option.map_eq_some_iff.2 ⟨r, hr, rfl⟩, hroom'⟩

/-- The allocators return as long as there are frames. -/
def heapRoomy : Roomy heapAllocator where
  Room := HeapRoom
  mono := HeapRoom.mono
  dmalloc := heap_dmalloc_returns
  kalloc := fun _ => heap_kalloc_returns

theorem heapRoomy_kept : heapRoomy.Kept where
  dmafree _ _ h := h
  kfree _ _ h := h

end Heap

end Space
