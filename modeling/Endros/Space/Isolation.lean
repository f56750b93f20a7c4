import Endros.Lib.Run
import Endros.Proc.Effect
import Endros.Space.Copy

/-!
# Isolation of address spaces

The processes of the table have their address spaces in one memory.  `sys_fork`,
`sys_exit` and `sys_waitpid` are those of the table, with `ptref_copy` and
`free_process_space` as what they do to memory.  `sys_sbrk` and the replacement of the
address space in `sys_execve` are calls of the process that runs.  Between them the
process stores to its pages.

`Spaces` is the invariant.  What the processes have is divided among them (`Owns`),
and each that is not unused holds an address space made of its part.  Every step
changes the part of one process and leaves the others alone (`Spaces.change`).

A frame in two address spaces would be in two parts, and a frame in `ptfreelist` is in
no part.  Only the trampoline is in no part and in all address spaces.
-/

namespace Space

open Lib Paging Mem

variable {ω : Type} {A : Allocator ω}

/-! ## The system -/

/-- The calls that change the address space of the caller. -/
inductive Call where
  | sbrk (size : I64)
  /-- `free_process_space` and `load_process`, for a `sys_execve` that returns `argc`. -/
  | replace (program : Program) (argc : UInt64)

/-- The address spaces as the resources of processes. -/
def spaces (A : Allocator ω) (B : Platform) : Proc.Machine (Memory ω) AddressSpace Call where
  copy s sp _ := (forkSpace A B s sp).map fun r => (r.2, r.1)
  close s sp := (s, sp)
  unload := freeProcessSpace A
  exec
    | .sbrk size, s, sp =>
        (sysSbrk A sp.toHeapOwner s size).map fun r => (r.2, sp, UInt64.ofInt r.1)
    | .replace program argc, s, sp =>
        (loadProcess A B program (freeProcessSpace A s sp)).map fun r => (r.2, r.1, argc)

/-- The kernel with the address spaces. -/
abbrev System (ω : Type) := Proc.Kernel (Memory ω) AddressSpace

/-- The root of the process in a slot. -/
def rootOf (k : System ω) (i : Nat) : Root := (k.res i).root

/-- The entry that the hardware finds for a page of a process. -/
def userEntry (k : System ω) (i vpn : Nat) : UInt64 :=
  (sv39Entry k.world.mem (rootOf k i).page.pfn vpn).2

inductive Action where
  | kernel (e : Proc.Event Call)
  /-- The process that runs stores a word. -/
  | store (vpn : Nat) (i : Fin 512) (x : UInt64)

/-- The entry lets the process store. -/
def Writable (e : UInt64) : Prop := e &&& pteValid ≠ 0 ∧ e &&& pteUser ≠ 0 ∧ e &&& pteWrite ≠ 0

def SpaceStep (A : Allocator ω) (B : Platform) (k : System ω) (a : Action) (k' : System ω) : Prop :=
  match a with
  | .kernel e => Proc.step (spaces A B) k e = some k'
  | .store vpn i x => Writable (userEntry k k.running vpn) ∧
      k' = { k with world := storeUser k.world (rootOf k k.running) vpn i x }

/-! ## The steps of one process -/

section Held

variable {V : Lawful A} {s s' : Memory ω} {sp : AddressSpace} {trampoline : UInt64}
  {T Q R R' : Footprint} {B : Platform}

/-- The memory changes elsewhere. -/
theorem Held.transfer (h : Held V s sp trampoline T Q R) (ho : Own V s'.heap (T.union Q) R')
    (hs : Same s s' (T.union Q)) : Held V s' sp trampoline T Q R' := by
  have hTQ := h.built.own.apart_parts.mono (.refl T) Footprint.le_union_left
  have hT := hs.mono Footprint.le_union_left
  have hleaf := h.built.tree.leafAt_congr hT
  refine ⟨⟨ho.give_part hTQ, ho.apart_parts.mono Footprint.le_union_right (.refl R'),
    h.built.tree.congr hT, hleaf ▸ h.built.leaves⟩, ?_, h.trap_ne, h.stack, h.heap⟩
  rw [hleaf]
  exact h.trap

theorem Held.own (h : Held V s sp trampoline T Q R) : Own V s.heap (T.union Q) R := h.built.own_all

/-- The heap is below the page of the trap frame. -/
theorem slotOf_heap_ne {vpn : Nat} (h : vpn < 2 ^ 26) : slotOf trapframeVpn ≠ slotOf vpn := by
  intro he
  have hsame := (slotOf_eq_iff _ _).mp he
  simp only [SamePage, trapframeVpn, addr2Page, pageSize] at hsame
  omega

/-- The pages of a call that is not refused. -/
theorem heapPage_lt {proc : HeapOwner} {size : I64} {j : Nat} (hr : ¬ Refused proc size)
    (hj : j < addr2PageUp (proc.heapBottom + size.val).toNat - addr2Page proc.heapBottom) :
    addr2Page proc.heapBottom + j < 2 ^ 26 := by
  have hup := addr2PageUp_lt (proc.heapBottom + size.val).toNat
  have htop : (proc.heapBottom + size.val).toNat < heapTop := by
    simp only [Refused, heapTop] at hr ⊢
    omega
  simp only [heapTop, pageSize] at hup htop
  omega

theorem Held.sbrk {size : I64} {v : Int} (h : Held V s sp trampoline T Q R)
    (hb : sysSbrk A sp.toHeapOwner s size = some (v, s')) :
    ∃ T' Q', Held V s' sp trampoline T' Q' R ∧ Same s s' R := by
  by_cases hr : Refused sp.toHeapOwner size
  · rw [sysSbrk_refused h.heap hr] at hb
    cases hb
    exact ⟨T, Q, h, .refl _ R⟩
  · obtain ⟨-, hg⟩ := sysSbrk_of_not_refused h.heap hr hb
    obtain ⟨T', Q', h', hle, hsame, hleaf⟩ := h.built.growHeap hg
    refine ⟨T', Q', ⟨h', ?_, h.trap_ne, hle.refs h.stack, h.heap⟩, hsame.mono Footprint.le_union_right⟩
    rw [hleaf _ fun j hj => slotOf_heap_ne (heapPage_lt hr hj)]
    exact h.trap

theorem Held.replace {program : Program} {sp' : AddressSpace}
    (h : Held V s sp B.trampoline T Q R)
    (hl : loadProcess A B program (freeProcessSpace A s sp) = some (sp', s')) :
    ∃ T' Q', Held V s' sp' B.trampoline T' Q' R ∧ Same s s' R := by
  obtain ⟨ho, hfree⟩ := h.free
  obtain ⟨T', Q', h', hsame, -⟩ := loadProcess_held ho hl
  exact ⟨T', Q', h', hfree.trans hsame⟩

/-! ## What the hardware finds -/

theorem user_getFlags (e : UInt64) : e &&& pteUser = getFlags e &&& pteUser := by
  rw [getFlags, UInt64.and_assoc]
  rfl

theorem trampoline_not_user (hB : B.strampoline < 2 ^ 54) : B.trampoline &&& pteUser = 0 := by
  rw [user_getFlags, Platform.trampoline, getFlags_pte hB (by decide)]
  decide

theorem getPfn_trampoline (hB : B.strampoline < 2 ^ 54) : getPfn B.trampoline = B.strampoline :=
  getPfn_pte hB (by decide)

/-- A page of an address space is one that the process has, or the trampoline. -/
theorem Held.page_or (h : Held V s sp trampoline T Q R) {v : Nat}
    (hv : (sv39Entry s.mem sp.root.page.pfn v).2 &&& pteValid ≠ 0) :
    (∃ q ∈ Q.pages, q.pfn = getPfn (sv39Entry s.mem sp.root.page.pfn v).2) ∨
      (sv39Entry s.mem sp.root.page.pfn v).2 = trampoline := by
  rw [h.built.tree.sv39_leafAt] at hv ⊢
  by_cases hne : (leafAt s sp.root (slotOf v)).2 = 0
  · rcases h.built.leaves.unheld _ hne with hzero | htramp
    · rw [hzero] at hv
      exact absurd rfl hv
    · exact .inr htramp
  · exact .inl ⟨_, h.built.leaves.held _ hne, rfl⟩

/-- The process stores to a page that it has. -/
theorem Held.storeUser (h : Held V s sp B.trampoline T Q R) (hB : B.strampoline < 2 ^ 54) {v : Nat}
    (hv : Writable (sv39Entry s.mem sp.root.page.pfn v).2) (i : Fin 512) (x : UInt64) :
    Held V (storeUser s sp.root v i x) sp B.trampoline T Q R ∧
      Same s (storeUser s sp.root v i x) R := by
  obtain ⟨hvalid, huser, -⟩ := hv
  rcases h.page_or hvalid with ⟨q, hq, hpfn⟩ | htramp
  · have hstore : Space.storeUser s sp.root v i x = s.store A q.vpn i x := by
      rw [Space.storeUser, Memory.store, (h.built.good hq).2.2, hpfn]
    obtain ⟨hb, hsame, hleaf, -⟩ := h.built.store hq i x
    rw [hstore]
    refine ⟨⟨hb, ?_, h.trap_ne, h.stack, h.heap⟩, hsame.mono Footprint.le_union_right⟩
    rw [hleaf]
    exact h.trap
  · rw [htramp, trampoline_not_user hB] at huser
    exact absurd rfl huser

end Held

/-! ## The invariant -/

/-- The parts of the processes, and the address spaces made of them. -/
structure Spaces (V : Lawful A) (trampoline : UInt64) (k : System ω) (F : Nat → Footprint) :
    Prop where
  owns : Owns V k.world.heap F
  free : ∀ i, k.phase i = .free → F i = .none
  held : ∀ i, k.phase i ≠ .free →
    ∃ T Q, F i = T.union Q ∧ Held V k.world (k.res i) trampoline T Q (others F i)

section Spaces

variable {V : Lawful A} {B : Platform} {trampoline : UInt64} {k k' : System ω}
  {F : Nat → Footprint} {G : Footprint} {i : Nat}

/-- What the others have does not depend on what the process itself has. -/
theorem others_update (F : Nat → Footprint) (i : Nat) (G : Footprint) :
    others (Function.update F i G) i = others F i := by
  have hpage : ∀ p, (∃ j, j ≠ i ∧ p ∈ (Function.update F i G j).pages) ↔
      ∃ j, j ≠ i ∧ p ∈ (F j).pages := fun p =>
    exists_congr fun j => and_congr_right fun hj => by rw [Function.update_of_ne hj]
  have href : ∀ a, (∃ j, j ≠ i ∧ a ∈ (Function.update F i G j).refs) ↔
      ∃ j, j ≠ i ∧ a ∈ (F j).refs := fun a =>
    exists_congr fun j => and_congr_right fun hj => by rw [Function.update_of_ne hj]
  rw [others, others]
  simp only [hpage, href]

/-- One process has another part, and what the others have is as it was. -/
theorem Spaces.change (h : Spaces V trampoline k F) (hsame : Same k.world k'.world (others F i))
    (ho : Own V k'.world.heap G (others F i)) (hres : ∀ j, j ≠ i → k'.res j = k.res j)
    (hphase : ∀ j, j ≠ i → k'.phase j = k.phase j) (hfree : k'.phase i = .free → G = .none)
    (hheld : k'.phase i ≠ .free →
      ∃ T Q, G = T.union Q ∧ Held V k'.world (k'.res i) trampoline T Q (others F i)) :
    Spaces V trampoline k' (Function.update F i G) := by
  have hself : Function.update F i G i = G := Function.update_self ..
  have howns := ho.owns h.owns
  refine ⟨howns, fun j hj => ?_, fun j hj => ?_⟩
  · by_cases hji : j = i
    · subst hji
      rw [hself]
      exact hfree hj
    · rw [Function.update_of_ne hji]
      exact h.free j (hphase j hji ▸ hj)
  · by_cases hji : j = i
    · subst hji
      rw [hself, others_update]
      exact hheld hj
    · obtain ⟨T, Q, hF, hheldj⟩ := h.held j (hphase j hji ▸ hj)
      have hown := howns.own j
      rw [Function.update_of_ne hji] at hown ⊢
      rw [hF] at hown
      rw [hres j hji]
      exact ⟨T, Q, hF, hheldj.transfer hown (hsame.mono (hF ▸ le_others hji))⟩

/-- The process in a slot has another address space. -/
theorem Spaces.replaced (h : Spaces V trampoline k F) {T Q : Footprint}
    (hsame : Same k.world k'.world (others F i)) (hphase : k'.phase i ≠ .free)
    (hheld : Held V k'.world (k'.res i) trampoline T Q (others F i))
    (hres : ∀ j, j ≠ i → k'.res j = k.res j) (hphases : ∀ j, j ≠ i → k'.phase j = k.phase j) :
    ∃ F', Spaces V trampoline k' F' :=
  ⟨_, h.change hsame hheld.own hres hphases (fun hf => absurd hf hphase)
    fun _ => ⟨T, Q, rfl, hheld⟩⟩

/-- `free_process_space` for the process in a slot, which is unused then. -/
theorem Spaces.freed (h : Spaces V trampoline k F) (hlive : k.phase i ≠ .free)
    (hworld : k'.world = freeProcessSpace A k.world (k.res i)) (hres : k'.res = k.res)
    (hphase : k'.phase = Function.update k.phase i .free) : ∃ F', Spaces V trampoline k' F' := by
  obtain ⟨T, Q, -, hheld⟩ := h.held i hlive
  obtain ⟨ho, hsame⟩ := hheld.free
  have hi : k'.phase i = .free := by rw [hphase, Function.update_self]
  refine ⟨_, h.change (hworld ▸ hsame) (hworld ▸ ho) (fun j _ => by rw [hres]) (fun j hj => ?_)
    (fun _ => rfl) fun hne => absurd hi hne⟩
  rw [hphase, Function.update_of_ne hj]

/-- The others are among those that another process sees, and that process itself. -/
theorem others_le (F : Nat → Footprint) (i j : Nat) :
    (others F i).Le ((F j).union (others F j)) := by
  constructor
  · rintro p ⟨l, -, hp⟩
    by_cases hl : l = j
    · exact .inl (hl ▸ hp)
    · exact .inr ⟨l, hl, hp⟩
  · rintro a ⟨l, -, ha⟩
    by_cases hl : l = j
    · exact .inl (hl ▸ ha)
    · exact .inr ⟨l, hl, ha⟩

/-- Nothing of the address spaces changes. -/
theorem Spaces.congr (h : Spaces V trampoline k F) (hworld : k'.world = k.world)
    (hres : k'.res = k.res) (hphase : ∀ i, k'.phase i = .free ↔ k.phase i = .free) :
    Spaces V trampoline k' F where
  owns := hworld ▸ h.owns
  free i hi := h.free i ((hphase i).mp hi)
  held i hi := by
    rw [hworld, hres]
    exact h.held i (mt (hphase i).mpr hi)

/-- The child of the process in the slot `j` is put into the slot `i`. -/
theorem Spaces.forked {j : Nat} (h : Spaces V B.trampoline k F) (hlive : k.phase j ≠ .free)
    {w : Memory ω} {r : AddressSpace} (hf : forkSpace A B k.world (k.res j) = some (r, w))
    (hworld : k'.world = w) (hres : k'.res = Function.update k.res i r)
    (hphase : k'.phase = Function.update k.phase i .live) :
    ∃ F', Spaces V B.trampoline k' F' := by
  obtain ⟨T, Q, hF, hheld⟩ := h.held j hlive
  obtain ⟨T', Q', hchild, hsame⟩ := hheld.fork hf
  have hle : (others F i).Le ((T.union Q).union (others F j)) := hF ▸ others_le F i j
  have hi : k'.phase i ≠ .free := by
    rw [hphase, Function.update_self]
    exact nofun
  refine h.replaced (T := T') (Q := Q') (hworld ▸ hsame.mono hle) hi ?_ (fun l hl => ?_) fun l hl => ?_
  · rw [hworld, hres, Function.update_self]
    exact hchild.transfer (hchild.own.mono (.refl _) hle) (.refl w _)
  · rw [hres, Function.update_of_ne hl]
  · rw [hphase, Function.update_of_ne hl]

/-- A call of the process in a slot changes only what that process has. -/
theorem Spaces.called {c : Call} {w : Memory ω} {r : AddressSpace} {v : UInt64}
    (h : Spaces V B.trampoline k F) (hlive : k.phase i ≠ .free)
    (hc : (spaces A B).exec c k.world (k.res i) = some (w, r, v)) (hworld : k'.world = w)
    (hres : k'.res = Function.update k.res i r) (hphase : k'.phase = k.phase) :
    ∃ F', Spaces V B.trampoline k' F' := by
  obtain ⟨T, Q, -, hheld⟩ := h.held i hlive
  obtain ⟨T', Q', hheld', hsame⟩ : ∃ T' Q', Held V w r B.trampoline T' Q' (others F i) ∧
      Same k.world w (others F i) := by
    cases c with
    | sbrk size =>
        obtain ⟨⟨x, s⟩, hb, he⟩ := Option.map_eq_some_iff.mp hc
        cases he
        exact hheld.sbrk hb
    | replace program argc =>
        obtain ⟨⟨sp, s⟩, hl, he⟩ := Option.map_eq_some_iff.mp hc
        cases he
        exact hheld.replace hl
  refine h.replaced (T := T') (Q := Q') (hworld ▸ hsame) (hphase ▸ hlive) ?_ (fun l hl => ?_)
    fun l _ => by rw [hphase]
  · rw [hworld, hres, Function.update_self]
    exact hheld'
  · rw [hres, Function.update_of_ne hl]

/-- One kernel entry. -/
theorem Spaces.kernel {e : Proc.Event Call} (hsched : Proc.Sched k) (h : Spaces V B.trampoline k F)
    (hs : Proc.step (spaces A B) k e = some k') : ∃ F', Spaces V B.trampoline k' F' := by
  have hlive : k.phase k.running ≠ .free := by
    rw [hsched.live]
    exact nofun
  cases Proc.step_effect hsched hs with
  | quiet _ hw hr hp => exact ⟨F, h.congr hw hr fun i => by rw [hp]⟩
  | fork _ _ hc hw hr hp =>
      obtain ⟨⟨sp, s⟩, hf, he⟩ := Option.map_eq_some_iff.mp hc
      cases he
      exact h.forked hlive hf hw hr hp
  | zombie hc hw hr hp =>
      cases hc
      refine ⟨F, h.congr hw (hr.trans (Function.update_eq_self ..)) fun i => ?_⟩
      rw [hp]
      by_cases hi : i = k.running
      · rw [hi, Function.update_self]
        exact ⟨nofun, fun hf => absurd hf hlive⟩
      · rw [Function.update_of_ne hi]
  | gone hc hw hr hp =>
      cases hc
      exact h.freed hlive hw (hr.trans (Function.update_eq_self ..)) hp
  | reap _ hdead hw hr hp =>
      refine h.freed ?_ hw hr hp
      rw [hdead]
      exact nofun
  | call hc hw hr hp => exact h.called hlive hc hw hr hp

/-- A store of the process that runs. -/
theorem Spaces.store (hsched : Proc.Sched k) (h : Spaces V B.trampoline k F)
    (hB : B.strampoline < 2 ^ 54) {vpn : Nat} (hv : Writable (userEntry k k.running vpn))
    (l : Fin 512) (x : UInt64) :
    ∃ F', Spaces V B.trampoline
      { k with world := storeUser k.world (rootOf k k.running) vpn l x } F' := by
  have hlive : k.phase k.running ≠ .free := by
    rw [hsched.live]
    exact nofun
  obtain ⟨T, Q, -, hheld⟩ := h.held k.running hlive
  obtain ⟨hheld', hsame⟩ := hheld.storeUser hB hv l x
  exact h.replaced hsame hlive hheld' (fun _ _ => rfl) fun _ _ => rfl

end Spaces

/-! ## Runs -/

/-- What holds in every state of a run. -/
structure Safe (V : Lawful A) (B : Platform) (k : System ω) : Prop where
  sched : Proc.Sched k
  spaces : ∃ F, Spaces V B.trampoline k F

/-- `init` is loaded into a memory in which no process is yet.  The other slots of the
table are unused. -/
def Start (V : Lawful A) (B : Platform) (k : System ω) : Prop :=
  ∃ s program sp s' res, V.Valid s.heap ∅ ∅ ∧ loadProcess A B program s = some (sp, s') ∧
    k = Proc.boot s' (Function.update res 0 sp)

section Runs

variable {V : Lawful A} {B : Platform} {k k' : System ω} {a : Action}

/-- The table does not look at memory. -/
theorem sched_world (h : Proc.Sched k) (s : Memory ω) : Proc.Sched { k with world := s } := by
  obtain ⟨o, ho⟩ := h.hist
  have hself : k.setRes s (k.res k.running) = { k with world := s } := by
    rw [Proc.Kernel.setRes, Proc.Kernel.modify, Proc.Kernel.res, Function.update_eq_self]
  exact ⟨⟨o, hself ▸ Proc.inv_setRes ho s _⟩, h.running_lt⟩

theorem Safe.step (hB : B.strampoline < 2 ^ 54) (h : Safe V B k) (hs : SpaceStep A B k a k') :
    Safe V B k' := by
  obtain ⟨hsched, F, hspaces⟩ := h
  cases a with
  | kernel e => exact ⟨hsched.step hs, hspaces.kernel hsched hs⟩
  | store vpn i x =>
      obtain ⟨hv, rfl⟩ := hs
      exact ⟨sched_world hsched _, hspaces.store hsched hB hv i x⟩

/-- There are no other processes when `init` is loaded. -/
theorem Start.safe (h : Start V B k) : Safe V B k := by
  obtain ⟨s, program, sp, s', res, hvalid, hl, rfl⟩ := h
  have hnone : (others (fun _ => Footprint.none) 0).Le .none :=
    ⟨fun _ ⟨_, _, hp⟩ => hp, fun _ ⟨_, _, ha⟩ => ha⟩
  have ho : Own V s.heap .none (others (fun _ => Footprint.none) 0) := by
    refine .of (V.mono hvalid ?_ ?_) ⟨fun _ hp => hp.elim, fun _ ha => ha.elim⟩
    · exact Set.union_subset (Set.empty_subset _) hnone.pages
    · exact Set.union_subset (Set.empty_subset _) hnone.refs
  obtain ⟨T, Q, hheld, -⟩ := loadProcess_held ho hl
  refine ⟨Proc.boot_sched _ _, Function.update (fun _ => .none) 0 (T.union Q), ?_, ?_, ?_⟩
  · refine hheld.own.owns (w := s.heap) ⟨V.mono hvalid ?_ ?_, fun _ _ _ => Footprint.apart_none⟩
    · exact fun _ ⟨_, hp⟩ => hp
    · exact fun _ ⟨_, ha⟩ => ha
  · intro i hi
    by_cases h0 : i = 0
    · subst h0
      cases hi
    · exact Function.update_of_ne h0 ..
  · intro i hi
    by_cases h0 : i = 0
    · subst h0
      refine ⟨T, Q, Function.update_self .., ?_⟩
      rw [others_update]
      exact hheld
    · have hphase : (Proc.boot s' (Function.update res 0 sp)).phase i = .free := by
        rw [Proc.Kernel.phase, Proc.boot]
        simp only [if_neg h0, Proc.Status.phase]
      exact absurd hphase hi

theorem Start.run (hB : B.strampoline < 2 ^ 54) {run : List (Action × System ω)} (h : Start V B k)
    (hrun : IsRun (SpaceStep A B) k run) : EveryState (Safe V B) k run :=
  hrun.invariant (fun _ _ _ hsafe hs => hsafe.step hB hs) h.safe

end Runs

/-! ## Isolation -/

/-- The frame is the target of a leaf of the page table of a process. -/
def Target (k : System ω) (i f : Nat) : Prop :=
  ∃ vpn, userEntry k i vpn &&& pteValid ≠ 0 ∧ getPfn (userEntry k i vpn) = f

/-- The frame has a page table of a process. -/
def HoldsTable (k : System ω) (i f : Nat) : Prop :=
  ∃ p, Short p ∧ tableOf k.world (rootOf k i) p = some f

/-- The frame is in a region of `ptfreelist`. -/
def InFreeList (h : Alloc.Heap) (f : Nat) : Prop :=
  ∃ n ∈ h.ptfreelist, n.tag ≤ f ∧ f < n.tag + n.size

/-- The address spaces have no frame in common, and no frame that is free. -/
structure Isolated (B : Platform) (k : System Alloc.Heap) : Prop where
  apart : ∀ i j f, i ≠ j → (k.table i).status ≠ .unused → (k.table j).status ≠ .unused →
    Target k i f → Target k j f → f = B.strampoline
  used : ∀ i f, (k.table i).status ≠ .unused → Target k i f ∨ HoldsTable k i f →
    ¬ InFreeList k.world.heap f

section Isolation

variable {low : Nat} {B : Platform} {k : System Alloc.Heap} {h : Alloc.Heap} {D : Set Page}
  {K : Set (Nat × Nat)} {p : Page} {f : Nat}

/-- The frames of a free region are behind its pages. -/
theorem inFreeList_page {live : List (Span Nat)} {klive : List (Span Unit)}
    (hi : Alloc.Inv low h live klive) (hf : InFreeList h f) :
    ∃ n ∈ h.ptfreelist, ∃ x, n.Has x ∧ h.Arena x ∧ h.frame x = f := by
  obtain ⟨n, hn, hle, hlt⟩ := hf
  obtain ⟨d, rfl⟩ := Nat.exists_eq_add_of_le hle
  have hmem : n ∈ live ++ h.ptfreelist := List.mem_append_right _ hn
  have hhas : n.Has (n.start + d) := ⟨Nat.le_add_right _ _, by omega⟩
  exact ⟨n, hn, n.start + d, hhas, .inl ((hi.dma.mem_iff _).1 ⟨n, hmem, hhas⟩),
    hi.mapped n hmem d (by omega)⟩

/-- The frame of a page in use is not free. -/
theorem HeapValid.not_free (hv : HeapValid low h D K) (hp : p ∈ D) : ¬ InFreeList h p.pfn := by
  intro hf
  obtain ⟨live, klive, hi, hD, -⟩ := hv
  obtain ⟨n, hn, x, hhas, hx, hframe⟩ := inFreeList_page hi hf
  obtain ⟨hpa, hpf⟩ := arena_page hi (hD p hp)
  obtain rfl : x = p.vpn := hi.inj x p.vpn hx hpa (hframe.trans hpf.symm)
  exact (List.pairwise_append.1 hi.dma.pairwise).2.2 _ (hD p hp) n hn p.vpn (has_vpn p) hhas

/-- Frames below those of the allocator are not free. -/
theorem HeapValid.low_not_free (hv : HeapValid low h D K) (hf : f < low) : ¬ InFreeList h f := by
  intro hfree
  obtain ⟨live, klive, hi, -, -⟩ := hv
  obtain ⟨n, -, x, -, hx, rfl⟩ := inFreeList_page hi hfree
  exact absurd (hi.frame x hx).1 (Nat.not_le.mpr hf)

/-- The frames of the trampoline and of the pages are those that are in use. -/
theorem Safe.isolated (hB : B.strampoline < low) (hB' : B.strampoline < 2 ^ 54)
    (hs : Safe (heapLawful low) B k) : Isolated B k := by
  obtain ⟨-, F, hF⟩ := hs
  have hphase : ∀ {i}, (k.table i).status ≠ .unused → k.phase i ≠ .free := fun {i} hne => by
    rw [Proc.Kernel.phase]
    revert hne
    cases (k.table i).status <;> simp [Proc.Status.phase]
  -- a target is a page of the part, or the trampoline
  have htarget : ∀ {i f}, (k.table i).status ≠ .unused → Target k i f →
      (∃ q ∈ (F i).pages, q.pfn = f) ∨ f = B.strampoline := by
    rintro i f hne ⟨vpn, hvalid, rfl⟩
    obtain ⟨T, Q, hpart, hheld⟩ := hF.held i (hphase hne)
    rcases hheld.page_or hvalid with ⟨q, hq, hpfn⟩ | htramp
    · exact .inl ⟨q, hpart ▸ .inr hq, hpfn⟩
    · exact .inr ((congrArg getPfn htramp).trans (getPfn_trampoline hB'))
  have hused : ∀ {i q}, q ∈ (F i).pages → ¬ InFreeList k.world.heap q.pfn := fun {i q} hq =>
    HeapValid.not_free hF.owns.valid ⟨i, hq⟩
  refine ⟨fun i j f hij hi hj hti htj => ?_, fun i f hi hf => ?_⟩
  · rcases htarget hi hti with ⟨q, hq, hqf⟩ | htramp
    · rcases htarget hj htj with ⟨q', hq', hqf'⟩ | htramp
      · have hqq := (heapLawful low).inj hF.owns.valid ⟨i, hq⟩ ⟨j, hq'⟩ (hqf.trans hqf'.symm)
        exact absurd (hqq ▸ hq') ((hF.owns.apart i j hij).pages q hq)
      · exact htramp
    · exact htramp
  · rcases hf with ht | ⟨p, hp, htable⟩
    · rcases htarget hi ht with ⟨q, hq, rfl⟩ | rfl
      · exact hused hq
      · exact HeapValid.low_not_free hF.owns.valid hB
    · obtain ⟨T, Q, hpart, hheld⟩ := hF.held i (hphase hi)
      obtain ⟨q, b, hat, rfl⟩ := hheld.built.tree.at_of_table hp htable
      have hq : q ∈ (F i).pages := hpart ▸ .inl hat.page
      exact hused hq

theorem Start.low_le {k : System Alloc.Heap} (h : Start (heapLawful low) B k) : low ≤ 2 ^ 44 := by
  obtain ⟨s, -, -, -, -, ⟨live, klive, hi, -, -⟩, -, -⟩ := h
  exact hi.low_le.trans (hi.pfnStart_le.trans hi.maxPfn_le)

end Isolation

end Space
