import Endros.Space.Elf
import Endros.Space.Fork
import Endros.Trap.Hart

/-!
# A trap and back

What a trap is to the process: it goes on where it was, with the registers that it had.  After
a system call the result is in `a0`, and the process goes on behind the `ecall`.  `x4` is not
saved, so the process finds there what the kernel has left.

`trap.S` and `load_process` have to agree on the two pages at the top of the address space for
that.  They do so if no segment of the program is put over the trampoline (`framed_of_loaded`).
-/

namespace Trap

open Lib Mem Paging Space

/-! ## Address spaces -/

/-- The token of `trap_return`. -/
def token (sp : AddressSpace) : UInt64 := 0x8000000000000000 ||| UInt64.ofNat sp.root.page.pfn

section Spaces

variable {ω : Type} {A : Allocator ω} {V : Lawful A} {B : Platform} {s s' : Memory ω}
  {sp : AddressSpace} {T Q R : Footprint} {program : Program}

theorem token_root (h : sp.root.page.pfn < 2 ^ 44) : (token sp).toNat % 2 ^ 44 = sp.root.page.pfn := by
  have hhigh : (0x8000000000000000 : UInt64).toNat % 2 ^ 44 = 0 := by decide
  rw [token, UInt64.toNat_or, Nat.or_mod_two_pow, hhigh, Nat.zero_or, UInt64.toNat_ofNat']
  omega

/-- The tables are not in the trap frame. -/
theorem framed_of_held (h : Held V s sp B.trampoline T Q R) (hB : B.strampoline < 2 ^ 54)
    (hentry : (leafAt s sp.root (slotOf trapframeVpn)).1 = pte (A.frame s.heap sp.trapframe) pteTable)
    (htramp : leafAt s sp.root (slotOf trampolineVpn) = (B.trampoline, 0)) :
    Framed B sp.root.page.pfn (A.frame s.heap sp.trapframe) s.mem := by
  have hne : (leafAt s sp.root (slotOf trapframeVpn)).2 ≠ 0 := h.trap.symm ▸ h.trap_ne
  have hmem := h.built.leaves.held _ hne
  have hgood := h.built.good hmem
  have hvpn : (leafPage (leafAt s sp.root (slotOf trapframeVpn))).vpn = sp.trapframe := h.trap
  rw [hvpn] at hgood
  have hleaves : ∀ w v, leafAt s sp.root (slotOf v) ≠ (0, 0) →
      sv39Entry (Function.update s.mem (A.frame s.heap sp.trapframe) w) sp.root.page.pfn v =
        (0, (leafAt s sp.root (slotOf v)).1) := fun w v hv => by
    obtain ⟨hb, -, hleaf, -⟩ := h.built.writePage hmem w
    have he := hb.tree.sv39_level (v := v) (by rwa [hleaf])
    rw [hleaf, hvpn] at he
    exact he
  refine ⟨hgood.2.2 ▸ hgood.2.1, fun w => ?_, fun w => ?_⟩
  · rw [hleaves w _ fun he => hne (congrArg Prod.snd he), hentry]
  · rw [hleaves w _ fun he => ?_, htramp]
    have hflags : getFlags B.trampoline = trampolineFlags := getFlags_pte hB (by decide)
    rw [show B.trampoline = 0 from congrArg Prod.fst (htramp.symm.trans he)] at hflags
    exact absurd hflags (by decide)

/-- What `load_process` makes is an address space for `trap.S`. -/
theorem framed_of_loaded {low : Nat} {s s' : Memory Alloc.Heap}
    (h : Loaded (heapLawful low) B program s R sp s' T Q) (hB : B.strampoline < low)
    (ha : program.Avoids (slotOf trampolineVpn)) :
    Framed B ((token sp).toNat % 2 ^ 44) (heapAllocator.frame s'.heap sp.trapframe) s'.mem := by
  obtain ⟨live, klive, hi, hD, -⟩ := h.held.built.own.valid
  have hmax := hi.pfnStart_le.trans hi.maxPfn_le
  have hlow := hi.low_le
  obtain ⟨hlive, hframe⟩ := arena_page hi (hD _ (.inl h.held.built.tree.page))
  have hroot := hi.frame _ hlive
  rw [hframe] at hroot
  rw [token_root (by omega)]
  have htrap : program.image (slotOf trapframeVpn) = some ⟨pteTable, none⟩ := Function.update_self ..
  obtain ⟨q, hq, hentry, -⟩ := h.loading.page _ _ htrap
  have hvpn : q.vpn = sp.trapframe := (congrArg Prod.snd hentry).symm.trans h.held.trap
  refine framed_of_held h.held (by omega) ?_ ?_
  · rw [hentry, ← hvpn, (h.held.built.good hq).2.2]
  · rw [h.loading.empty _ (ha.image_eq trapframe_ne_trampoline.symm), if_pos rfl]

end Spaces

/-! ## Round trip -/

/-- What a trap does to the hart.  `stvec` is `TRAMPOLINE`. -/
def trapped (h : Hart) : Hart where
  x := h.x
  csr := Function.update (Function.update h.csr .sepc h.pc) .sstatus (trapStatus h.user (h.csr .sstatus))
  pc := 0xfffffffffffff000
  user := false

/-- What `trap_handler` makes of the trap frame.  A system call has a result.  A timer
interrupt has none and leaves the frame alone. -/
def answer (ret : Option UInt64) (w : Fin 512 → UInt64) : Fin 512 → UInt64 :=
  match ret with
  | none => w
  | some v => Function.update (Function.update w 33 (w 33 + 4)) 10 v

/-- The process of the hart `h` goes on. -/
structure Resumed (h : Hart) (ret : Option UInt64) (h' : Hart) : Prop where
  reg : ∀ r : Reg, r ≠ 4 → r ≠ a0 → h'.reg r = h.reg r
  result : h'.reg a0 = ret.getD (h.reg a0)
  pc : h'.pc = if ret.isSome then h.pc + 4 else h.pc
  user : h'.user = true
  sscratch : h'.csr .sscratch = trapframe

/-- `__restore` lets the process go on wherever the words of its trap frame are.  For a child
of `sys_fork` that is another address space. -/
def Resumes (B : Platform) (h : Hart) (ret : Option UInt64) (w : Fin 512 → UInt64) : Prop :=
  ∀ (h' : Hart) (token : UInt64) (f : Nat) (m : Phys), h'.csr .satp = B.satp → h'.reg a0 = trapframe →
    h'.reg a1 = token → Framed B (token.toNat % 2 ^ 44) f m →
    (∀ k : Fin 512, k.val < 34 → m f k = answer ret w k) →
    ∃ h'', run B restore (h', m) = some (h'', m) ∧ Resumed h ret h'' ∧ h''.csr .satp = token ∧
      h''.reg 4 = h'.reg 4

theorem answer_of_ne {ret : Option UInt64} {w : Fin 512 → UInt64} {k : Fin 512} (h10 : k ≠ 10)
    (h33 : k ≠ 33) : answer ret w k = w k := by
  cases ret with
  | none => rfl
  | some v => rw [answer, Function.update_of_ne h10, Function.update_of_ne h33]

theorem or_and (a b c : UInt64) : (a ||| b) &&& c = (a &&& c) ||| (b &&& c) := by
  apply UInt64.toNat_inj.mp
  rw [UInt64.toNat_and, UInt64.toNat_or, UInt64.toNat_or, UInt64.toNat_and, UInt64.toNat_and,
    Nat.and_or_distrib_right]

theorem trapStatus_user (s : UInt64) : trapStatus true s &&& statusSpp = 0 := by
  have hmask : ~~~ (statusSie ||| statusSpie ||| statusSpp) &&& statusSpp = 0 := by decide
  rw [trapStatus, or_and, or_and, UInt64.and_assoc, hmask, UInt64.and_zero]
  split <;> rfl

section RoundTrip

variable {B : Platform} {h h₁ : Hart} {w w₁ : Fin 512 → UInt64}

theorem Saved.resumes (hs : Saved (trapped h) w h₁ w₁) (hu : h.user = true) (ret : Option UInt64) :
    Resumes B h ret w₁ := by
  intro h' token f m hsatp ha0 ha1 hm hw
  obtain ⟨h'', hrun, hr⟩ := restore_run (w := m f) hm hsatp ha0 ha1
  rw [Function.update_eq_self] at hrun
  have hstatus : m f 32 &&& statusSpp = 0 := by
    rw [hw 32 (by decide), answer_of_ne (by decide) (by decide), hs.sstatus]
    show trapStatus h.user (h.csr .sstatus) &&& statusSpp = 0
    rw [hu]
    exact trapStatus_user _
  refine ⟨h'', hrun, ⟨fun r h4 h10 => ?_, ?_, ?_, hr.user.mpr hstatus, hr.sscratch⟩, hr.satp, hr.tp⟩
  · by_cases h0 : r = 0
    · rw [h0]
      rfl
    · have hlt : (wordOfReg r).val < 32 := r.isLt
      rw [hr.reg r h0 h4, hw _ (by omega), answer_of_ne, hs.reg r h0 h4]
      · rfl
      · exact fun he => h10 (Fin.ext (show r.val = 10 from congrArg Fin.val he))
      · exact fun he => absurd (congrArg Fin.val he) (by omega)
  · rw [hr.reg a0 (by decide) (by decide), hw _ (by decide)]
    cases ret with
    | none => exact hs.reg a0 (by decide) (by decide)
    | some v => rfl
  · rw [hr.pc, hw 33 (by decide)]
    cases ret with
    | none => exact hs.sepc
    | some v => exact congrArg (· + 4) hs.sepc

end RoundTrip

/-- A trap of a process enters the kernel on its stack, and when the kernel returns, the process
goes on where it was. -/
theorem trap_round_trip (B : Platform) (h : Hart) (f : Nat) (m : Phys) (w : Fin 512 → UInt64)
    (hu : h.user = true) (hm : Framed B h.root f m) (hs : h.csr .sscratch = trapframe)
    (hsatp : w 34 = B.satp) :
    ∃ h₁ w₁, run B alltraps (trapped h, Function.update m f w) = some (h₁, Function.update m f w₁) ∧
      h₁.pc = w 36 ∧ h₁.reg sp = w 35 ∧ h₁.csr .satp = B.satp ∧ h₁.user = false ∧
      ∀ ret, Resumes B h ret w₁ := by
  obtain ⟨h₁, w₁, hrun, hsaved⟩ := alltraps_run (h := trapped h) (w := w) hm hs hsatp
  exact ⟨h₁, w₁, hrun, hsaved.pc, hsaved.stack, hsaved.satp.trans hsatp, hsaved.user, hsaved.resumes hu⟩

/-- A process that runs in the address space. -/
def userHart (sp : AddressSpace) : Hart :=
  ⟨fun _ => 7, fun c => if c = .satp then token sp else if c = .sscratch then trapframe else 0, 0x10000, true⟩

/-- A trap of the program without segments. -/
theorem trap_round_trip_empty : ∃ sp s f h w,
    loadProcess heapAllocator board emptyProgram largeMemory = some (sp, s) ∧
    run board alltraps (trapped (userHart sp), Function.update s.mem f 0) = some (h, Function.update s.mem f w) ∧
    ∀ ret, Resumes board (userHart sp) ret w := by
  obtain ⟨sp, s, hl, -⟩ := loadProcess_returns heapRoomy (s := largeMemory) (n := 0) board
    emptyProgram (show largeMemory.heap.pfnStart + 3 * (0 + emptyProgram.pages) ≤
      largeMemory.heap.maxPfn by decide)
  obtain ⟨T, Q, hloaded⟩ := loadProcess_loaded largeMemory_own hl
  have hm := framed_of_loaded hloaded (by decide) (emptyProgram_avoids (by decide))
  obtain ⟨h, w, hrun, -, -, -, -, hback⟩ := trap_round_trip board (userHart sp) _ _ 0 rfl hm rfl rfl
  exact ⟨sp, s, _, h, w, hl, hrun, hback⟩

end Trap
