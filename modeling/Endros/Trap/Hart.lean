import Mathlib.Tactic.FinCases
import Endros.Space.Load

/-!
# Entering and leaving the kernel

The two routines of `trap.S`, as lists of instructions of one hart.  `__alltraps` saves the
registers of a process in the trap frame and jumps to the kernel, and `__restore` is the way
back.  They change the page table while they run, so every instruction is fetched through the
page table that is in force.  The kernel page table is not in the memory here.  It maps the
trampoline at the same page, so instructions can always be fetched with its `satp`.

Most instructions leave the stack pointer at the trap frame (`Stays`).  What they do is a
matter of the registers and of the words of the frame (`onFrame`).
-/

namespace Trap

open Lib Mem Paging Space

/-- The registers. -/
abbrev Reg := Fin 32

instance neZeroRegisters : NeZero 32 := ⟨by decide⟩

/-- The stack pointer. -/
def sp : Reg := 2

/-- `t0`, `t1` and `t2`. -/
def t0 : Reg := 5

@[inherit_doc t0] def t1 : Reg := 6

@[inherit_doc t0] def t2 : Reg := 7

/-- `a0` and `a1`. -/
def a0 : Reg := 10

@[inherit_doc a0] def a1 : Reg := 11

inductive Csr where
  | sstatus | sepc | sscratch | satp
deriving DecidableEq, Repr

inductive Instr where
  | sd (rs : Reg) (offset : Nat) (base : Reg)
  | ld (rd : Reg) (offset : Nat) (base : Reg)
  | csrrw (rd : Reg) (csr : Csr) (rs : Reg)
  | csrr (rd : Reg) (csr : Csr)
  | csrw (csr : Csr) (rs : Reg)
  | mv (rd rs : Reg)
  | sfence
  | jr (rs : Reg)
  | sret
deriving DecidableEq, Repr

structure Hart where
  x : Reg → UInt64
  csr : Csr → UInt64
  pc : UInt64
  /-- The hart is in user mode. -/
  user : Bool

namespace Hart

def reg (h : Hart) (r : Reg) : UInt64 := if r = 0 then 0 else h.x r

def setReg (h : Hart) (r : Reg) (v : UInt64) : Hart :=
  if r = 0 then h else { h with x := Function.update h.x r v }

def setCsr (h : Hart) (c : Csr) (v : UInt64) : Hart := { h with csr := Function.update h.csr c v }

/-- The frame of the root table. -/
def root (h : Hart) : Nat := (h.csr .satp).toNat % 2 ^ 44

end Hart

/-! ## Translation -/

/-- The bit of `sstatus` that lets the kernel access pages of processes. -/
def statusSum : UInt64 := 0x40000

/-- The bit of `sstatus` that makes executable pages readable. -/
def statusMxr : UInt64 := 0x80000

/-- The entry of a page lets the kernel make the access. -/
def Permits (sstatus e : UInt64) (access : Access) : Prop :=
  e &&& pteValid ≠ 0 ∧ (e &&& pteUser = 0 ∨ sstatus &&& statusSum ≠ 0) ∧
    match access with
    | .read => e &&& pteRead ≠ 0 ∨ (e &&& pteExecute ≠ 0 ∧ sstatus &&& statusMxr ≠ 0)
    | .write => e &&& pteWrite ≠ 0

instance (sstatus e : UInt64) : (access : Access) → Decidable (Permits sstatus e access)
  | .read => inferInstanceAs (Decidable (_ ∧ _ ∧ (_ ∨ _)))
  | .write => inferInstanceAs (Decidable (_ ∧ _ ∧ _ ≠ _))

/-- The word that the kernel accesses at an address, or none if there is a fault.  An Sv39
address is at one of the two ends.  The tables have no leaves above the last level. -/
def translate (h : Hart) (m : Phys) (a : UInt64) (access : Access) : Option (Nat × Fin 512) :=
  let e := sv39Entry m h.root (addr2Page a.toNat)
  if (a.toNat < 2 ^ 38 ∨ 2 ^ 64 - 2 ^ 38 ≤ a.toNat) ∧ a.toNat % 8 = 0 ∧ e.1 = 0 ∧
      Permits (h.csr .sstatus) e.2 access then
    some (getPfn e.2, Fin.ofNat 512 (a.toNat % pageSize / 8))
  else none

/-- An instruction of the trampoline can be fetched. -/
def Fetches (B : Platform) (h : Hart) (m : Phys) : Prop :=
  h.csr .satp = B.satp ∨ sv39Entry m h.root trampolineVpn = (0, B.trampoline)

instance (B : Platform) (h : Hart) (m : Phys) : Decidable (Fetches B h m) :=
  inferInstanceAs (Decidable (_ ∨ _))

/-! ## Instructions -/

/-- `SSTATUS_SPP`, the mode that a trap came from. -/
def statusSpp : UInt64 := 0x100

/-- The bit of `sstatus` that enables interrupts, and where a trap keeps it. -/
def statusSie : UInt64 := 0x2

@[inherit_doc statusSie] def statusSpie : UInt64 := 0x20

/-- What a trap makes of `sstatus`. -/
def trapStatus (user : Bool) (s : UInt64) : UInt64 :=
  let spie := if s &&& statusSie = 0 then 0 else statusSpie
  let spp := if user then 0 else statusSpp
  (s &&& ~~~ (statusSie ||| statusSpie ||| statusSpp)) ||| spie ||| spp

/-- What `sret` makes of `sstatus`. -/
def sretStatus (s : UInt64) : UInt64 :=
  let sie := if s &&& statusSpie = 0 then 0 else statusSie
  (s &&& ~~~ (statusSie ||| statusSpp)) ||| sie ||| statusSpie

def address (h : Hart) (base : Reg) (offset : Nat) : UInt64 := h.reg base + UInt64.ofNat offset

/-- One instruction in supervisor mode.  `none` is a fault. -/
def exec : Instr → Hart × Phys → Option (Hart × Phys)
  | .sd rs offset base, (h, m) =>
      (translate h m (address h base offset) .write).map fun p =>
        (h, Radix.set m p.1 p.2 (h.reg rs))
  | .ld rd offset base, (h, m) =>
      (translate h m (address h base offset) .read).map fun p => (h.setReg rd (m p.1 p.2), m)
  | .csrrw rd c rs, (h, m) => some ((h.setCsr c (h.reg rs)).setReg rd (h.csr c), m)
  | .csrr rd c, (h, m) => some (h.setReg rd (h.csr c), m)
  | .csrw c rs, (h, m) => some (h.setCsr c (h.reg rs), m)
  | .mv rd rs, (h, m) => some (h.setReg rd (h.reg rs), m)
  | .sfence, s => some s
  | .jr rs, (h, m) => some ({ h with pc := h.reg rs }, m)
  | .sret, (h, m) =>
      some ({ h.setCsr .sstatus (sretStatus (h.csr .sstatus)) with
        pc := h.csr .sepc
        user := h.csr .sstatus &&& statusSpp = 0 }, m)

/-- Instructions of the trampoline, one after another. -/
def run (B : Platform) : List Instr → Hart × Phys → Option (Hart × Phys)
  | [], s => some s
  | i :: is, s => if Fetches B s.1 s.2 then (exec i s).bind (run B is) else none

/-! ## The routines -/

/-- `SAVE_GP`. -/
def saveGp (n : Nat) : Instr := .sd (Fin.ofNat 32 n) (n * 8) sp

/-- `LOAD_GP`. -/
def loadGp (n : Nat) : Instr := .ld (Fin.ofNat 32 n) (n * 8) sp

/-- The registers that are saved, without the stack pointer.  `x4` is skipped. -/
def gprs : List Nat := 1 :: 3 :: (List.range 27).map (· + 5)

/-- `__alltraps` from the first store to the load of `sp`. -/
def saveContext : List Instr :=
  gprs.map saveGp ++
  [.csrr t0 .sstatus, .csrr t1 .sepc, .sd t0 (32 * 8) sp, .sd t1 (33 * 8) sp,
    .csrr t2 .sscratch, .sd t2 (2 * 8) sp, .ld t0 (34 * 8) sp, .ld t1 (36 * 8) sp]

/-- `__alltraps`. -/
def alltraps : List Instr :=
  .csrrw sp .sscratch sp :: (saveContext ++ [.ld sp (35 * 8) sp, .csrw .satp t0, .sfence, .jr t1])

/-- `__restore` from the first load to the load of `sp`. -/
def loadContext : List Instr :=
  [.ld t0 (32 * 8) sp, .ld t1 (33 * 8) sp, .csrw .sstatus t0, .csrw .sepc t1] ++ gprs.map loadGp

/-- `__restore`. -/
def restore : List Instr :=
  .csrw .satp a1 :: .sfence :: .csrw .sscratch a0 :: .mv sp a0 ::
    (loadContext ++ [.ld sp (2 * 8) sp, .sret])

/-! ## The trap frame -/

/-- `TRAPFRAME`. -/
def trapframe : UInt64 := 0xffffffffffffe000

/-- The root maps the page of the trap frame to the frame `f` and has the trampoline,
whatever is in the frame. -/
structure Framed (B : Platform) (root f : Nat) (m : Phys) : Prop where
  pfn : f < 2 ^ 54
  trapframe : ∀ w, sv39Entry (Function.update m f w) root trapframeVpn = (0, pte f pteTable)
  trampoline : ∀ w, sv39Entry (Function.update m f w) root trampolineVpn = (0, B.trampoline)

/-- The hart is in the trampoline, and its stack pointer is at the trap frame. -/
structure AtFrame (B : Platform) (f : Nat) (h : Hart) (m : Phys) : Prop where
  framed : Framed B h.root f m
  base : h.reg sp = trapframe

section Frame

variable {B : Platform} {f : Nat} {h : Hart} {m : Phys} {w : Fin 512 → UInt64} {is : List Instr}

theorem Framed.fetches (hm : Framed B h.root f m) : Fetches B h (Function.update m f w) :=
  .inr (hm.trampoline w)

theorem AtFrame.translate (ha : AtFrame B f h m) {offset : Nat} (hmod : offset % 8 = 0)
    (hlt : offset < pageSize) (access : Access) :
    Trap.translate h (Function.update m f w) (address h sp offset) access =
      some (f, Fin.ofNat 512 (offset / 8)) := by
  have hnum : trapframe.toNat = 0xffffffffffffe000 := by decide
  have haddr : (address h sp offset).toNat = 0xffffffffffffe000 + offset := by
    rw [address, ha.base, UInt64.toNat_add, UInt64.toNat_ofNat', hnum]
    rw [pageSize] at hlt
    omega
  have hpage : addr2Page (address h sp offset).toNat = trapframeVpn := by
    rw [haddr, trapframeVpn]
    simp only [addr2Page, pageSize] at hlt ⊢
    omega
  have hflags : ∀ {b : UInt64}, b.toNat < 1024 → pte f pteTable &&& b = pteTable &&& b := fun hb => by
    rw [and_flags hb, getFlags_pte ha.framed.pfn pteTable_lt]
  have hpermits : Permits (h.csr .sstatus) (pte f pteTable) access := by
    unfold Permits
    rw [hflags pteValid_lt, hflags (by decide), hflags (by decide), hflags (by decide), hflags (by decide)]
    refine ⟨by decide, .inl (by decide), ?_⟩
    cases access with
    | read => exact .inl (by decide)
    | write =>
        show pteTable &&& pteWrite ≠ 0
        decide
  have hword : (address h sp offset).toNat % pageSize = offset := by
    rw [haddr, pageSize]
    rw [pageSize] at hlt
    omega
  rw [Trap.translate, hpage, ha.framed.trapframe w, if_pos, hword, getPfn_pte ha.framed.pfn pteTable_lt]
  rw [haddr]
  exact ⟨.inr (by omega), by omega, rfl, hpermits⟩

/-! ## Instructions at the trap frame -/

/-- The instruction leaves the stack pointer at the trap frame and the page table in force. -/
def Stays : Instr → Prop
  | .sd _ offset base => base = sp ∧ offset % 8 = 0 ∧ offset < pageSize
  | .ld rd offset base => (base = sp ∧ offset % 8 = 0 ∧ offset < pageSize) ∧ rd ≠ 0 ∧ rd ≠ sp
  | .csrr rd _ => rd ≠ 0 ∧ rd ≠ sp
  | .csrw c _ => c ≠ .satp
  | _ => False

instance : DecidablePred Stays
  | .sd _ _ _ | .ld _ _ _ | .csrr _ _ => inferInstanceAs (Decidable (_ ∧ _))
  | .csrw _ _ => inferInstanceAs (Decidable (_ ≠ _))
  | .csrrw _ _ _ | .mv _ _ | .sfence | .jr _ | .sret => .isFalse id

/-- What it does to the hart and to the words of the trap frame. -/
def onFrame (s : Hart × (Fin 512 → UInt64)) : Instr → Hart × (Fin 512 → UInt64)
  | .sd rs offset _ => (s.1, Function.update s.2 (Fin.ofNat 512 (offset / 8)) (s.1.reg rs))
  | .ld rd offset _ => (s.1.setReg rd (s.2 (Fin.ofNat 512 (offset / 8))), s.2)
  | .csrr rd c => (s.1.setReg rd (s.1.csr c), s.2)
  | .csrw c rs => (s.1.setCsr c (s.1.reg rs), s.2)
  | _ => s

theorem run_cons {i : Instr} {s s' : Hart × Phys} (hf : Fetches B s.1 s.2) (he : exec i s = some s') :
    run B (i :: is) s = run B is s' := by
  rw [run, if_pos hf, he]
  rfl

/-- Another register is written. -/
theorem AtFrame.setReg (ha : AtFrame B f h m) {r : Reg} (hr : r ≠ 0) (hsp : r ≠ sp) (v : UInt64) :
    AtFrame B f (h.setReg r v) m := by
  rw [Hart.setReg, if_neg hr]
  refine ⟨ha.framed, ?_⟩
  have hx : Function.update h.x r v sp = h.x sp := Function.update_of_ne hsp.symm ..
  exact hx.trans ha.base

theorem AtFrame.load (ha : AtFrame B f h m) (rd : Reg) {offset : Nat} (hmod : offset % 8 = 0)
    (hlt : offset < pageSize) : exec (.ld rd offset sp) (h, Function.update m f w) =
      some (h.setReg rd (w (Fin.ofNat 512 (offset / 8))), Function.update m f w) := by
  rw [exec, ha.translate hmod hlt, Option.map_some, Function.update_self]

theorem AtFrame.exec_stays (ha : AtFrame B f h m) {i : Instr} (hi : Stays i) :
    exec i (h, Function.update m f w) =
        some ((onFrame (h, w) i).1, Function.update m f (onFrame (h, w) i).2) ∧
      AtFrame B f (onFrame (h, w) i).1 m := by
  cases i with
  | sd rs offset base =>
      obtain ⟨rfl, hmod, hlt⟩ := hi
      refine ⟨?_, ha⟩
      rw [exec, ha.translate hmod hlt, Option.map_some, Radix.set, Function.update_self, Function.update_idem]
      rfl
  | ld rd offset base =>
      obtain ⟨⟨rfl, hmod, hlt⟩, hr, hsp⟩ := hi
      exact ⟨ha.load rd hmod hlt, ha.setReg hr hsp _⟩
  | csrr rd c => exact ⟨rfl, ha.setReg hi.1 hi.2 _⟩
  | csrw c rs =>
      refine ⟨rfl, ?_, ha.base⟩
      have hsatp : Function.update h.csr c (h.reg rs) .satp = h.csr .satp := Function.update_of_ne hi.symm ..
      show Framed B ((Function.update h.csr c (h.reg rs) .satp).toNat % 2 ^ 44) f m
      rw [hsatp]
      exact ha.framed
  | csrrw | mv | sfence | jr | sret => exact hi.elim

theorem AtFrame.run_stays (ha : AtFrame B f h m) (is js : List Instr) (his : ∀ i ∈ is, Stays i) :
    run B (is ++ js) (h, Function.update m f w) =
        run B js ((is.foldl onFrame (h, w)).1, Function.update m f (is.foldl onFrame (h, w)).2) ∧
      AtFrame B f (is.foldl onFrame (h, w)).1 m := by
  induction is generalizing h w with
  | nil => exact ⟨rfl, ha⟩
  | cons i is ih =>
      obtain ⟨he, ha'⟩ := ha.exec_stays (w := w) (his i List.mem_cons_self)
      obtain ⟨hrun, hend⟩ := ih (w := (onFrame (h, w) i).2) ha' fun j hj => his j (List.mem_cons_of_mem _ hj)
      exact ⟨(run_cons ha.framed.fetches he).trans hrun, hend⟩

end Frame

/-! ## What the routines do -/

/-- The word of a register. -/
def wordOfReg (r : Reg) : Fin 512 := r.castLE (by decide)

/-- What `__alltraps` makes of the hart `h` and the words `w` of the trap frame. -/
structure Saved (h : Hart) (w : Fin 512 → UInt64) (h' : Hart) (w' : Fin 512 → UInt64) : Prop where
  reg : ∀ r : Reg, r ≠ 0 → r ≠ 4 → w' (wordOfReg r) = h.reg r
  sstatus : w' 32 = h.csr .sstatus
  sepc : w' 33 = h.csr .sepc
  satp : h'.csr .satp = w 34
  stack : h'.reg sp = w 35
  pc : h'.pc = w 36
  user : h'.user = h.user

/-- What `__restore` makes of the hart `h` and the words `w` of the trap frame. -/
structure Restored (h : Hart) (token : UInt64) (w : Fin 512 → UInt64) (h' : Hart) : Prop where
  reg : ∀ r : Reg, r ≠ 0 → r ≠ 4 → h'.reg r = w (wordOfReg r)
  tp : h'.reg 4 = h.reg 4
  sstatus : h'.csr .sstatus = sretStatus (w 32)
  satp : h'.csr .satp = token
  sscratch : h'.csr .sscratch = trapframe
  pc : h'.pc = w 33
  user : h'.user = true ↔ w 32 &&& statusSpp = 0

section Routines

variable {B : Platform} {f : Nat} {h : Hart} {m : Phys} {w : Fin 512 → UInt64}

/-- `__alltraps` saves the registers and enters the kernel. -/
theorem alltraps_run (hm : Framed B h.root f m) (hs : h.csr .sscratch = trapframe)
    (hsatp : w 34 = B.satp) : ∃ h' w', run B alltraps (h, Function.update m f w) =
      some (h', Function.update m f w') ∧ Saved h w h' w' := by
  have ha : AtFrame B f ((h.setCsr .sscratch (h.reg sp)).setReg sp (h.csr .sscratch)) m := ⟨hm, hs⟩
  obtain ⟨hrun, ha'⟩ := ha.run_stays (w := w) saveContext
    [.ld sp (35 * 8) sp, .csrw .satp t0, .sfence, .jr t1] (by decide)
  rw [alltraps, run_cons hm.fetches rfl, hrun,
    run_cons ha'.framed.fetches (ha'.load sp (show 35 * 8 % 8 = 0 by decide) (by decide))]
  -- the stack pointer is that of the kernel, and `t0` has its page table
  obtain ⟨s, hs'⟩ : ∃ s, s = saveContext.foldl onFrame
    ((h.setCsr .sscratch (h.reg sp)).setReg sp (h.csr .sscratch), w) := ⟨_, rfl⟩
  rw [← hs'] at ha' ⊢
  have ht0 : (s.1.setReg sp (s.2 (Fin.ofNat 512 (35 * 8 / 8)))).reg t0 = B.satp := by
    rw [← hsatp, hs']
    rfl
  have hm' : Framed B (s.1.setReg sp (s.2 (Fin.ofNat 512 (35 * 8 / 8)))).root f m := ha'.framed
  rw [run_cons hm'.fetches rfl, ht0, run_cons (.inl rfl) rfl, run_cons (.inl rfl) rfl, run]
  subst hs'
  refine ⟨_, _, rfl, fun r h0 h4 => ?_, rfl, rfl, hsatp.symm, rfl, rfl, rfl⟩
  fin_cases r <;> first | rfl | contradiction

/-- `__restore` enters the process whose registers are in the trap frame. -/
theorem restore_run {token : UInt64} (hm : Framed B (token.toNat % 2 ^ 44) f m)
    (hsatp : h.csr .satp = B.satp) (ha0 : h.reg a0 = trapframe) (ha1 : h.reg a1 = token) :
    ∃ h', run B restore (h, Function.update m f w) = some (h', Function.update m f w) ∧
      Restored h token w h' := by
  have hm₀ : Framed B (h.setCsr .satp token).root f m := hm
  have hm₁ : Framed B ((h.setCsr .satp token).setCsr .sscratch trapframe).root f m := hm
  have ha : AtFrame B f (((h.setCsr .satp token).setCsr .sscratch trapframe).setReg sp trapframe) m := ⟨hm, rfl⟩
  obtain ⟨hrun, ha'⟩ := ha.run_stays (w := w) loadContext [.ld sp (2 * 8) sp, .sret] (by decide)
  have hscratch : (h.setCsr .satp token).reg a0 = trapframe := ha0
  have hbase : ((h.setCsr .satp token).setCsr .sscratch trapframe).reg a0 = trapframe := ha0
  rw [restore, run_cons (.inl hsatp) rfl, ha1, run_cons hm₀.fetches rfl, run_cons hm₀.fetches rfl, hscratch,
    run_cons hm₁.fetches rfl, hbase, hrun,
    run_cons ha'.framed.fetches (ha'.load sp (show 2 * 8 % 8 = 0 by decide) (by decide))]
  obtain ⟨s, hs⟩ : ∃ s, s = loadContext.foldl onFrame
    (((h.setCsr .satp token).setCsr .sscratch trapframe).setReg sp trapframe, w) := ⟨_, rfl⟩
  rw [← hs] at ha' ⊢
  have hm₂ : Framed B (s.1.setReg sp (s.2 (Fin.ofNat 512 (2 * 8 / 8)))).root f m := ha'.framed
  have hw : s.2 = w := by
    rw [hs]
    rfl
  rw [run_cons hm₂.fetches rfl, run, hw]
  subst hs
  refine ⟨_, rfl, fun r h0 h4 => ?_, rfl, rfl, rfl, rfl, rfl, decide_eq_true_iff⟩
  fin_cases r <;> first | rfl | contradiction

end Routines

end Trap
