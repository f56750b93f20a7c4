import Endros.Lib.Word
import Endros.Space.Build

/-!
# `load_process`

`load_process` makes a root, maps the trampoline, reads the program into a buffer,
and maps the pages of its segments.  Behind the highest segment it leaves a page and
maps the stack.  The heap starts behind the stack.  Last it maps the page of the trap
frame and takes the kernel stack.

The program is what the loads through the buffer see.  `load_process` does not look
at the size of the file again, so headers and segments can be anywhere.  It does not
give back the buffer.

`ptunmap` takes the flags from the guard page of the kernel stack, and
`free_process_space` maps the page again.  Its entry keeps its frame in between, so
there is nothing to do for it here.
-/

namespace Space

open Lib Paging Mem

variable {ω : Type} {A : Allocator ω}

/-! ## Programs -/

/-- What a program file is to the kernel: its size, and the bytes from the buffer on. -/
structure Program where
  size : Nat
  byte : Nat → UInt8

/-- `Elf64_Phdr`. -/
structure ProgramHeader where
  pType : UInt32
  pFlags : UInt32
  pOffset : UInt64
  pVaddr : UInt64
  pMemsz : UInt64

/-- `PT_LOAD`. -/
def ptLoad : UInt32 := 1

/-- `PF_X`. -/
def pfX : UInt32 := 1

/-- `PF_W`. -/
def pfW : UInt32 := 2

/-- `PF_R`. -/
def pfR : UInt32 := 4

namespace Program

def eEntry (program : Program) : UInt64 := le64 program.byte 24

def ePhoff (program : Program) : UInt64 := le64 program.byte 32

def ePhnum (program : Program) : Nat :=
  (program.byte 56).toNat + (program.byte 57).toNat * 2 ^ 8

/-- The header `i` of the table. -/
def header (program : Program) (i : Nat) : ProgramHeader :=
  let a := u64 (program.ePhoff.toNat + 56 * i)
  { pType := le32 program.byte a
    pFlags := le32 program.byte (a + 4)
    pOffset := le64 program.byte (a + 8)
    pVaddr := le64 program.byte (a + 16)
    pMemsz := le64 program.byte (a + 40) }

end Program

namespace ProgramHeader

/-- `end_va`. -/
def endVa (ph : ProgramHeader) : Nat := (ph.pVaddr + ph.pMemsz).toNat

def flags (ph : ProgramHeader) : UInt64 :=
  pteValid ||| pteUser ||| (if ph.pFlags &&& pfR ≠ 0 then pteRead else 0) |||
    (if ph.pFlags &&& pfW ≠ 0 then pteWrite else 0) |||
    (if ph.pFlags &&& pfX ≠ 0 then pteExecute else 0)

/-- The segment has the page. -/
def Covers (ph : ProgramHeader) (vpn : Nat) : Prop :=
  ph.pType = ptLoad ∧ addr2Page ph.pVaddr.toNat ≤ vpn ∧ vpn < addr2PageUp ph.endVa

/-- The words that `memcpy` puts on the page `vpn` of the segment. -/
def words (ph : ProgramHeader) (program : Program) (vpn : Nat) (k : Fin 512) : UInt64 :=
  let offset := UInt64.ofNat (vpn * pageSize) - ph.pVaddr
  le64 program.byte ((ph.pOffset + offset).toNat + 8 * k.val)

end ProgramHeader

/-- `max_vpn` behind the first `n` headers. -/
def Program.maxVpn (program : Program) : Nat → Nat
  | 0 => 0
  | n + 1 =>
      if (program.header n).pType ≠ ptLoad then program.maxVpn n
      else max (program.maxVpn n) (addr2PageUp (program.header n).endVa)

/-! ## The loader -/

/-- What the kernel image and the control registers give. -/
structure Platform where
  /-- The frame of `strampoline`. -/
  strampoline : Nat
  sstatus : UInt64
  satp : UInt64
  trapHandler : UInt64

/-- The page of `TRAMPOLINE`. -/
def trampolineVpn : Nat := addr2Page 0xfffffffffffff000

/-- The page of `TRAPFRAME`. -/
def trapframeVpn : Nat := addr2Page 0xffffffffffffe000

def trampolineFlags : UInt64 := pteValid ||| pteRead ||| pteExecute

/-- The entry of the trampoline. -/
def Platform.trampoline (B : Platform) : UInt64 := pte B.strampoline trampolineFlags

/-- The pages of `USER_STACK_SIZE`. -/
def userStackPages : Nat := 256

/-- The pages of `KERNEL_STACK_SIZE + PAGESIZE`. -/
def kernelStackPages : Nat := 257

/-- What a process has of its address space. -/
structure AddressSpace extends HeapOwner where
  /-- The kernel page of the trap frame. -/
  trapframe : Nat
  kernelStackVpn : Nat

/-- The trampoline is mapped without a kernel page. -/
def mapTrampoline (A : Allocator ω) (B : Platform) (s : Memory ω) (r : Root) : Option (Memory ω) :=
  uptmap A s r.page.vpn r.ref 0 trampolineVpn B.strampoline trampolineFlags

/-- The loop that maps `n` pages of a segment from `vpn` on. -/
def loadPages (A : Allocator ω) (r : Root) (program : Program) (ph : ProgramHeader) :
    Nat → Nat → Memory ω → Option (Memory ω)
  | 0, _, s => some s
  | n + 1, vpn, s => do
      let (p, s) ← s.dmalloc A false
      let s := s.writePage A p.vpn (ph.words program vpn)
      let s ← uptmap A s r.page.vpn r.ref p.vpn vpn p.pfn ph.flags
      loadPages A r program ph n (vpn + 1) s

/-- One header.  The number is `max_vpn`. -/
def loadHeader (A : Allocator ω) (r : Root) (program : Program) (ph : ProgramHeader)
    (m : Nat × Memory ω) : Option (Nat × Memory ω) :=
  if ph.pType ≠ ptLoad then some m
  else
    let first := addr2Page ph.pVaddr.toNat
    let last := addr2PageUp ph.endVa
    (loadPages A r program ph (last - first) first m.2).map fun s => (max m.1 last, s)

/-- The loop over the first `n` headers. -/
def loadHeaders (A : Allocator ω) (r : Root) (program : Program) :
    Nat → Nat × Memory ω → Option (Nat × Memory ω)
  | 0, m => some m
  | n + 1, m => (loadHeaders A r program n m).bind (loadHeader A r program (program.header n))

/-- `kalloc` of the buffer. -/
def kallocBuffer (A : Allocator ω) (s : Memory ω) (size : Nat) : Option (Memory ω) :=
  if size = 0 then some s else (s.kalloc A (addr2PageUp size)).map (·.2)

/-- `app_init_context`: the words of a `TrapContext`. -/
def initContext (B : Platform) (entry userSp kernelSp : UInt64) (old : Fin 512 → UInt64)
    (k : Fin 512) : UInt64 :=
  if k.val = 2 then userSp
  else if k.val = 32 then B.sstatus &&& ~~~ 0x100
  else if k.val = 33 then entry
  else if k.val = 34 then B.satp
  else if k.val = 35 then kernelSp
  else if k.val = 36 then B.trapHandler
  else if k.val < 32 then 0
  else old k

/-- The top of the kernel stack. -/
def kernelSp (kernelStackVpn : Nat) : UInt64 :=
  UInt64.ofNat ((kernelStackVpn + kernelStackPages) * pageSize)

def loadProcess (A : Allocator ω) (B : Platform) (program : Program) (s : Memory ω) :
    Option (AddressSpace × Memory ω) := do
  let (root, s) ← newRoot A s
  let s ← mapTrampoline A B s root
  let s ← kallocBuffer A s program.size
  let (maxVpn, s) ← loadHeaders A root program program.ePhnum (0, s)
  -- the guard page
  let maxVpn := maxVpn + 1
  let heapBottom := maxVpn + userStackPages
  let s ← growHeap A root userStackPages maxVpn s
  let (trap, s) ← s.dmalloc A false
  let s ← uptmap A s root.page.vpn root.ref trap.vpn trapframeVpn trap.pfn pteTable
  let (kernelStackVpn, s) ← s.kalloc A kernelStackPages
  let userSp := UInt64.ofNat ((maxVpn + userStackPages) * pageSize)
  let context := initContext B program.eEntry userSp (kernelSp kernelStackVpn)
    (s.mem (A.frame s.heap trap.vpn))
  some (⟨⟨root, u64 (heapBottom * pageSize), u64 (heapBottom * pageSize)⟩, trap.vpn, kernelStackVpn⟩,
    s.writePage A trap.vpn context)

/-! ## What is loaded -/

/-- What was put in a slot: the flags of the entry, and the words of the page if they
were written. -/
structure Put where
  flags : UInt64
  words : Option (Fin 512 → UInt64)

/-- `n` pages from `vpn` on are put in their slots. -/
def putRange (f : Nat → Put) : Nat → Nat → (Slot → Option Put) → Slot → Option Put
  | 0, _, img => img
  | n + 1, vpn, img => putRange f n (vpn + 1) (Function.update img (slotOf vpn) (some (f vpn)))

/-- A page of a segment. -/
def ProgramHeader.put (ph : ProgramHeader) (program : Program) (vpn : Nat) : Put :=
  ⟨ph.flags, some (ph.words program vpn)⟩

/-- A page of the stack, whose words are those of the frame. -/
def stackPut : Put := ⟨heapFlags, none⟩

namespace Program

/-- What the first `n` headers put in the slots. -/
def puts (program : Program) : Nat → Slot → Option Put
  | 0 => fun _ => none
  | n + 1 =>
      let ph := program.header n
      if ph.pType ≠ ptLoad then program.puts n
      else
        let first := addr2Page ph.pVaddr.toNat
        putRange (ph.put program) (addr2PageUp ph.endVa - first) first (program.puts n)

/-- The first page of the stack. -/
def stackVpn (program : Program) : Nat := program.maxVpn program.ePhnum + 1

/-- The segments, the stack and the trap frame.  The words of the trap frame are not
told here. -/
def image (program : Program) : Slot → Option Put :=
  Function.update (putRange (fun _ => stackPut) userStackPages program.stackVpn
    (program.puts program.ePhnum)) (slotOf trapframeVpn) (some ⟨pteTable, none⟩)

end Program

section Puts

variable {f : Nat → Put} {n vpn : Nat} {img : Slot → Option Put} {x : Slot}

theorem putRange_of_ne (h : ∀ j, j < n → x ≠ slotOf (vpn + j)) : putRange f n vpn img x = img x := by
  induction n generalizing vpn img with
  | zero => rfl
  | succ n ih =>
      have hx : x ≠ slotOf vpn := h 0 (Nat.succ_pos n)
      rw [putRange, ih, Function.update_of_ne hx]
      intro j hj
      rw [Nat.add_assoc, Nat.add_comm 1 j]
      exact h (j + 1) (Nat.succ_lt_succ hj)

/-- The slots of pages that are close to each other are different. -/
theorem slotOf_ne {u v : Nat} (h : u < v) (hv : v < u + 2 ^ 27) : slotOf u ≠ slotOf v := by
  rw [Ne, slotOf_eq_iff, SamePage]
  omega

theorem putRange_at {j : Nat} (hj : j < n) (hn : n ≤ 2 ^ 27) :
    putRange f n vpn img (slotOf (vpn + j)) = some (f (vpn + j)) := by
  induction n generalizing vpn img j with
  | zero => exact absurd hj (Nat.not_lt_zero j)
  | succ n ih =>
      rw [putRange]
      cases j with
      | zero =>
          rw [putRange_of_ne fun j hj => slotOf_ne (by omega) (by omega)]
          exact Function.update_self ..
      | succ j =>
          have hadd : vpn + (j + 1) = vpn + 1 + j := by omega
          rw [hadd]
          exact ih (Nat.lt_of_succ_lt_succ hj) (Nat.le_of_succ_le hn)

end Puts

/-- Neither a segment nor the stack has a page in the slot. -/
structure Program.Avoids (program : Program) (x : Slot) : Prop where
  segments : ∀ i, i < program.ePhnum → ∀ v, (program.header i).Covers v → x ≠ slotOf v
  stack : ∀ j, j < userStackPages → x ≠ slotOf (program.maxVpn program.ePhnum + 1 + j)

/-- Such a slot is left as it is. -/
theorem Program.Avoids.image_eq {program : Program} {x : Slot} (h : program.Avoids x)
    (hx : x ≠ slotOf trapframeVpn) : program.image x = none := by
  have hputs : ∀ n, n ≤ program.ePhnum → program.puts n x = none := by
    intro n hn
    induction n with
    | zero => rfl
    | succ n ih =>
        rw [Program.puts]
        dsimp only
        split
        · exact ih (Nat.le_of_succ_le hn)
        · rename_i htype
          rw [putRange_of_ne fun j hj => ?_, ih (Nat.le_of_succ_le hn)]
          refine h.segments n hn _ ⟨Decidable.not_not.mp htype, Nat.le_add_right _ j, ?_⟩
          omega
  rw [Program.image, Function.update_of_ne hx, Program.stackVpn, putRange_of_ne h.stack,
    hputs _ (Nat.le_refl _)]

/-! ## An address space that was loaded -/

/-- What a process holds: `Q` has its kernel stack too, and the page of the trap frame
is in its slot. -/
structure Held (V : Lawful A) (s : Memory ω) (sp : AddressSpace) (trampoline : UInt64)
    (T Q R : Footprint) : Prop where
  built : Built V s sp.root trampoline T Q R
  trap : (leafAt s sp.root (slotOf trapframeVpn)).2 = sp.trapframe
  trap_ne : sp.trapframe ≠ 0
  stack : (sp.kernelStackVpn, kernelStackPages) ∈ Q.refs
  heap : sp.toHeapOwner.Loaded

section Steps

variable {V : Lawful A} {s s' : Memory ω} {r : Root} {B : Platform} {trampoline : UInt64}
  {T Q R : Footprint} {p : Page}

theorem Empty.leafAt_eq (h : Empty V s r) (x : Slot) : leafAt s r x = (0, 0) := by
  rw [leafAt, entry, (h.walks (List.cons_ne_nil _ _)).1]

/-- A new address space. -/
theorem newRoot_built (ho : Own V s.heap .none R) (hn : newRoot A s = some (r, s')) :
    Built V s' r trampoline r.footprint .none R ∧ Same s s' R ∧ ∀ x, leafAt s' r x = (0, 0) := by
  obtain ⟨ho', hsame, hempty⟩ := newRoot_empty ho hn
  refine ⟨⟨?_, Footprint.apart_none.symm, hempty.tree, ?_⟩, hsame, hempty.leafAt_eq⟩
  · exact Own.give_part (ho'.mono (Footprint.union_le (.refl _) Footprint.none_le) (.refl R))
      Footprint.apart_none
  · refine ⟨fun x _ => .inl ?_, fun x hx => absurd ?_ hx, fun x y hx => absurd ?_ hx⟩ <;>
      rw [hempty.leafAt_eq]

/-- What was taken for a new address space. -/
theorem newRoot_takes (trampoline : UInt64) (ho : Own V s.heap .none R)
    (hroot : newRoot A s = some (r, s')) :
    Built V s' r trampoline r.footprint .none R ∧ Same s s' R ∧
      Takes A s.heap .none s'.heap (r.footprint.union .none) ∧ Reached s' r r.footprint := by
  obtain ⟨hb, hR, -⟩ := newRoot_built ho hroot
  refine ⟨hb, hR, ?_, ?_⟩
  · obtain ⟨⟨page, s₁⟩, hd, hroot⟩ := Option.bind_eq_some_iff.1 hroot
    obtain ⟨⟨ref, s₂⟩, hk, hroot⟩ := Option.bind_eq_some_iff.1 hroot
    cases hroot
    have htakes : Takes A s.heap .none s'.heap ((Footprint.none.addPage page).addRef ref 2) :=
      (Takes.of_dmalloc hd).trans (Takes.of_kalloc (by decide) hk)
    have hF : (Footprint.none.addPage page).addRef ref 2 =
        (Root.footprint ⟨page, ref⟩).union .none := by
      simp only [Footprint.addPage, Footprint.addRef, Footprint.none, Footprint.union, Root.footprint,
        insert_empty_eq, Set.union_empty]
    exact hF ▸ htakes
  · have hat : At s' r r.footprint [] r.page r.ref := hb.tree.at_nil
    refine ⟨?_, ?_⟩
    · rintro q rfl
      exact ⟨[], r.ref, Nat.zero_le 2, hat⟩
    · rintro a rfl
      exact ⟨[], r.page, r.ref, Nat.zero_le 2, hat, rfl⟩

theorem Built.mapTrampoline (h : Built V s r B.trampoline T Q R)
    (hm : mapTrampoline A B s r = some s') :
    ∃ T', Built V s' r B.trampoline T' Q R ∧ Same s s' (Q.union R) ∧
      leafAt s' r = Function.update (leafAt s r) (slotOf trampolineVpn) (B.trampoline, 0) ∧
      Takes A s.heap (T.union Q) s'.heap (T'.union Q) ∧ (Reached s r T → Reached s' r T') :=
  h.uptmap h.leaves.putTrampoline hm

/-- A page that was taken is put in a slot. -/
theorem Built.putPage (h : Built V s r trampoline T (Q.addPage p) R)
    (hold : Leaves (leafAt s r) trampoline Q.pages) (hp : p ∉ Q.pages) {userVpn : Nat} {flags : UInt64}
    (hf : GoodFlags flags)
    (hu : Space.uptmap A s r.page.vpn r.ref p.vpn userVpn p.pfn flags = some s') :
    ∃ T', Built V s' r trampoline T' (Q.addPage p) R ∧ Same s s' ((Q.addPage p).union R) ∧
      leafAt s' r = Function.update (leafAt s r) (slotOf userVpn) (pte p.pfn flags, p.vpn) ∧
      Takes A s.heap (T.union (Q.addPage p)) s'.heap (T'.union (Q.addPage p)) ∧
      (Reached s r T → Reached s' r T') := by
  have hpin : p ∈ (Q.addPage p).pages := .inl rfl
  have hgood := h.good hpin
  exact h.uptmap (h.leaves.put hpin hgood.2.1 hf (h.unused hold hp) hgood.1) hu

/-- A page that is not cleared is mapped. -/
theorem Built.mapPage (h : Built V s r trampoline T Q R) {userVpn : Nat} {flags : UInt64}
    (hf : GoodFlags flags) (hm : mapPage A s r userVpn flags = some s') :
    ∃ T' p, Built V s' r trampoline T' (Q.addPage p) R ∧ Same s s' (Q.union R) ∧ p ∉ Q.pages ∧
      leafAt s' r = Function.update (leafAt s r) (slotOf userVpn) (pte p.pfn flags, p.vpn) := by
  obtain ⟨⟨p, s₁⟩, hd, hu⟩ := Option.bind_eq_some_iff.1 hm
  obtain ⟨h₁, hsame, hleaf, hp, -⟩ := h.dmalloc hd
  obtain ⟨T', h', hsame', hleaf', -⟩ := h₁.putPage (hleaf ▸ h.leaves) hp hf hu
  refine ⟨T', p, h', (hsame.mono Footprint.le_union_right).trans (hsame'.mono ?_), hp, hleaf ▸ hleaf'⟩
  exact Footprint.union_mono (Footprint.le_addPage Q p) (.refl R)

theorem heapFlags_good : GoodFlags heapFlags := show heapFlags.toNat < 1024 by decide

theorem flags_good (ph : ProgramHeader) : GoodFlags ph.flags := by
  have h : ∀ a b c : Bool, (pteValid ||| pteUser ||| (if a then pteRead else 0) |||
      (if b then pteWrite else 0) ||| (if c then pteExecute else 0)).toNat < 1024 := by decide
  have h' := h (ph.pFlags &&& pfR ≠ 0) (ph.pFlags &&& pfW ≠ 0) (ph.pFlags &&& pfX ≠ 0)
  simp only [decide_eq_true_eq] at h'
  exact h'

/-- What the later pages leave of the earlier ones. -/
theorem union_le_addPage : (Q.union R).Le ((Q.addPage p).union R) :=
  Footprint.union_mono (Footprint.le_addPage Q p) (.refl R)

/-- The loop that maps pages of the heap or of the stack. -/
theorem Built.growHeap {n vpn : Nat} (h : Built V s r trampoline T Q R)
    (hg : growHeap A r n vpn s = some s') :
    ∃ T' Q', Built V s' r trampoline T' Q' R ∧ Q.Le Q' ∧ Same s s' (Q.union R) ∧
      ∀ x, (∀ j, j < n → x ≠ slotOf (vpn + j)) → leafAt s' r x = leafAt s r x := by
  induction n generalizing s vpn T Q with
  | zero =>
      cases hg
      exact ⟨T, Q, h, .refl Q, .refl _ _, fun _ _ => rfl⟩
  | succ n ih =>
      obtain ⟨s₁, hm, hg⟩ := Option.bind_eq_some_iff.1 hg
      obtain ⟨T₁, p, h₁, hsame₁, -, hleaf₁⟩ := h.mapPage heapFlags_good hm
      obtain ⟨T', Q', h', hle, hsame, hleaf⟩ := ih h₁ hg
      refine ⟨T', Q', h', (Footprint.le_addPage Q p).trans hle,
        hsame₁.trans (hsame.mono union_le_addPage), fun x hx => ?_⟩
      have hx₀ : x ≠ slotOf vpn := hx 0 (Nat.succ_pos n)
      rw [hleaf x fun j hj => by
          rw [Nat.add_assoc, Nat.add_comm 1 j]
          exact hx (j + 1) (Nat.succ_lt_succ hj),
        hleaf₁, Function.update_of_ne hx₀]

/-- The address space has what was put in its slots so far, and all that was taken. -/
structure Loading (V : Lawful A) (s₀ : Memory ω) (r : Root) (trampoline : UInt64) (R : Footprint)
    (img : Slot → Option Put) (T Q : Footprint) (s : Memory ω) : Prop where
  built : Built V s r trampoline T Q R
  rest : Same s₀ s R
  takes : Takes A s₀.heap .none s.heap (T.union Q)
  empty : ∀ x, img x = none →
    leafAt s r x = if x = slotOf trampolineVpn then (trampoline, 0) else (0, 0)
  page : ∀ x p, img x = some p → ∃ q ∈ Q.pages, leafAt s r x = (pte q.pfn p.flags, q.vpn) ∧
    ∀ words, p.words = some words → s.mem q.pfn = words

section Loading

variable {s₀ s₁ s₂ : Memory ω} {img : Slot → Option Put}

/-- The page is filled with the words, if there are any. -/
def Memory.fillPage (A : Allocator ω) (s : Memory ω) (vpn : Nat) :
    Option (Fin 512 → UInt64) → Memory ω
  | none => s
  | some words => s.writePage A vpn words

theorem Built.fillPage (h : Built V s r trampoline T (Q.addPage p) R) (hp : p ∉ Q.pages)
    (words : Option (Fin 512 → UInt64)) :
    Built V (s.fillPage A p.vpn words) r trampoline T (Q.addPage p) R ∧
      Same s (s.fillPage A p.vpn words) (Q.union R) ∧
      leafAt (s.fillPage A p.vpn words) r = leafAt s r ∧
      (s.fillPage A p.vpn words).heap = s.heap ∧ Same s (s.fillPage A p.vpn words) T ∧
      ∀ w, words = some w → (s.fillPage A p.vpn words).mem p.pfn = w := by
  cases words with
  | none => exact ⟨h, .refl _ _, rfl, rfl, .refl _ _, fun _ hw => nomatch hw⟩
  | some w =>
      obtain ⟨h', hsame, hleaf, hself, hother⟩ := h.writePage (.inl rfl) w
      have hQ : Same s (s.writePage A p.vpn w) Q :=
        ⟨fun q hq => hother q (.inr hq) fun he => hp (he ▸ hq), fun _ _ => rfl, fun _ _ => rfl⟩
      refine ⟨h', hQ.union (hsame.mono Footprint.le_union_right), hleaf, rfl,
        hsame.mono Footprint.le_union_left, fun w' hw => ?_⟩
      cases hw
      exact hself

/-- A page is taken, filled and put in a slot. -/
theorem Loading.put {z : Bool} {vpn : Nat} {e : Put} (h : Loading V s₀ r trampoline R img T Q s)
    (hd : s.dmalloc A z = some (p, s₁)) (hf : GoodFlags e.flags)
    (hu : uptmap A (s₁.fillPage A p.vpn e.words) r.page.vpn r.ref p.vpn vpn p.pfn e.flags = some s') :
    ∃ T', Loading V s₀ r trampoline R (Function.update img (slotOf vpn) (some e)) T' (Q.addPage p) s' ∧
      leafAt s' r (slotOf vpn) = (pte p.pfn e.flags, p.vpn) := by
  obtain ⟨h₁, hsame₁, hleaf₁, hp, -⟩ := h.built.dmalloc hd
  obtain ⟨h₂, hsame₂, hleaf₂, hheap₂, hT₂, hwords⟩ := h₁.fillPage hp e.words
  have hold : Leaves (leafAt (s₁.fillPage A p.vpn e.words) r) trampoline Q.pages := by
    rw [hleaf₂, hleaf₁]
    exact h.built.leaves
  obtain ⟨T', h', hsame', hleaf', htakes, -⟩ := h₂.putPage hold hp hf hu
  have hleaf : leafAt s' r = Function.update (leafAt s r) (slotOf vpn) (pte p.pfn e.flags, p.vpn) := by
    rw [hleaf', hleaf₂, hleaf₁]
  -- what was there before is still there
  have hall : Same s s' (Q.union R) :=
    (hsame₁.mono Footprint.le_union_right).trans (hsame₂.trans (hsame'.mono union_le_addPage))
  have hself : leafAt s' r (slotOf vpn) = (pte p.pfn e.flags, p.vpn) := by
    rw [hleaf, Function.update_self]
  refine ⟨T', ⟨h', h.rest.trans (hall.mono Footprint.le_union_right), ?_, fun x hx => ?_,
    fun x e' hx => ?_⟩, hself⟩
  · have hd' : Takes A s.heap (T.union Q) s₁.heap ((T.union Q).addPage p) := Takes.of_dmalloc hd
    rw [← Footprint.addPage_union] at hd'
    rw [hheap₂] at htakes
    exact (h.takes.trans hd').trans htakes
  · rw [hleaf]
    by_cases he : x = slotOf vpn
    · rw [he, Function.update_self] at hx
      cases hx
    · rw [Function.update_of_ne he] at hx ⊢
      exact h.empty x hx
  · by_cases he : x = slotOf vpn
    · rw [he, Function.update_self] at hx
      cases hx
      refine ⟨p, .inl rfl, he ▸ hself, fun words hw => ?_⟩
      · rw [hsame'.mem p (.inl (.inl rfl)), hwords words hw]
    · rw [Function.update_of_ne he] at hx
      obtain ⟨q, hq, hentry, hmem⟩ := h.page x e' hx
      refine ⟨q, .inr hq, ?_, fun words hw => ?_⟩
      · rw [hleaf, Function.update_of_ne he, hentry]
      · rw [hall.mem q (.inl hq), hmem words hw]

/-- A region is taken. -/
theorem Loading.kalloc {n b : Nat} (h : Loading V s₀ r trampoline R img T Q s) (hn : 1 ≤ n)
    (hk : s.kalloc A n = some (b, s')) : Loading V s₀ r trampoline R img T (Q.addRef b n) s' := by
  obtain ⟨h', hsame, hleaf, hmem⟩ := h.built.kalloc hn hk
  have hR : Same s s' R := hsame.mono (Footprint.le_union_right.trans Footprint.le_union_right)
  refine ⟨h', h.rest.trans hR, ?_, fun x hx => ?_, fun x e hx => ?_⟩
  · rw [Footprint.addRef_union]
    exact h.takes.trans (Takes.of_kalloc hn hk)
  · rw [hleaf]
    exact h.empty x hx
  · obtain ⟨q, hq, hentry, hwords⟩ := h.page x e hx
    exact ⟨q, hq, hleaf ▸ hentry, fun words hw => hmem ▸ hwords words hw⟩

/-- The words of a page that were not told are written. -/
theorem Loading.writePage {x : Slot} {e : Put}
    (h : Loading V s₀ r trampoline R (Function.update img x (some e)) T Q s)
    (he : e.words = none) (hq : p ∈ Q.pages) (hx : (leafAt s r x).2 = p.vpn)
    (words : Fin 512 → UInt64) :
    Loading V s₀ r trampoline R (Function.update img x (some e)) T Q
      (s.writePage A p.vpn words) := by
  obtain ⟨h', hsame, hleaf, -, hother⟩ := h.built.writePage hq words
  refine ⟨h', h.rest.trans (hsame.mono Footprint.le_union_right), h.takes, fun y hy => ?_,
    fun y e' hy => ?_⟩
  · rw [hleaf]
    exact h.empty y hy
  · obtain ⟨q, hq', hentry, hwords⟩ := h.page y e' hy
    refine ⟨q, hq', hleaf ▸ hentry, fun w hw => ?_⟩
    rw [hother q hq' fun hqp => ?_, hwords w hw]
    -- the page is in no other slot
    have hne : (leafAt s r x).2 ≠ 0 := hx ▸ (h.built.good hq).1
    have hxy : x = y := h.built.leaves.inj x y hne (by rw [hx, hentry, hqp])
    rw [← hxy, Function.update_self] at hy
    cases hy
    rw [he] at hw
    cases hw

/-- The loop that maps the pages of a segment. -/
theorem Loading.loadPages {program : Program} {ph : ProgramHeader} {n vpn : Nat}
    (h : Loading V s₀ r trampoline R img T Q s)
    (hl : loadPages A r program ph n vpn s = some s') :
    ∃ T' Q', Loading V s₀ r trampoline R (putRange (ph.put program) n vpn img) T' Q' s' ∧
      Q'.refs = Q.refs := by
  induction n generalizing s vpn img T Q with
  | zero =>
      cases hl
      exact ⟨T, Q, h, rfl⟩
  | succ n ih =>
      obtain ⟨⟨p, s₁⟩, hd, hl⟩ := Option.bind_eq_some_iff.1 hl
      obtain ⟨s₂, hu, hl⟩ := Option.bind_eq_some_iff.1 hl
      obtain ⟨T₁, h₁, -⟩ := Loading.put (e := ph.put program vpn) h hd (flags_good ph) hu
      obtain ⟨T', Q', h', hrefs⟩ := ih h₁ hl
      exact ⟨T', Q', h', hrefs⟩

/-- The loop that maps the pages of the stack. -/
theorem Loading.growHeap {n vpn : Nat} (h : Loading V s₀ r trampoline R img T Q s)
    (hg : growHeap A r n vpn s = some s') :
    ∃ T' Q', Loading V s₀ r trampoline R (putRange (fun _ => stackPut) n vpn img) T' Q' s' ∧
      Q'.refs = Q.refs := by
  induction n generalizing s vpn img T Q with
  | zero =>
      cases hg
      exact ⟨T, Q, h, rfl⟩
  | succ n ih =>
      obtain ⟨s₁, hm, hg⟩ := Option.bind_eq_some_iff.1 hg
      obtain ⟨⟨p, s₂⟩, hd, hu⟩ := Option.bind_eq_some_iff.1 hm
      obtain ⟨T₁, h₁, -⟩ := Loading.put (e := stackPut) h hd heapFlags_good hu
      obtain ⟨T', Q', h', hrefs⟩ := ih h₁ hg
      exact ⟨T', Q', h', hrefs⟩

theorem Loading.loadHeaders {program : Program} {n m' : Nat}
    (h : Loading V s₀ r trampoline R (fun _ => none) T Q s)
    (hl : loadHeaders A r program n (0, s) = some (m', s')) :
    ∃ T' Q', Loading V s₀ r trampoline R (program.puts n) T' Q' s' ∧ Q'.refs = Q.refs := by
  induction n generalizing m' s' with
  | zero =>
      cases hl
      exact ⟨T, Q, h, rfl⟩
  | succ n ih =>
      obtain ⟨⟨m₁, s₁⟩, hl₁, hl⟩ := Option.bind_eq_some_iff.1 hl
      obtain ⟨T₁, Q₁, h₁, hrefs₁⟩ := ih hl₁
      rw [Program.puts]
      rw [loadHeader] at hl
      dsimp only
      split at hl
      · rename_i htype
        cases hl
        rw [if_pos htype]
        exact ⟨T₁, Q₁, h₁, hrefs₁⟩
      · rename_i htype
        obtain ⟨s₂, hp, he⟩ := Option.map_eq_some_iff.1 hl
        cases he
        obtain ⟨T', Q', h', hrefs⟩ := h₁.loadPages hp
        rw [if_neg htype]
        exact ⟨T', Q', h', hrefs.trans hrefs₁⟩

end Loading

theorem loadHeaders_maxVpn {program : Program} {n m' : Nat}
    (hl : loadHeaders A r program n (0, s) = some (m', s')) : m' = program.maxVpn n := by
  induction n generalizing m' s' with
  | zero =>
      cases hl
      rfl
  | succ n ih =>
      obtain ⟨⟨m₁, s₁⟩, hl₁, hl⟩ := Option.bind_eq_some_iff.1 hl
      have hm₁ := ih hl₁
      rw [loadHeader] at hl
      rw [Program.maxVpn]
      split at hl
      · rename_i htype
        cases hl
        rw [if_pos htype]
        exact hm₁
      · rename_i htype
        obtain ⟨s₂, -, he⟩ := Option.map_eq_some_iff.1 hl
        cases he
        rw [if_neg htype, hm₁]

theorem addr2PageUp_pos {a : Nat} (h : a ≠ 0) : 1 ≤ addr2PageUp a := by
  have := le_addr2PageUp a
  simp only [pageSize] at this
  omega

/-- The regions of the buffer. -/
def bufferRefs (size b : Nat) : Set (Nat × Nat) := if size = 0 then ∅ else {(b, addr2PageUp size)}

/-- The buffer stays with the process. -/
theorem Loading.kallocBuffer {s₀ : Memory ω} {img : Slot → Option Put} {size : Nat}
    (h : Loading V s₀ r trampoline R img T Q s) (hk : kallocBuffer A s size = some s') :
    ∃ b, Loading V s₀ r trampoline R img T ⟨Q.pages, bufferRefs size b ∪ Q.refs⟩ s' := by
  rw [Space.kallocBuffer] at hk
  split at hk
  · rename_i hsize
    cases hk
    refine ⟨0, ?_⟩
    rw [bufferRefs, if_pos hsize, Set.empty_union]
    exact h
  · rename_i hsize
    obtain ⟨⟨b, s₁⟩, hk₁, he⟩ := Option.map_eq_some_iff.1 hk
    cases he
    refine ⟨b, ?_⟩
    rw [bufferRefs, if_neg hsize]
    exact h.kalloc (addr2PageUp_pos hsize) hk₁

theorem heapBottom_aligned (n : Nat) : offset (u64 (n * pageSize)) = 0 := by
  simp only [offset, u64, pageSize]
  omega

/-- What `load_process` leaves: the image of the program, and a trap frame that starts it. -/
structure Loaded (V : Lawful A) (B : Platform) (program : Program) (s : Memory ω) (R : Footprint)
    (sp : AddressSpace) (s' : Memory ω) (T Q : Footprint) : Prop where
  loading : Loading V s sp.root B.trampoline R program.image T Q s'
  held : Held V s' sp B.trampoline T Q R
  /-- The regions that are not arrays of the tables: the kernel stack and the buffer. -/
  refs : ∃ b, Q.refs = insert (sp.kernelStackVpn, kernelStackPages) (bufferRefs program.size b)
  bottom : sp.heapBottom = u64 ((program.stackVpn + userStackPages) * pageSize)
  /-- The stack pointer. -/
  userSp : s'.mem (A.frame s'.heap sp.trapframe) 2 =
    UInt64.ofNat ((program.stackVpn + userStackPages) * pageSize)

/-- `load_process` makes an address space, and leaves the rest alone. -/
theorem loadProcess_loaded {program : Program} {sp : AddressSpace} (ho : Own V s.heap .none R)
    (hl : loadProcess A B program s = some (sp, s')) : ∃ T Q, Loaded V B program s R sp s' T Q := by
  obtain ⟨⟨root, s₁⟩, hroot, hl⟩ := Option.bind_eq_some_iff.1 hl
  obtain ⟨s₂, htramp, hl⟩ := Option.bind_eq_some_iff.1 hl
  obtain ⟨s₃, hbuf, hl⟩ := Option.bind_eq_some_iff.1 hl
  obtain ⟨⟨maxVpn, s₄⟩, hheaders, hl⟩ := Option.bind_eq_some_iff.1 hl
  obtain ⟨s₅, hstack, hl⟩ := Option.bind_eq_some_iff.1 hl
  obtain ⟨⟨trap, s₆⟩, hd, hl⟩ := Option.bind_eq_some_iff.1 hl
  obtain ⟨s₇, hmap, hl⟩ := Option.bind_eq_some_iff.1 hl
  obtain ⟨⟨stack, s₈⟩, hk, hl⟩ := Option.bind_eq_some_iff.1 hl
  cases hl
  obtain ⟨h₁, hR₁, htakes₁, -⟩ := newRoot_takes B.trampoline ho hroot
  have hleaf₁ := (newRoot_empty ho hroot).2.2.leafAt_eq
  obtain ⟨T₂, h₂, hR₂, hleaf₂, htakes₂, -⟩ := h₁.mapTrampoline htramp
  have hl₂ : Loading V s root B.trampoline R (fun _ => none) T₂ .none s₂ := by
    refine ⟨h₂, hR₁.trans (hR₂.mono Footprint.le_union_right), htakes₁.trans htakes₂, fun x _ => ?_,
      fun x p hp => nomatch hp⟩
    rw [hleaf₂]
    split
    · rename_i he
      rw [he, Function.update_self]
    · rename_i he
      rw [Function.update_of_ne he, hleaf₁]
  obtain ⟨b, hl₃⟩ := hl₂.kallocBuffer hbuf
  obtain ⟨T₄, Q₄, hl₄, hrefs₄⟩ := hl₃.loadHeaders hheaders
  cases loadHeaders_maxVpn hheaders
  obtain ⟨T₅, Q₅, hl₅, hrefs₅⟩ := hl₄.growHeap hstack
  obtain ⟨T₇, hl₇, hself⟩ := Loading.put (e := ⟨pteTable, none⟩) hl₅ hd pteTable_lt hmap
  have hl₈ := hl₇.kalloc (by decide) hk
  have htrap : trap ∈ ((Q₅.addPage trap).addRef stack kernelStackPages).pages := .inl rfl
  have hslot : (leafAt s₈ root (slotOf trapframeVpn)).2 = trap.vpn := by
    rw [(hl₇.built.kalloc (by decide) hk).2.2.1, hself]
  have hl₉ := hl₈.writePage rfl htrap hslot (initContext B program.eEntry
    (UInt64.ofNat ((program.stackVpn + userStackPages) * pageSize)) (kernelSp stack)
    (s₈.mem (A.frame s₈.heap trap.vpn)))
  refine ⟨T₇, _, hl₉, ⟨hl₉.built, ?_, (hl₈.built.good htrap).1, .inl rfl, rfl, heapBottom_aligned _,
    Nat.mod_lt _ (by decide)⟩, ⟨b, ?_⟩, rfl, ?_⟩
  · rw [(hl₈.built.writePage htrap _).2.2.1]
    exact hslot
  · show insert _ Q₅.refs = _
    rw [hrefs₅, hrefs₄]
    exact congrArg (insert _) (Set.union_empty _)
  · show Function.update s₈.mem (A.frame s₈.heap trap.vpn) _ (A.frame s₈.heap trap.vpn) 2 = _
    rw [Function.update_self]
    rfl

theorem loadProcess_held {program : Program} {sp : AddressSpace} (ho : Own V s.heap .none R)
    (hl : loadProcess A B program s = some (sp, s')) :
    ∃ T Q, Held V s' sp B.trampoline T Q R ∧ Same s s' R ∧
      ∀ x, program.Avoids x → x ≠ slotOf trapframeVpn →
        leafAt s' sp.root x = if x = slotOf trampolineVpn then (B.trampoline, 0) else (0, 0) := by
  obtain ⟨T, Q, h⟩ := loadProcess_loaded ho hl
  exact ⟨T, Q, h.held, h.loading.rest, fun x hx hne => h.loading.empty x (hx.image_eq hne)⟩

end Steps

/-- A program without segments. -/
def emptyProgram : Program := ⟨0, fun _ => 0⟩

/-- The trampoline is in the first page of the kernel. -/
def board : Platform := ⟨0x80200, 0, 0, 0⟩

end Space
