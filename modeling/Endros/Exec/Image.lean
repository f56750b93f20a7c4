import Endros.Exec.Block
import Endros.Space.Elf

/-!
# The arguments of the new image

`load_process` maps the stack behind the segments, wherever they are.  The addresses of the
stack are a window, so the block of arguments comes to be on it as soon as it fits.

The page of the trap frame is mapped last.  If a page of the stack has the same slot, then
the kernel writes to the trap frame when it writes to that page.  `StackClear` excludes it.
-/

namespace Exec

open Lib Mem Space
open Fs (Chr Disk Mount Target)
open Io (UserMemory)

variable {ω : Type} {A : Allocator ω}

/-! ## The stack as a window -/

def stackBottom (program : Program) : Nat := program.stackVpn * pageSize

def stackTop (program : Program) : Nat := (program.stackVpn + userStackPages) * pageSize

/-- The stack ends below `2 ^ 64`, and the trap frame is not on it. -/
structure StackClear (program : Program) : Prop where
  lt : stackTop program < 2 ^ 64
  trap : ∀ j, j < userStackPages → slotOf (program.stackVpn + j) ≠ slotOf trapframeVpn

/-- The page of an address of the stack. -/
theorem stack_page {program : Program} {a : Nat} (hlo : stackBottom program ≤ a) (hhi : a < stackTop program) :
    ∃ j, j < userStackPages ∧ addr2Page a = program.stackVpn + j := by
  simp only [stackBottom, stackTop, addr2Page, pageSize] at *
  exact ⟨a / 4096 - program.stackVpn, by omega, by omega⟩

section Window

variable {V : Lawful A} {B : Platform} {program : Program} {s s' : Memory ω} {R T Q : Footprint}
  {sp : AddressSpace} {m : UserMemory}

/-- A page of the stack is mapped, if only to the trap frame. -/
theorem Loaded.stack_mapped (h : Loaded V B program s R sp s' T Q) {j : Nat} (hj : j < userStackPages) :
    (leafAt s' sp.root (slotOf (program.stackVpn + j))).2 ≠ 0 := by
  have hsome : ∃ e, program.image (slotOf (program.stackVpn + j)) = some e := by
    rw [Program.image]
    by_cases he : slotOf (program.stackVpn + j) = slotOf trapframeVpn
    · rw [he, Function.update_self]
      exact ⟨_, rfl⟩
    · rw [Function.update_of_ne he, putRange_at hj (by decide)]
      exact ⟨_, rfl⟩
  obtain ⟨e, he⟩ := hsome
  obtain ⟨q, hq, hleaf, -⟩ := h.loading.page _ e he
  rw [hleaf]
  exact (h.held.built.good hq).1

theorem Showing.mapped (hm : Showing V s sp.root B.trampoline T Q R m) {a : Nat}
    (hne : (leafAt s sp.root (slotOf (addr2Page a))).2 ≠ 0) : (m.byte a).isSome := by
  have hq := hm.built.leaves.held _ hne
  have hbyte := hm.page _ hq (offset a) (offset_lt a)
  rw [UserMemory.byte_eq, UserMemory.kernelAddr, hm.walkupt]
  exact Option.isSome_iff_exists.mpr ⟨_, hbyte⟩

/-- The addresses of the stack. -/
theorem Loaded.window (h : Loaded V B program s R sp s' T Q)
    (hm : Showing V s' sp.root B.trampoline T Q R m) (hlt : stackTop program < 2 ^ 64) :
    Window m (stackBottom program) (stackTop program) := by
  refine ⟨hlt, fun a hlo hhi => ?_, fun a b hlo hhi hlo' hhi' he => ?_⟩
  · obtain ⟨j, hj, hpage⟩ := stack_page hlo hhi
    exact Showing.mapped hm (hpage ▸ Loaded.stack_mapped h hj)
  · obtain ⟨i, hi, hpage⟩ := stack_page hlo hhi
    obtain ⟨j, hj, hpage'⟩ := stack_page hlo' hhi'
    rw [UserMemory.kernelAddr, UserMemory.kernelAddr] at he
    have hwalk : m.walkupt (addr2Page a) = m.walkupt (addr2Page b) := by
      rw [← (addr_split (m.walkupt (addr2Page a)) (offset_lt a)).1, he,
        (addr_split (m.walkupt (addr2Page b)) (offset_lt b)).1]
    have hoff : offset a = offset b := by
      rw [← (addr_split (m.walkupt (addr2Page a)) (offset_lt a)).2, he,
        (addr_split (m.walkupt (addr2Page b)) (offset_lt b)).2]
    -- a kernel page is in one slot, and the slots of the stack are different
    rw [hm.walkupt, hm.walkupt] at hwalk
    have hslot := hm.built.leaves.inj _ _ (hpage ▸ Loaded.stack_mapped h hi) hwalk
    rw [hpage, hpage', slotOf_eq_iff, SamePage] at hslot
    refine addr_inj ?_ hoff
    simp only [userStackPages] at hi hj
    omega

/-- The trap frame is a page of the process. -/
theorem Held.trapframe_mapped (h : Held V s sp B.trampoline T Q R)
    (hm : Showing V s sp.root B.trampoline T Q R m) (k : Nat) (hk : k < pageSize) :
    (m.kernelByte (sp.trapframe * pageSize + k)).isSome := by
  have hq := h.built.leaves.held _ (h.trap ▸ h.trap_ne)
  have hbyte := hm.page _ hq k hk
  rw [← h.trap]
  exact Option.isSome_iff_exists.mpr ⟨_, hbyte⟩

/-- The trap frame is not on a stack that is clear of it. -/
theorem Loaded.trapframe_not_stack (h : Loaded V B program s R sp s' T Q)
    (hm : Showing V s' sp.root B.trampoline T Q R m) (hclear : StackClear program) (a : Nat)
    (hlo : stackBottom program ≤ a) (hhi : a < stackTop program) :
    m.walkupt (addr2Page a) ≠ sp.trapframe := by
  obtain ⟨j, hj, hpage⟩ := stack_page hlo hhi
  intro he
  rw [hm.walkupt, hpage, ← h.held.trap] at he
  exact hclear.trap j hj (hm.built.leaves.inj _ _ (Loaded.stack_mapped h hj) he)

end Window

/-! ## The strings of the caller -/

/-- The bytes of a sequence of words. -/
def wordBytes (ws : List UInt64) (x : Nat) : UInt8 := bytes64 (ws.getD (x / 8) 0) (x % 8)

section Copies

variable {m : UserMemory} {a : UInt64} {ps ws : List UInt64} {text : List Chr} {texts : List (List Chr)}
  {buf : Nat → UInt8} {n i : Nat}

theorem HasWords.bytes {a : Nat} (h : HasWords m a ws) :
    ∀ x, x < 8 * ws.length → m.byte (a + x) = some (wordBytes ws x) := by
  induction ws generalizing a with
  | nil => exact fun x hx => absurd hx (Nat.not_lt_zero x)
  | cons w ws ih =>
      intro x hx
      rw [List.length_cons] at hx
      rw [wordBytes]
      rcases Nat.lt_or_ge x 8 with hlt | hge
      · rw [Nat.div_eq_of_lt hlt, Nat.mod_eq_of_lt hlt]
        exact h.1 x hlt
      · obtain ⟨y, rfl⟩ := Nat.exists_eq_add_of_le hge
        rw [Nat.add_div_left y (by decide), Nat.add_mod_left, ← Nat.add_assoc]
        exact ih h.2 y (by omega)

theorem wordBytes_word (ws : List UInt64) (i : Nat) {y : Nat} (hy : y < 8) :
    wordBytes ws (8 * i + y) = bytes64 (ws.getD i 0) y := by
  rw [wordBytes, Nat.mul_add_div (by decide), Nat.div_eq_of_lt hy, Nat.add_zero, Nat.mul_add_mod,
    Nat.mod_eq_of_lt hy]

/-- The words are read back from their bytes. -/
theorem le64_wordBytes (hbuf : ∀ y, y < 8 → buf (8 * i + y) = wordBytes ws (8 * i + y)) :
    le64 buf (8 * i) = ws.getD i 0 :=
  bytes64_inj fun y hy => by rw [bytes64_le64 _ _ hy, hbuf y hy, wordBytes_word ws i hy]

/-- The loop over an array finds its pointers. -/
theorem pointersFrom_eq (hne : ∀ p ∈ ps, p ≠ 0) (hn : ps.length < i + n) (hi : i ≤ ps.length)
    (hbuf : ∀ x, x < 8 * (ps.length + 1) → buf x = wordBytes (ps ++ [0]) x) :
    pointersFrom buf n i = some (ps.drop i) := by
  induction n generalizing i with
  | zero => omega
  | succ n ih =>
      have hword : le64 buf (8 * i) = (ps ++ [0]).getD i 0 :=
        le64_wordBytes fun y hy => hbuf _ (by omega)
      rw [pointersFrom, hword]
      rcases Nat.lt_or_eq_of_le hi with hlt | rfl
      · have hget : (ps ++ [0]).getD i 0 = ps[i] := by
          rw [List.getD_eq_getElem?_getD, List.getElem?_append_left hlt, List.getElem?_eq_getElem hlt,
            Option.getD_some]
        rw [hget, if_neg (hne _ (List.getElem_mem hlt)), ih (by omega) hlt, Option.map_some,
          List.drop_eq_getElem_cons hlt]
      · have hget : (ps ++ [0]).getD ps.length 0 = 0 := by
          rw [List.getD_eq_getElem?_getD, List.getElem?_concat_length, Option.getD_some]
        rw [hget, if_pos rfl, List.drop_length]

/-- The end of a string is found. -/
theorem cString_eq (hn : text.length < i + n) (hi : i ≤ text.length)
    (hbuf : ∀ x, x < textSize text → buf x = cBytes text x) :
    cString buf n i = some (text.drop i) := by
  induction n generalizing i with
  | zero => omega
  | succ n ih =>
      have hbyte : buf i = cBytes text i := hbuf i (Nat.lt_succ_of_le hi)
      rw [cString]
      rcases Nat.lt_or_eq_of_le hi with hlt | rfl
      · have hget : buf i = text[i].val := by
          rw [hbyte, cBytes, List.getElem?_eq_getElem hlt, Option.map_some, Option.getD_some]
        have hne : buf i ≠ 0 := hget ▸ text[i].property
        rw [dif_neg hne, ih (by omega) hlt, Option.map_some, List.drop_eq_getElem_cons hlt]
        exact congrArg (fun c => some (c :: text.drop (i + 1))) (Subtype.ext hget)
      · have hend : buf text.length = 0 := by
          rw [hbyte, cBytes, List.getElem?_eq_none (Nat.le_refl _)]
          rfl
        rw [dif_pos hend, List.drop_length]

theorem cBytes_firstZero (text : List Chr) : Io.FirstZero 1 (cBytes text) text.length where
  aligned := Nat.mod_one _
  zeros x hx := by
    rw [cBytes, List.getElem?_eq_none (Nat.le_add_right _ x)]
    rfl
  first k hk _ := ⟨0, Nat.one_pos, by
    rw [Nat.add_zero, cBytes, List.getElem?_eq_getElem hk]
    exact text[k].property⟩

/-- A string that is shorter than two pages is copied. -/
theorem HasString.userString (h : HasString m a text) (hlen : text.length < 8192) :
    userString m a = some text := by
  have hcopy : m.translate2Pages 3 (fun _ => 0) a 1 = some (patch (fun _ => 0) 0 (textSize text)
      (cBytes text)) :=
    UserMemory.translate2Pages_eq Nat.one_pos (cBytes_firstZero text) hlen h (Nat.le_refl 3)
  rw [Exec.userString, hcopy, Option.bind_some, bufferBytes]
  rw [cString_eq (by omega) (Nat.zero_le _) fun x hx => ?_, List.drop_zero]
  exact patch_of_mem (Nat.zero_le x) (by rw [Nat.zero_add]; exact hx)

theorem wordBytes_firstZero (hne : ∀ p ∈ ps, p ≠ 0) :
    Io.FirstZero 8 (wordBytes (ps ++ [0])) (8 * ps.length) where
  aligned := Nat.mul_mod_right 8 _
  zeros x hx := by
    rw [wordBytes_word _ _ hx, List.getD_eq_getElem?_getD, List.getElem?_concat_length, Option.getD_some]
    exact (by decide : ∀ x, x < 8 → bytes64 0 x = 0) x hx
  first k hk hmod := by
    obtain ⟨j, rfl⟩ := Nat.dvd_of_mod_eq_zero hmod
    have hlt : j < ps.length := by omega
    have hget : (ps ++ [0]).getD j 0 = ps[j] := by
      rw [List.getD_eq_getElem?_getD, List.getElem?_append_left hlt, List.getElem?_eq_getElem hlt,
        Option.getD_some]
    by_contra hzero
    push Not at hzero
    refine hne _ (List.getElem_mem hlt) (bytes64_inj fun y hy => ?_)
    rw [← hget, ← wordBytes_word _ _ hy, hzero y hy]
    exact ((by decide : ∀ y, y < 8 → bytes64 0 y = 0) y hy).symm

/-- The strings of an array with less than 1024 pointers are copied. -/
theorem HasStrings.userStrings (h : HasStrings m a ps texts) (hlen : texts.length < 1024)
    (hsizes : ∀ text ∈ texts, text.length < 8192) : UserStrings m a texts := by
  have hlen : ps.length < 1024 := h.strings.length_eq.trans_lt hlen
  refine ⟨patch (fun _ => 0) 0 (8 * ps.length + 8) (wordBytes (ps ++ [0])), ps.drop 0, ?_, ?_, ?_⟩
  · refine UserMemory.translate2Pages_eq (by decide) (wordBytes_firstZero h.nonzero) (by omega)
      (fun x hx => ?_) (Nat.le_refl 3)
    refine h.pointers.bytes x ?_
    rw [List.length_append, List.length_singleton]
    omega
  · exact pointersFrom_eq h.nonzero (by omega) (Nat.zero_le _) fun x hx =>
      patch_of_mem (Nat.zero_le x) (by omega)
  · rw [List.drop_zero]
    have hcopied : ∀ (ps : List UInt64) (texts : List (List Chr)), List.Forall₂ (HasString m) ps texts →
        (∀ text ∈ texts, text.length < 8192) →
        List.Forall₂ (fun p text => userString m p = some text) ps texts := by
      intro ps texts hs
      induction hs with
      | nil => exact fun _ => .nil
      | cons htext _ ih =>
          exact fun hsizes => .cons (htext.userString (hsizes _ List.mem_cons_self))
            (ih fun text ht => hsizes text (List.mem_cons_of_mem _ ht))
    exact hcopied ps texts h.strings hsizes

theorem UserStrings.unique {texts' : List (List Chr)} (h : UserStrings m a texts)
    (h' : UserStrings m a texts') : texts = texts' := by
  obtain ⟨buf, ps, hbuf, hps, htexts⟩ := h
  obtain ⟨buf', ps', hbuf', hps', htexts'⟩ := h'
  cases hbuf.symm.trans hbuf'
  cases hps.symm.trans hps'
  refine List.right_unique_forall₂' (fun p x y hx hy => ?_) htexts htexts'
  exact Option.some.inj (hx.symm.trans hy)

end Copies

/-! ## What the process finds -/

section Finds

variable {m m' : UserMemory}

/-- What is in one memory is in another that has its bytes. -/
theorem HasWords.of_bytes {a : Nat} {ws : List UInt64} (h : HasWords m a ws)
    (hm : ∀ x b, m.byte x = some b → m'.byte x = some b) : HasWords m' a ws := by
  induction ws generalizing a with
  | nil => trivial
  | cons w ws ih => exact ⟨fun y hy => hm _ _ (h.1 y hy), ih h.2⟩

theorem HasStrings.of_bytes {a : UInt64} {ps : List UInt64} {texts : List (List Chr)}
    (h : HasStrings m a ps texts) (hm : ∀ x b, m.byte x = some b → m'.byte x = some b) :
    HasStrings m' a ps texts :=
  ⟨h.pointers.of_bytes hm, h.nonzero, h.strings.imp fun _ _ hs x hx => hm _ _ (hs x hx)⟩

theorem ArgumentBlock.of_bytes {top : Nat} {argv envp : List (List Chr)} {x2 x11 x12 : UInt64}
    (h : ArgumentBlock m top argv envp x2 x11 x12)
    (hm : ∀ x b, m.byte x = some b → m'.byte x = some b) :
    ArgumentBlock m' top argv envp x2 x11 x12 := by
  obtain ⟨ps, qs, hargv, henvp, hspans⟩ := h.strings
  exact ⟨h.aligned, h.below, ps, qs, hargv.of_bytes hm, henvp.of_bytes hm, hspans⟩

/-- A register of the trap frame. -/
theorem Pushing.register {V : Lawful A} {sp : AddressSpace} {s : Memory ω} {trampoline : UInt64}
    {T Q R : Footprint} {l : List (Nat × Nat)} {i : Fin 512} {x : UInt64}
    (h : Pushing V sp.root trampoline T Q R l s m) {q : Page} (hq : q ∈ Q.pages) (hvpn : q.vpn = sp.trapframe)
    (hx : ∀ y, y < 8 → m.kernelByte (registerAddr sp.trapframe i + y) = some (bytes64 x y)) :
    s.load A sp.trapframe i = x := by
  have hframe := (h.showing.built.good hq).2.2
  refine bytes64_inj fun y hy => ?_
  have hi := i.isLt
  have hlt : 8 * i.val + y < pageSize := by
    simp only [pageSize]
    omega
  have hpage := h.showing.page q hq (8 * i.val + y) hlt
  have hword : wordOf (8 * i.val + y) = i := Fin.ext ((wordOf_val hlt).trans (by omega))
  rw [hvpn, ← Nat.add_assoc, ← registerAddr, hx y hy, pageByte, hword, Nat.mul_add_mod,
    Nat.mod_eq_of_lt hy] at hpage
  rw [Memory.load, ← hvpn, hframe]
  exact (Option.some.inj hpage).symm

end Finds

/-! ## The block of a program -/

section Block

variable {V : Lawful A} {B : Platform} {s s' : Memory ω} {sp : AddressSpace} {T Q R : Footprint}
  {args vars : List (List Chr)}

/-- The bytes of `USER_STACK_SIZE`. -/
def userStackSize : Nat := userStackPages * pageSize

theorem stackTop_toNat {program : Program} (hlt : stackTop program < 2 ^ 64) :
    (UInt64.ofNat ((program.stackVpn + userStackPages) * pageSize)).toNat = stackTop program := by
  rw [UInt64.toNat_ofNat']
  exact Nat.mod_eq_of_lt hlt

/-- The block is on the stack of a program that is loaded. -/
theorem Loaded.pushBlock_eq {program : Program} {mem : UserMemory} (h : Loaded V B program s R sp s' T Q)
    (hm : Showing V s' sp.root B.trampoline T Q R mem) (hlt : stackTop program < 2 ^ 64)
    (hfits : blockSize args vars ≤ userStackSize) :
    ∃ mem' x12, pushBlock sp.trapframe (UInt64.ofNat ((program.stackVpn + userStackPages) * pageSize)) args
        vars mem = some mem' ∧ mem'.walkupt = mem.walkupt ∧
      ArgumentBlock mem' (stackTop program) args vars
        (blockStart (UInt64.ofNat ((program.stackVpn + userStackPages) * pageSize)) args vars)
        (blockStart (UInt64.ofNat ((program.stackVpn + userStackPages) * pageSize)) args vars) x12 ∧
      x12.toNat = (blockStart (UInt64.ofNat ((program.stackVpn + userStackPages) * pageSize)) args vars).toNat
        + 8 * (args.length + 1) ∧
      (StackClear program → Registers mem' sp.trapframe
        (blockStart (UInt64.ofNat ((program.stackVpn + userStackPages) * pageSize)) args vars)
        (blockStart (UInt64.ofNat ((program.stackVpn + userStackPages) * pageSize)) args vars) x12) := by
  have h16 : stackTop program % 16 = 0 := by
    simp only [stackTop, pageSize]
    omega
  have hroom : stackBottom program + blockSize args vars ≤ stackTop program := by
    simp only [stackBottom, stackTop, userStackSize, Nat.add_mul] at *
    omega
  obtain ⟨mem', x12, hpush, hwalk, hblock, hx12, hregs⟩ := Exec.pushBlock_eq (Loaded.window h hm hlt)
    (stackTop_toNat hlt) h16 hroom (Held.trapframe_mapped h.held hm)
  exact ⟨mem', x12, hpush, hwalk, hblock, hx12,
    fun hclear => hregs (Loaded.trapframe_not_stack h hm hclear)⟩

end Block

end Exec
