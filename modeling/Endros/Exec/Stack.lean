import Endros.Exec.Buffers

/-!
# The arguments on the new stack

Behind `free_process_space` the buffers of the arguments are still there.  `sys_execve`
loads the program, stores the registers in the trap frame, and copies the strings to the
stack.  It frees each buffer when its string has been copied.

All stores go to pages of the new process.  So they can be seen as stores to its user
memory: `pushTexts` is what the loops do there.
-/

namespace Exec

open Lib Mem Paging Space
open Fs (Chr)
open Io (UserMemory)

variable {ω : Type} {A : Allocator ω}

/-! ## The loops, on user memory -/

/-- A pointer is stored at `tsp`. -/
def storePointer (tsp x : UInt64) (m : UserMemory) : Option UserMemory :=
  m.store (m.kernelAddr tsp.toNat) 8 (bytes64 x)

/-- The length of a string with its end. -/
def textSize (text : List Chr) : Nat := text.length + 1

/-- The pointers go to `tsp` and the strings to `tstrtab`. -/
def pushTexts : List (List Chr) → UInt64 → UInt64 → UserMemory → Option (UInt64 × UInt64 × UserMemory)
  | [], tsp, tstrtab, m => (storePointer tsp 0 m).map fun m => (tsp + 8, tstrtab, m)
  | text :: texts, tsp, tstrtab, m => do
      let m ← storePointer tsp tstrtab m
      let m ← m.translateOut (cBytes text) tstrtab (UInt64.ofNat (textSize text))
      pushTexts texts (tsp + 8) (tstrtab + UInt64.ofNat (textSize text)) m

/-- The bytes of all strings. -/
def textsSize (texts : List (List Chr)) : Nat := (texts.map textSize).sum

/-- The stack pointer below the block. -/
def blockStart (top : UInt64) (argv envp : List (List Chr)) : UInt64 :=
  top - align16 (UInt64.ofNat ((argv.length + envp.length + 2) * 8) +
    UInt64.ofNat (textsSize (argv ++ envp)))

/-- The address of a register in the trap frame. -/
def registerAddr (trapframe i : Nat) : Nat := trapframe * pageSize + 8 * i

/-- The registers `x[2]`, `x[11]` and `x[12]`. -/
def storeRegisters (trapframe : Nat) (x2 x12 : UInt64) (m : UserMemory) : Option UserMemory := do
  let m ← m.store (registerAddr trapframe 2) 8 (bytes64 x2)
  let m ← m.store (registerAddr trapframe 11) 8 (bytes64 x2)
  m.store (registerAddr trapframe 12) 8 (bytes64 x12)

/-- The registers and the block below `top`. -/
def pushBlock (trapframe : Nat) (top : UInt64) (argv envp : List (List Chr)) (m : UserMemory) :
    Option UserMemory := do
  let tsp := blockStart top argv envp
  let m ← storeRegisters trapframe tsp (tsp + UInt64.ofNat ((argv.length + 1) * 8)) m
  let (tsp, tstrtab, m) ← pushTexts argv tsp
    (tsp + UInt64.ofNat ((argv.length + envp.length + 2) * 8)) m
  let (_, _, m) ← pushTexts envp tsp tstrtab m
  some m

/-! ## The new process and the buffers -/

/-- The process is there, and the regions of the list beside it. -/
structure Pushing (V : Lawful A) (r : Root) (trampoline : UInt64) (T Q R : Footprint)
    (l : List (Nat × Nat)) (s : Memory ω) (m : UserMemory) : Prop where
  showing : Showing V s r trampoline T Q ((buffers l).union R) m
  nodup : (l.map Prod.fst).Nodup
  fresh : ∀ a ∈ l, ∀ a' ∈ R.refs, a.1 ≠ a'.1

section Pushing

variable {V : Lawful A} {s s' : Memory ω} {r : Root} {trampoline : UInt64} {T Q R : Footprint}
  {l : List (Nat × Nat)} {m m' : UserMemory} {b n : Nat}

/-- The first buffer of the list is given back. -/
theorem Pushing.kfree (h : Pushing V r trampoline T Q R ((b, n) :: l) s m) :
    Pushing V r trampoline T Q R l (s.kfree A b n) m := by
  obtain ⟨hnot, hnodup⟩ := List.nodup_cons.mp h.nodup
  have hin : (b, n) ∈ ((buffers ((b, n) :: l)).union R).refs := .inl List.mem_cons_self
  have hle : ((buffers l).union R).Le ((buffers ((b, n) :: l)).union R) :=
    Footprint.union_mono ⟨subset_rfl, fun a ha => List.mem_cons_of_mem _ ha⟩ (.refl R)
  have hout : (b, n) ∉ ((buffers l).union R).refs := by
    rintro (hl | hR)
    · exact hnot (List.mem_map_of_mem hl)
    · exact h.fresh _ List.mem_cons_self _ hR rfl
  have hb := h.showing.built.kfree_rest hin hle hout
  exact ⟨⟨hb, h.showing.walkupt, h.showing.page, h.showing.only⟩, hnodup,
    fun a ha => h.fresh a (List.mem_cons_of_mem _ ha)⟩

/-- The kernel page of the cursor is that of its page. -/
def Cursor.Valid (s : Memory ω) (r : Root) (c : Cursor) : Prop :=
  c.kernelVpn = walkupt s r.ref c.userVpn ∧ c.tsp.toNat % 8 = 0

theorem Cursor.Valid.seek {c : Cursor} (h : c.Valid s r) :
    (c.seek s r).kernelVpn = walkupt s r.ref (addr2Page c.tsp.toNat) ∧
      (c.seek s r).userVpn = addr2Page c.tsp.toNat ∧ (c.seek s r).tsp = c.tsp ∧
      (c.seek s r).tstrtab = c.tstrtab := by
  rw [Cursor.seek]
  split
  · exact ⟨rfl, rfl, rfl, rfl⟩
  · rename_i he
    have he := Decidable.not_not.mp he
    exact ⟨he ▸ h.1, he.symm, rfl, rfl⟩

theorem aligned_add_eight {x : UInt64} (h : x.toNat % 8 = 0) : (x + 8).toNat % 8 = 0 := by
  have hadd : (x + 8).toNat = (x.toNat + 8) % 2 ^ 64 := UInt64.toNat_add ..
  omega

/-- The tables are not changed by what is stored to pages. -/
theorem Showing.walkupt_eq {s₁ : Memory ω} {R' : Footprint} {m₁ : UserMemory}
    (h : Showing V s r trampoline T Q R m) (h₁ : Showing V s₁ r trampoline T Q R' m₁)
    (hm : m₁.walkupt = m.walkupt) (v : Nat) : walkupt s₁ r.ref v = walkupt s r.ref v := by
  rw [h₁.built.tree.walkupt_eq, h.built.tree.walkupt_eq, ← h.walkupt, ← h₁.walkupt, hm]

theorem pushPointer_shows {c c' : Cursor} {x : UInt64} (h : Pushing V r trampoline T Q R l s m)
    (hc : c.Valid s r) (hp : pushPointer A r x c s = some (c', s')) :
    ∃ m', storePointer c.tsp x m = some m' ∧ Pushing V r trampoline T Q R l s' m' ∧ c'.Valid s' r ∧
      c'.tsp = c.tsp + 8 ∧ c'.tstrtab = c.tstrtab := by
  rw [pushPointer] at hp
  obtain ⟨hkernel, huser, htsp, htab⟩ := hc.seek
  split at hp
  · cases hp
  rename_i hne
  cases hp
  rw [hkernel] at hne
  obtain ⟨q, hq, hvpn, hmvpn⟩ := h.showing.held hne
  have hmod : offset c.tsp.toNat % 8 = 0 := by
    have haligned := hc.2
    simp only [offset, pageSize]
    omega
  obtain ⟨m', hm, hshow⟩ := h.showing.storeAt hq (offset_lt c.tsp.toNat) hmod x
  have hwalk := (UserMemory.stored_of_store hm).walkupt
  rw [← hmvpn] at hm
  refine ⟨m', hm, ⟨?_, h.nodup, h.fresh⟩, ⟨?_, ?_⟩, ?_, htab⟩
  · rw [hkernel, htsp, hvpn]
    exact hshow
  · show (c.seek s r).kernelVpn = walkupt (s.store A (c.seek s r).kernelVpn _ x) r.ref (c.seek s r).userVpn
    rw [hkernel, huser, htsp, hvpn, Showing.walkupt_eq h.showing hshow hwalk, hvpn]
  · show ((c.seek s r).tsp + 8).toNat % 8 = 0
    rw [htsp]
    exact aligned_add_eight hc.2
  · show (c.seek s r).tsp + 8 = _
    rw [htsp]

/-- The loop over the strings of an array does on user memory what it does on the frames. -/
theorem pushStrings_shows {xs : List Argument} {c c' : Cursor}
    (h : Pushing V r trampoline T Q R (regions xs ++ l) s m) (hc : c.Valid s r)
    (hp : pushStrings A r xs c s = some (c', s')) :
    ∃ m', pushTexts (xs.map Argument.text) c.tsp c.tstrtab m = some (c'.tsp, c'.tstrtab, m') ∧
      Pushing V r trampoline T Q R l s' m' ∧ c'.Valid s' r := by
  induction xs generalizing c s m with
  | nil =>
      obtain ⟨m', hm, h', hc', htsp, htab⟩ := pushPointer_shows h hc hp
      refine ⟨m', ?_, h', hc'⟩
      rw [List.map_nil, pushTexts, hm, Option.map_some, htsp, htab]
  | cons x xs ih =>
      obtain ⟨⟨c₁, s₁⟩, hx, hp⟩ := Option.bind_eq_some_iff.mp hp
      obtain ⟨s₂, hout, hp⟩ := Option.bind_eq_some_iff.mp hp
      obtain ⟨m₁, hm₁, h₁, hc₁, htsp, htab⟩ := pushPointer_shows h hc hx
      obtain ⟨m₂, hm₂, h₂⟩ := h₁.showing.translateOut_of hout
      have hwalk : ∀ v, walkupt s₂ r.ref v = walkupt s₁ r.ref v := fun v =>
        Showing.walkupt_eq h₁.showing h₂ (UserMemory.translateOut_walkupt hm₂) v
      have hpush : Pushing V r trampoline T Q R ((x.region, bufferPages) :: (regions xs ++ l)) s₂ m₂ :=
        ⟨h₂, h₁.nodup, h₁.fresh⟩
      have hvalid : Cursor.Valid (s₂.kfree A x.region bufferPages) r
          { c₁ with tstrtab := c₁.tstrtab + UInt64.ofNat (textSize x.text) } :=
        ⟨hc₁.1.trans (hwalk _).symm, hc₁.2⟩
      obtain ⟨m', hm', h', hc'⟩ := ih hpush.kfree hvalid hp
      refine ⟨m', ?_, h', hc'⟩
      rw [htsp, htab] at hm'
      rw [htab] at hm₂
      rw [List.map_cons, pushTexts, hm₁, Option.bind_eq_bind, Option.bind_some]
      exact Option.bind_eq_some_iff.mpr ⟨m₂, hm₂, hm'⟩

theorem pushPointer_returns {c : Cursor} {x : UInt64} (h : Pushing V r trampoline T Q R l s m)
    (hc : c.Valid s r) (hm : storePointer c.tsp x m = some m') :
    ∃ c' s', pushPointer A r x c s = some (c', s') := by
  obtain ⟨hkernel, -⟩ := hc.seek
  obtain ⟨p, hp, hvpn⟩ := h.showing.only _ (UserMemory.mapped_of_store hm (x := 0) (by decide))
  have hpage : addr2Page (m.kernelAddr c.tsp.toNat) = m.walkupt (addr2Page c.tsp.toNat) :=
    (addr_split _ (offset_lt _)).1
  rw [Nat.add_zero, hpage, h.showing.walkupt, ← h.showing.built.tree.walkupt_eq, ← hkernel] at hvpn
  rw [pushPointer, if_neg (hvpn ▸ (h.showing.built.good hp).1)]
  exact ⟨_, _, rfl⟩

/-- The loop returns when it does on user memory. -/
theorem pushStrings_returns {xs : List Argument} {c : Cursor} {y : UInt64 × UInt64 × UserMemory}
    (h : Pushing V r trampoline T Q R (regions xs ++ l) s m) (hc : c.Valid s r)
    (hm : pushTexts (xs.map Argument.text) c.tsp c.tstrtab m = some y) :
    ∃ c' s', pushStrings A r xs c s = some (c', s') := by
  induction xs generalizing c s m with
  | nil =>
      obtain ⟨m', hm', -⟩ := Option.map_eq_some_iff.mp hm
      exact pushPointer_returns h hc hm'
  | cons x xs ih =>
      obtain ⟨m₁, hm₁, hm⟩ := Option.bind_eq_some_iff.mp hm
      obtain ⟨m₂, hm₂, hm⟩ := Option.bind_eq_some_iff.mp hm
      obtain ⟨c₁, s₁, hx⟩ := pushPointer_returns h hc hm₁
      obtain ⟨m₁', hm₁', h₁, hc₁, htsp, htab⟩ := pushPointer_shows h hc hx
      cases hm₁.symm.trans hm₁'
      rw [← htab] at hm₂
      obtain ⟨s₂, hout, -, h₂⟩ := h₁.showing.translateOut hm₂
      have hwalk : ∀ v, walkupt s₂ r.ref v = walkupt s₁ r.ref v := fun v =>
        Showing.walkupt_eq h₁.showing h₂ (UserMemory.translateOut_walkupt hm₂) v
      have hpush : Pushing V r trampoline T Q R ((x.region, bufferPages) :: (regions xs ++ l)) s₂ m₂ :=
        ⟨h₂, h₁.nodup, h₁.fresh⟩
      have hvalid : Cursor.Valid (s₂.kfree A x.region bufferPages) r
          { c₁ with tstrtab := c₁.tstrtab + UInt64.ofNat (textSize x.text) } :=
        ⟨hc₁.1.trans (hwalk _).symm, hc₁.2⟩
      rw [← htsp, ← htab] at hm
      obtain ⟨c', s', hrest⟩ := ih hpush.kfree hvalid hm
      exact ⟨c', s', Option.bind_eq_some_iff.mpr ⟨_, hx, Option.bind_eq_some_iff.mpr ⟨_, hout, hrest⟩⟩⟩

end Pushing

/-! ## The block -/

theorem argsize_eq (xs : List Argument) :
    argsize xs = UInt64.ofNat (textsSize (xs.map Argument.text)) := by
  have hfold : ∀ (xs : List Argument) (n : Nat),
      xs.foldl (fun n x => n + UInt64.ofNat (x.text.length + 1)) (UInt64.ofNat n) =
        UInt64.ofNat (n + textsSize (xs.map Argument.text)) := by
    intro xs
    induction xs with
    | nil => exact fun n => rfl
    | cons x xs ih =>
        intro n
        rw [List.foldl_cons, ← UInt64.ofNat_add, ih, textsSize, textsSize, List.map_cons, List.map_cons,
          List.sum_cons, textSize, Nat.add_assoc]
  rw [argsize]
  have h := hfold xs 0
  rw [Nat.zero_add] at h
  exact h

theorem align16_toNat (n : UInt64) : (align16 n).toNat = (n.toNat + 15) / 16 * 16 % 2 ^ 64 := by
  have hand : (n &&& 0xf).toNat = n.toNat % 16 := by
    rw [UInt64.toNat_and]
    exact Nat.and_two_pow_sub_one_eq_mod n.toNat 4
  have hclear : (n &&& ~~~ 0xf).toNat = n.toNat / 16 * 16 := toNat_clear n 0xf 4 (by decide)
  have hlt := n.toNat_lt
  rw [align16]
  split
  · rename_i hne
    have hne : n.toNat % 16 ≠ 0 := fun he => hne (UInt64.toNat_inj.mp (hand.trans he))
    have hadd : ((n &&& ~~~ 0xf) + 0x10).toNat = (n.toNat / 16 * 16 + 16) % 2 ^ 64 := by
      rw [UInt64.toNat_add, hclear]
      rfl
    rw [hadd]
    omega
  · rename_i he
    have he : n.toNat % 16 = 0 := by
      rw [← hand, Decidable.not_not.mp he]
      rfl
    omega

theorem blockStart_aligned (n : Nat) (argv envp : List (List Chr)) :
    (blockStart (UInt64.ofNat (n * pageSize)) argv envp).toNat % 16 = 0 := by
  have htop : (UInt64.ofNat (n * pageSize)).toNat = n * 4096 % 2 ^ 64 := UInt64.toNat_ofNat'
  rw [blockStart, UInt64.toNat_sub, align16_toNat, htop]
  omega

section Replace

variable {V : Lawful A} {B : Platform} {program : Program} {argv envp : Arguments} {s s' : Memory ω}
  {R : Footprint} {l : List (Nat × Nat)} {ret : Int} {sp : AddressSpace}

/-- The registers of the new image are stored in its trap frame, and the cursor is below
the stack pointer of the program. -/
theorem pushRegisters_shows {R' T Q : Footprint} (xs ys : List Argument) {m : UserMemory}
    (h : Loaded V B program s R' sp s' T Q) (hm : Showing V s' sp.root B.trampoline T Q R' m) :
    ∃ c s₁ m₁ tsp, pushRegisters A sp xs ys s' = (c, s₁) ∧
      tsp = blockStart (UInt64.ofNat ((program.stackVpn + userStackPages) * pageSize))
        (xs.map Argument.text) (ys.map Argument.text) ∧
      c.tsp = tsp ∧ c.tstrtab = tsp + UInt64.ofNat ((xs.length + ys.length + 2) * 8) ∧
      storeRegisters sp.trapframe tsp (tsp + UInt64.ofNat ((xs.length + 1) * 8)) m = some m₁ ∧
      Showing V s₁ sp.root B.trampoline T Q R' m₁ ∧ c.Valid s₁ sp.root := by
  obtain ⟨q, hq, hvpn⟩ : ∃ q ∈ Q.pages, q.vpn = sp.trapframe := by
    have htrap := h.held.trap
    exact ⟨_, h.held.built.leaves.held _ (htrap ▸ h.held.trap_ne), htrap⟩
  have hsp : s'.load A sp.trapframe 2 =
      UInt64.ofNat ((program.stackVpn + userStackPages) * pageSize) := h.userSp
  obtain ⟨tsp, htsp⟩ : ∃ tsp, tsp = blockStart
      (UInt64.ofNat ((program.stackVpn + userStackPages) * pageSize)) (xs.map Argument.text)
      (ys.map Argument.text) := ⟨_, rfl⟩
  have hstart : s'.load A sp.trapframe 2 - align16
      (UInt64.ofNat ((xs.length + ys.length + 2) * 8) + argsize (xs ++ ys)) = tsp := by
    rw [htsp, hsp, blockStart, argsize_eq, List.length_map, List.length_map, List.map_append]
  have haligned : tsp.toNat % 8 = 0 := by
    have h16 := blockStart_aligned (program.stackVpn + userStackPages) (xs.map Argument.text)
      (ys.map Argument.text)
    rw [htsp]
    omega
  obtain ⟨m₁, hm₁, h₁⟩ := hm.storeAt hq (show 16 < pageSize by decide) (by decide) tsp
  obtain ⟨m₂, hm₂, h₂⟩ := h₁.storeAt hq (show 88 < pageSize by decide) (by decide) tsp
  obtain ⟨m₃, hm₃, h₃⟩ := h₂.storeAt hq (show 96 < pageSize by decide) (by decide)
    (tsp + UInt64.ofNat ((xs.length + 1) * 8))
  rw [hvpn] at h₁ h₂ h₃ hm₁ hm₂ hm₃
  refine ⟨_, _, m₃, tsp, rfl, htsp, hstart, ?_, ?_, ?_, ?_, ?_⟩
  · dsimp only
    rw [hstart]
  · exact Option.bind_eq_some_iff.mpr ⟨m₁, hm₁, Option.bind_eq_some_iff.mpr ⟨m₂, hm₂, hm₃⟩⟩
  · rw [hstart]
    exact h₃
  · dsimp only
    rw [hstart]
    exact ((Showing.walkupt_eq h₁ h₂ (UserMemory.stored_of_store hm₂).walkupt _).symm.trans
      (Showing.walkupt_eq h₂ h₃ (UserMemory.stored_of_store hm₃).walkupt _).symm)
  · dsimp only
    rw [hstart]
    exact haligned

/-- The program is loaded, and its memory has the block. -/
theorem replaceImage_shows (ho : Own V s.heap .none ((buffers (argv.on (envp.on l))).union R))
    (hnodup : ((argv.on (envp.on l)).map Prod.fst).Nodup)
    (hfresh : ∀ a ∈ argv.on (envp.on l), ∀ a' ∈ R.refs, a.1 ≠ a'.1)
    (hr : replaceImage A B program argv envp s = some (ret, sp, s')) :
    ∃ s₁ T Q m m', Loaded V B program s ((buffers (argv.on (envp.on l))).union R) sp s₁ T Q ∧
      Showing V s₁ sp.root B.trampoline T Q ((buffers (argv.on (envp.on l))).union R) m ∧
      pushBlock sp.trapframe (UInt64.ofNat ((program.stackVpn + userStackPages) * pageSize)) argv.texts
        envp.texts m = some m' ∧
      Pushing V sp.root B.trampoline T Q R l s' m' ∧ ret = argv.strings.length := by
  obtain ⟨⟨sp₁, s₁⟩, hload, hr⟩ := Option.bind_eq_some_iff.mp hr
  obtain ⟨⟨c₁, s₂⟩, hargv, hr⟩ := Option.bind_eq_some_iff.mp hr
  obtain ⟨⟨c₂, s₃⟩, henvp, hr⟩ := Option.bind_eq_some_iff.mp hr
  cases hr
  obtain ⟨T, Q, hloaded⟩ := loadProcess_loaded ho hload
  obtain ⟨m, hshow⟩ := hloaded.held.built.showing
  obtain ⟨c, s₀, m₁, tsp, hregs, htsp, hctsp, hctab, hm₁, hshow₁, hc⟩ :=
    pushRegisters_shows argv.strings envp.strings hloaded hshow
  have hargv : pushStrings A sp.root argv.strings (pushRegisters A sp argv.strings envp.strings s₁).1
      (pushRegisters A sp argv.strings envp.strings s₁).2 = some (c₁, s₂) := hargv
  rw [hregs] at hargv
  obtain ⟨m₂, hm₂, hpush₂, hc₂⟩ := pushStrings_shows ⟨hshow₁, hnodup, hfresh⟩ hc hargv
  obtain ⟨m₃, hm₃, hpush₃, -⟩ := pushStrings_shows hpush₂.kfree ⟨hc₂.1, hc₂.2⟩ henvp
  refine ⟨s₁, T, Q, m, m₃, hloaded, hshow, ?_, hpush₃.kfree, rfl⟩
  have hlen : ∀ x : Arguments, x.texts.length = x.strings.length := fun x => List.length_map _
  rw [hctsp, hctab] at hm₂
  rw [pushBlock, hlen, hlen, Arguments.texts, Arguments.texts, ← htsp]
  exact Option.bind_eq_some_iff.mpr ⟨m₁, hm₁, Option.bind_eq_some_iff.mpr ⟨_, hm₂,
    Option.bind_eq_some_iff.mpr ⟨_, hm₃, rfl⟩⟩⟩

/-- It returns when there is room for the program, and the block is on mapped pages. -/
theorem replaceImage_returns (ho : Own V s.heap .none ((buffers (argv.on (envp.on l))).union R))
    (hnodup : ((argv.on (envp.on l)).map Prod.fst).Nodup)
    (hfresh : ∀ a ∈ argv.on (envp.on l), ∀ a' ∈ R.refs, a.1 ≠ a'.1)
    (hload : loadProcess A B program s = some (sp, s'))
    (hblock : ∀ T Q m, Loaded V B program s ((buffers (argv.on (envp.on l))).union R) sp s' T Q →
      Showing V s' sp.root B.trampoline T Q ((buffers (argv.on (envp.on l))).union R) m →
      ∃ m', pushBlock sp.trapframe (UInt64.ofNat ((program.stackVpn + userStackPages) * pageSize))
        argv.texts envp.texts m = some m') :
    ∃ s₁, replaceImage A B program argv envp s = some ((argv.strings.length : Int), sp, s₁) := by
  obtain ⟨T, Q, hloaded⟩ := loadProcess_loaded ho hload
  obtain ⟨m, hshow⟩ := hloaded.held.built.showing
  obtain ⟨m', hm'⟩ := hblock T Q m hloaded hshow
  obtain ⟨c, s₀, m₁, tsp, hregs, htsp, hctsp, hctab, hm₁, hshow₁, hc⟩ :=
    pushRegisters_shows argv.strings envp.strings hloaded hshow
  have hlen : ∀ x : Arguments, x.texts.length = x.strings.length := fun x => List.length_map _
  rw [pushBlock, hlen, hlen, Arguments.texts, Arguments.texts, ← htsp] at hm'
  obtain ⟨m₁', hm₁', hm'⟩ := Option.bind_eq_some_iff.mp hm'
  cases hm₁.symm.trans hm₁'
  obtain ⟨⟨tsp₂, tab₂, m₂⟩, hm₂, hm'⟩ := Option.bind_eq_some_iff.mp hm'
  obtain ⟨x, hm₃, -⟩ := Option.bind_eq_some_iff.mp hm'
  rw [← hctab, ← hctsp] at hm₂
  have hpush₁ : Pushing V sp.root B.trampoline T Q R (argv.on (envp.on l)) s₀ m₁ :=
    ⟨hshow₁, hnodup, hfresh⟩
  obtain ⟨c₂, s₂, hargv⟩ := pushStrings_returns hpush₁ hc hm₂
  obtain ⟨m₂', hm₂', hpush₂, hc₂⟩ := pushStrings_shows hpush₁ hc hargv
  cases hm₂.symm.trans hm₂'
  obtain ⟨c₃, s₃, henvp⟩ := pushStrings_returns hpush₂.kfree ⟨hc₂.1, hc₂.2⟩ hm₃
  refine ⟨s₃.kfree A envp.region bufferPages, Option.bind_eq_some_iff.mpr ⟨_, hload, ?_⟩⟩
  dsimp only
  rw [hregs]
  exact Option.bind_eq_some_iff.mpr ⟨_, hargv, Option.bind_eq_some_iff.mpr ⟨_, henvp, rfl⟩⟩

end Replace

end Exec
