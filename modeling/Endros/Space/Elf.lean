import Endros.Space.Fork
import Endros.Space.User

/-!
# The segments of a program

`load_process` copies whole pages of the file.  It does not read `p_filesz`, so a page has
what comes next in the file behind the bytes of its segment.  When two segments have
addresses on one page, the later one maps a page of its own there.

For a well-formed program the contents of the segments can be told from the file: they are
there if and only if the last segment on each page agrees with the others.
-/

namespace Space

open Lib Paging Mem

variable {ω : Type} {A : Allocator ω}

/-! ## Segments -/

/-- The address is in the segment. -/
def ProgramHeader.Has (ph : ProgramHeader) (a : Nat) : Prop :=
  ph.pVaddr.toNat ≤ a ∧ a < ph.pVaddr.toNat + ph.pMemsz.toNat

instance (ph : ProgramHeader) (a : Nat) : Decidable (ph.Has a) := inferInstanceAs (Decidable (_ ∧ _))

/-- Where in the file the byte for the address is taken from. -/
def ProgramHeader.source (ph : ProgramHeader) (a : Nat) : Nat :=
  (ph.pOffset + (UInt64.ofNat (addr2Page a * pageSize) - ph.pVaddr)).toNat + offset a

namespace Program

/-- `p_filesz` of the header `i`. -/
def pFilesz (program : Program) (i : Nat) : UInt64 :=
  le64 program.byte (u64 (program.ePhoff.toNat + 56 * i) + 32)

/-- The header `i` has a segment. -/
def IsSegment (program : Program) (i : Nat) : Prop :=
  i < program.ePhnum ∧ (program.header i).pType = ptLoad

instance (program : Program) (i : Nat) : Decidable (program.IsSegment i) :=
  inferInstanceAs (Decidable (_ ∧ _))

/-- What the segment `i` has at an address: bytes of the file, and zeros behind them. -/
def segmentByte (program : Program) (i a : Nat) : UInt8 :=
  let ph := program.header i
  if a < ph.pVaddr.toNat + (program.pFilesz i).toNat then
    program.byte (ph.pOffset.toNat + (a - ph.pVaddr.toNat))
  else 0

/-- The segments are in the file and in the address space, and have no address in common.
The stack behind them is below the trap frame. -/
structure WellFormed (program : Program) : Prop where
  filesz : ∀ i, program.IsSegment i → program.pFilesz i ≤ (program.header i).pMemsz
  inside : ∀ i, program.IsSegment i →
    (program.header i).pOffset.toNat + (program.pFilesz i).toNat ≤ program.size
  disjoint : ∀ i j, program.IsSegment i → program.IsSegment j → i ≠ j →
    ∀ a, (program.header i).Has a → ¬ (program.header j).Has a
  congruent : ∀ i, program.IsSegment i →
    offset (program.header i).pOffset.toNat = offset (program.header i).pVaddr.toNat
  /-- Sv39 has addresses below `2 ^ 38` and those with all the upper bits set. -/
  user : ∀ i, program.IsSegment i →
    (program.header i).pVaddr.toNat + (program.header i).pMemsz.toNat ≤ 2 ^ 38 ∨
      2 ^ 64 - 2 ^ 38 ≤ (program.header i).pVaddr.toNat ∧
        (program.header i).pVaddr.toNat + (program.header i).pMemsz.toNat < 2 ^ 64
  below : program.stackVpn + userStackPages ≤ trapframeVpn

/-- The last of the segments that have the page. -/
structure Last (program : Program) (i vpn : Nat) : Prop where
  lt : i < program.ePhnum
  covers : (program.header i).Covers vpn
  later : ∀ k, i < k → k < program.ePhnum → ¬ (program.header k).Covers vpn

/-- What the last segment on a page copies there is right for each segment on the page, and
so are its permissions. -/
def PagesAgree (program : Program) : Prop :=
  ∀ i, program.IsSegment i → ∀ a, (program.header i).Has a → ∀ j, program.Last j (addr2Page a) →
    program.byte ((program.header j).source a) = program.segmentByte i a ∧
      (program.header j).flags &&& (program.header i).flags = (program.header i).flags

end Program

/-- The address reads as the byte, on a page with the permissions. -/
def Reads (s : Memory ω) (r : Root) (a : Nat) (byte : UInt8) (flags : UInt64) : Prop :=
  ∃ e, sv39Entry s.mem r.page.pfn (addr2Page a) = (0, e) ∧ e &&& flags = flags ∧
    pageByte (s.mem (getPfn e)) (offset a) = byte

theorem pageByte_words (ph : ProgramHeader) (program : Program) (a : Nat) :
    pageByte (ph.words program (addr2Page a)) (offset a) = program.byte (ph.source a) := by
  rw [pageByte, ProgramHeader.words, bytes64_le64 _ _ (Nat.mod_lt _ (by decide)),
    wordOf_val (offset_lt a), Nat.add_assoc, Nat.div_add_mod, ProgramHeader.source]

/-! ## Pages of the address space -/

/-- The page is one of Sv39. -/
def UserPage (v : Nat) : Prop := v < 2 ^ 26 ∨ 2 ^ 52 - 2 ^ 26 ≤ v ∧ v < 2 ^ 52

theorem UserPage.slot_inj {u v : Nat} (hu : UserPage u) (hv : UserPage v) (h : slotOf u = slotOf v) :
    u = v := by
  have hsame := (slotOf_eq_iff u v).mp h
  simp only [SamePage, UserPage] at hsame hu hv
  omega

namespace Program

variable {program : Program} {i j n v : Nat}

theorem covers_lt_maxVpn (hi : i < n) (hc : (program.header i).Covers v) : v < program.maxVpn n := by
  induction n with
  | zero => exact absurd hi (Nat.not_lt_zero i)
  | succ n ih =>
      rw [maxVpn]
      split
      · rename_i htype
        have hne : i ≠ n := fun he => htype (he ▸ hc.1)
        exact ih (by omega)
      · rcases Nat.lt_succ_iff_lt_or_eq.mp hi with hlt | rfl
        · exact (ih hlt).trans_le (Nat.le_max_left _ _)
        · exact hc.2.2.trans_le (Nat.le_max_right _ _)

/-- A segment on the page is the last one, or a later one is. -/
theorem exists_last (hi : i < program.ePhnum) (hc : (program.header i).Covers v) :
    ∃ j, program.Last j v := by
  have hlast : ∀ n, i < n → ∃ j, j < n ∧ (program.header j).Covers v ∧
      ∀ k, j < k → k < n → ¬ (program.header k).Covers v := by
    intro n hn
    induction n with
    | zero => exact absurd hn (Nat.not_lt_zero i)
    | succ n ih =>
        by_cases hcn : (program.header n).Covers v
        · exact ⟨n, Nat.lt_succ_self n, hcn, fun k hk hk' => by omega⟩
        · have hne : i ≠ n := fun he => hcn (he ▸ hc)
          obtain ⟨j, hj, hcj, hlater⟩ := ih (by omega)
          refine ⟨j, Nat.lt_succ_of_lt hj, hcj, fun k hk hk' hck => ?_⟩
          rcases Nat.lt_succ_iff_lt_or_eq.mp hk' with hlt | rfl
          · exact hlater k hk hlt hck
          · exact hcn hck
  obtain ⟨j, hj, hcj, hlater⟩ := hlast _ hi
  exact ⟨j, hj, hcj, hlater⟩

namespace WellFormed

variable (h : program.WellFormed)
include h

/-- Where the pages of a segment are. -/
theorem pages (hi : program.IsSegment i) :
    addr2PageUp (program.header i).endVa ≤ 2 ^ 26 ∨
      2 ^ 52 - 2 ^ 26 ≤ addr2Page (program.header i).pVaddr.toNat ∧
        2 ^ 52 - 2 ^ 26 ≤ addr2PageUp (program.header i).endVa ∧
        addr2PageUp (program.header i).endVa ≤ 2 ^ 52 := by
  have hend : (program.header i).endVa =
      ((program.header i).pVaddr.toNat + (program.header i).pMemsz.toNat) % 2 ^ 64 := UInt64.toNat_add ..
  have hlt := addr2PageUp_lt (program.header i).endVa
  have hle := le_addr2PageUp (program.header i).endVa
  have huser := h.user i hi
  simp only [addr2Page, pageSize] at *
  omega

theorem userPage (hi : i < program.ePhnum) (hc : (program.header i).Covers v) : UserPage v := by
  have hpages := h.pages ⟨hi, hc.1⟩
  obtain ⟨-, hfirst, hlast⟩ := hc
  simp only [UserPage]
  omega

theorem maxVpn (hn : n ≤ program.ePhnum) :
    program.maxVpn n ≤ 2 ^ 26 ∨ 2 ^ 52 - 2 ^ 26 ≤ program.maxVpn n := by
  induction n with
  | zero => exact .inl (Nat.zero_le _)
  | succ n ih =>
      have hmax := ih (Nat.le_of_succ_le hn)
      rw [Program.maxVpn]
      split
      · exact hmax
      · rename_i htype
        have hpages := h.pages ⟨hn, Decidable.not_not.mp htype⟩
        omega

/-- A page of a segment is not one of the stack, and not the trap frame. -/
theorem slot_ne (hi : i < program.ePhnum) (hc : (program.header i).Covers v) :
    (∀ k, k < userStackPages → slotOf v ≠ slotOf (program.stackVpn + k)) ∧
      slotOf v ≠ slotOf trapframeVpn := by
  have hv := h.userPage hi hc
  have hlt := covers_lt_maxVpn hi hc
  have hmax := h.maxVpn (Nat.le_refl _)
  have hbelow := h.below
  have htrap : trapframeVpn = 2 ^ 52 - 2 := by decide
  simp only [UserPage, stackVpn, userStackPages, htrap] at *
  refine ⟨fun k hk he => ?_, fun he => ?_⟩
  · have hsame := (slotOf_eq_iff _ _).mp he
    simp only [SamePage] at hsame
    omega
  · have hsame := (slotOf_eq_iff _ _).mp he
    simp only [SamePage] at hsame
    omega

/-- The slot of a page has what the last segment put there. -/
theorem puts_eq (hn : n ≤ program.ePhnum) (hj : j < n) (hc : (program.header j).Covers v)
    (hlater : ∀ k, j < k → k < n → ¬ (program.header k).Covers v) :
    program.puts n (slotOf v) = some ((program.header j).put program v) := by
  induction n with
  | zero => exact absurd hj (Nat.not_lt_zero j)
  | succ n ih =>
      have hrest : j ≠ n → program.puts n (slotOf v) = some ((program.header j).put program v) :=
        fun hne => ih (Nat.le_of_succ_le hn) (by omega) fun k hk hk' => hlater k hk (by omega)
      rw [puts]
      dsimp only
      split
      · rename_i htype
        exact hrest fun he => htype (he ▸ hc.1)
      · rename_i htype
        have hpages := h.pages ⟨hn, Decidable.not_not.mp htype⟩
        by_cases he : j = n
        · subst he
          obtain ⟨k, hk⟩ := Nat.exists_eq_add_of_le hc.2.1
          have hlast := hc.2.2
          rw [hk]
          exact putRange_at (by omega) (by omega)
        · rw [putRange_of_ne fun k hk hslot => ?_, hrest he]
          have hck : (program.header n).Covers (addr2Page (program.header n).pVaddr.toNat + k) :=
            ⟨Decidable.not_not.mp htype, Nat.le_add_right _ k, by omega⟩
          have hv := (h.userPage (Nat.lt_of_lt_of_le hj hn) hc).slot_inj (h.userPage hn hck) hslot
          exact hlater n (by omega) (Nat.lt_succ_self n) (hv ▸ hck)

theorem image_eq (hlast : program.Last j v) :
    program.image (slotOf v) = some ((program.header j).put program v) := by
  obtain ⟨hstack, htrap⟩ := h.slot_ne hlast.lt hlast.covers
  rw [image, Function.update_of_ne htrap, putRange_of_ne hstack]
  exact h.puts_eq (Nat.le_refl _) hlast.lt hlast.covers hlast.later

end WellFormed

/-- The page of an address of a segment. -/
theorem WellFormed.covers {a : Nat} (h : program.WellFormed) (hi : program.IsSegment i)
    (ha : (program.header i).Has a) : (program.header i).Covers (addr2Page a) := by
  have hend : (program.header i).endVa =
      ((program.header i).pVaddr.toNat + (program.header i).pMemsz.toNat) % 2 ^ 64 := UInt64.toNat_add ..
  have hle := le_addr2PageUp (program.header i).endVa
  have huser := h.user i hi
  obtain ⟨hfirst, hlt⟩ := ha
  refine ⟨hi.2, ?_, ?_⟩
  · exact Nat.div_le_div_right hfirst
  · simp only [addr2Page, pageSize] at *
    omega

end Program

/-! ## The loaded segments -/

section Loaded

variable {V : Lawful A} {B : Platform} {program : Program} {s s' : Memory ω} {R T Q : Footprint}
  {sp : AddressSpace} {r : Root}

/-- The walk of a page with a table ends at level 0. -/
theorem UserTree.sv39_level {v : Nat} (h : UserTree s r T) (hne : leafAt s r (slotOf v) ≠ (0, 0)) :
    sv39Entry s.mem r.page.pfn v = (0, (leafAt s r (slotOf v)).1) := by
  rcases h.at_or (show Short (pathOf v) from Nat.le_refl 2) with ⟨q, b, hat⟩ | ⟨-, hr⟩
  · rw [← h.sv39_leafAt, (h.walks_at hat).1]
  · exact absurd (leafAt_none hr) hne

/-- What an address of a page reads as. -/
theorem Loaded.reads_iff {j a : Nat} {byte : UInt8} {flags : UInt64}
    (h : Loaded V B program s R sp s' T Q) (hwf : program.WellFormed)
    (hlast : program.Last j (addr2Page a)) (hf : GoodFlags flags) :
    Reads s' sp.root a byte flags ↔ program.byte ((program.header j).source a) = byte ∧
      (program.header j).flags &&& flags = flags := by
  obtain ⟨q, hq, hleaf, hwords⟩ := h.loading.page _ _ (hwf.image_eq hlast)
  obtain ⟨hne, hpfn, -⟩ := h.held.built.good hq
  have hflags := flags_good (program.header j)
  have hsome : leafAt s' sp.root (slotOf (addr2Page a)) ≠ (0, 0) := fun he =>
    hne ((congrArg Prod.snd hleaf).symm.trans (congrArg Prod.snd he))
  have hentry := h.held.built.tree.sv39_level hsome
  have hmem : s'.mem q.pfn = (program.header j).words program (addr2Page a) := hwords _ rfl
  have hand : pte q.pfn (program.header j).flags &&& flags = (program.header j).flags &&& flags := by
    rw [and_flags hf, getFlags_pte hpfn hflags]
  rw [hleaf] at hentry
  have hbyte : pageByte (s'.mem (getPfn (pte q.pfn (program.header j).flags))) (offset a) =
      program.byte ((program.header j).source a) := by
    rw [getPfn_pte hpfn hflags, hmem, pageByte_words]
  constructor
  · rintro ⟨e, he, hperm, hread⟩
    rw [hentry] at he
    cases he
    exact ⟨hbyte ▸ hread, hand ▸ hperm⟩
  · rintro ⟨hread, hperm⟩
    exact ⟨_, hentry, hand.trans hperm, hbyte.trans hread⟩

/-- What the kernel sees at an address of a page. -/
theorem Loaded.view_byte {j a : Nat} (h : Loaded V B program s R sp s' T Q) (hwf : program.WellFormed)
    (hlast : program.Last j (addr2Page a)) :
    (view A s' sp.root).byte a = some (program.byte ((program.header j).source a)) := by
  obtain ⟨q, hq, hleaf, hwords⟩ := h.loading.page _ _ (hwf.image_eq hlast)
  obtain ⟨hne, -, hframe⟩ := h.held.built.good hq
  have hwalk : (view A s' sp.root).walkupt (addr2Page a) = q.vpn :=
    (h.held.built.tree.walkupt_eq _).trans (congrArg Prod.snd hleaf)
  have hpage : (view A s' sp.root).pages q.vpn = some (pageByte (s'.mem q.pfn)) := by
    rw [← hframe]
    exact if_neg hne
  have hmem : s'.mem q.pfn = (program.header j).words program (addr2Page a) := hwords _ rfl
  rw [Io.UserMemory.byte, hwalk, hpage, Option.map_some, hmem, pageByte_words]

end Loaded

/-! ## A program with data behind its segment -/

/-- A program that has one segment at `0x10000`, with the headers in it.  The file goes on
behind the 120 bytes of the segment. -/
def smallProgram (memsz : UInt8) : Program where
  size := 121
  byte a := match a with
    | 32 => 64
    | 56 => 1
    | 64 => 1
    | 68 => 6
    | 82 => 1
    | 96 => 120
    | 104 => memsz
    | 120 => 7
    | _ => 0

/-- A program with one header. -/
theorem Program.WellFormed.of_one {program : Program} (hn : program.ePhnum = 1)
    (hfilesz : program.pFilesz 0 ≤ (program.header 0).pMemsz)
    (hinside : (program.header 0).pOffset.toNat + (program.pFilesz 0).toNat ≤ program.size)
    (hcongr : offset (program.header 0).pOffset.toNat = offset (program.header 0).pVaddr.toNat)
    (huser : (program.header 0).pVaddr.toNat + (program.header 0).pMemsz.toNat ≤ 2 ^ 38)
    (hbelow : program.stackVpn + userStackPages ≤ trapframeVpn) : program.WellFormed := by
  have hzero : ∀ {i}, program.IsSegment i → i = 0 := fun hi => by
    have hlt := hi.1
    omega
  refine ⟨fun i hi => ?_, fun i hi => ?_, fun i j hi hj hne => ?_, fun i hi => ?_, fun i hi => ?_, hbelow⟩
  · cases hzero hi
    exact hfilesz
  · cases hzero hi
    exact hinside
  · exact absurd ((hzero hi).trans (hzero hj).symm) hne
  · cases hzero hi
    exact hcongr
  · cases hzero hi
    exact .inl huser

theorem smallProgram_wellFormed : (smallProgram 120).WellFormed ∧ (smallProgram 121).WellFormed :=
  ⟨.of_one (by decide) (by decide) (by decide) (by decide) (by decide) (by decide),
    .of_one (by decide) (by decide) (by decide) (by decide) (by decide) (by decide)⟩

/-- Without anything behind the bytes of the file the segment is right. -/
theorem smallProgram_agrees : (smallProgram 120).PagesAgree := by
  rintro i ⟨hi, -⟩ a ha j ⟨hj, -, -⟩
  have hone : (smallProgram 120).ePhnum = 1 := by decide
  have hi₀ : i = 0 := by omega
  have hj₀ : j = 0 := by omega
  subst hi₀ hj₀
  have hvaddr : ((smallProgram 120).header 0).pVaddr.toNat = 0x10000 := by decide
  have hmemsz : ((smallProgram 120).header 0).pMemsz.toNat = 120 := by decide
  have hfilesz : ((smallProgram 120).pFilesz 0).toNat = 120 := by decide
  have hoffset : ((smallProgram 120).header 0).pOffset.toNat = 0 := by decide
  simp only [ProgramHeader.Has, hvaddr, hmemsz] at ha
  have hpage : addr2Page a = 16 := by
    simp only [addr2Page, pageSize]
    omega
  have hstart : (((smallProgram 120).header 0).pOffset +
      (UInt64.ofNat (16 * pageSize) - ((smallProgram 120).header 0).pVaddr)).toNat = 0 := by decide
  have hbyte : offset a = a - 0x10000 := by
    simp only [offset, pageSize]
    omega
  refine ⟨?_, by decide⟩
  rw [ProgramHeader.source, hpage, hstart, Program.segmentByte, hvaddr, hfilesz, if_pos ha.2, hoffset,
    hbyte]

end Space
