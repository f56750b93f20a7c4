import Mathlib.Data.Finset.Card
import Mathlib.Order.Interval.Finset.Nat
import Endros.Block.Cache

/-!
# The cache refines a flat disk

`flat` is the disk with all writes applied at once.  A block is seen once some
access has touched it.  `Coherent` relates the cache to `flat`: the cached blocks
are those seen, each buffer is valid and its page is the block of `flat`, and
`flat` agrees with the disk on every block that has no dirty buffer.

A whole-block write to a block that is not seen yet breaks this.  The buffer
stays invalid, so the next access reads the old block from the disk, and
`sync_filesystem` passes it over.  Beyond `CACHE_BLOCKS` blocks the victim of an
eviction keeps its label.  `Warm` excludes the first and a bound on the seen
blocks the second.
-/

namespace Block

open Lib Mem

/-! ## Small facts about states -/

section State

variable (s : State) (i j : Nat)

@[simp] theorem State.buf_modify (f : BlockBuffer → BlockBuffer) :
    (s.modify i f).buf j = if j = i then f (s.buf i) else s.buf j := by
  simp [State.buf, State.modify, Function.update_apply]

@[simp] theorem State.cacheSize_modify (f : BlockBuffer → BlockBuffer) :
    (s.modify i f).dev.cacheSize = s.dev.cacheSize := rfl

@[simp] theorem State.mem_modify (f : BlockBuffer → BlockBuffer) :
    (s.modify i f).mem = s.mem := rfl

@[simp] theorem State.disk_modify (f : BlockBuffer → BlockBuffer) :
    (s.modify i f).disk = s.disk := rfl

@[simp] theorem State.buf_setPage (p : Nat → UInt8) : (s.setPage i p).buf j = s.buf j := rfl

@[simp] theorem State.cacheSize_setPage (p : Nat → UInt8) :
    (s.setPage i p).dev.cacheSize = s.dev.cacheSize := rfl

@[simp] theorem State.disk_setPage (p : Nat → UInt8) : (s.setPage i p).disk = s.disk := rfl

theorem State.page_setPage (p : Nat → UInt8) :
    (s.setPage i p).page j = if (s.buf j).vpn = (s.buf i).vpn then p else s.page j :=
  Function.update_apply ..

end State

theorem sector_eq (b : Nat) : sectorSize * (b * (pageSize / sectorSize)) = b * pageSize := by
  simp only [sectorSize, pageSize]
  omega

/-- An edit of one buffer that keeps its links, its label and its page. -/
theorem Listed.modify {H : Host} {s : State} {l : List Nat} {i : Nat} {f : BlockBuffer → BlockBuffer}
    (h : Listed H s.dev l)
    (hf : ∀ b, (f b).blockId = b.blockId ∧ (f b).vpn = b.vpn ∧ (f b).next = b.next) :
    Listed H (s.modify i f).dev l := by
  have hbuf : ∀ j, ((s.modify i f).dev.bufferList j).blockId = (s.dev.bufferList j).blockId ∧
      ((s.modify i f).dev.bufferList j).vpn = (s.dev.bufferList j).vpn ∧
      ((s.modify i f).dev.bufferList j).next = (s.dev.bufferList j).next := by
    intro j
    by_cases hj : j = i
    · subst hj
      simpa [State.modify] using hf (s.dev.bufferList j)
    · simp [State.modify, hj]
  exact h.congr rfl (fun j => (hbuf j).1) (fun j => (hbuf j).2.1) (List.Perm.refl l)
    (h.chain.congr fun j _ => (hbuf j).2.2)

/-! ## Coherence -/

structure Coherent (H : Host) (s : State) (flat : Nat → UInt8) (seen : Finset Nat) : Prop where
  listed : ∃ l, Listed H s.dev l
  valid : ∀ i, i < s.dev.cacheSize → (s.buf i).valid = true
  label : ∀ b, b ∈ seen ↔ ∃ i, i < s.dev.cacheSize ∧ (s.buf i).blockId = b
  page : ∀ i, i < s.dev.cacheSize → ∀ j, j < pageSize →
    s.page i j = flat ((s.buf i).blockId * pageSize + j)
  disk : ∀ b, (∀ i, i < s.dev.cacheSize → (s.buf i).blockId = b → (s.buf i).dirty = false) →
    ∀ j, j < pageSize → s.disk (b * pageSize + j) = flat (b * pageSize + j)

theorem coherent_start (H : Host) (disk : Nat → UInt8) (mem : Nat → Nat → UInt8) :
    Coherent H (start disk mem) disk ∅ where
  listed := ⟨[], listed_start H disk mem⟩
  valid := fun i hi => absurd hi (Nat.not_lt_zero i)
  label := fun b => by simp [start]
  page := fun i hi => absurd hi (Nat.not_lt_zero i)
  disk := fun _ _ _ _ => rfl

section Access

variable {H : Host} {s s' : State} {flat : Nat → UInt8} {seen : Finset Nat} {b i : Nat}

theorem Coherent.label_inj (h : Coherent H s flat seen) {j : Nat} (hi : i < s.dev.cacheSize)
    (hj : j < s.dev.cacheSize) (he : (s.buf i).blockId = (s.buf j).blockId) : i = j := by
  obtain ⟨l, hl⟩ := h.listed
  exact hl.label_inj i j hi hj he

/-- Different buffers have different pages. -/
theorem Listed.vpn_inj {l : List Nat} (h : Listed H s.dev l) {j : Nat} (hi : i < s.dev.cacheSize)
    (hj : j < s.dev.cacheSize) (he : (s.buf i).vpn = (s.buf j).vpn) : i = j := by
  apply H.vpn_inj
  rw [← h.vpn_eq i hi, ← h.vpn_eq j hj]
  exact he

/-- As many buffers as blocks seen. -/
theorem Coherent.card_seen (h : Coherent H s flat seen) : seen.card = s.dev.cacheSize := by
  have himage : seen = (Finset.range s.dev.cacheSize).image fun i => (s.buf i).blockId := by
    ext b
    rw [h.label b]
    simp
  rw [himage, Finset.card_image_of_injOn, Finset.card_range]
  intro i hi j hj he
  exact h.label_inj (by simpa using hi) (by simpa using hj) he

/-- While the seen blocks are few there is room. -/
theorem Coherent.room (h : Coherent H s flat seen) (hcard : (insert b seen).card ≤ cacheBlocks) :
    (∃ i, i < s.dev.cacheSize ∧ (s.buf i).blockId = b) ∨ s.dev.cacheSize < cacheBlocks := by
  by_cases hb : b ∈ seen
  · exact Or.inl ((h.label b).mp hb)
  · rw [Finset.card_insert_of_notMem hb, h.card_seen] at hcard
    exact Or.inr hcard

/-- The head of a hit is valid. -/
theorem coherent_hit (h : Coherent H s flat seen) (hg : Got H s b s' i)
    (hi : i < s.dev.cacheSize) (hsize : s'.dev.cacheSize = s.dev.cacheSize) :
    (s'.buf i).valid = true ∧ Coherent H s' flat (insert b seen) := by
  obtain ⟨l, hl⟩ := hg.listed
  have hsame : ∀ j, j < s.dev.cacheSize → (s'.buf j).valid = (s.buf j).valid ∧
      (s'.buf j).dirty = (s.buf j).dirty ∧ (s'.buf j).blockId = (s.buf j).blockId ∧
      (s'.buf j).vpn = (s.buf j).vpn := by
    intro j hj
    rw [hg.same j hj]
    exact ⟨rfl, rfl, rfl, rfl⟩
  have hb : b ∈ seen := (h.label b).mpr ⟨i, hi, by rw [← (hsame i hi).2.2.1]; exact hg.label⟩
  refine ⟨by rw [(hsame i hi).1]; exact h.valid i hi, ⟨_, hl⟩, ?_, ?_, ?_, ?_⟩
  · intro j hj
    rw [hsize] at hj
    rw [(hsame j hj).1]
    exact h.valid j hj
  · intro c
    rw [Finset.insert_eq_of_mem hb, h.label c, hsize]
    constructor
    · rintro ⟨j, hj, he⟩
      exact ⟨j, hj, by rw [(hsame j hj).2.2.1]; exact he⟩
    · rintro ⟨j, hj, he⟩
      exact ⟨j, hj, by rw [← (hsame j hj).2.2.1]; exact he⟩
  · intro j hj k hk
    rw [hsize] at hj
    rw [State.page, (hsame j hj).2.2.1, (hsame j hj).2.2.2, hg.mem]
    exact h.page j hj k hk
  · intro c hc k hk
    rw [hg.disk]
    refine h.disk c (fun j hj he => ?_) k hk
    have := hc j (by rw [hsize]; exact hj) (by rw [(hsame j hj).2.2.1]; exact he)
    rw [← (hsame j hj).2.1]
    exact this

section Load

variable (hok : ∀ n, H.fault n = none)
include hok

theorem load_eq : load H s i b =
    ({ s.setPage i (patch (s.page i) 0 pageSize fun j => s.disk (b * pageSize + j)) with
      reads := s.reads + 1 } : State).modify i fun b => { b with valid := true } := by
  simp only [load, readBlock, hok, if_true, sector_eq]

theorem load_dev : (load H s i b).dev = (s.modify i fun b => { b with valid := true }).dev := by
  rw [load_eq hok]; rfl

theorem load_buf (j : Nat) :
    (load H s i b).buf j = if j = i then { s.buf i with valid := true } else s.buf j := by
  rw [State.buf, load_dev hok]
  exact State.buf_modify ..

theorem load_disk : (load H s i b).disk = s.disk := by
  rw [load_eq hok]; rfl

theorem load_page (j : Nat) :
    (load H s i b).page j =
      if (s.buf j).vpn = (s.buf i).vpn then
        patch (s.page i) 0 pageSize fun j => s.disk (b * pageSize + j)
      else s.page j := by
  have hvpn : ((load H s i b).buf j).vpn = (s.buf j).vpn := by
    rw [load_buf hok]
    split
    · rename_i hj
      rw [hj]
    · rfl
  rw [State.page, hvpn, load_eq hok]
  exact State.page_setPage ..

/-- A new buffer holds the block once it is loaded. -/
theorem coherent_load (h : Coherent H s flat seen) (hg : Got H s b s' i)
    (hi : i = s.dev.cacheSize) (hsize : s'.dev.cacheSize = s.dev.cacheSize + 1)
    (hclean : (s'.buf i).dirty = false) (hnew : ∀ j, j < s.dev.cacheSize → (s.buf j).blockId ≠ b) :
    Coherent H (load H s' i b) flat (insert b seen) := by
  obtain ⟨l, hl⟩ := hg.listed
  have hcs : (load H s' i b).dev.cacheSize = s.dev.cacheSize + 1 := by
    rw [load_dev hok]; exact hsize
  -- every other buffer is as it was before
  have hold : ∀ j, j < s.dev.cacheSize → (load H s' i b).buf j = { s.buf j with next := (s'.buf j).next } := by
    intro j hj
    rw [load_buf hok, if_neg (by omega)]
    exact hg.same j hj
  have hnew' : ((load H s' i b).buf i).blockId = b ∧ ((load H s' i b).buf i).valid = true ∧
      ((load H s' i b).buf i).dirty = false := by
    rw [load_buf hok, if_pos rfl]
    exact ⟨hg.label, rfl, hclean⟩
  have hdisk : ∀ k, k < pageSize → s.disk (b * pageSize + k) = flat (b * pageSize + k) :=
    h.disk b fun j hj he => absurd he (hnew j hj)
  refine ⟨⟨i :: l, by rw [load_dev hok]; exact hl.modify fun _ => ⟨rfl, rfl, rfl⟩⟩, ?_, ?_, ?_, ?_⟩
  · intro j hj
    rcases (by omega : j = i ∨ j < s.dev.cacheSize) with rfl | hj
    · exact hnew'.2.1
    · rw [hold j hj]
      exact h.valid j hj
  · intro c
    rw [Finset.mem_insert, h.label c, hcs]
    constructor
    · rintro (rfl | ⟨j, hj, he⟩)
      · exact ⟨i, by omega, hnew'.1⟩
      · exact ⟨j, by omega, by rw [hold j hj]; exact he⟩
    · rintro ⟨j, hj, he⟩
      rcases (by omega : j = i ∨ j < s.dev.cacheSize) with rfl | hj
      · exact Or.inl (he.symm.trans hnew'.1)
      · rw [hold j hj] at he
        exact Or.inr ⟨j, hj, he⟩
  · intro j hj k hk
    rw [load_page hok]
    rcases (by omega : j = i ∨ j < s.dev.cacheSize) with rfl | hj
    · rw [if_pos rfl, hnew'.1, patch_of_mem (Nat.zero_le k) (by omega), hg.disk]
      exact hdisk k hk
    · have hvpn : (s'.buf j).vpn ≠ (s'.buf i).vpn := fun he => by
        have := hl.vpn_inj (by omega) (by omega) he
        omega
      rw [if_neg hvpn, hold j hj, State.page, hg.same j hj, hg.mem]
      exact h.page j hj k hk
  · intro c hc k hk
    rw [load_disk hok, hg.disk]
    refine h.disk c (fun j hj he => ?_) k hk
    have := hc j (by omega) (by rw [hold j hj]; exact he)
    rw [hold j hj] at this
    exact this

/-- The head is made ready for a transfer: it is valid, or it is loaded. -/
theorem coherent_ready (h : Coherent H s flat seen) (hg : Got H s b s' i) :
    ∃ s₂, (if (s'.buf i).valid = false then load H s' i b else s') = s₂ ∧
      Coherent H s₂ flat (insert b seen) ∧ i < s₂.dev.cacheSize ∧ (s₂.buf i).blockId = b ∧
      ((s'.buf i).valid = false → b ∉ seen) := by
  rcases hg.size with ⟨hi, hsize⟩ | ⟨hi, hsize, hinv, hclean, hnew⟩
  · obtain ⟨hv, hcoh⟩ := coherent_hit h hg hi hsize
    refine ⟨s', by rw [hv]; rfl, hcoh, hg.lt, hg.label, fun hf => ?_⟩
    rw [hv] at hf; cases hf
  · refine ⟨load H s' i b, if_pos hinv, coherent_load hok h hg hi hsize hclean hnew, ?_, ?_, ?_⟩
    · rw [load_dev hok]; exact hg.lt
    · rw [load_buf hok, if_pos rfl]; exact hg.label
    · intro _ hb
      obtain ⟨j, hj, he⟩ := (h.label b).mp hb
      exact hnew j hj he

end Load

/-- A part of a block is overwritten in the page and in the flat disk. -/
theorem patch_block {p flat data : Nat → UInt8} {b po len j : Nat} (h : p j = flat (b * pageSize + j)) :
    patch p po len data j = patch flat (b * pageSize + po) len data (b * pageSize + j) := by
  by_cases hj : po ≤ j ∧ j < po + len
  · rw [patch_of_mem hj.1 hj.2, patch_of_mem (by omega) (by omega)]
    exact congrArg data (by omega)
  · rw [patch, if_neg hj, patch, if_neg (by omega)]
    exact h

/-- Other blocks are out of the range that is written. -/
theorem patch_other {flat data : Nat → UInt8} {b c po len j : Nat} (hc : c ≠ b) (hj : j < pageSize)
    (hlen : po + len ≤ pageSize) :
    patch flat (b * pageSize + po) len data (c * pageSize + j) = flat (c * pageSize + j) := by
  simp only [pageSize] at *
  rcases Nat.lt_or_gt_of_ne hc with hlt | hgt
  · exact patch_of_lt (by omega)
  · exact patch_of_ge (by omega)

/-- A write to a buffer is a write to `flat`. -/
theorem coherent_write (po len : Nat) (data : Nat → UInt8) (h : Coherent H s flat seen)
    (hi : i < s.dev.cacheSize) (hlen : po + len ≤ pageSize) :
    Coherent H ((s.modify i fun b => { b with dirty := true }).setPage i
        (patch (s.page i) po len data))
      (patch flat ((s.buf i).blockId * pageSize + po) len data) seen := by
  obtain ⟨l, hl⟩ := h.listed
  have hbuf : ∀ j, ((s.modify i fun b => { b with dirty := true }).setPage i
      (patch (s.page i) po len data)).buf j = if j = i then { s.buf i with dirty := true } else s.buf j :=
    fun j => State.buf_modify s i j fun b => { b with dirty := true }
  have hpage : ∀ j, j < s.dev.cacheSize → ((s.modify i fun b => { b with dirty := true }).setPage i
      (patch (s.page i) po len data)).page j =
        if j = i then patch (s.page i) po len data else s.page j := by
    intro j hj
    rw [State.page_setPage]
    simp only [State.buf_modify, if_true]
    by_cases hji : j = i
    · rw [if_pos hji, if_pos hji, if_pos rfl]
    · have hvpn : (s.buf j).vpn ≠ (s.buf i).vpn := fun he => hji (hl.vpn_inj hj hi he)
      rw [if_neg hji, if_neg hji, if_neg hvpn]
      simp [State.page, hji]
  refine ⟨⟨l, hl.modify (i := i) (f := fun b => { b with dirty := true })
    fun _ => ⟨rfl, rfl, rfl⟩⟩, ?_, ?_, ?_, ?_⟩
  · intro j hj
    rw [hbuf]
    split
    · exact h.valid i hi
    · exact h.valid j hj
  · intro c
    rw [h.label c]
    refine exists_congr fun j => and_congr_right fun _ => ?_
    rw [hbuf]
    split
    · rename_i hj
      rw [hj]
    · rfl
  · intro j hj k hk
    rw [hpage j hj, hbuf]
    by_cases hji : j = i
    · subst hji
      rw [if_pos rfl, if_pos rfl]
      show _ = patch flat ((s.buf j).blockId * pageSize + po) len data ((s.buf j).blockId * pageSize + k)
      exact patch_block (h.page j hj k hk)
    · have hlabel : (s.buf j).blockId ≠ (s.buf i).blockId := fun he => hji (h.label_inj hj hi he)
      rw [if_neg hji, if_neg hji, patch_other hlabel hk hlen]
      exact h.page j hj k hk
  · intro c hc k hk
    have hci : c ≠ (s.buf i).blockId := by
      rintro rfl
      have := hc i hi (by rw [hbuf, if_pos rfl])
      rw [hbuf, if_pos rfl] at this
      cases this
    rw [patch_other hci hk hlen]
    refine h.disk c (fun j hj he => ?_) k hk
    have hji : j ≠ i := by
      rintro rfl
      exact hci he.symm
    have := hc j hj (by rw [hbuf, if_neg hji]; exact he)
    rw [hbuf, if_neg hji] at this
    exact this

end Access

/-! ## The flat disk -/

/-- An access to the flat disk at `addr`: the disk and the caller's buffer, from
`pos` on. -/
def access (write : Bool) (x : (Nat → UInt8) × (Nat → UInt8)) (addr pos len : Nat) :
    (Nat → UInt8) × (Nat → UInt8) :=
  if write then (patch x.1 addr len fun j => x.2 (pos + j), x.2)
  else (x.1, patch x.2 pos len fun j => x.1 (addr + j))

theorem access_append (write : Bool) (x : (Nat → UInt8) × (Nat → UInt8)) (addr pos m n : Nat) :
    access write (access write x addr pos m) (addr + m) (pos + m) n =
      access write x addr pos (m + n) := by
  cases write with
  | true =>
      have h := patch_append (f := x.1) (a := addr) (n := n) (g := fun j => x.2 (pos + j)) m
      simpa only [access, if_true, Nat.add_assoc, Prod.mk.injEq, and_true] using h
  | false =>
      have h := patch_append (f := x.2) (a := pos) (n := n) (g := fun j => x.1 (addr + j)) m
      simpa only [access, Bool.false_eq_true, if_false, Nat.add_assoc, Prod.mk.injEq, true_and]
        using h

@[simp] theorem access_zero (write : Bool) (x : (Nat → UInt8) × (Nat → UInt8)) (addr pos : Nat) :
    access write x addr pos 0 = x := by
  cases write <;> simp [access]

/-! ## `translate_bytes` -/

/-- A block of a range of bytes. -/
theorem block_bounds {off size b : Nat} (h₁ : addr2Page off ≤ b) (h₂ : b < addr2PageUp (off + size)) :
    off < (b + 1) * pageSize ∧ b * pageSize < off + size := by
  have hoff := addr2Page_add_offset off
  have hlt := offset_lt off
  have hup := addr2PageUp_lt (off + size)
  simp only [pageSize] at *
  omega

/-- The loop of `translate_bytes`, from the block `b` on.  What the loop does to
one block moves the invariant to the next. -/
theorem translate_rule {H : Host} {write : Bool} {off size : Nat}
    (I : Nat → State → (Nat → UInt8) → Prop)
    (hstep : ∀ b s buf, addr2Page off ≤ b → b < addr2PageUp (off + size) → I b s buf →
      ∃ s' i r, getBlockBuffer H s b = some (s', i) ∧
        transfer H s' i b buf (b * pageSize - off) (max off (b * pageSize) - b * pageSize)
          (min (off + size) ((b + 1) * pageSize) - b * pageSize) write = r ∧ I (b + 1) r.1 r.2)
    {n b : Nat} {s : State} {buf : Nat → UInt8} (hb : addr2Page off ≤ b)
    (hn : b + n = addr2PageUp (off + size)) (h : I b s buf) :
    ∃ s' out, translate H write n s b buf (b * pageSize - off)
        (max off (b * pageSize) - b * pageSize) (off + size - b * pageSize) = some (s', out) ∧
      I (addr2PageUp (off + size)) s' out := by
  induction n generalizing b s buf with
  | zero => exact ⟨s, buf, rfl, by rw [← hn]; exact h⟩
  | succ n ih =>
      obtain ⟨s₁, i, r, hget, htr, hr⟩ := hstep b s buf hb (by omega) h
      obtain ⟨hlo, hhi⟩ := block_bounds hb (by omega : b < addr2PageUp (off + size))
      obtain ⟨s', out, hrest, hI⟩ := ih (b := b + 1) (by omega) (by omega) hr
      refine ⟨s', out, ?_, hI⟩
      have hmul : (b + 1) * pageSize = b * pageSize + pageSize := Nat.succ_mul ..
      have htp : (if off + size - b * pageSize > pageSize then pageSize
          else off + size - b * pageSize) =
          min (off + size) ((b + 1) * pageSize) - b * pageSize := by
        split <;> omega
      rw [translate, hget, htp]
      dsimp only
      rw [if_neg (by omega), htr]
      cases n with
      | zero => exact hrest
      | succ n =>
          obtain ⟨-, hnext⟩ := block_bounds (by omega : addr2Page off ≤ b + 1)
            (by omega : b + 1 < addr2PageUp (off + size))
          rw [if_pos (by omega)]
          rw [show b * pageSize - off + (min (off + size) ((b + 1) * pageSize) - b * pageSize -
            (max off (b * pageSize) - b * pageSize)) = (b + 1) * pageSize - off by omega]
          rw [show max off ((b + 1) * pageSize) - (b + 1) * pageSize = 0 by omega,
            show off + size - (b + 1) * pageSize = off + size - b * pageSize - pageSize by omega] at hrest
          exact hrest

theorem translateBytes_rule (H : Host) (write : Bool) (s : State) (buffer : Nat → UInt8)
    {off size : Nat} (hlt : off + size < 2 ^ 64) (I : Nat → State → (Nat → UInt8) → Prop)
    (hstep : ∀ b s buf, addr2Page off ≤ b → b < addr2PageUp (off + size) → I b s buf →
      ∃ s' i r, getBlockBuffer H s b = some (s', i) ∧
        transfer H s' i b buf (b * pageSize - off) (max off (b * pageSize) - b * pageSize)
          (min (off + size) ((b + 1) * pageSize) - b * pageSize) write = r ∧ I (b + 1) r.1 r.2)
    (h : I (addr2Page off) s buffer) :
    ∃ s' out, translateBytes H s off buffer size write = some (s', out) ∧
      I (addr2PageUp (off + size)) s' out := by
  have hoff := addr2Page_add_offset off
  have hlt' := offset_lt off
  have hup := le_addr2PageUp (off + size)
  have hpg : addr2Page off ≤ addr2PageUp (off + size) := by
    simp only [pageSize] at *
    omega
  have hall := translate_rule I hstep (n := addr2PageUp (off + size) - addr2Page off)
    (Nat.le_refl _) (Nat.add_sub_cancel' hpg) h
  rw [translateBytes, u64_of_lt hlt, u64_of_lt (by omega)]
  rw [show addr2Page off * pageSize - off = 0 by omega,
    show max off (addr2Page off * pageSize) - addr2Page off * pageSize = offset off by omega,
    show off + size - addr2Page off * pageSize = offset off + size by omega] at hall
  exact hall

section Translate

variable {H : Host} (hok : ∀ n, H.fault n = none)
include hok

/-- The transfer of a part of a block, unless it is a whole-block write to a
block not seen before. -/
theorem transfer_coherent {s s' : State} {flat : Nat → UInt8} {seen : Finset Nat} {b i : Nat}
    (write : Bool) (buffer : Nat → UInt8) (pos po tp : Nat) (h : Coherent H s flat seen) (hg : Got H s b s' i)
    (hpo : po ≤ tp) (htp : tp ≤ pageSize)
    (hw : write = true → po = 0 → tp = pageSize → b ∈ seen) :
    ∃ s₃, transfer H s' i b buffer pos po tp write =
        (s₃, (access write (flat, buffer) (b * pageSize + po) pos (tp - po)).2) ∧
      Coherent H s₃ (access write (flat, buffer) (b * pageSize + po) pos (tp - po)).1
        (insert b seen) := by
  obtain ⟨s₂, hs₂, hcoh, hi, hlabel, hnew⟩ := coherent_ready hok h hg
  cases write with
  | true =>
      have hcond : ((s'.buf i).valid = false ∧ (po ≠ 0 ∨ tp ≠ pageSize)) ↔
          (s'.buf i).valid = false := by
        refine ⟨fun hc => hc.1, fun hf => ⟨hf, ?_⟩⟩
        by_cases hpo : po = 0
        · exact Or.inr fun htp => hnew hf (hw rfl hpo htp)
        · exact Or.inl hpo
      have hwr := coherent_write po (tp - po) (fun j => buffer (pos + j))
        hcoh hi (by omega)
      rw [hlabel] at hwr
      refine ⟨_, ?_, hwr⟩
      simp only [transfer, if_true, hcond, hs₂]
      simp [access, State.page]
  | false =>
      refine ⟨s₂, ?_, hcoh⟩
      simp only [transfer, Bool.false_eq_true, if_false, hs₂, access]
      refine congrArg (Prod.mk s₂) (patch_congr fun j hj => ?_)
      rw [hcoh.page i hi (po + j) (by omega), hlabel, Nat.add_assoc]

/-- One block of the range: what was done to the flat disk before goes on to the
end of the block. -/
theorem block_coherent (write : Bool) (buffer : Nat → UInt8) {s : State} {flat : Nat → UInt8}
    {seen : Finset Nat} {off size b : Nat} (hb₁ : addr2Page off ≤ b) (hb₂ : b < addr2PageUp (off + size))
    (hcard : (insert b seen).card ≤ cacheBlocks)
    (hw : write = true → off ≤ b * pageSize → (b + 1) * pageSize ≤ off + size → b ∈ seen)
    (h : Coherent H s (access write (flat, buffer) off 0 (min size (b * pageSize - off))).1 seen) :
    ∃ s' i r, getBlockBuffer H s b = some (s', i) ∧
      transfer H s' i b (access write (flat, buffer) off 0 (min size (b * pageSize - off))).2
        (b * pageSize - off) (max off (b * pageSize) - b * pageSize)
        (min (off + size) ((b + 1) * pageSize) - b * pageSize) write = r ∧
      Coherent H r.1 (access write (flat, buffer) off 0 (min size ((b + 1) * pageSize - off))).1
        (insert b seen) ∧
      r.2 = (access write (flat, buffer) off 0 (min size ((b + 1) * pageSize - off))).2 := by
  obtain ⟨hlo, hhi⟩ := block_bounds hb₁ hb₂
  have hmul : (b + 1) * pageSize = b * pageSize + pageSize := Nat.succ_mul ..
  obtain ⟨l, hl⟩ := h.listed
  obtain ⟨s₁, i, hget, hgot⟩ := getBlockBuffer_spec hl (h.room hcard)
  obtain ⟨s₂, htr, hcoh⟩ := transfer_coherent hok write
    (access write (flat, buffer) off 0 (min size (b * pageSize - off))).2 (b * pageSize - off)
    (max off (b * pageSize) - b * pageSize) (min (off + size) ((b + 1) * pageSize) - b * pageSize)
    h hgot (by omega) (by omega)
    (fun hwt _ _ => hw hwt (by omega) (by omega))
  have happend := access_append write (flat, buffer) off 0 (min size (b * pageSize - off))
    (min (off + size) ((b + 1) * pageSize) - max off (b * pageSize))
  rw [show off + min size (b * pageSize - off) = b * pageSize + (max off (b * pageSize) - b * pageSize)
      by omega, show 0 + min size (b * pageSize - off) = b * pageSize - off by omega,
    show min size (b * pageSize - off) +
      (min (off + size) ((b + 1) * pageSize) - max off (b * pageSize)) =
        min size ((b + 1) * pageSize - off) by omega] at happend
  rw [show min (off + size) ((b + 1) * pageSize) - b * pageSize -
      (max off (b * pageSize) - b * pageSize) =
        min (off + size) ((b + 1) * pageSize) - max off (b * pageSize) by omega, Prod.mk.eta,
    happend] at htr hcoh
  exact ⟨s₁, i, _, hget, htr, hcoh, rfl⟩

/-- `translate_bytes` does what the access does to the flat disk. -/
theorem translateBytes_coherent (write : Bool) (buffer : Nat → UInt8) {s : State}
    {flat : Nat → UInt8} {seen : Finset Nat} {off size : Nat} (h : Coherent H s flat seen) (hlt : off + size < 2 ^ 64)
    (hcard : (seen ∪ Finset.Ico (addr2Page off) (addr2PageUp (off + size))).card ≤ cacheBlocks)
    (hw : write = true → ∀ c, off ≤ c * pageSize → (c + 1) * pageSize ≤ off + size → c ∈ seen) :
    ∃ s', translateBytes H s off buffer size write =
        some (s', (access write (flat, buffer) off 0 size).2) ∧
      Coherent H s' (access write (flat, buffer) off 0 size).1
        (seen ∪ Finset.Ico (addr2Page off) (addr2PageUp (off + size))) := by
  have hoff := addr2Page_add_offset off
  have hup := le_addr2PageUp (off + size)
  have hstart : min size (addr2Page off * pageSize - off) = 0 := by omega
  have hend : min size (addr2PageUp (off + size) * pageSize - off) = size := by omega
  obtain ⟨s', out, hrun, hcoh, rfl⟩ := translateBytes_rule H write s buffer hlt
    (fun b s buf => Coherent H s (access write (flat, buffer) off 0 (min size (b * pageSize - off))).1
        (seen ∪ Finset.Ico (addr2Page off) b) ∧
      buf = (access write (flat, buffer) off 0 (min size (b * pageSize - off))).2)
    (by
      rintro b s _ hb₁ hb₂ ⟨hcoh, rfl⟩
      have hsub : seen ∪ Finset.Ico (addr2Page off) (b + 1) =
          insert b (seen ∪ Finset.Ico (addr2Page off) b) := by
        rw [Nat.Ico_succ_right_eq_insert_Ico hb₁, Finset.union_insert]
      rw [hsub]
      refine block_coherent hok write buffer hb₁ hb₂ ?_
        (fun hwt h₁ h₂ => Finset.mem_union_left _ (hw hwt b h₁ h₂)) hcoh
      rw [← hsub]
      exact Nat.le_trans (Finset.card_le_card (Finset.union_subset_union_right
        (Finset.Ico_subset_Ico_right hb₂))) hcard)
    (by
      rw [hstart]
      simpa using h)
  rw [hend] at hrun hcoh
  exact ⟨s', hrun, hcoh⟩

end Translate

/-! ## Whole runs -/

inductive Op where
  | read (off size : Nat) (buffer : Nat → UInt8)
  | write (off size : Nat) (buffer : Nat → UInt8)

namespace Op

/-- The end of the range, as a number that may leave 64 bits. -/
def top : Op → Nat
  | read off size _ | write off size _ => off + size

/-- The blocks an access touches. -/
def blocks : Op → Finset Nat
  | read off size _ | write off size _ =>
      Finset.Ico (addr2Page off) (addr2PageUp (off + size))

/-- The access overwrites the whole block. -/
def Covers (b : Nat) : Op → Prop
  | read _ _ _ => False
  | write off size _ => off ≤ b * pageSize ∧ (b + 1) * pageSize ≤ off + size

end Op

/-- The calls in order, with the buffers that the reads have filled. -/
def runOps (H : Host) : State → List Op → Option (State × List (Nat → UInt8))
  | s, [] => some (s, [])
  | s, .read off size buffer :: ops =>
      match readBytes H s off buffer size with
      | none => none
      | some (s, out) => (runOps H s ops).map fun r => (r.1, out :: r.2)
  | s, .write off size buffer :: ops =>
      match writeBytes H s off buffer size with
      | none => none
      | some s => runOps H s ops

/-- The same calls on a flat disk. -/
def flatRun : (Nat → UInt8) → List Op → (Nat → UInt8) × List (Nat → UInt8)
  | flat, [] => (flat, [])
  | flat, .read off size buffer :: ops =>
      let r := flatRun flat ops
      (r.1, patch buffer 0 size (fun j => flat (off + j)) :: r.2)
  | flat, .write off size buffer :: ops => flatRun (patch flat off size buffer) ops

/-- All blocks that a sequence of calls touches. -/
def touched : List Op → Finset Nat
  | [] => ∅
  | op :: ops => op.blocks ∪ touched ops

/-- No block is overwritten as a whole before it has been touched. -/
def Warm : Finset Nat → List Op → Prop
  | _, [] => True
  | seen, op :: ops => (∀ b, op.Covers b → b ∈ seen) ∧ Warm (seen ∪ op.blocks) ops

theorem runOps_coherent {H : Host} (hok : ∀ n, H.fault n = none) {s : State} {flat : Nat → UInt8}
    {seen : Finset Nat} {ops : List Op} (h : Coherent H s flat seen) (hwarm : Warm seen ops)
    (htop : ∀ op ∈ ops, op.top < 2 ^ 64) (hcard : (seen ∪ touched ops).card ≤ cacheBlocks) :
    ∃ s', runOps H s ops = some (s', (flatRun flat ops).2) ∧
      Coherent H s' (flatRun flat ops).1 (seen ∪ touched ops) := by
  induction ops generalizing s flat seen with
  | nil => exact ⟨s, rfl, by simpa [touched, flatRun] using h⟩
  | cons op ops ih =>
      have hunion : seen ∪ touched (op :: ops) = seen ∪ op.blocks ∪ touched ops :=
        (Finset.union_assoc ..).symm
      rw [hunion] at hcard ⊢
      have hcard₁ : (seen ∪ op.blocks).card ≤ cacheBlocks :=
        Nat.le_trans (Finset.card_le_card Finset.subset_union_left) hcard
      have htop₁ := htop op (List.mem_cons_self ..)
      have htop₂ := fun op' h' => htop op' (List.mem_cons_of_mem _ h')
      cases op with
      | read off size buffer =>
          obtain ⟨s₁, hrun, hcoh⟩ := translateBytes_coherent hok false buffer h
            htop₁ hcard₁ nofun
          obtain ⟨s', hops, hcoh'⟩ := ih hcoh hwarm.2 htop₂ hcard
          refine ⟨s', ?_, hcoh'⟩
          rw [runOps, readBytes, hrun]
          dsimp only
          rw [hops]
          simp only [flatRun, access, Bool.false_eq_true, if_false, Option.map_some]
      | write off size buffer =>
          obtain ⟨s₁, hrun, hcoh⟩ := translateBytes_coherent hok true buffer h
            htop₁ hcard₁ (fun _ c h₁ h₂ => hwarm.1 c ⟨h₁, h₂⟩)
          simp only [access, if_true, Nat.zero_add] at hcoh
          obtain ⟨s', hops, hcoh'⟩ := ih hcoh hwarm.2 htop₂ hcard
          refine ⟨s', ?_, hcoh'⟩
          rw [runOps, writeBytes, hrun]
          exact hops

/-- The buffered block device refines a flat disk.  Every call returns, and every
read fills its buffer with the bytes last written, if the calls touch no more
than `CACHE_BLOCKS` blocks and none overwrites a whole block before it has been
touched. -/
theorem runOps_refines (H : Host) (hok : ∀ n, H.fault n = none) (disk : Nat → UInt8)
    (mem : Nat → Nat → UInt8) (ops : List Op) (hwarm : Warm ∅ ops)
    (htop : ∀ op ∈ ops, op.top < 2 ^ 64) (hcard : (touched ops).card ≤ cacheBlocks) :
    ∃ s, runOps H (start disk mem) ops = some (s, (flatRun disk ops).2) := by
  obtain ⟨s, hrun, -⟩ := runOps_coherent hok (coherent_start H disk mem) hwarm htop
    (by rw [Finset.empty_union]; exact hcard)
  exact ⟨s, hrun⟩

/-- A host whose pages are numbered from `0` and whose device never fails. -/
def plainHost : Host := ⟨id, id, fun _ => none, fun _ _ h => h⟩

/-- A part of block `0`, then the whole block, then a read. -/
def partWholeRead : List Op :=
  [.write 10 20 fun _ => 1, .write 0 4096 fun _ => 2, .read 5 3 fun _ => 0]

theorem runOps_refines_partWholeRead :
    ∃ s, runOps plainHost (start (fun _ => 0) fun _ _ => 0) partWholeRead =
      some (s, (flatRun (fun _ => 0) partWholeRead).2) := by
  refine runOps_refines plainHost (fun _ => rfl) _ _ partWholeRead ⟨?_, ?_, ?_, trivial⟩ ?_
    (by decide)
  · rintro b ⟨h₁, h₂⟩
    simp only [pageSize] at h₁ h₂
    omega
  · rintro b ⟨h₁, h₂⟩
    obtain rfl : b = 0 := by simp only [pageSize] at h₂; omega
    decide
  · rintro b ⟨⟩
  · simp [partWholeRead, Op.top]

/-- A disk whose first block is all ones. -/
def onesAtZero (a : Nat) : UInt8 := if a < pageSize then 1 else 0

/-- One byte of each of the blocks `0` to `64`. -/
def readEach : List Op := (List.range 65).map fun b => .read (b * pageSize) 1 fun _ => 7

/-- Two runs that leave the flat disk.  The first access to block `0` writes all
of it: the buffer is left invalid, and a read of the first byte loads the old
block over it.  And the read of a 65th block evicts block `0`, whose buffer keeps
its flags and its page. -/
theorem reads_diverge :
    ((runOps plainHost (start (fun _ => 0) fun _ _ => 0)
        [.write 0 4096 fun _ => 1, .read 0 1 fun _ => 7]).map (fun r => r.2.map (· 0)) = some [0] ∧
      (flatRun (fun _ => 0) [.write 0 4096 fun _ => 1, .read 0 1 fun _ => 7]).2.map (· 0) = [1]) ∧
    ((runOps plainHost (start onesAtZero fun _ _ => 0) readEach).map
        fun r => (r.2.map (· 0)).getLast?) = some (some 1) ∧
      ((flatRun onesAtZero readEach).2.map (· 0)).getLast? = some 0 := by
  decide

end Block
