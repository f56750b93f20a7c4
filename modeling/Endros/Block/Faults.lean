import Endros.Block.Refine

/-!
# Reads that fail

`read_bytes` and `write_bytes` return `0` whatever the device does.  A read that
fails leaves its buffer invalid and its page with any bytes, and the transfer
goes on with that page.

`Holds` relates a cache to the flat disk it stands for: a valid buffer holds the
block it is labelled with, and a block with no valid buffer is on the disk.
Every cache with a well-formed list stands for one flat disk (`content`).  Unlike
`Coherent` this allows for buffers that are not valid.

One block of a transfer is one edit of one buffer (`State.edit`).  A read keeps
the flat disk, also if it fails, and gives the caller the bytes of the page.  A
write goes to the flat disk if the buffer is valid after it, and is lost if it is
not.
-/

namespace Block

open Lib Mem

/-! ## The flat disk of a cache -/

/-- The block has a valid buffer. -/
def Cached (s : State) (b : Nat) : Prop :=
  ∃ i, i < s.dev.cacheSize ∧ (s.buf i).blockId = b ∧ (s.buf i).valid = true

instance (s : State) (b : Nat) : Decidable (Cached s b) :=
  decidable_of_iff (∃ i ∈ List.range s.dev.cacheSize, (s.buf i).blockId = b ∧ (s.buf i).valid = true)
    (by simp [Cached])

/-- The labels of the buffers. -/
def labels (s : State) : Finset Nat :=
  (Finset.range s.dev.cacheSize).image fun i => (s.buf i).blockId

/-- The content of the disk as the cache has it. -/
def content (s : State) (a : Nat) : UInt8 :=
  match (List.range s.dev.cacheSize).find? fun i =>
      (s.buf i).blockId = addr2Page a ∧ (s.buf i).valid = true with
  | some i => s.page i (offset a)
  | none => s.disk a

structure Holds (H : Host) (s : State) (flat : Nat → UInt8) : Prop where
  listed : ∃ l, Listed H s.dev l
  page : ∀ i, i < s.dev.cacheSize → (s.buf i).valid = true → ∀ j, j < pageSize →
    s.page i j = flat ((s.buf i).blockId * pageSize + j)
  disk : ∀ b, ¬ Cached s b → ∀ j, j < pageSize →
    s.disk (b * pageSize + j) = flat (b * pageSize + j)

section Content

variable {H : Host} {s : State} {flat : Nat → UInt8} {l : List Nat} {i b : Nat}

theorem content_of_not_cached {a : Nat} (h : ¬ Cached s (addr2Page a)) : content s a = s.disk a := by
  rw [content]
  split
  · rename_i i hi
    have hlabel := List.find?_some hi
    exact absurd ⟨i, List.mem_range.mp (List.mem_of_find?_eq_some hi), by simpa using hlabel⟩ h
  · rfl

theorem content_of_valid {a : Nat} (h : Listed H s.dev l) (hi : i < s.dev.cacheSize)
    (hv : (s.buf i).valid = true) (ha : (s.buf i).blockId = addr2Page a) :
    content s a = s.page i (offset a) := by
  rw [content]
  split
  · rename_i j hj
    obtain ⟨hlabel, -⟩ : (s.buf j).blockId = addr2Page a ∧ (s.buf j).valid = true := by
      simpa using List.find?_some hj
    have hlt : j < s.dev.cacheSize := List.mem_range.mp (List.mem_of_find?_eq_some hj)
    rw [h.label_inj j i hlt hi (hlabel.trans ha.symm)]
  · rename_i hnone
    have hno := List.find?_eq_none.mp hnone i (List.mem_range.mpr hi)
    exact absurd (by simpa using ⟨ha, hv⟩) hno

theorem addr2Page_block {j : Nat} (b : Nat) (hj : j < pageSize) : addr2Page (b * pageSize + j) = b := by
  simp only [addr2Page, pageSize] at *
  omega

theorem offset_block {j : Nat} (b : Nat) (hj : j < pageSize) : offset (b * pageSize + j) = j := by
  simp only [offset, pageSize] at *
  omega

/-- Every cache with a well-formed list stands for a flat disk. -/
theorem Listed.holds (h : Listed H s.dev l) : Holds H s (content s) where
  listed := ⟨l, h⟩
  page := fun i hi hv j hj => by
    rw [content_of_valid h hi hv (addr2Page_block _ hj).symm, offset_block _ hj]
  disk := fun b hb j hj => by
    rw [content_of_not_cached (by rwa [addr2Page_block _ hj])]

/-- There is no other flat disk. -/
theorem Holds.content_eq (h : Holds H s flat) : content s = flat := by
  funext a
  obtain ⟨l, hl⟩ := h.listed
  have ha := addr2Page_add_offset a
  by_cases hc : Cached s (addr2Page a)
  · obtain ⟨i, hi, he, hv⟩ := hc
    rw [content_of_valid hl hi hv he, h.page i hi hv _ (offset_lt a), he, ha]
  · rw [content_of_not_cached hc, ← ha]
    exact h.disk _ hc _ (offset_lt a)

/-- A coherent cache stands for its flat disk. -/
theorem Coherent.holds {seen : Finset Nat} (h : Coherent H s flat seen) : Holds H s flat where
  listed := h.listed
  page := fun i hi _ => h.page i hi
  disk := fun b hb => h.disk b fun i hi he => absurd ⟨i, hi, he, h.valid i hi⟩ hb

theorem mem_labels : b ∈ labels s ↔ ∃ i, i < s.dev.cacheSize ∧ (s.buf i).blockId = b := by
  simp [labels]

theorem Listed.card_labels (h : Listed H s.dev l) : (labels s).card = s.dev.cacheSize := by
  rw [labels, Finset.card_image_of_injOn, Finset.card_range]
  intro i hi j hj he
  exact h.label_inj i j (by simpa using hi) (by simpa using hj) he

/-- While the labels are few there is room. -/
theorem Listed.room (h : Listed H s.dev l) (hcard : (insert b (labels s)).card ≤ cacheBlocks) :
    (∃ i, i < s.dev.cacheSize ∧ (s.buf i).blockId = b) ∨ s.dev.cacheSize < cacheBlocks := by
  by_cases hb : b ∈ labels s
  · exact Or.inl (mem_labels.mp hb)
  · rw [Finset.card_insert_of_notMem hb, h.card_labels] at hcard
    exact Or.inr hcard

end Content

/-! ## `get_block_buffer` -/

section Got

variable {H : Host} {s s' : State} {flat : Nat → UInt8} {b i : Nat} (hg : Got H s b s' i)
include hg

/-- The buffers after `get_block_buffer` are those before it, and maybe one that
is not valid. -/
theorem Got.cases_lt {j : Nat} (hj : j < s'.dev.cacheSize) :
    j < s.dev.cacheSize ∨ j = i ∧ (s'.buf i).valid = false ∧
      ∀ k, k < s.dev.cacheSize → (s.buf k).blockId ≠ b := by
  rcases hg.size with ⟨-, hsize⟩ | ⟨hi, hsize, hv, -, hnew⟩
  · exact Or.inl (by omega)
  · by_cases hji : j = i
    · exact Or.inr ⟨hji, hv, hnew⟩
    · exact Or.inl (by omega)

theorem Got.size_le : s.dev.cacheSize ≤ s'.dev.cacheSize := by
  rcases hg.size with ⟨-, hsize⟩ | ⟨-, hsize, -⟩ <;> omega

theorem Got.cached_iff (c : Nat) : Cached s' c ↔ Cached s c := by
  constructor
  · rintro ⟨j, hj, hlabel, hv⟩
    rcases hg.cases_lt hj with hj | ⟨rfl, hf, -⟩
    · rw [hg.same j hj] at hlabel hv
      exact ⟨j, hj, hlabel, hv⟩
    · rw [hf] at hv
      cases hv
  · rintro ⟨j, hj, hlabel, hv⟩
    refine ⟨j, Nat.lt_of_lt_of_le hj hg.size_le, ?_, ?_⟩
    · rw [hg.same j hj]; exact hlabel
    · rw [hg.same j hj]; exact hv

/-- The buffer that is returned is valid if the block had a valid one. -/
theorem Got.valid_iff : (s'.buf i).valid = true ↔ Cached s b := by
  rw [← hg.cached_iff b]
  constructor
  · exact fun hv => ⟨i, hg.lt, hg.label, hv⟩
  · rintro ⟨j, hj, hlabel, hv⟩
    obtain ⟨l, hl⟩ := hg.listed
    rw [hl.label_inj i j hg.lt hj (hg.label.trans hlabel.symm)]
    exact hv

theorem Got.labels_eq : labels s' = insert b (labels s) := by
  ext c
  rw [Finset.mem_insert, mem_labels, mem_labels]
  constructor
  · rintro ⟨j, hj, hlabel⟩
    rcases hg.cases_lt hj with hj | ⟨rfl, -⟩
    · rw [hg.same j hj] at hlabel
      exact Or.inr ⟨j, hj, hlabel⟩
    · exact Or.inl (hlabel.symm.trans hg.label)
  · rintro (rfl | ⟨j, hj, hlabel⟩)
    · exact ⟨i, hg.lt, hg.label⟩
    · exact ⟨j, Nat.lt_of_lt_of_le hj hg.size_le, by rw [hg.same j hj]; exact hlabel⟩

theorem Got.holds (h : Holds H s flat) : Holds H s' flat := by
  obtain ⟨l, hl⟩ := hg.listed
  refine ⟨⟨_, hl⟩, ?_, ?_⟩
  · intro j hj hv k hk
    rcases hg.cases_lt hj with hj | ⟨rfl, hf, -⟩
    · rw [hg.same j hj] at hv
      rw [State.page, hg.same j hj, hg.mem]
      exact h.page j hj hv k hk
    · rw [hf] at hv
      cases hv
  · intro c hc
    rw [hg.disk]
    exact h.disk c (by rwa [hg.cached_iff] at hc)

end Got

/-! ## Edits of one buffer -/

/-- New flags and a new page for one buffer. -/
def State.edit (s : State) (i : Nat) (valid dirty : Bool) (p : Nat → UInt8) (reads : Nat) : State :=
  { (s.modify i fun b => { b with valid, dirty }).setPage i p with reads }

section Edit

variable {H : Host} {s : State} {flat flat' : Nat → UInt8} {l : List Nat} {i n : Nat}
  {valid dirty : Bool} {p : Nat → UInt8}

theorem State.edit_buf (j : Nat) :
    (s.edit i valid dirty p n).buf j = if j = i then { s.buf i with valid, dirty } else s.buf j :=
  State.buf_modify s i j fun b => { b with valid, dirty }

@[simp] theorem State.edit_blockId (j : Nat) :
    ((s.edit i valid dirty p n).buf j).blockId = (s.buf j).blockId := by
  rw [State.edit_buf]
  split
  · rename_i hj
    rw [hj]
  · rfl

theorem State.edit_page (h : Listed H s.dev l) (hi : i < s.dev.cacheSize) {j : Nat}
    (hj : j < s.dev.cacheSize) :
    (s.edit i valid dirty p n).page j = if j = i then p else s.page j := by
  show Function.update s.mem ((s.modify i fun b => { b with valid, dirty }).buf i).vpn p
    ((s.edit i valid dirty p n).buf j).vpn = _
  rw [State.buf_modify, if_pos rfl, State.edit_buf, Function.update_apply]
  by_cases hji : j = i
  · rw [if_pos hji, if_pos hji, if_pos rfl]
  · have hvpn : (s.buf j).vpn ≠ (s.buf i).vpn := fun he => hji (h.vpn_inj hj hi he)
    rw [if_neg hji, if_neg hji, if_neg hvpn]
    rfl

/-- Different buffers have different labels. -/
theorem Listed.label_ne (h : Listed H s.dev l) (hi : i < s.dev.cacheSize) {j : Nat}
    (hj : j < s.dev.cacheSize) (hji : j ≠ i) : (s.buf j).blockId ≠ (s.buf i).blockId :=
  fun he => hji (h.label_inj j i hj hi he)

theorem labels_edit : labels (s.edit i valid dirty p n) = labels s :=
  Finset.image_congr fun j _ => State.edit_blockId j

theorem cached_edit (h : Listed H s.dev l) (hi : i < s.dev.cacheSize) (c : Nat) :
    Cached (s.edit i valid dirty p n) c ↔
      if c = (s.buf i).blockId then valid = true else Cached s c := by
  constructor
  · rintro ⟨j, hj, hlabel, hv⟩
    rw [State.edit_blockId] at hlabel
    rw [State.edit_buf] at hv
    by_cases hji : j = i
    · subst hji
      rw [if_pos rfl] at hv
      rw [if_pos hlabel.symm]
      exact hv
    · rw [if_neg hji] at hv
      rw [if_neg (hlabel ▸ h.label_ne hi hj hji)]
      exact ⟨j, hj, hlabel, hv⟩
  · split
    · rename_i hc
      exact fun hv => ⟨i, hi, by rw [State.edit_blockId, hc], by rw [State.edit_buf, if_pos rfl, hv]⟩
    · rename_i hc
      rintro ⟨j, hj, hlabel, hv⟩
      have hji : j ≠ i := fun he => hc (by rw [← hlabel, he])
      exact ⟨j, hj, by rw [State.edit_blockId, hlabel], by rw [State.edit_buf, if_neg hji, hv]⟩

/-- The flat disk after an edit: the page of the buffer if it is valid, and the
disk if it is not. -/
theorem Holds.edit (h : Holds H s flat) (hi : i < s.dev.cacheSize)
    (hvalid : valid = true → ∀ j, j < pageSize → p j = flat' ((s.buf i).blockId * pageSize + j))
    (hinvalid : valid = false → ∀ j, j < pageSize →
      s.disk ((s.buf i).blockId * pageSize + j) = flat' ((s.buf i).blockId * pageSize + j))
    (hother : ∀ c, c ≠ (s.buf i).blockId → ∀ j, j < pageSize →
      flat' (c * pageSize + j) = flat (c * pageSize + j)) :
    Holds H (s.edit i valid dirty p n) flat' := by
  obtain ⟨l, hl⟩ := h.listed
  refine ⟨⟨l, hl.modify (i := i) (f := fun b => { b with valid, dirty }) fun _ => ⟨rfl, rfl, rfl⟩⟩,
    ?_, ?_⟩
  · intro j hj hv k hk
    rw [State.edit_page hl hi hj, State.edit_blockId]
    rw [State.edit_buf] at hv
    by_cases hji : j = i
    · subst hji
      rw [if_pos rfl] at hv ⊢
      exact hvalid hv k hk
    · rw [if_neg hji] at hv ⊢
      rw [hother _ (hl.label_ne hi hj hji) k hk]
      exact h.page j hj hv k hk
  · intro c hc k hk
    rw [cached_edit hl hi] at hc
    show s.disk _ = _
    by_cases he : c = (s.buf i).blockId
    · subst he
      rw [if_pos rfl] at hc
      exact hinvalid (by simpa using hc) k hk
    · rw [if_neg he] at hc
      rw [hother c he k hk]
      exact h.disk c hc k hk

end Edit

/-! ## Transfers -/

/-- A transfer has moved on by one block.  `flat` is what the cache stands for
now, `valid` says whether the buffer of the block is valid, and `n` counts the
reads of the device. -/
structure Moved (H : Host) (s : State) (b : Nat) (s' : State) (flat : Nat → UInt8) (valid : Bool)
    (n : Nat) : Prop where
  holds : Holds H s' flat
  labels_eq : labels s' = insert b (labels s)
  cached_iff : ∀ c, Cached s' c ↔ if c = b then valid = true else Cached s c
  reads : s'.reads = s.reads + n

section Transfer

variable {H : Host} {s s' : State} {flat flat' : Nat → UInt8} {b i n : Nat} {valid dirty : Bool}
  {p : Nat → UInt8}

/-- An edit of the buffer that `get_block_buffer` returns. -/
theorem Got.moved_edit (hg : Got H s b s' i) (h : Holds H s flat)
    (hvalid : valid = true → ∀ j, j < pageSize → p j = flat' (b * pageSize + j))
    (hinvalid : valid = false → ∀ j, j < pageSize →
      s.disk (b * pageSize + j) = flat' (b * pageSize + j))
    (hother : ∀ c, c ≠ b → ∀ j, j < pageSize → flat' (c * pageSize + j) = flat (c * pageSize + j)) :
    Moved H s b (s'.edit i valid dirty p (s.reads + n)) flat' valid n := by
  obtain ⟨l, hl⟩ := hg.listed
  refine ⟨(hg.holds h).edit hg.lt ?_ ?_ ?_, ?_, fun c => ?_, rfl⟩
  · rw [hg.label]; exact hvalid
  · rw [hg.label, hg.disk]; exact hinvalid
  · rw [hg.label]; exact hother
  · rw [labels_edit, hg.labels_eq]
  · rw [cached_edit hl hg.lt, hg.label, hg.cached_iff]

/-- A buffer that is not touched. -/
theorem Got.moved (hg : Got H s b s' i) (h : Holds H s flat) (hv : (s'.buf i).valid = valid) :
    Moved H s b s' flat valid 0 := by
  refine ⟨hg.holds h, hg.labels_eq, fun c => ?_, hg.reads⟩
  rw [hg.cached_iff]
  split
  · rename_i hc
    rw [hc, ← hv, hg.valid_iff]
  · rfl

theorem modify_same :
    (s.modify i fun b => { b with valid := (s.buf i).valid, dirty := (s.buf i).dirty }) = s := by
  simp [State.modify, State.buf]

/-- `load` is an edit: a read that fails leaves its bytes in the page and the
buffer invalid. -/
theorem load_eq_edit (hv : (s.buf i).valid = false) :
    load H s i b = s.edit i (H.fault s.reads).isNone (s.buf i).dirty
      (patch (s.page i) 0 pageSize ((H.fault s.reads).getD fun j => s.disk (b * pageSize + j)))
      (s.reads + 1) := by
  rw [load, readBlock, State.edit]
  cases hf : H.fault s.reads with
  | none =>
      rw [sector_eq]
      simp [State.modify, State.setPage, State.buf, State.page]
  | some junk =>
      have hsame := modify_same (s := s) (i := i)
      rw [hv] at hsame
      show _ = { (s.modify i fun b => { b with valid := false, dirty := (s.buf i).dirty }).setPage i _
        with reads := s.reads + 1 }
      rw [hsame]
      rfl

theorem page_dirty (j : Nat) : (s.modify i fun b => { b with dirty := true }).page j = s.page j := by
  rw [State.page, State.buf_modify]
  split
  · rename_i hj
    rw [hj]
    rfl
  · rfl

theorem edit_write {q : Nat → UInt8} :
    ((s.edit i valid dirty p n).modify i fun b => { b with dirty := true }).setPage i q =
      s.edit i valid true q n := by
  simp [State.edit, State.modify, State.setPage, State.buf]

theorem write_eq_edit {q : Nat → UInt8} :
    (s.modify i fun b => { b with dirty := true }).setPage i q =
      s.edit i (s.buf i).valid true q s.reads := by
  simp [State.edit, State.modify, State.setPage, State.buf]

/-- A read of a part of a block.  `f` is what the read of the device has left, if
it is made and fails. -/
theorem transfer_read {f : Option (Nat → UInt8)} {needs : Bool} (buffer : Nat → UInt8)
    (pos po tp : Nat) (hg : Got H s b s' i) (h : Holds H s flat) (htp : tp ≤ pageSize)
    (hneeds : needs = true ↔ ¬ Cached s b) (hf : f = if needs then H.fault s.reads else none) :
    ∃ s₂, transfer H s' i b buffer pos po tp false =
        (s₂, patch buffer pos (tp - po) fun j =>
          f.getD (fun j => flat (b * pageSize + j)) (po + j)) ∧
      Moved H s b s₂ flat f.isNone needs.toNat := by
  rw [transfer]
  simp only [Bool.false_eq_true, if_false]
  cases needs with
  | false =>
      have hv : (s'.buf i).valid = true := hg.valid_iff.mpr (by simpa using hneeds)
      subst hf
      rw [hv, if_neg (by simp)]
      refine ⟨s', congrArg (Prod.mk s') (patch_congr fun j hj => ?_), hg.moved h hv⟩
      rw [(hg.holds h).page i hg.lt hv (po + j) (by omega), hg.label]
      rfl
  | true =>
      have hnot : ¬ Cached s b := hneeds.mp rfl
      have hv : (s'.buf i).valid = false := by
        simpa using mt hg.valid_iff.mp hnot
      obtain ⟨l, hl⟩ := hg.listed
      rw [if_pos rfl] at hf
      have hdisk : (f.getD fun j => s'.disk (b * pageSize + j)) =
          f.getD fun j => s.disk (b * pageSize + j) := by rw [hg.disk]
      rw [if_pos hv, load_eq_edit hv, hg.reads, ← hf, hdisk]
      refine ⟨_, congrArg (Prod.mk _) (patch_congr fun j hj => ?_), hg.moved_edit h ?_ ?_ ?_⟩
      · rw [State.edit_page hl hg.lt hg.lt, if_pos rfl, patch_of_mem (Nat.zero_le _) (by omega)]
        cases f with
        | none => exact h.disk b hnot (po + j) (by omega)
        | some junk => rfl
      · intro hnone j hj
        rw [Option.isNone_iff_eq_none.mp hnone, patch_of_mem (Nat.zero_le _) (by omega)]
        exact h.disk b hnot j hj
      · exact fun _ => h.disk b hnot
      · exact fun _ _ _ _ => rfl

/-- A write of a part of a block.  It is kept if the buffer is valid, or if it is
only a part and the read before it succeeds. -/
theorem transfer_write {f : Option (Nat → UInt8)} {needs : Bool} (kept : Bool)
    (buffer : Nat → UInt8) (pos po tp : Nat) (hg : Got H s b s' i) (h : Holds H s flat) (hpo : po ≤ tp)
    (htp : tp ≤ pageSize) (hneeds : needs = true ↔ ¬ Cached s b ∧ (po ≠ 0 ∨ tp ≠ pageSize))
    (hf : f = if needs then H.fault s.reads else none)
    (hkept : kept = true ↔ Cached s b ∨ needs = true ∧ f = none) :
    ∃ s₂, transfer H s' i b buffer pos po tp true = (s₂, buffer) ∧
      Moved H s b s₂ (if kept then patch flat (b * pageSize + po) (tp - po) fun j => buffer (pos + j)
        else flat) kept needs.toNat := by
  have hcond : ((s'.buf i).valid = false ∧ (po ≠ 0 ∨ tp ≠ pageSize)) ↔ needs = true := by
    rw [hneeds, ← hg.valid_iff, Bool.not_eq_true]
  have hother : ∀ c, c ≠ b → ∀ j, j < pageSize →
      (if kept then patch flat (b * pageSize + po) (tp - po) fun j => buffer (pos + j) else flat)
        (c * pageSize + j) = flat (c * pageSize + j) := by
    intro c hc j hj
    split
    · exact patch_other hc hj (by omega)
    · rfl
  have hlost : kept = false → ∀ j, j < pageSize → s.disk (b * pageSize + j) =
      (if kept then patch flat (b * pageSize + po) (tp - po) fun j => buffer (pos + j) else flat)
        (b * pageSize + j) := by
    intro hk
    rw [hk, if_neg (by simp)]
    exact h.disk b fun hc => by rw [hkept.mpr (Or.inl hc)] at hk; cases hk
  obtain ⟨l, hl⟩ := hg.listed
  rw [transfer, if_pos rfl]
  simp only [hcond]
  cases hn : needs with
  | false =>
      rw [if_neg (by simp), page_dirty, write_eq_edit, hg.reads]
      have hv : (s'.buf i).valid = kept := by
        rw [Bool.eq_iff_iff, hg.valid_iff, hkept, hn]
        simp
      rw [hv]
      refine ⟨_, rfl, hg.moved_edit (n := 0) h (fun hk j hj => ?_) hlost hother⟩
      rw [hk, if_pos rfl]
      refine patch_block ?_
      rw [(hg.holds h).page i hg.lt (hv.trans hk) j hj, hg.label]
  | true =>
      obtain ⟨hv, -⟩ := hcond.mpr hn
      have hnot : ¬ Cached s b := (hneeds.mp hn).1
      have hkf : f.isNone = kept := by
        rw [Bool.eq_iff_iff, hkept, hn, Option.isNone_iff_eq_none]
        simp [hnot]
      rw [hn, if_pos rfl] at hf
      rw [if_pos rfl, page_dirty, load_eq_edit hv, State.edit_page hl hg.lt hg.lt, if_pos rfl,
        edit_write, hg.reads, ← hf, hkf]
      refine ⟨_, rfl, hg.moved_edit h (fun hk j hj => ?_) hlost hother⟩
      rw [hk, if_pos rfl, Option.isNone_iff_eq_none.mp (hkf.trans hk)]
      refine patch_block ?_
      rw [patch_of_mem (Nat.zero_le _) (by omega), hg.disk]
      exact h.disk b hnot j hj

end Transfer

/-! ## The reads of a transfer -/

/-- How many of the blocks in `[b, c)` need a read. -/
def readsTo (needs : Nat → Bool) (b c : Nat) : Nat := (List.range' b (c - b)).countP needs

theorem readsTo_self (needs : Nat → Bool) (b : Nat) : readsTo needs b b = 0 := by
  simp [readsTo]

theorem readsTo_succ (needs : Nat → Bool) {b c : Nat} (h : b ≤ c) :
    readsTo needs b (c + 1) = readsTo needs b c + (needs c).toNat := by
  rw [readsTo, readsTo, show c + 1 - b = c - b + 1 by omega, List.range'_concat,
    List.countP_append, Nat.one_mul, Nat.add_sub_cancel' h, List.countP_singleton]
  cases needs c <;> rfl

namespace Op

instance (op : Op) (b : Nat) : Decidable (op.Covers b) := by
  cases op <;> unfold Covers <;> infer_instance

/-- The first block. -/
def first : Op → Nat
  | read off _ _ | write off _ _ => addr2Page off

/-- The block is read from the device. -/
def needs (s : State) (op : Op) (b : Nat) : Bool := !decide (Cached s b) && !decide (op.Covers b)

theorem needs_iff {s : State} {op : Op} {b : Nat} :
    op.needs s b = true ↔ ¬ Cached s b ∧ ¬ op.Covers b := by
  simp [needs]

/-- What the read of a block leaves in its page, if it is made and fails. -/
def failure (H : Host) (s : State) (op : Op) (b : Nat) : Option (Nat → UInt8) :=
  if op.needs s b then H.fault (s.reads + readsTo (op.needs s) op.first b) else none

/-- The write of a part of the block is kept. -/
def Kept (H : Host) (s : State) (op : Op) (b : Nat) : Prop :=
  Cached s b ∨ op.needs s b = true ∧ op.failure H s b = none

/-- The byte at an address of the flat disk, as a read gets it. -/
def received (H : Host) (s : State) (op : Op) (flat : Nat → UInt8) (a : Nat) : UInt8 :=
  (op.failure H s (addr2Page a)).getD (fun j => flat (addr2Page a * pageSize + j)) (offset a)

end Op

instance (H : Host) (s : State) (op : Op) (b : Nat) : Decidable (op.Kept H s b) :=
  decidable_of_iff (Cached s b ∨ op.needs s b = true ∧ (op.failure H s b).isNone = true)
    (by rw [Op.Kept, Option.isNone_iff_eq_none])

/-- A transfer is before the block `c`. -/
structure Underway (H : Host) (s : State) (op : Op) (c : Nat) (s' : State) (flat : Nat → UInt8) :
    Prop where
  holds : Holds H s' flat
  labels_eq : labels s' = labels s ∪ Finset.Ico op.first c
  cached_iff : ∀ d, c ≤ d → (Cached s' d ↔ Cached s d)
  reads : s'.reads = s.reads + readsTo (op.needs s) op.first c

section Underway

variable {H : Host} {s s₁ s₂ : State} {op : Op} {c : Nat} {flat flat' : Nat → UInt8} {v : Bool}

theorem underway_start (h : Holds H s flat) : Underway H s op op.first s flat := by
  refine ⟨h, ?_, fun _ _ => Iff.rfl, ?_⟩
  · rw [Finset.Ico_self, Finset.union_empty]
  · rw [readsTo_self, Nat.add_zero]

theorem Underway.next (h : Underway H s op c s₁ flat) (hc : op.first ≤ c)
    (hm : Moved H s₁ c s₂ flat' v (op.needs s c).toNat) : Underway H s op (c + 1) s₂ flat' := by
  refine ⟨hm.holds, ?_, fun d hd => ?_, ?_⟩
  · rw [hm.labels_eq, h.labels_eq, Nat.Ico_succ_right_eq_insert_Ico hc, Finset.union_insert]
  · rw [hm.cached_iff, if_neg (by omega)]
    exact h.cached_iff d (by omega)
  · rw [hm.reads, h.reads, readsTo_succ _ hc, Nat.add_assoc]

theorem Underway.failure (h : Underway H s op c s₁ flat) :
    op.failure H s c = if op.needs s c then H.fault s₁.reads else none := by
  rw [Op.failure, h.reads]

/-- The next block has a buffer or there is room for it. -/
theorem Underway.get (h : Underway H s op c s₁ flat) (hmem : c ∈ op.blocks)
    (hblocks : Finset.Ico op.first c ⊆ op.blocks)
    (hroom : (labels s ∪ op.blocks).card ≤ cacheBlocks) :
    ∃ s' i, getBlockBuffer H s₁ c = some (s', i) ∧ Got H s₁ c s' i := by
  obtain ⟨l, hl⟩ := h.holds.listed
  refine getBlockBuffer_spec hl (hl.room (Nat.le_trans (Finset.card_le_card ?_) hroom))
  rw [h.labels_eq, ← Finset.union_insert]
  exact Finset.union_subset_union_right (Finset.insert_subset hmem hblocks)

end Underway

/-- An access that stays below `2 ^ 64` and needs no eviction. -/
structure Fits (s : State) (op : Op) : Prop where
  top : op.top < 2 ^ 64
  room : (labels s ∪ op.blocks).card ≤ cacheBlocks

section Bytes

variable {H : Host} {s : State} {flat : Nat → UInt8} {off size : Nat} {buffer : Nat → UInt8}

/-- One block of a read. -/
theorem read_block {s₁ : State} {c : Nat} (hfit : Fits s (.read off size buffer))
    (hu : Underway H s (.read off size buffer) c s₁ flat) (hc₁ : addr2Page off ≤ c)
    (hc₂ : c < addr2PageUp (off + size)) :
    ∃ s' i r, getBlockBuffer H s₁ c = some (s', i) ∧
      transfer H s' i c (patch buffer 0 (c * pageSize - off) fun j =>
          (Op.read off size buffer).received H s flat (off + j))
        (c * pageSize - off) (max off (c * pageSize) - c * pageSize)
        (min (off + size) ((c + 1) * pageSize) - c * pageSize) false = r ∧
      Underway H s (.read off size buffer) (c + 1) r.1 flat ∧
      r.2 = patch buffer 0 (min size ((c + 1) * pageSize - off)) fun j =>
        (Op.read off size buffer).received H s flat (off + j) := by
  obtain ⟨hlo, hhi⟩ := block_bounds hc₁ hc₂
  have hmul : (c + 1) * pageSize = c * pageSize + pageSize := Nat.succ_mul ..
  have hneeds : (Op.read off size buffer).needs s c = true ↔ ¬ Cached s₁ c := by
    rw [Op.needs_iff, hu.cached_iff c (Nat.le_refl c)]
    exact ⟨fun h => h.1, fun h => ⟨h, id⟩⟩
  obtain ⟨s₂, i, hget, hgot⟩ := hu.get (Finset.mem_Ico.mpr ⟨hc₁, hc₂⟩)
    (Finset.Ico_subset_Ico_right (Nat.le_of_lt hc₂)) hfit.room
  obtain ⟨s₃, htr, hm⟩ := transfer_read _ (c * pageSize - off)
    (max off (c * pageSize) - c * pageSize) (min (off + size) ((c + 1) * pageSize) - c * pageSize) hgot
    hu.holds (by omega) hneeds hu.failure
  refine ⟨s₂, i, _, hget, htr, hu.next hc₁ hm, ?_⟩
  rw [show min size ((c + 1) * pageSize - off) = c * pageSize - off +
      (min (off + size) ((c + 1) * pageSize) - c * pageSize - (max off (c * pageSize) - c * pageSize))
    by omega, ← patch_append, Nat.zero_add]
  dsimp only
  refine patch_congr fun j hj => ?_
  rw [Op.received, show off + (c * pageSize - off + j) =
    c * pageSize + (max off (c * pageSize) - c * pageSize + j) by omega,
    addr2Page_block c (by omega), offset_block c (by omega)]

/-- `read_bytes` on a device that may fail: the flat disk stays, and the bytes are
those the reads of the device have left. -/
theorem readBytes_faulty (h : Holds H s flat) (hfit : Fits s (.read off size buffer)) :
    ∃ s', readBytes H s off buffer size =
        some (s', patch buffer 0 size fun j =>
          (Op.read off size buffer).received H s flat (off + j)) ∧
      Underway H s (.read off size buffer) (addr2PageUp (off + size)) s' flat := by
  have hoff := addr2Page_add_offset off
  have hup := le_addr2PageUp (off + size)
  obtain ⟨s', out, hrun, hend, rfl⟩ := translateBytes_rule H false s buffer hfit.top
    (fun c s₁ buf => Underway H s (.read off size buffer) c s₁ flat ∧
      buf = patch buffer 0 (min size (c * pageSize - off)) fun j =>
        (Op.read off size buffer).received H s flat (off + j))
    (by
      rintro c s₁ _ hc₁ hc₂ ⟨hu, rfl⟩
      have hhi := (block_bounds hc₁ hc₂).2
      rw [show min size (c * pageSize - off) = c * pageSize - off by omega]
      exact read_block hfit hu hc₁ hc₂)
    (by
      rw [show min size (addr2Page off * pageSize - off) = 0 by omega, patch_zero]
      exact ⟨underway_start h, rfl⟩)
  rw [show min size (addr2PageUp (off + size) * pageSize - off) = size by omega] at hrun
  exact ⟨s', hrun, hend⟩

/-- The flat disk with the part of a write below `top` that is kept. -/
def stored (H : Host) (s : State) (off size : Nat) (buffer flat : Nat → UInt8) (top : Nat) :
    Nat → UInt8 := fun a =>
  if off ≤ a ∧ a < top ∧ (Op.write off size buffer).Kept H s (addr2Page a) then buffer (a - off)
  else flat a

theorem stored_of_lt {top top' a : Nat} (h : a < top ↔ a < top') :
    stored H s off size buffer flat top a = stored H s off size buffer flat top' a := by
  simp only [stored, h]

/-- What is kept of the next block, whose part is `[lo, hi)`. -/
theorem stored_next (c lo : Nat) {hi : Nat} (hoff : off ≤ lo) (hle : lo ≤ hi)
    (hlo : c * pageSize ≤ lo) (hhi : hi ≤ c * pageSize + pageSize) :
    stored H s off size buffer flat hi =
      if (Op.write off size buffer).Kept H s c then
        patch (stored H s off size buffer flat lo) lo (hi - lo) fun j => buffer (lo - off + j)
      else stored H s off size buffer flat lo := by
  funext a
  by_cases ha : lo ≤ a ∧ a < hi
  · have hpage : addr2Page a = c := by
      simp only [addr2Page, pageSize] at *
      omega
    split
    · rename_i hk
      rw [patch_of_mem ha.1 (by omega), stored, hpage, if_pos ⟨by omega, ha.2, hk⟩]
      exact congrArg buffer (by omega)
    · rename_i hk
      rw [stored, stored, hpage, if_neg fun h => hk h.2.2, if_neg fun h => hk h.2.2]
  · have hsame : stored H s off size buffer flat hi a = stored H s off size buffer flat lo a :=
      stored_of_lt (by omega)
    split
    · rw [hsame, patch, if_neg (by omega)]
    · exact hsame

theorem write_block {s₁ : State} {c : Nat} (hfit : Fits s (.write off size buffer))
    (hc₁ : addr2Page off ≤ c) (hc₂ : c < addr2PageUp (off + size))
    (hu : Underway H s (.write off size buffer) c s₁
      (stored H s off size buffer flat (max off (c * pageSize)))) :
    ∃ s' i r, getBlockBuffer H s₁ c = some (s', i) ∧
      transfer H s' i c buffer (c * pageSize - off) (max off (c * pageSize) - c * pageSize)
        (min (off + size) ((c + 1) * pageSize) - c * pageSize) true = r ∧
      Underway H s (.write off size buffer) (c + 1) r.1
        (stored H s off size buffer flat (min (off + size) ((c + 1) * pageSize))) ∧
      r.2 = buffer := by
  obtain ⟨hlo, hhi⟩ := block_bounds hc₁ hc₂
  have hmul : (c + 1) * pageSize = c * pageSize + pageSize := Nat.succ_mul ..
  have hcached := hu.cached_iff c (Nat.le_refl c)
  have hneeds : (Op.write off size buffer).needs s c = true ↔ ¬ Cached s₁ c ∧
      (max off (c * pageSize) - c * pageSize ≠ 0 ∨
        min (off + size) ((c + 1) * pageSize) - c * pageSize ≠ pageSize) := by
    rw [Op.needs_iff, hcached, Op.Covers]
    refine and_congr_right fun _ => ?_
    omega
  obtain ⟨s₂, i, hget, hgot⟩ := hu.get (Finset.mem_Ico.mpr ⟨hc₁, hc₂⟩)
    (Finset.Ico_subset_Ico_right (Nat.le_of_lt hc₂)) hfit.room
  obtain ⟨s₃, htr, hm⟩ := transfer_write (decide ((Op.write off size buffer).Kept H s c)) buffer
    (c * pageSize - off) (max off (c * pageSize) - c * pageSize)
    (min (off + size) ((c + 1) * pageSize) - c * pageSize) hgot hu.holds (by omega) (by omega) hneeds
    hu.failure
    (by rw [decide_eq_true_iff, Op.Kept, hcached])
  refine ⟨s₂, i, _, hget, htr, ?_, rfl⟩
  rw [stored_next c (max off (c * pageSize)) (by omega) (by omega) (by omega) (by omega),
    show max off (c * pageSize) - off = c * pageSize - off by omega]
  simp only [decide_eq_true_eq] at hm
  rw [show c * pageSize + (max off (c * pageSize) - c * pageSize) =
    max off (c * pageSize) by omega, show min (off + size) ((c + 1) * pageSize) - c * pageSize -
      (max off (c * pageSize) - c * pageSize) =
        min (off + size) ((c + 1) * pageSize) - max off (c * pageSize) by omega] at hm
  exact hu.next hc₁ hm

/-- `write_bytes` on a device that may fail. -/
theorem writeBytes_faulty (h : Holds H s flat) (hfit : Fits s (.write off size buffer)) :
    ∃ s', writeBytes H s off buffer size = some s' ∧
      Underway H s (.write off size buffer) (addr2PageUp (off + size)) s'
        (stored H s off size buffer flat (off + size)) := by
  have hoff := addr2Page_add_offset off
  have hup := le_addr2PageUp (off + size)
  obtain ⟨s', out, hrun, hend, -⟩ := translateBytes_rule H true s buffer hfit.top
    (fun c s₁ buf => Underway H s (.write off size buffer) c s₁
      (stored H s off size buffer flat (min (off + size) (max off (c * pageSize)))) ∧ buf = buffer)
    (by
      rintro c s₁ _ hc₁ hc₂ ⟨hu, rfl⟩
      obtain ⟨hlo, hhi⟩ := block_bounds hc₁ hc₂
      rw [show min (off + size) (max off (c * pageSize)) = max off (c * pageSize) by omega] at hu
      rw [show min (off + size) (max off ((c + 1) * pageSize)) =
        min (off + size) ((c + 1) * pageSize) by omega]
      exact write_block hfit hc₁ hc₂ hu)
    (by
      have hnone : stored H s off size buffer flat
          (min (off + size) (max off (addr2Page off * pageSize))) = flat := by
        funext a
        exact if_neg fun ha => by omega
      rw [hnone]
      exact ⟨underway_start h, rfl⟩)
  rw [show min (off + size) (max off (addr2PageUp (off + size) * pageSize)) = off + size by omega]
    at hend
  exact ⟨s', by rw [writeBytes, hrun]; rfl, hend⟩

end Bytes

/-! ## What a caller is told -/

/-- The same pages, with a device that fails as `fault` says. -/
def Host.failing (H : Host) (fault : Nat → Option (Nat → UInt8)) : Host := { H with fault }

/-- The access does not write to the range. -/
def Op.Spares (off size : Nat) : Op → Prop
  | read _ _ _ => True
  | write off' size' _ => off' + size' ≤ off ∨ off + size ≤ off'

/-- A later read of the range gives `buffer`.  In between there may be any accesses
that leave the range alone, and the device may fail in any way, but not in the
read itself. -/
def Returned (H : Host) (s : State) (off size : Nat) (buffer : Nat → UInt8) : Prop :=
  ∀ (fault : Nat → Option (Nat → UInt8)) (ops : List Op) (out : Nat → UInt8),
    (∀ op ∈ ops, op.top < 2 ^ 64) → (∀ op ∈ ops, op.Spares off size) →
    (labels s ∪ touched ops ∪ (Op.read off size out).blocks).card ≤ cacheBlocks →
    ∃ s' outs, runOps (H.failing fault) s ops = some (s', outs) ∧
      ((∀ c ∈ (Op.read off size out).blocks,
          (Op.read off size out).failure (H.failing fault) s' c = none) →
        ∃ s₂ out', readBytes (H.failing fault) s' off out size = some (s₂, out') ∧
          ∀ j, j < size → out' j = buffer j)

section Told

variable {H : Host} {s : State} {flat : Nat → UInt8} {off size : Nat} {buffer : Nat → UInt8}

theorem Holds.failing (h : Holds H s flat) (fault : Nat → Option (Nat → UInt8)) :
    Holds (H.failing fault) s flat := by
  obtain ⟨l, hl⟩ := h.listed
  exact ⟨⟨l, hl.chain, hl.nodup, hl.mem_iff, hl.size_le, hl.label_inj, hl.vpn_eq⟩, h.page, h.disk⟩

theorem Op.mem_blocks {j : Nat} (hj : j < size) :
    addr2Page (off + j) ∈ (Op.read off size buffer).blocks := by
  have h₁ := addr2Page_add_offset off
  have h₂ := addr2Page_add_offset (off + j)
  have h₃ := offset_lt off
  have h₄ := offset_lt (off + j)
  have h₅ := le_addr2PageUp (off + size)
  refine Finset.mem_Ico.mpr ?_
  simp only [pageSize] at *
  omega

/-- A read gives the flat disk where the reads of the device succeed. -/
theorem Op.received_eq {op : Op} {a : Nat} (h : op.failure H s (addr2Page a) = none) :
    op.received H s flat a = flat a := by
  rw [received, h, Option.getD_none, addr2Page_add_offset]

/-- Accesses that leave the range alone keep its bytes, whatever the device does. -/
theorem runOps_spares {ops : List Op} (h : Holds H s flat) (htop : ∀ op ∈ ops, op.top < 2 ^ 64)
    (hspare : ∀ op ∈ ops, op.Spares off size)
    (hcard : (labels s ∪ touched ops).card ≤ cacheBlocks) :
    ∃ s' outs flat', runOps H s ops = some (s', outs) ∧ Holds H s' flat' ∧
      labels s' = labels s ∪ touched ops ∧ ∀ j, j < size → flat' (off + j) = flat (off + j) := by
  induction ops generalizing s flat with
  | nil => exact ⟨s, [], flat, rfl, h, (Finset.union_empty _).symm, fun _ _ => rfl⟩
  | cons op ops ih =>
      rw [touched, ← Finset.union_assoc] at hcard ⊢
      have hfit : Fits s op := ⟨htop op (List.mem_cons_self ..),
        Nat.le_trans (Finset.card_le_card Finset.subset_union_left) hcard⟩
      have htop' := fun o ho => htop o (List.mem_cons_of_mem _ ho)
      have hspare' := fun o ho => hspare o (List.mem_cons_of_mem _ ho)
      have hsp := hspare op (List.mem_cons_self ..)
      cases op with
      | read off' size' buffer' =>
          obtain ⟨s₁, hrun, hu⟩ := readBytes_faulty h hfit
          generalize (patch buffer' 0 size' fun j =>
            (Op.read off' size' buffer').received H s flat (off' + j)) = out at hrun
          have hl : labels s₁ = labels s ∪ (Op.read off' size' buffer').blocks := hu.labels_eq
          rw [← hl] at hcard ⊢
          obtain ⟨s', outs, flat', hops, hh, hlab, hsame⟩ := ih hu.holds htop' hspare' hcard
          refine ⟨s', out :: outs, flat', ?_, hh, hlab, hsame⟩
          rw [runOps, hrun]
          dsimp only
          rw [hops]
          rfl
      | write off' size' buffer' =>
          obtain ⟨s₁, hrun, hu⟩ := writeBytes_faulty h hfit
          have hl : labels s₁ = labels s ∪ (Op.write off' size' buffer').blocks := hu.labels_eq
          rw [← hl] at hcard ⊢
          obtain ⟨s', outs, flat', hops, hh, hlab, hsame⟩ := ih hu.holds htop' hspare' hcard
          refine ⟨s', outs, flat', ?_, hh, hlab, fun j hj => ?_⟩
          · rw [runOps, hrun]
            exact hops
          · rw [hsame j hj, stored]
            refine if_neg fun hw => ?_
            rcases hsp with hsp | hsp <;> omega

/-- A write comes back exactly if the flat disk has it. -/
theorem returned_iff (h : Holds H s flat) (hfit : Fits s (.read off size buffer)) :
    Returned H s off size buffer ↔ ∀ j, j < size → flat (off + j) = buffer j := by
  constructor
  · intro hret j hj
    obtain ⟨s', outs, hrun, hread⟩ := hret (fun _ => none) [] buffer (by simp) (by simp)
      (by simpa [touched] using hfit.room)
    cases hrun
    have hnone : ∀ c, (Op.read off size buffer).failure (H.failing fun _ => none) s c = none := by
      intro c
      rw [Op.failure]
      split <;> rfl
    obtain ⟨s₂, out, hbytes, hout⟩ := hread fun c _ => hnone c
    obtain ⟨s₃, hbytes', -⟩ := readBytes_faulty (h.failing fun _ => none) hfit
    rw [hbytes'] at hbytes
    cases hbytes
    have := hout j hj
    rwa [patch_of_mem (Nat.zero_le j) (by omega), Nat.sub_zero, Op.received_eq (hnone _)] at this
  · intro hflat fault ops out htop hspare hcard
    obtain ⟨s', outs, flat', hrun, hh, hlab, hsame⟩ := runOps_spares (h.failing fault) htop hspare
      (Nat.le_trans (Finset.card_le_card Finset.subset_union_left) hcard)
    refine ⟨s', outs, hrun, fun hnone => ?_⟩
    rw [← hlab] at hcard
    have hfit' : Fits s' (.read off size out) := ⟨hfit.top, hcard⟩
    obtain ⟨s₂, hbytes, -⟩ := readBytes_faulty hh hfit'
    refine ⟨s₂, _, hbytes, fun j hj => ?_⟩
    rw [patch_of_mem (Nat.zero_le j) (by omega), Nat.sub_zero,
      Op.received_eq (hnone _ (Op.mem_blocks hj)), hsame j hj, hflat j hj]

end Told

/-- Failing reads go unreported.  Both calls return `0` for every device.  The
bytes read are the content of the disk exactly if every read of the device that
fails leaves the right bytes in the page.  The bytes written come back exactly if
each of them is in a block that is kept, or is on the disk already. -/
theorem transfers_right_iff (H : Host) (s : State) (l : List Nat) (h : Listed H s.dev l)
    (off size : Nat) (buffer : Nat → UInt8) (hfit : Fits s (.read off size buffer)) :
    (∃ s' out, readBytes H s off buffer size = some (s', out) ∧
      ((∀ j, j < size → out j = content s (off + j)) ↔
        ∀ j, j < size → ∀ junk,
          (Op.read off size buffer).failure H s (addr2Page (off + j)) = some junk →
            junk (offset (off + j)) = content s (off + j))) ∧
    ∃ s', writeBytes H s off buffer size = some s' ∧
      (Returned H s' off size buffer ↔
        ∀ j, j < size → (Op.write off size buffer).Kept H s (addr2Page (off + j)) ∨
          s.disk (off + j) = buffer j) := by
  have hh := h.holds
  constructor
  · obtain ⟨s', hrun, -⟩ := readBytes_faulty hh hfit
    refine ⟨s', _, hrun, forall_congr' fun j => forall_congr' fun hj => ?_⟩
    rw [patch_of_mem (Nat.zero_le j) (by omega), Nat.sub_zero]
    cases hf : (Op.read off size buffer).failure H s (addr2Page (off + j)) with
    | none => simp [Op.received_eq hf]
    | some junk => simp [Op.received, hf]
  · obtain ⟨s', hrun, hu⟩ := writeBytes_faulty hh ⟨hfit.top, hfit.room⟩
    refine ⟨s', hrun, ?_⟩
    have hlab : labels s' = labels s ∪ (Op.read off size buffer).blocks := hu.labels_eq
    have hfit' : Fits s' (.read off size buffer) := by
      refine ⟨hfit.top, ?_⟩
      rw [hlab, Finset.union_assoc, Finset.union_self]
      exact hfit.room
    rw [returned_iff hu.holds hfit']
    refine forall_congr' fun j => forall_congr' fun hj => ?_
    rw [stored]
    by_cases hk : (Op.write off size buffer).Kept H s (addr2Page (off + j))
    · rw [if_pos ⟨by omega, by omega, hk⟩, Nat.add_sub_cancel_left]
      exact ⟨fun _ => Or.inl hk, fun _ => rfl⟩
    · rw [if_neg fun hc => hk hc.2.2, content_of_not_cached fun hc => hk (Or.inl hc)]
      exact ⟨Or.inr, fun hor => hor.resolve_left hk⟩

/-- A device whose first read fails and leaves sevens. -/
def firstFails : Host := plainHost.failing fun n => if n = 0 then some fun _ => 7 else none

/-- An empty cache over a disk of zeros, and a device that never fails. -/
theorem transfers_right_byte :
    ∃ s', writeBytes plainHost (start (fun _ => 0) fun _ _ => 0) 5 (fun _ => 1) 1 = some s' ∧
      Returned plainHost s' 5 1 fun _ => 1 := by
  obtain ⟨-, s', hrun, hiff⟩ := transfers_right_iff plainHost (start (fun _ => 0) fun _ _ => 0) []
    (listed_start ..) 5 1 (fun _ => 1) ⟨by decide, by decide⟩
  refine ⟨s', hrun, hiff.mpr fun j hj => Or.inl ?_⟩
  obtain rfl : j = 0 := by omega
  decide

/-- The first read of the device fails: a read of one byte returns `0` with a seven
where the disk has a zero, and a written byte does not come back. -/
theorem failed_read_unreported :
    ((readBytes firstFails (start (fun _ => 0) fun _ _ => 0) 0 (fun _ => 9) 1).map fun r => r.2 0) =
        some 7 ∧
      content (start (fun _ => 0) fun _ _ => 0) 0 = 0 ∧
      ((runOps firstFails (start (fun _ => 0) fun _ _ => 0)
        [.write 0 1 fun _ => 1, .read 0 1 fun _ => 9]).map fun r => r.2.map (· 0)) = some [0] := by
  decide

end Block
