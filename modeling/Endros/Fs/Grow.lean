import Endros.Fs.Truncate
import Endros.Fs.WellFormed

/-!
# Growing a file

While a file grows its inode is a local variable, and the block map is that of
the view `grown`: the files of the disk before the call, with the local inode
and the pages so far for the file that grows.
-/

namespace Fs

open Lib Mem

/-- The view `v` with another inode and number of pages for the file `f`. -/
def View.set (v : View) (f : Nat) (inode : Inode) (pages : Nat) : View :=
  { file := v.file
    inode := Function.update v.inode f inode
    pages := Function.update v.pages f pages }

@[simp] theorem View.set_file (v : View) (f : Nat) (inode : Inode) (n : Nat) :
    (v.set f inode n).file = v.file :=
  rfl

@[simp] theorem View.set_inode_self (v : View) (f : Nat) (inode : Inode) (n : Nat) :
    (v.set f inode n).inode f = inode :=
  Function.update_self ..

@[simp] theorem View.set_pages_self (v : View) (f : Nat) (inode : Inode) (n : Nat) :
    (v.set f inode n).pages f = n :=
  Function.update_self ..

theorem View.set_inode_of_ne {v : View} {f g : Nat} (h : g ≠ f) (inode : Inode) (n : Nat) :
    (v.set f inode n).inode g = v.inode g :=
  Function.update_of_ne h ..

theorem View.set_pages_of_ne {v : View} {f g : Nat} (h : g ≠ f) (inode : Inode) (n : Nat) :
    (v.set f inode n).pages g = v.pages g :=
  Function.update_of_ne h ..

section Grow

variable {fs : Filesystem} {d₀ : Disk} {f : Nat}

/-- The number of blocks allocated until a file of `old` pages has `new`, up to
the first double indirect page. -/
def needed (old new : Nat) : Nat :=
  (new - old) + (if old ≤ directPtrs ∧ directPtrs < new then 1 else 0) +
    if old ≤ directPtrs + ptrPerPage ∧ directPtrs + ptrPerPage < new then 2 else 0

/-- The loop has the file at `p` pages and has allocated `k` blocks; the disk is
`d`, and the local inode is `inode`. -/
structure Growing (fs : Filesystem) (d₀ : Disk) (f : Nat) (p k : Nat) (d : Disk) (inode : Inode) :
    Prop where
  file : IsFile fs d₀ f
  le : pages fs d₀ f ≤ p
  wf : WellFormed fs d ((files fs d₀).set f inode p)
  covered : Covered fs d ((files fs d₀).set f inode p)
  same : ∀ i, i < pages fs d₀ f → ∀ junk,
    lookup d inode junk i = lookup d₀ (inodeOf fs d₀ f) junk i
  new : ∀ i, pages fs d₀ f ≤ i → i < p → ∀ junk,
    marked fs d₀ (lookup d inode junk i).toNat = false
  marked : ∀ b, b < fs.sizeBlocks.toNat → marked fs d₀ b = true → marked fs d b = true
  count : ∀ n, n ≤ fs.sizeBlocks.toNat → freeBelow fs d n = freeBelow fs d₀ n - k
  table : ∀ a, a < fs.dataStart * pageSize →
    a < fs.dataBitmapOffset * pageSize ∨ fs.inodeTableOffset * pageSize ≤ a →
    d.bytes a = d₀.bytes a

/-- A block that was allocated in this call and is not in use yet. -/
structure New (fs : Filesystem) (d₀ : Disk) (f : Nat) (p : Nat) (d : Disk) (inode : Inode)
    (b : Nat) : Prop where
  fresh : Fresh fs d ((files fs d₀).set f inode p) b
  lt : b < fs.sizeBlocks.toNat
  marked : marked fs d b = true
  free : Fs.marked fs d₀ b = false

variable {p k : Nat} {d d' : Disk} {inode inode' : Inode}

theorem Growing.page (h : Growing fs d₀ f p k d inode) {i : Nat} (hi : i < p) :
    ((files fs d₀).set f inode p).Page f i :=
  ⟨h.file, by rw [View.set_pages_self]; exact hi⟩

/-! ## Changes that no lookup sees -/

/-- A change of the disk and the inode that no lookup sees. -/
theorem Growing.congr (k' : Nat) (h : Growing fs d₀ f p k d inode) (hsize : d'.size = d.size)
    (hsame : SameLookups d ((files fs d₀).set f inode p) d' ((files fs d₀).set f inode' p))
    (hmarked : ∀ b, b < fs.sizeBlocks.toNat → Fs.marked fs d b = true → Fs.marked fs d' b = true)
    (hcount : ∀ n, n ≤ fs.sizeBlocks.toNat → freeBelow fs d' n = freeBelow fs d₀ n - k')
    (htable : ∀ a, a < fs.dataStart * pageSize →
      a < fs.dataBitmapOffset * pageSize ∨ fs.inodeTableOffset * pageSize ≤ a →
      d'.bytes a = d.bytes a) :
    Growing fs d₀ f p k' d' inode' ∧
      ∀ c, New fs d₀ f p d inode c → New fs d₀ f p d' inode' c := by
  have hpages : ∀ g, ((files fs d₀).set f inode' p).pages g =
      ((files fs d₀).set f inode p).pages g := fun g => rfl
  have hpage : ∀ {g i}, ((files fs d₀).set f inode' p).Page g i →
      ((files fs d₀).set f inode p).Page g i := fun {g i} hp =>
    ⟨hp.file, by rw [← hpages g]; exact hp.lt⟩
  have hfile : ∀ g, ((files fs d₀).set f inode' p).file g ↔ ((files fs d₀).set f inode p).file g :=
    fun g => Iff.rfl
  have hs := Step.of_same h.covered hsize hfile (fun g _ => hpages g) hsame hmarked
  have hlookup : ∀ i, i < p → ∀ junk, lookup d' inode' junk i = lookup d inode junk i := by
    intro i hi junk
    have := (hsame f i junk (h.page hi)).1
    rwa [View.set_inode_self, View.set_inode_self] at this
  constructor
  · refine ⟨h.file, h.le, hs.wellFormed h.wf, hs.covered h.covered, ?_, ?_, ?_, hcount, ?_⟩
    · intro i hi junk
      rw [hlookup i (Nat.lt_of_lt_of_le hi h.le)]
      exact h.same i hi junk
    · intro i h₁ h₂ junk
      rw [hlookup i h₂]
      exact h.new i h₁ h₂ junk
    · exact fun b hlt hb => hmarked b hlt (h.marked b hlt hb)
    · intro a ha hb
      rw [htable a ha hb]
      exact h.table a ha hb
  · intro c hc
    refine ⟨⟨hc.fresh.notMeta, ?_, ?_⟩, hc.lt, hmarked c hc.lt hc.marked, hc.free⟩
    · rintro ⟨g, i, junk, hp, q, hq, rfl⟩
      rw [(hsame g i junk (hpage hp)).2] at hq
      exact hc.fresh.notIndex ⟨g, i, junk, hpage hp, q, hq, rfl⟩
    · intro g i hp junk
      rw [(hsame g i junk (hpage hp)).1]
      exact hc.fresh.notBlock (hpage hp) junk

/-- The bytes of the bitmap lie between the inode bitmap and the inode table. -/
theorem bitmapByte_lt {b : Nat} (h : b < 8 * fs.bitmapBytes) :
    fs.dataBitmapOffset * pageSize ≤ bitmapByte fs b ∧
      bitmapByte fs b < fs.inodeTableOffset * pageSize := by
  have hle := fs.bitmapBytes_le
  have hoff : fs.inodeTableOffset * pageSize =
      fs.dataBitmapOffset * pageSize + fs.dataBitmapBlocks.toNat * pageSize := by
    rw [← Nat.add_mul, fs.inodeTableOffset_eq, fs.dataBitmapOffset_eq]
  rw [bitmapByte, hoff]
  omega

theorem dataBitmapOffset_le (fs : Filesystem) :
    fs.dataBitmapOffset * pageSize ≤ fs.inodeTableOffset * pageSize := by
  refine Nat.mul_le_mul_right _ ?_
  rw [fs.inodeTableOffset_eq, fs.dataBitmapOffset_eq]
  omega

theorem inodeTableOffset_le (fs : Filesystem) :
    fs.inodeTableOffset * pageSize ≤ fs.dataStart * pageSize := by
  refine Nat.mul_le_mul_right _ ?_
  rw [fs.inodeTableOffset_eq, Filesystem.dataStart]
  omega

/-- An allocation. -/
theorem Growing.allocate (h : Growing fs d₀ f p k d inode)
    (hfree : k < freeBelow fs d₀ fs.sizeBlocks.toNat) :
    ∃ b d', allocateBlock fs d = some (b, d') ∧ Allocated fs d b d' ∧
      Growing fs d₀ f p (k + 1) d' inode ∧ New fs d₀ f p d' inode b ∧
      (∀ n, n ≤ fs.sizeBlocks.toNat → k < freeBelow fs d₀ n → b < n) ∧
      ∀ c, New fs d₀ f p d inode c → New fs d₀ f p d' inode c ∧ c ≠ b := by
  obtain ⟨b, d', hb, hlt⟩ := allocateBlock_of_free (d := d) fs.le_bitmapBytes
    (by rw [h.count _ (Nat.le_refl _)]; omega)
  have ha : Allocated fs d b d' := by
    have := allocateBlock_cases fs d
    rwa [hb] at this
  have hbyte := bitmapByte_lt ha.lt
  have htable := inodeTableOffset_le fs
  have hsame : SameLookups d ((files fs d₀).set f inode p) d' ((files fs d₀).set f inode p) := by
    refine SameLookups.of_blocks h.covered ha.size fun c hc o ho => ha.bytes _ ?_
    have hc' : fs.dataStart * pageSize ≤ c * pageSize :=
      Nat.mul_le_mul_right _ (h.covered.indexNotMeta hc)
    omega
  have hmarked : ∀ c, c < fs.sizeBlocks.toNat → Fs.marked fs d c = true →
      Fs.marked fs d' c = true := by
    intro c _ hc
    rw [ha.marked, hc, Bool.or_true]
  obtain ⟨hg, hnew⟩ := h.congr (k + 1) ha.size hsame hmarked
    (fun n hn => by rw [ha.freeBelow, h.count n hn]; omega) (fun a _ hor => ha.bytes a (by omega))
  have hfree₀ : Fs.marked fs d₀ b = false := by
    cases hm : Fs.marked fs d₀ b with
    | false => rfl
    | true =>
        have := h.marked b hlt hm
        rw [ha.free] at this
        cases this
  refine ⟨b, d', hb, ha, hg, ⟨⟨?_, ?_, ?_⟩, hlt, ?_, hfree₀⟩, ?_, ?_⟩
  · exact (Fresh.of_free h.wf h.covered ha.free).notMeta
  · rintro ⟨g, i, junk, hp, q, hq, rfl⟩
    rw [(hsame g i junk hp).2] at hq
    exact (Fresh.of_free h.wf h.covered ha.free).notIndex ⟨g, i, junk, hp, q, hq, rfl⟩
  · intro g i hp junk
    rw [(hsame g i junk hp).1]
    exact (Fresh.of_free h.wf h.covered ha.free).notBlock hp junk
  · rw [ha.marked]
    simp
  · intro n hn hk
    have hpos : 0 < freeBelow fs d n := by
      rw [h.count n hn]
      omega
    refine Nat.lt_of_not_le fun hle => ?_
    rw [freeBelow, (Nat.count_iff_forall_not).mpr] at hpos
    · omega
    · intro c hc
      rw [ha.least c (by omega)]
      decide
  · intro c hc
    refine ⟨hnew c hc, ?_⟩
    rintro rfl
    have hm := hc.marked
    rw [ha.free] at hm
    cases hm

/-- A change of the inode that its pages do not use. -/
theorem Growing.setInode (h : Growing fs d₀ f p k d inode) (inode' : Inode)
    (hroot : ∀ i, i < p → root inode' i = root inode i) :
    Growing fs d₀ f p k d inode' ∧ ∀ c, New fs d₀ f p d inode c → New fs d₀ f p d inode' c := by
  refine h.congr k rfl (SameLookups.of_inode fun g i hp => ?_) (fun _ _ hb => hb) h.count
    (fun _ _ _ => rfl)
  by_cases hg : g = f
  · subst hg
    have hi := hp.lt
    rw [View.set_pages_self] at hi
    rw [View.set_inode_self, View.set_inode_self]
    exact hroot i hi
  · rw [View.set_inode_of_ne hg, View.set_inode_of_ne hg]

/-- The word at the offset `o` of the block `q` is read by no lookup. -/
def Unread (fs : Filesystem) (d₀ : Disk) (f p : Nat) (d : Disk) (inode : Inode) (q o : Nat) : Prop :=
  ∀ g i junk, ((files fs d₀).set f inode p).Page g i →
    ∀ a ∈ indexWords d (((files fs d₀).set f inode p).inode g) junk i,
      a + 4 ≤ q * pageSize + o ∨ q * pageSize + o + 4 ≤ a

theorem OnDevice.block_le (hd : OnDevice fs d) {q o n : Nat} (hq : q < fs.sizeBlocks.toNat)
    (ho : o + n ≤ pageSize) : q * pageSize + o + n ≤ d.size := by
  have hmul : (q + 1) * pageSize ≤ fs.sizeBlocks.toNat * pageSize := Nat.mul_le_mul_right _ hq
  rw [Nat.add_mul] at hmul
  have := hd.le
  omega

/-- A word written where no lookup reads. -/
theorem Growing.writeWord (h : Growing fs d₀ f p k d inode) {q o : Nat} (v : UInt32)
    (hmeta : fs.dataStart ≤ q) (hq : q < fs.sizeBlocks.toNat) (ho : o + 4 ≤ pageSize)
    (hu : Unread fs d₀ f p d inode q o) :
    Growing fs d₀ f p k (writePtr d (q * pageSize + o) v) inode ∧
      ∀ c, New fs d₀ f p d inode c → New fs d₀ f p (writePtr d (q * pageSize + o) v) inode c := by
  have hstart : fs.dataStart * pageSize ≤ q * pageSize := Nat.mul_le_mul_right _ hmeta
  have hwrite : writePtr d (q * pageSize + o) v = d.write (q * pageSize + o) 4 (bytes32 v) :=
    writePtr_of_le (h.covered.device.block_le hq ho) h.covered.device.lt
  have hbelow : ∀ a, a < fs.dataStart * pageSize →
      (d.write (q * pageSize + o) 4 (bytes32 v)).bytes a = d.bytes a := fun a ha => by
    rw [Disk.write_bytes]
    exact patch_of_lt (by omega)
  have hmarked : ∀ b, b < fs.sizeBlocks.toNat →
      Fs.marked fs (d.write (q * pageSize + o) 4 (bytes32 v)) b = Fs.marked fs d b := by
    intro b hb
    have hbits := fs.le_bitmapBytes
    rw [Fs.marked, Fs.marked, hbelow]
    exact Nat.lt_of_lt_of_le (bitmapByte_lt (by omega)).2 (inodeTableOffset_le fs)
  rw [hwrite]
  refine h.congr k rfl (SameLookups.of_words rfl fun g i junk hp a ha j hj => ?_) ?_ ?_
    (fun a ha _ => hbelow a ha)
  · rw [Disk.write_bytes]
    rcases hu g i junk hp a ha with h | h
    · exact patch_of_lt (by omega)
    · exact patch_of_ge (by omega)
  · exact fun b hb hm => (hmarked b hb).trans hm
  · intro n hn
    rw [← h.count n hn]
    exact freeBelow_congr fun b hb => hmarked b (by omega)

/-! ## What stays of the file -/

/-- The bytes of the pages that the file has had are the same. -/
def KeepsPages (fs : Filesystem) (d₀ : Disk) (f : Nat) (d d' : Disk) : Prop :=
  ∀ i, i < pages fs d₀ f → ∀ junk o, o < pageSize →
    d'.bytes ((lookup d₀ (inodeOf fs d₀ f) junk i).toNat * pageSize + o) =
      d.bytes ((lookup d₀ (inodeOf fs d₀ f) junk i).toNat * pageSize + o)

theorem KeepsPages.trans {d'' : Disk} (h : KeepsPages fs d₀ f d d') (h' : KeepsPages fs d₀ f d' d'') :
    KeepsPages fs d₀ f d d'' := fun i hi junk o ho => (h' i hi junk o ho).trans (h i hi junk o ho)

/-- A block that is not that of an old page. -/
def NotOld (fs : Filesystem) (d₀ : Disk) (f q : Nat) : Prop :=
  ∀ i, i < pages fs d₀ f → ∀ junk, (lookup d₀ (inodeOf fs d₀ f) junk i).toNat ≠ q

/-- The old pages are pages still. -/
theorem Growing.old_page (h : Growing fs d₀ f p k d inode) {i : Nat} (hi : i < pages fs d₀ f)
    (junk : UInt32) :
    ((files fs d₀).set f inode p).Page f i ∧
      lookup d₀ (inodeOf fs d₀ f) junk i = lookup d (((files fs d₀).set f inode p).inode f) junk i := by
  refine ⟨h.page (Nat.lt_of_lt_of_le hi h.le), ?_⟩
  rw [View.set_inode_self]
  exact (h.same i hi junk).symm

theorem Growing.notOld_of_new (h : Growing fs d₀ f p k d inode) {q : Nat}
    (hq : New fs d₀ f p d inode q) : NotOld fs d₀ f q := by
  intro i hi junk
  obtain ⟨hp, heq⟩ := h.old_page hi junk
  rw [heq]
  exact hq.fresh.notBlock hp junk

theorem Growing.notOld_of_index (h : Growing fs d₀ f p k d inode) {q : Nat}
    (hq : ((files fs d₀).set f inode p).IsIndex d q) : NotOld fs d₀ f q := by
  intro i hi junk he
  obtain ⟨hp, heq⟩ := h.old_page hi junk
  rw [heq] at he
  exact h.wf.notIndex hp junk (he ▸ hq)

theorem Growing.keeps_allocate (h : Growing fs d₀ f p k d inode) {b : Nat}
    (ha : Allocated fs d b d') : KeepsPages fs d₀ f d d' := by
  intro i hi junk o ho
  obtain ⟨hp, heq⟩ := h.old_page hi junk
  have hmeta := Nat.mul_le_mul_right pageSize (h.wf.notMeta hp junk)
  have hbyte := (bitmapByte_lt ha.lt).2
  have htable := inodeTableOffset_le fs
  rw [heq]
  exact ha.bytes _ (by omega)

theorem Growing.keeps_write (h : Growing fs d₀ f p k d inode) {q o : Nat} (v : UInt32)
    (hlt : q < fs.sizeBlocks.toNat) (ho : o + 4 ≤ pageSize) (hq : NotOld fs d₀ f q) :
    KeepsPages fs d₀ f d (writePtr d (q * pageSize + o) v) := by
  intro i hi junk o' ho'
  rw [writePtr_of_le (h.covered.device.block_le hlt ho) h.covered.device.lt, Disk.write_bytes]
  rcases Nat.lt_or_gt_of_ne (hq i hi junk) with hne | hne
  · have := Nat.mul_le_mul_right pageSize (Nat.succ_le_of_lt hne)
    rw [Nat.succ_mul] at this
    exact patch_of_lt (by omega)
  · have := Nat.mul_le_mul_right pageSize (Nat.succ_le_of_lt hne)
    rw [Nat.succ_mul] at this
    exact patch_of_ge (by omega)

/-! ## A page more -/

/-- The next page, once its lookup ends in a new block. -/
theorem Growing.addPage (h : Growing fs d₀ f p k d inode) (hmax : p < maxPages) {t : Nat}
    (ht : New fs d₀ f p d inode t) (hblock : ∀ junk, (lookup d inode junk p).toNat = t)
    (hindex : ∀ junk, ∀ q ∈ indexBlocks d inode junk p,
      ((files fs d₀).set f inode p).IsIndex d q.toNat ∨
        New fs d₀ f p d inode q.toNat ∧ q.toNat < 2 ^ 20 ∧ q.toNat ≠ t) :
    Growing fs d₀ f (p + 1) k d inode := by
  have hnew : ∀ {g i}, ((files fs d₀).set f inode (p + 1)).Page g i →
      ¬ ((files fs d₀).set f inode p).Page g i → g = f ∧ i = p := by
    intro g i hp hold
    have hlt := hp.lt
    by_cases hg : g = f
    · subst hg
      rw [View.set_pages_self] at hlt
      refine ⟨rfl, Nat.le_antisymm (Nat.le_of_lt_succ hlt) (Nat.le_of_not_lt fun hi => hold ?_)⟩
      exact h.page hi
    · rw [View.set_pages_of_ne hg] at hlt
      exact absurd ⟨hp.file, by rw [View.set_pages_of_ne hg]; exact hlt⟩ hold
  have hs : Step fs d ((files fs d₀).set f inode p) d ((files fs d₀).set f inode (p + 1)) := by
    refine ⟨rfl, fun _ => Iff.rfl, SameLookups.of_inode fun _ _ _ => rfl, fun _ _ hb => hb,
      ?_, ?_, ?_, ?_⟩
    · intro g i g' i' hp hold hp' hold'
      obtain ⟨rfl, rfl⟩ := hnew hp hold
      obtain ⟨rfl, rfl⟩ := hnew hp' hold'
      exact ⟨rfl, rfl⟩
    · intro g i hp hold junk
      obtain ⟨rfl, rfl⟩ := hnew hp hold
      rw [View.set_inode_self, hblock]
      exact ⟨ht.fresh, ht.lt, ht.marked⟩
    · intro g i hp hold junk q hq
      obtain ⟨rfl, rfl⟩ := hnew hp hold
      rw [View.set_inode_self] at hq
      refine (hindex junk q hq).imp_right fun ⟨hn, hlt, hne⟩ => ?_
      refine ⟨⟨hn.fresh, hn.lt, hn.marked⟩, hlt, fun junk' => ?_⟩
      rw [View.set_inode_self, hblock]
      exact hne.symm
    · intro g hg
      by_cases hgf : g = f
      · subst hgf
        rw [View.set_pages_self]
        exact hmax
      · rw [View.set_pages_of_ne hgf]
        have := h.covered.pages hg
        rwa [View.set_pages_of_ne hgf] at this
  refine ⟨h.file, Nat.le_succ_of_le h.le, hs.wellFormed h.wf, hs.covered h.covered, h.same, ?_,
    h.marked, h.count, h.table⟩
  intro i h₁ h₂ junk
  rcases Nat.lt_succ_iff_lt_or_eq.mp h₂ with hi | rfl
  · exact h.new i h₁ hi junk
  · rw [hblock]
    exact ht.free

/-! ## The pages of each level -/

theorem New.toNat {b : Nat} (h : New fs d₀ f p d inode b) : (UInt32.ofNat b).toNat = b := by
  rw [UInt32.toNat_ofNat']
  exact Nat.mod_eq_of_lt (Nat.lt_trans h.lt fs.sizeBlocks.toNat_lt)

/-- Words in different blocks do not overlap. -/
theorem words_apart {q b o o' : Nat} (h : q ≠ b) (ho : o + 4 ≤ pageSize) (ho' : o' + 4 ≤ pageSize) :
    q * pageSize + o + 4 ≤ b * pageSize + o' ∨ b * pageSize + o' + 4 ≤ q * pageSize + o := by
  rcases Nat.lt_or_gt_of_ne h with hlt | hgt
  · have : (q + 1) * pageSize ≤ b * pageSize := Nat.mul_le_mul_right _ hlt
    rw [Nat.add_mul] at this
    omega
  · have : (b + 1) * pageSize ≤ q * pageSize := Nat.mul_le_mul_right _ hgt
    rw [Nat.add_mul] at this
    omega

/-- No lookup reads in a new block. -/
theorem New.unread {b o : Nat} (hb : New fs d₀ f p d inode b) (h : Growing fs d₀ f p k d inode)
    (ho : o + 4 ≤ pageSize) : Unread fs d₀ f p d inode b o := by
  intro g i junk hp a ha
  obtain ⟨q, hq, o', -, rfl, ho'⟩ := h.covered.word hp ha
  exact words_apart (fun he => hb.fresh.notIndex ⟨g, i, junk, hp, q, hq, he⟩) ho' ho

/-- No lookup reads the next word of the single indirect block. -/
theorem Growing.single_unread (h : Growing fs d₀ f p k d inode) (h₁ : directPtrs < p)
    (h₂ : p < directPtrs + ptrPerPage) :
    Unread fs d₀ f p d inode inode.singleInd.toNat ((p - directPtrs) * 4) := by
  intro g i junk hp a ha
  obtain ⟨q, hq, o, ho, rfl, hle⟩ := h.covered.word hp ha
  by_cases he : q = inode.singleInd
  · subst he
    obtain ⟨rfl, hi₁, hi₂⟩ := single_owner h.wf (h.page h₁) hp (by rw [View.set_inode_self]; exact hq)
    have hi := hp.lt
    rw [View.set_pages_self] at hi
    rw [offsets_single hi₁ hi₂, List.mem_singleton] at ho
    omega
  · refine words_apart (fun h => he (UInt32.toNat_inj.mp h)) hle ?_
    simp only [directPtrs, ptrPerPage, pageSize] at *
    omega

/-- A direct page. -/
theorem Growing.direct {s : GrowState} (h : Growing fs d₀ f p k s.disk s.inode) (hp : p < directPtrs)
    (hfree : k < freeBelow fs d₀ fs.sizeBlocks.toNat) :
    ∃ s', GrowState.growDirect fs p s = .ok s' ∧
      Growing fs d₀ f (p + 1) (k + 1) s'.disk s'.inode ∧ KeepsPages fs d₀ f s.disk s'.disk := by
  obtain ⟨b, d', hb, ha, hg, hn, -, -⟩ := h.allocate hfree
  obtain ⟨hg', hkeep⟩ := hg.setInode (s.inode.setDirect p (UInt32.ofNat b))
    (by
      intro i hi
      rw [root, root, dif_pos (by omega), dif_pos (by omega),
        Inode.setDirect_of_ne (Nat.ne_of_lt hi)])
  refine ⟨_, by rw [GrowState.growDirect, GrowState.allocate_eq hb]; rfl,
    hg'.addPage (Nat.lt_trans hp (by decide)) (hkeep b hn) ?_ ?_, h.keeps_allocate ha⟩
  · intro junk
    rw [lookup, dif_pos hp, Inode.setDirect_self hp]
    exact hn.toNat
  · intro junk q hq
    rw [indexBlocks, offsets, if_pos hp] at hq
    exact absurd hq List.not_mem_nil

/-- The pointer of a single indirect page. -/
theorem Growing.single (h : Growing fs d₀ f p k d inode) (h₁ : directPtrs ≤ p)
    (h₂ : p < directPtrs + ptrPerPage)
    (hq : directPtrs < p ∨
      New fs d₀ f p d inode inode.singleInd.toNat ∧ inode.singleInd.toNat < 2 ^ 20)
    (hfree : k < freeBelow fs d₀ fs.sizeBlocks.toNat) :
    ∃ t d', allocateBlock fs d = some (t, d') ∧
      Growing fs d₀ f (p + 1) (k + 1)
        (writePtr d' (addr32 inode.singleInd ((p - directPtrs) * 4)) (UInt32.ofNat t)) inode ∧
      KeepsPages fs d₀ f d
        (writePtr d' (addr32 inode.singleInd ((p - directPtrs) * 4)) (UInt32.ofNat t)) := by
  obtain ⟨t, d', ht, ha, hg, hn, -, hkeep⟩ := h.allocate hfree
  have ho : (p - directPtrs) * 4 + 4 ≤ pageSize := by
    simp only [directPtrs, ptrPerPage, pageSize] at *
    omega
  -- the index block: in use since the first single indirect page, or new
  obtain ⟨hmeta, hlt, h20, hu, hold, hindex⟩ : fs.dataStart ≤ inode.singleInd.toNat ∧
      inode.singleInd.toNat < fs.sizeBlocks.toNat ∧ inode.singleInd.toNat < 2 ^ 20 ∧
      Unread fs d₀ f p d' inode inode.singleInd.toNat ((p - directPtrs) * 4) ∧
      NotOld fs d₀ f inode.singleInd.toNat ∧
      (directPtrs < p ∨ New fs d₀ f p d' inode inode.singleInd.toNat ∧
        inode.singleInd.toNat ≠ t) := by
    rcases hq with hp | ⟨hq, h20⟩
    · have hi : ((files fs d₀).set f inode p).IsIndex d inode.singleInd.toNat := by
        refine ⟨f, directPtrs, 0, h.page hp, inode.singleInd, ?_, rfl⟩
        rw [View.set_inode_self, indexBlocks_single (Nat.le_refl _) (by decide)]
        exact List.mem_singleton_self _
      exact ⟨h.covered.indexNotMeta hi, (h.covered.indexLt hi).1, (h.covered.indexLt hi).2,
        hg.single_unread hp h₂, h.notOld_of_index hi, .inl hp⟩
    · obtain ⟨hq', hne⟩ := hkeep _ hq
      exact ⟨hq'.fresh.notMeta, hq'.lt, h20, hq'.unread hg ho, hg.notOld_of_new hq',
        .inr ⟨hq', hne⟩⟩
  rw [addr32_of_lt h20]
  obtain ⟨hg', hkeep'⟩ := hg.writeWord (UInt32.ofNat t) hmeta hlt ho hu
  have hdev := hg.covered.device
  refine ⟨t, d', ht, hg'.addPage (Nat.lt_trans h₂ (by decide)) (hkeep' t hn) ?_ ?_,
    (h.keeps_allocate ha).trans (hg.keeps_write _ hlt ho hold)⟩
  · intro junk
    rw [lookup_single h₁ h₂, addr32_of_lt h20, readPtr_writePtr (hdev.block_le hlt ho) hdev.lt]
    exact hn.toNat
  · intro junk q hq
    rw [indexBlocks_single h₁ h₂, List.mem_singleton] at hq
    subst hq
    rcases hindex with hp | ⟨hq', hne⟩
    · refine .inl ⟨f, directPtrs, 0, hg'.page hp, inode.singleInd, ?_, rfl⟩
      rw [View.set_inode_self, indexBlocks_single (Nat.le_refl _) (by decide)]
      exact List.mem_singleton_self _
    · exact .inr ⟨hkeep' _ hq', h20, hne⟩

/-- A single indirect page. -/
theorem Growing.growSingle {s : GrowState} (h : Growing fs d₀ f p k s.disk s.inode)
    (h₁ : directPtrs ≤ p) (h₂ : p < directPtrs + ptrPerPage)
    (hfree : k + (if p = directPtrs then 1 else 0) < freeBelow fs d₀ fs.sizeBlocks.toNat)
    (h20 : p = directPtrs → k < freeBelow fs d₀ (min fs.sizeBlocks.toNat (2 ^ 20))) :
    ∃ s', GrowState.growSingle fs (p - directPtrs) s = .ok s' ∧
      Growing fs d₀ f (p + 1) (k + (if p = directPtrs then 1 else 0) + 1) s'.disk s'.inode ∧
      KeepsPages fs d₀ f s.disk s'.disk := by
  rw [GrowState.growSingle]
  by_cases hp : p = directPtrs
  · rw [if_pos hp] at hfree ⊢
    have hid : (p - directPtrs == 0) = true := by simp [hp]
    obtain ⟨b, d', hb, ha, hg, hn, hlt, -⟩ := h.allocate (by omega)
    have hb20 : b < 2 ^ 20 := by
      have := hlt _ (Nat.min_le_left ..) (h20 hp)
      omega
    obtain ⟨hg', hkeep⟩ := hg.setInode
      { s.inode with singleInd := UInt32.ofNat b }
      (by
        intro i hi
        rw [root, root, dif_pos (by omega), dif_pos (by omega)])
    obtain ⟨t, d'', ht, hg'', hkept⟩ := hg'.single h₁ h₂
      (.inr ⟨by rw [hn.toNat]; exact hkeep b hn, by rw [hn.toNat]; exact hb20⟩) hfree
    refine ⟨GrowState.writePtr { GrowState.setSingle b { s with disk := d' } with disk := d'' }
      (addr32 (UInt32.ofNat b) ((p - directPtrs) * 4)) t, ?_, hg'', (h.keeps_allocate ha).trans hkept⟩
    rw [GrowState.allocateIf, if_pos hid, GrowState.allocate_eq hb, ok_bind, ok_bind,
      GrowState.allocate_eq (s := GrowState.setSingle b { s with disk := d' }) ht, ok_bind]
    rfl
  · simp only [if_neg hp, Nat.add_zero] at hfree ⊢
    have hid : ¬ (p - directPtrs == 0) = true := by
      simp only [beq_iff_eq]
      omega
    obtain ⟨t, d', ht, hg, hkept⟩ := h.single h₁ h₂ (.inl (by omega)) hfree
    refine ⟨GrowState.writePtr { s with disk := d' }
      (addr32 s.inode.singleInd ((p - directPtrs) * 4)) t, ?_, hg, hkept⟩
    rw [GrowState.allocateIf, if_neg hid, ok_bind, GrowState.allocate_eq ht, ok_bind]

/-- A block in use is not block `0`. -/
theorem New.ne_zero {b : Nat} (h : New fs d₀ f p d inode b) : UInt64.ofNat b ≠ 0 := by
  have hmeta := h.fresh.notMeta
  have hlt := h.lt
  have hsize := fs.sizeBlocks.toNat_lt
  intro h0
  have := congrArg UInt64.toNat h0
  rw [UInt64.toNat_ofNat', Nat.mod_eq_of_lt (by omega)] at this
  rw [this, Filesystem.dataStart] at hmeta
  simp at hmeta

theorem New.addr64 {b : Nat} (h : New fs d₀ f p d inode b) :
    addr64 (UInt64.ofNat b) 0 = b * pageSize + 0 := by
  have hlt := h.lt
  have hsize := fs.sizeBlocks.toNat_lt
  rw [Fs.addr64, UInt64.toNat_ofNat', Nat.mod_eq_of_lt (by omega), u64_of_lt]
  simp only [pageSize]
  omega

/-- Reading a pointer of a block that is not metadata is not changed by an
allocation. -/
theorem Allocated.readPtr (h : Allocated fs d p d') {q o : Nat} {old : UInt32}
    (hq : fs.dataStart ≤ q) :
    Fs.readPtr d' (q * pageSize + o) old = Fs.readPtr d (q * pageSize + o) old := by
  have hstart : fs.dataStart * pageSize ≤ q * pageSize := Nat.mul_le_mul_right _ hq
  have hbyte := (bitmapByte_lt h.lt).2
  have htable := inodeTableOffset_le fs
  rw [Fs.readPtr, Fs.readPtr, h.size, le32_congr fun j _ => h.bytes _ (by omega)]

/-- What the body of the loop does at the first double indirect page. -/
theorem growDouble_zero {s : GrowState} {b₁ b₂ t : Nat} {d₁ d₂ d₃ : Disk}
    (h₁ : allocateBlock fs s.disk = some (b₁, d₁)) (h₂ : allocateBlock fs d₁ = some (b₂, d₂))
    (hne : UInt64.ofNat b₂ ≠ 0)
    (h₃ : allocateBlock fs (writePtr d₂ (addr32 (UInt32.ofNat b₁) 0) (UInt32.ofNat b₂)) =
      some (t, d₃)) :
    GrowState.growDouble fs 0 s = .ok
      { disk := writePtr d₃ (addr64 (UInt64.ofNat b₂) 0) (UInt32.ofNat t)
        inode := { s.inode with doubleInd := UInt32.ofNat b₁ }
        block2nd := UInt64.ofNat b₂
        block3rd := s.block3rd } := by
  simp only [GrowState.growDouble, GrowState.allocateIf, GrowState.allocate, GrowState.setDouble,
    GrowState.setSecond, GrowState.readSecond, GrowState.writePtr, beq_self_eq_true, if_true,
    Nat.zero_div, Nat.zero_mod, h₁, h₂, h₃, ok_bind, if_neg hne]

/-- The first double indirect page. -/
theorem Growing.growDouble {s : GrowState}
    (h : Growing fs d₀ f (directPtrs + ptrPerPage) k s.disk s.inode)
    (hfree : k + 2 < freeBelow fs d₀ fs.sizeBlocks.toNat)
    (h20 : k + 1 < freeBelow fs d₀ (min fs.sizeBlocks.toNat (2 ^ 20))) :
    ∃ s', GrowState.growDouble fs 0 s = .ok s' ∧
      Growing fs d₀ f (directPtrs + ptrPerPage + 1) (k + 3) s'.disk s'.inode ∧
      KeepsPages fs d₀ f s.disk s'.disk := by
  have hmin : min fs.sizeBlocks.toNat (2 ^ 20) ≤ 2 ^ 20 := Nat.min_le_right ..
  have hmin' : min fs.sizeBlocks.toNat (2 ^ 20) ≤ fs.sizeBlocks.toNat := Nat.min_le_left ..
  have h4 : 0 + 4 ≤ pageSize := by decide
  -- the double indirect block
  obtain ⟨b₁, d₁, hb₁, ha₁, hg₁, hn₁, hlt₁, -⟩ := h.allocate (by omega)
  have hb₁20 := hlt₁ _ hmin' (by omega)
  obtain ⟨hg₁', hkeep₁⟩ := hg₁.setInode { s.inode with doubleInd := UInt32.ofNat b₁ }
    (by
      intro i hi
      rw [root, root]
      split
      · rfl
      · rfl)
  -- the second level block, with the pointer to it
  obtain ⟨b₂, d₂, hb₂, ha₂, hg₂, hn₂, hlt₂, hkeep₂⟩ := hg₁'.allocate (by omega)
  have hb₂20 := hlt₂ _ hmin' h20
  obtain ⟨hn₁₂, hne₁₂⟩ := hkeep₂ b₁ (hkeep₁ b₁ hn₁)
  obtain ⟨hg₂', hkeep₂'⟩ := hg₂.writeWord (UInt32.ofNat b₂) hn₁₂.fresh.notMeta hn₁₂.lt h4
    (hn₁₂.unread hg₂ h4)
  -- the page, with the pointer to it
  obtain ⟨t, d₃, ht, ha₃, hg₃, hn₃, -, hkeep₃⟩ := hg₂'.allocate hfree
  obtain ⟨hn₁₃, hne₁₃⟩ := hkeep₃ b₁ (hkeep₂' b₁ hn₁₂)
  obtain ⟨hn₂₃, hne₂₃⟩ := hkeep₃ b₂ (hkeep₂' b₂ hn₂)
  obtain ⟨hg₃', hkeep₃'⟩ := hg₃.writeWord (UInt32.ofNat t) hn₂₃.fresh.notMeta hn₂₃.lt h4
    (hn₂₃.unread hg₃ h4)
  have hdev₂ := hg₂.covered.device
  have hdev₃ := hg₃.covered.device
  have hroot : addr32 (UInt32.ofNat b₁) 0 = b₁ * pageSize + 0 := by
    rw [addr32_of_lt (by rw [hn₁.toNat]; omega), hn₁.toNat]
  have hsecond : addr32 (UInt32.ofNat b₂) 0 = b₂ * pageSize + 0 := by
    rw [addr32_of_lt (by rw [hn₂.toNat]; omega), hn₂.toNat]
  have hread : ∀ junk, readPtr (writePtr d₃ (b₂ * pageSize + 0) (UInt32.ofNat t))
      (addr32 (UInt32.ofNat b₁) 0) junk = UInt32.ofNat b₂ := fun junk => by
    rw [hroot, readPtr_writePtr_disjoint (hdev₃.block_le hn₂₃.lt h4) hdev₃.lt
      (words_apart hne₁₂ h4 h4), ha₃.readPtr hn₁₂.fresh.notMeta,
      readPtr_writePtr (hdev₂.block_le hn₁₂.lt h4) hdev₂.lt]
  have hpage := hg₃'.addPage (by decide) (hkeep₃' t hn₃)
    (by
      intro junk
      rw [lookup_firstDouble, hread, hsecond,
        readPtr_writePtr (hdev₃.block_le hn₂₃.lt h4) hdev₃.lt]
      exact hn₃.toNat)
    (by
      intro junk q hq
      rw [indexBlocks_firstDouble, hread] at hq
      rcases List.mem_cons.mp hq with rfl | hq
      · refine .inr ⟨?_, ?_, ?_⟩ <;> dsimp only <;> rw [hn₁.toNat]
        · exact hkeep₃' b₁ hn₁₃
        · omega
        · exact hne₁₃
      · rw [List.mem_singleton] at hq
        subst hq
        refine .inr ⟨?_, ?_, ?_⟩ <;> rw [hn₂.toNat]
        · exact hkeep₃' b₂ hn₂₃
        · omega
        · exact hne₂₃)
  have hkept : KeepsPages fs d₀ f s.disk (writePtr d₃ (b₂ * pageSize + 0) (UInt32.ofNat t)) :=
    (h.keeps_allocate ha₁).trans <| (hg₁'.keeps_allocate ha₂).trans <|
      (hg₂.keeps_write _ hn₁₂.lt h4 (hg₂.notOld_of_new hn₁₂)).trans <|
      (hg₂'.keeps_allocate ha₃).trans (hg₃.keeps_write _ hn₂₃.lt h4 (hg₃.notOld_of_new hn₂₃))
  refine ⟨_, growDouble_zero hb₁ hb₂ hn₂.ne_zero (by rw [hroot]; exact ht), ?_⟩
  rw [hn₂.addr64]
  exact ⟨hpage, hkept⟩

/-! ## The loop -/

theorem needed_mono (old : Nat) {new new' : Nat} (h : new ≤ new') : needed old new ≤ needed old new' := by
  rw [needed, needed]
  split_ifs <;> omega

theorem needed_direct {old p : Nat} (h : old ≤ p) (hp : p < directPtrs) :
    needed old (p + 1) = needed old p + 1 := by
  rw [needed, needed]
  split_ifs <;> omega

theorem needed_single {old p : Nat} (h : old ≤ p) (h₁ : directPtrs ≤ p)
    (h₂ : p < directPtrs + ptrPerPage) :
    needed old (p + 1) = needed old p + (if p = directPtrs then 1 else 0) + 1 := by
  rw [needed, needed]
  split_ifs <;> omega

theorem needed_double {old : Nat} (h : old ≤ directPtrs + ptrPerPage) :
    needed old (directPtrs + ptrPerPage + 1) = needed old (directPtrs + ptrPerPage) + 3 := by
  have hpos : 0 < ptrPerPage := by decide
  rw [needed, needed]
  split_ifs <;> omega

/-- The pages to add end with the first double indirect one, there are blocks for
them on the disk, and the index blocks to allocate get numbers below `2 ^ 20`.
Free blocks are taken in increasing order, so all of this can be counted on the
disk as it is. -/
structure CanGrow (fs : Filesystem) (d : Disk) (f newPages : Nat) : Prop where
  last : newPages ≤ directPtrs + ptrPerPage + 1
  free : needed (pages fs d f) newPages ≤ freeBelow fs d fs.sizeBlocks.toNat
  single : pages fs d f ≤ directPtrs → directPtrs < newPages →
    needed (pages fs d f) directPtrs < freeBelow fs d (min fs.sizeBlocks.toNat (2 ^ 20))
  double : pages fs d f ≤ directPtrs + ptrPerPage → directPtrs + ptrPerPage < newPages →
    needed (pages fs d f) (directPtrs + ptrPerPage) + 1 <
      freeBelow fs d (min fs.sizeBlocks.toNat (2 ^ 20))

/-- The body of the loop adds a page. -/
theorem Growing.growPage {s : GrowState} {newPages : Nat} (hc : CanGrow fs d₀ f newPages)
    (hp : p < newPages) (h : Growing fs d₀ f p (needed (pages fs d₀ f) p) s.disk s.inode) :
    ∃ s', GrowState.growPage fs p s = .ok s' ∧
      Growing fs d₀ f (p + 1) (needed (pages fs d₀ f) (p + 1)) s'.disk s'.inode ∧
      KeepsPages fs d₀ f s.disk s'.disk := by
  have hle := h.le
  have hfree := Nat.le_trans (needed_mono (pages fs d₀ f) hp) hc.free
  rw [GrowState.growPage]
  by_cases h₁ : p < directPtrs
  · rw [needed_direct hle h₁] at hfree ⊢
    rw [if_pos h₁]
    exact h.direct h₁ hfree
  rw [if_neg h₁]
  by_cases h₂ : p < directPtrs + ptrPerPage
  · rw [needed_single hle (by omega) h₂] at hfree ⊢
    rw [if_pos h₂]
    refine h.growSingle (by omega) h₂ hfree fun he => ?_
    subst he
    exact hc.single hle hp
  · obtain rfl : p = directPtrs + ptrPerPage := by
      have := hc.last
      omega
    rw [needed_double hle] at hfree ⊢
    rw [if_neg h₂, if_pos (by decide), Nat.sub_self]
    exact h.growDouble (by omega) (hc.double hle hp)

theorem needed_self (old : Nat) : needed old old = 0 := by
  rw [needed]
  split_ifs <;> omega

/-- The whole loop. -/
theorem Growing.grow {s : GrowState} {old newPages : Nat} (hold : pages fs d₀ f = old)
    (hc : CanGrow fs d₀ f newPages) (hlt : old < newPages)
    (h : Growing fs d₀ f old 0 s.disk s.inode) :
    ∃ s', GrowState.grow fs old newPages s = .ok s' ∧
      Growing fs d₀ f newPages (needed old newPages) s'.disk s'.inode ∧
      KeepsPages fs d₀ f s.disk s'.disk := by
  have hstart : Growing fs d₀ f (old + 0) (needed old (old + 0)) s.disk s.inode := by
    rw [Nat.add_zero, needed_self]
    exact h
  have hstep : ∀ i s₁, i < newPages - old →
      Growing fs d₀ f (old + i) (needed old (old + i)) s₁.disk s₁.inode ∧
        KeepsPages fs d₀ f s.disk s₁.disk →
      ∃ s', GrowState.growPage fs (old + i) s₁ = .ok s' ∧
        Growing fs d₀ f (old + (i + 1)) (needed old (old + (i + 1))) s'.disk s'.inode ∧
        KeepsPages fs d₀ f s.disk s'.disk := by
    rintro i s₁ hi ⟨hg, hkept⟩
    rw [← Nat.add_assoc]
    rw [← hold] at hg ⊢
    obtain ⟨s', hs', hg', hkept'⟩ := hg.growPage hc (by omega)
    exact ⟨s', hs', hg', hkept.trans hkept'⟩
  obtain ⟨s', hs', hg, hkept⟩ := loop_total
    (P := fun i (s₁ : GrowState) =>
      Growing fs d₀ f (old + i) (needed old (old + i)) s₁.disk s₁.inode ∧
        KeepsPages fs d₀ f s.disk s₁.disk) ⟨hstart, fun _ _ _ _ _ => rfl⟩ hstep
  rw [Nat.add_sub_cancel' (Nat.le_of_lt hlt)] at hg
  exact ⟨s', hs', hg, hkept⟩

/-! ## Type and permission -/

/-- The inodes have the same type and permission. -/
def SameHeader (inode inode' : Inode) : Prop :=
  inode'.type = inode.type ∧ inode'.permission = inode.permission

theorem SameHeader.trans {inode₁ inode₂ inode₃ : Inode} (h : SameHeader inode₁ inode₂)
    (h' : SameHeader inode₂ inode₃) : SameHeader inode₁ inode₃ :=
  ⟨h'.1.trans h.1, h'.2.trans h.2⟩

namespace GrowState

variable {s s' : GrowState}

theorem allocate_header {r : Nat × GrowState} (h : s.allocate fs = .ok r) :
    SameHeader s.inode r.2.inode := by
  rw [allocate] at h
  split at h
  · cases h
  · cases h
    exact ⟨rfl, rfl⟩

theorem allocateIf_header {c : Bool} {g : Nat → GrowState → GrowState}
    (h : s.allocateIf fs c g = .ok s') (hg : ∀ b s, SameHeader s.inode (g b s).inode) :
    SameHeader s.inode s'.inode := by
  rw [allocateIf] at h
  split at h
  · obtain ⟨r, hr, h⟩ := bind_ok h
    cases h
    exact (allocate_header hr).trans (hg _ _)
  · cases h
    exact ⟨rfl, rfl⟩

theorem readSecond_inode (s : GrowState) (off : Nat) : (s.readSecond off).inode = s.inode := by
  rw [readSecond]
  split <;> rfl

theorem readThird_inode (s : GrowState) (off : Nat) : (s.readThird off).inode = s.inode := by
  rw [readThird]
  split <;> rfl

theorem writePtr_header {off v : Nat}
    (h : (.ok (s.writePtr off v) : Except Disk GrowState) = .ok s') :
    SameHeader s.inode s'.inode := by
  rw [← Except.ok.inj h]
  exact ⟨rfl, rfl⟩

theorem setSecond_header (off b : Nat) (s : GrowState) :
    SameHeader s.inode (setSecond off b s).inode := ⟨rfl, rfl⟩

theorem setThird_header (off b : Nat) (s : GrowState) :
    SameHeader s.inode (setThird off b s).inode := ⟨rfl, rfl⟩

theorem growDirect_header {page : Nat} (h : growDirect fs page s = .ok s') :
    SameHeader s.inode s'.inode := by
  obtain ⟨r, hr, h⟩ := bind_ok h
  cases h
  exact (allocate_header hr).trans ⟨rfl, rfl⟩

theorem growSingle_header {id : Nat} (h : growSingle fs id s = .ok s') :
    SameHeader s.inode s'.inode := by
  obtain ⟨s₁, h₁, h⟩ := bind_ok h
  obtain ⟨r, hr, h⟩ := bind_ok h
  have hfirst := allocateIf_header h₁ fun _ _ => ⟨rfl, rfl⟩
  exact hfirst.trans ((allocate_header hr).trans (writePtr_header h))

theorem growDouble_header {id : Nat} (h : growDouble fs id s = .ok s') :
    SameHeader s.inode s'.inode := by
  obtain ⟨s₁, h₁, h⟩ := bind_ok h
  obtain ⟨s₂, h₂, h⟩ := bind_ok h
  obtain ⟨r, hr, h⟩ := bind_ok h
  have hfirst := allocateIf_header h₁ fun _ _ => ⟨rfl, rfl⟩
  have hsecond := allocateIf_header h₂ (setSecond_header _)
  have hlast := allocate_header hr
  rw [readSecond_inode] at hlast
  exact hfirst.trans (hsecond.trans (hlast.trans (writePtr_header h)))

theorem growTriple_header {id : Nat} (h : growTriple fs id s = .ok s') :
    SameHeader s.inode s'.inode := by
  obtain ⟨s₁, h₁, h⟩ := bind_ok h
  obtain ⟨s₂, h₂, h⟩ := bind_ok h
  obtain ⟨s₃, h₃, h⟩ := bind_ok h
  obtain ⟨r, hr, h⟩ := bind_ok h
  have hfirst := allocateIf_header h₁ fun _ _ => ⟨rfl, rfl⟩
  have hsecond := allocateIf_header h₂ (setSecond_header _)
  have hthird := allocateIf_header h₃ (setThird_header _)
  have hlast := allocate_header hr
  rw [readSecond_inode] at hthird
  rw [readThird_inode] at hlast
  exact hfirst.trans (hsecond.trans (hthird.trans (hlast.trans (writePtr_header h))))

/-- The body of the loop only sets pointers. -/
theorem growPage_header {page : Nat} (h : growPage fs page s = .ok s') :
    SameHeader s.inode s'.inode := by
  rw [growPage] at h
  split at h
  · exact growDirect_header h
  split at h
  · exact growSingle_header h
  split at h
  · exact growDouble_header h
  · exact growTriple_header h

theorem grow_header {old new : Nat} (h : grow fs old new s = .ok s') :
    SameHeader s.inode s'.inode :=
  loop_invariant (P := fun _ s₁ => SameHeader s.inode s₁.inode) h ⟨rfl, rfl⟩
    fun _ _ _ _ hs h => hs.trans (growPage_header h)

end GrowState

/-! ## The call -/

theorem View.set_eq_self (v : View) (f : Nat) : v.set f (v.inode f) (v.pages f) = v := by
  rw [View.set, Function.update_eq_self, Function.update_eq_self]

/-- Before the loop. -/
theorem Growing.start (hw : WellFormed fs d (files fs d)) (hc : Covered fs d (files fs d))
    (hf : IsFile fs d f) : Growing fs d f (pages fs d f) 0 d (inodeOf fs d f) := by
  have hview : (files fs d).set f (inodeOf fs d f) (pages fs d f) = files fs d :=
    View.set_eq_self (files fs d) f
  refine ⟨hf, Nat.le_refl _, by rw [hview]; exact hw, by rw [hview]; exact hc, fun _ _ _ => rfl, ?_,
    fun _ _ hb => hb, fun _ _ => rfl, fun _ _ _ => rfl⟩
  intro i h₁ h₂
  omega

/-- What the growth of a file to `n` pages has to show for itself. -/
structure Grown (fs : Filesystem) (d : Disk) (f n : Nat) (d' : Disk) : Prop where
  wellFormed : WellFormed fs d' (files fs d')
  covered : Covered fs d' (files fs d')
  pages : pages fs d' f = n
  same : ∀ i, i < Fs.pages fs d f → ∀ junk,
    lookup d' (inodeOf fs d' f) junk i = lookup d (inodeOf fs d f) junk i
  free : ∀ i, Fs.pages fs d f ≤ i → i < n → ∀ junk,
    marked fs d (lookup d' (inodeOf fs d' f) junk i).toNat = false

/-- Behind the loop the inode is written. -/
theorem Growing.sync {n : Nat} (h : Growing fs d₀ f n k d inode) {newsize : UInt64}
    (hn : addr2PageUp newsize.toNat = n) :
    Grown fs d₀ f n (fsFileSync fs d f { inode with sizeBytes := newsize }) := by
  have hlt := h.file.lt
  have hdev := h.covered.device
  have haddr := inodeAddr_le hlt
  have htable := inodeTableOffset_le fs
  have hbase : fs.inodeTableOffset * pageSize ≤ inodeAddr fs f := Nat.le_add_right ..
  have hinode : ∀ g, inodeOf fs (fsFileSync fs d f { inode with sizeBytes := newsize }) g =
      if g = f then { inode with sizeBytes := newsize } else inodeOf fs d g :=
    inodeOf_sync hdev hlt _
  generalize hd' : fsFileSync fs d f { inode with sizeBytes := newsize } = d' at hinode ⊢
  rw [fsFileSync_eq hdev hlt] at hd'
  have hsize : d'.size = d.size := by
    rw [← hd']
    rfl
  have hbelow : ∀ a, a < fs.inodeTableOffset * pageSize → d'.bytes a = d.bytes a := by
    intro a ha
    rw [← hd']
    exact patch_of_lt (by omega)
  have habove : ∀ a, fs.dataStart * pageSize ≤ a → d'.bytes a = d.bytes a := by
    intro a ha
    rw [← hd']
    exact patch_of_ge (by omega)
  have htab : ∀ a, a < fs.dataBitmapOffset * pageSize → d'.bytes a = d₀.bytes a := by
    intro a ha
    have hoff := dataBitmapOffset_le fs
    rw [hbelow a (by omega)]
    exact h.table a (by omega) (.inl ha)
  have hfile : ∀ g, (files fs d').file g ↔ ((files fs d₀).set f inode n).file g :=
    fun g => isFile_congr htab
  have hother : ∀ g, IsFile fs d₀ g → g ≠ f → inodeOf fs d' g = inodeOf fs d₀ g := by
    intro g hg hne
    have hle := inodeAddr_le hg.lt
    rw [hinode, if_neg hne]
    refine inodeOf_congr fun a h₁ h₂ => h.table a (by omega) (.inr ?_)
    exact Nat.le_trans (Nat.le_add_right ..) h₁
  have hself : inodeOf fs d' f = { inode with sizeBytes := newsize } := by
    rw [hinode, if_pos rfl]
  have hpages : ∀ g, ((files fs d₀).set f inode n).file g →
      (files fs d').pages g = ((files fs d₀).set f inode n).pages g := by
    intro g hg
    by_cases hgf : g = f
    · subst hgf
      rw [View.set_pages_self, ← hn]
      show addr2PageUp (inodeOf fs d' g).sizeBytes.toNat = _
      rw [hself]
    · rw [View.set_pages_of_ne hgf]
      show addr2PageUp (inodeOf fs d' g).sizeBytes.toNat =
        addr2PageUp (inodeOf fs d₀ g).sizeBytes.toNat
      rw [hother g hg hgf]
  have hsame : SameLookups d ((files fs d₀).set f inode n) d' (files fs d') := by
    refine SameLookups.trans (fun _ _ hp => hp) (SameLookups.of_blocks h.covered hsize ?_)
      (SameLookups.of_inode ?_)
    · intro b hb o _
      have hle : fs.dataStart * pageSize ≤ b * pageSize :=
        Nat.mul_le_mul_right _ (h.covered.indexNotMeta hb)
      exact habove _ (by omega)
    · intro g i hp
      by_cases hgf : g = f
      · subst hgf
        show root (inodeOf fs d' g) i = _
        rw [View.set_inode_self, hself]
        rfl
      · rw [View.set_inode_of_ne hgf]
        show root (inodeOf fs d' g) i = root (inodeOf fs d₀ g) i
        rw [hother g hp.file hgf]
  have hmarked : ∀ b, b < fs.sizeBlocks.toNat → Fs.marked fs d b = true → Fs.marked fs d' b = true := by
    intro b hb hm
    have hbits := fs.le_bitmapBytes
    rw [Fs.marked, hbelow _ (bitmapByte_lt (by omega)).2]
    exact hm
  have hstep := Step.of_same h.covered hsize hfile hpages hsame hmarked
  have hlookup : ∀ i, i < n → ∀ junk,
      lookup d' (inodeOf fs d' f) junk i = lookup d inode junk i := by
    intro i hi junk
    have := (hsame f i junk (h.page hi)).1
    rwa [View.set_inode_self] at this
  refine ⟨hstep.wellFormed h.wf, hstep.covered h.covered, ?_, ?_, ?_⟩
  · exact (hpages f h.file).trans (View.set_pages_self ..)
  · intro i hi junk
    rw [hlookup i (Nat.lt_of_lt_of_le hi h.le)]
    exact h.same i hi junk
  · intro i h₁ h₂ junk
    rw [hlookup i h₂]
    exact h.new i h₁ h₂ junk

theorem fsFileTruncate_eq (hd : OnDevice fs d) (hf : IsFile fs d f) {newsize : UInt64}
    {u : TruncateLocals} (hne : (inodeOf fs d f).sizeBytes ≠ newsize) :
    fsFileTruncate fs d u f newsize =
      truncatePages fs d u f newsize (inodeOf fs d f) (pages fs d f) (addr2PageUp newsize.toNat) := by
  rw [fsFileTruncate, getInode_eq hd hf, truncateInode, if_neg hne, pages]

/-- The disk and the inode behind the loop.  The inode is then written with the
new size. -/
theorem fsFileTruncate_sync (hw : WellFormed fs d (files fs d)) (hc : Covered fs d (files fs d))
    (hf : IsFile fs d f) {newsize : UInt64} (hgrow : (inodeOf fs d f).sizeBytes < newsize)
    (hok : pages fs d f = addr2PageUp newsize.toNat ∨ CanGrow fs d f (addr2PageUp newsize.toNat))
    (u : TruncateLocals) :
    ∃ d' inode, fsFileTruncate fs d u f newsize =
        some (0, fsFileSync fs d' f { inode with sizeBytes := newsize }) ∧
      Growing fs d f (addr2PageUp newsize.toNat)
        (needed (pages fs d f) (addr2PageUp newsize.toNat)) d' inode ∧
      KeepsPages fs d f d d' ∧ SameHeader (inodeOf fs d f) inode := by
  have hstart := Growing.start hw hc hf
  have hne : (inodeOf fs d f).sizeBytes ≠ newsize := fun h => by
    rw [h] at hgrow
    exact absurd hgrow (UInt64.lt_irrefl _)
  have hmono : pages fs d f ≤ addr2PageUp newsize.toNat :=
    addr2PageUp_mono (Nat.le_of_lt (UInt64.lt_iff_toNat_lt.mp hgrow))
  rcases Nat.lt_or_eq_of_le hmono with hlt | heq
  · have hcan : CanGrow fs d f (addr2PageUp newsize.toNat) :=
      hok.resolve_left (Nat.ne_of_lt hlt)
    obtain ⟨s', hs', hg, hkept⟩ := Growing.grow (s := ⟨d, inodeOf fs d f, u.block2nd, u.block3rd⟩)
      rfl hcan hlt hstart
    refine ⟨s'.disk, s'.inode, ?_, hg, hkept, GrowState.grow_header hs'⟩
    rw [fsFileTruncate_eq hc.device hf hne, truncatePages, if_pos hlt, hs']
  · refine ⟨d, inodeOf fs d f, ?_, ?_, fun _ _ _ _ _ => rfl, ⟨rfl, rfl⟩⟩
    · rw [fsFileTruncate_eq hc.device hf hne, heq, truncatePages, if_neg (Nat.lt_irrefl _),
        if_neg (Nat.lt_irrefl _)]
    · rw [← heq, needed_self]
      exact hstart

end Grow

/-! ## Two disks -/

/-- A file system of 2048 blocks, of which the first four are metadata. -/
def sampleFs : Filesystem :=
  { inodeBitmapBlocks := 1
    dataBitmapBlocks := 1
    inodeTableBlocks := 1
    sizeBlocks := 2048
    metadata := by decide
    bitmap := by decide
    inodes := show 1 * 32 ≤ 1 * (8 * pageSize) by decide }

/-- Only the metadata is marked, and the file `2` is empty. -/
def emptyDisk : Disk :=
  ((Disk.mk (fun _ => 0) (2048 * 4096)).write 4096 1 fun _ => 4).write (2 * 4096) 1 fun _ => 0x0f

/-- A file of 1050 pages: its direct pages are the blocks from `4` on, its single
indirect ones those from `30` on, and the first double indirect one is `1056`. -/
def fullInode : Inode :=
  { type := 1, permission := 6, sizeBytes := 1050 * 4096, direct := fun i => UInt32.ofNat (4 + i)
    singleInd := 29, doubleInd := 1054, tripleInd := 0 }

/-- The disk with this file as file `2`; the blocks below `1057` are marked. -/
def fullDisk : Disk :=
  (((((((Disk.mk (fun _ => 0) (2048 * 4096)).write 4096 1 fun _ => 4).write (2 * 4096) 132 fun _ =>
    0xff).write (2 * 4096 + 132) 1 fun _ => 1).write (3 * 4096 + 256) 128
    (bytesOfWords fullInode.words)).write (29 * 4096) 4096
    (bytesOfWords fun k => UInt32.ofNat (30 + k))).write (1054 * 4096) 4 (bytes32 1055)).write
    (1055 * 4096) 4 (bytes32 1056)

/-- Locals that happen to hold zeros. -/
def zeroLocals : TruncateLocals :=
  { bitmapByte := 0, inode := fullInode, block2nd := 0, block3rd := 0
    shrink := fun _ => ⟨0, 0, 0, 0⟩ }

theorem emptyDisk_file {g : Nat} (h : IsFile sampleFs emptyDisk g) : g = 2 := by
  have hall : ∀ g, g < 32 → bitmapGet (emptyDisk.bytes (inodeBitmapByte g)) g = true → g = 2 := by
    decide
  exact hall g h.lt h.marked

theorem emptyDisk_pages : pages sampleFs emptyDisk 2 = 0 := by decide

theorem emptyDisk_empty (g : Nat) (h : IsFile sampleFs emptyDisk g) :
    pages sampleFs emptyDisk g = 0 := by
  rw [emptyDisk_file h, emptyDisk_pages]

theorem emptyDisk_wellFormed : WellFormed sampleFs emptyDisk (files sampleFs emptyDisk) :=
  wellFormed_of_empty emptyDisk_empty

theorem emptyDisk_covered : Covered sampleFs emptyDisk (files sampleFs emptyDisk) :=
  covered_of_empty emptyDisk_empty ⟨by decide, by decide⟩ (by decide)

/-- The block of a page of the file. -/
def fullBlock (i : Nat) : Nat :=
  if i < directPtrs then 4 + i else if i < directPtrs + ptrPerPage then 5 + i else 1056

theorem fullDisk_file {g : Nat} (h : IsFile sampleFs fullDisk g) : g = 2 := by
  have hall : ∀ g, g < 32 → bitmapGet (fullDisk.bytes (inodeBitmapByte g)) g = true → g = 2 := by
    decide
  exact hall g h.lt h.marked

theorem fullDisk_inode : inodeOf sampleFs fullDisk 2 = fullInode := by
  have hw : ∀ k, k < inodeWords →
      le32 fullDisk.bytes (inodeAddr sampleFs 2 + 4 * k) = fullInode.words k := by
    decide
  rw [inodeOf, Inode.ofWords_congr hw, Inode.ofWords_words]

theorem fullDisk_readDouble (junk : UInt32) :
    readPtr fullDisk (addr32 fullInode.doubleInd 0) junk = 1055 := by
  rw [readPtr_of_le (by decide) (by decide)]
  decide

theorem fullDisk_lookup {i : Nat} (hi : i < 1050) (junk : UInt32) :
    (lookup fullDisk fullInode junk i).toNat = fullBlock i := by
  rw [fullBlock]
  by_cases h₁ : i < directPtrs
  · have hall : ∀ i : Fin directPtrs, (fullInode.direct i).toNat = 4 + i.val := by decide
    rw [if_pos h₁, lookup, dif_pos h₁]
    exact hall ⟨i, h₁⟩
  rw [if_neg h₁]
  by_cases h₂ : i < directPtrs + ptrPerPage
  · have hall : ∀ k, k < 1024 →
        (le32 fullDisk.bytes (addr32 fullInode.singleInd (k * 4))).toNat = 30 + k := by
      decide +kernel
    have hle : ∀ k, k < 1024 → addr32 fullInode.singleInd (k * 4) + 4 ≤ fullDisk.size := by
      decide +kernel
    have hk : i - directPtrs < 1024 := by
      simp only [directPtrs, ptrPerPage] at *
      omega
    rw [if_pos h₂, lookup_single (by omega) h₂, readPtr_of_le (hle _ hk) (by decide), hall _ hk]
    simp only [directPtrs] at *
    omega
  · obtain rfl : i = directPtrs + ptrPerPage := by
      simp only [directPtrs, ptrPerPage] at *
      omega
    rw [if_neg h₂, lookup_firstDouble, fullDisk_readDouble, readPtr_of_le (by decide) (by decide)]
    decide

theorem fullDisk_index {i : Nat} (hi : i < 1050) {junk q : UInt32}
    (hq : q ∈ indexBlocks fullDisk fullInode junk i) : q = 29 ∨ q = 1054 ∨ q = 1055 := by
  by_cases h₁ : i < directPtrs
  · rw [indexBlocks, offsets, if_pos h₁] at hq
    exact absurd hq List.not_mem_nil
  by_cases h₂ : i < directPtrs + ptrPerPage
  · rw [indexBlocks_single (by omega) h₂, List.mem_singleton] at hq
    exact .inl hq
  · obtain rfl : i = directPtrs + ptrPerPage := by
      simp only [directPtrs, ptrPerPage] at *
      omega
    rw [indexBlocks_firstDouble, fullDisk_readDouble, List.mem_cons, List.mem_singleton] at hq
    exact .inr hq

theorem fullDisk_page {g i : Nat} (hp : (files sampleFs fullDisk).Page g i) :
    g = 2 ∧ i < 1050 := by
  obtain rfl := fullDisk_file hp.file
  have hlt : i < addr2PageUp (inodeOf sampleFs fullDisk 2).sizeBytes.toNat := hp.lt
  rw [fullDisk_inode] at hlt
  exact ⟨rfl, Nat.lt_of_lt_of_le hlt (by decide)⟩

theorem fullDisk_isIndex {b : Nat} (h : (files sampleFs fullDisk).IsIndex fullDisk b) :
    b = 29 ∨ b = 1054 ∨ b = 1055 := by
  obtain ⟨g, i, junk, hp, q, hq, rfl⟩ := h
  obtain ⟨rfl, hi⟩ := fullDisk_page hp
  have hq' : q ∈ indexBlocks fullDisk (inodeOf sampleFs fullDisk 2) junk i := hq
  rw [fullDisk_inode] at hq'
  rcases fullDisk_index hi hq' with rfl | rfl | rfl
  · exact .inl rfl
  · exact .inr (.inl rfl)
  · exact .inr (.inr rfl)

theorem fullDisk_block {g i : Nat} (hp : (files sampleFs fullDisk).Page g i) (junk : UInt32) :
    (lookup fullDisk ((files sampleFs fullDisk).inode g) junk i).toNat = fullBlock i := by
  obtain ⟨rfl, hi⟩ := fullDisk_page hp
  show (lookup fullDisk (inodeOf sampleFs fullDisk 2) junk i).toNat = fullBlock i
  rw [fullDisk_inode]
  exact fullDisk_lookup hi junk

theorem fullBlock_bounds (i : Nat) (hi : i < 1050) :
    4 ≤ fullBlock i ∧ fullBlock i < 1057 ∧ fullBlock i ≠ 29 ∧ fullBlock i ≠ 1054 ∧
      fullBlock i ≠ 1055 := by
  rw [fullBlock]
  split
  · simp only [directPtrs] at *
    omega
  · split <;> simp only [directPtrs, ptrPerPage] at * <;> omega

theorem fullDisk_marked {b : Nat} (hb : b < 1057) : marked sampleFs fullDisk b = true := by
  have hall : ∀ b, b < 1057 → marked sampleFs fullDisk b = true := by decide +kernel
  exact hall b hb

theorem fullDisk_wellFormed : WellFormed sampleFs fullDisk (files sampleFs fullDisk) := by
  constructor
  · intro g i hp junk
    have hb := fullBlock_bounds i (fullDisk_page hp).2
    rw [fullDisk_block hp]
    exact Nat.lt_trans hb.2.1 (by decide)
  · intro g i hp junk
    rw [fullDisk_block hp]
    exact fullDisk_marked (fullBlock_bounds i (fullDisk_page hp).2).2.1
  · intro g i hp junk h
    have hb := fullBlock_bounds i (fullDisk_page hp).2
    rw [fullDisk_block hp] at h
    have := fullDisk_isIndex h
    omega
  · intro g i hp junk
    rw [fullDisk_block hp]
    exact (fullBlock_bounds i (fullDisk_page hp).2).1
  · intro g i g' i' hp hp' junk junk' he
    obtain ⟨rfl, hi⟩ := fullDisk_page hp
    obtain ⟨rfl, hi'⟩ := fullDisk_page hp'
    have heq := congrArg UInt32.toNat he
    rw [fullDisk_block hp, fullDisk_block hp', fullBlock, fullBlock] at heq
    refine ⟨rfl, ?_⟩
    have h25 : directPtrs = 25 := rfl
    have h1024 : ptrPerPage = 1024 := rfl
    split at heq <;> split at heq <;> (try split at heq) <;> (try split at heq) <;> omega

theorem fullDisk_covered : Covered sampleFs fullDisk (files sampleFs fullDisk) := by
  refine ⟨⟨by decide, by decide⟩, fun b hb => ?_, fun h => ?_, fun h => ?_, fun h => ?_,
    fun {g} hg => ?_⟩
  · have hb' : b < 4 := hb
    exact fullDisk_marked (by omega)
  · rcases fullDisk_isIndex h with rfl | rfl | rfl <;> exact ⟨by decide, by decide⟩
  · rcases fullDisk_isIndex h with rfl | rfl | rfl <;> exact fullDisk_marked (by decide)
  · rcases fullDisk_isIndex h with rfl | rfl | rfl <;> decide
  · show addr2PageUp (inodeOf sampleFs fullDisk g).sizeBytes.toNat ≤ maxPages
    rw [fullDisk_file hg, fullDisk_inode]
    decide

end Fs
