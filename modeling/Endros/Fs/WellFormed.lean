import Endros.Fs.Inode

/-!
# Well-formed block maps

The pages of a file are reached from its inode along a route: a block to start
from and an offset into each index block on the way.  `lookup` follows the route
(`lookup_eq_follow`).  The index blocks of a page are those the lookup goes
through.

A `View` says which numbers are files, with an inode and a number of pages for
each.  The view of a disk takes them from its inode table.  While a file grows
its inode is in a local variable, and the view then has this inode.
`WellFormed` is about the data blocks: every page of every file has its own
block, which is in range, marked and neither an index block nor metadata.
`Covered` is about the other blocks.

A `Step` changes what no lookup of an old page sees and adds at most one page.
It keeps both (`Step.wellFormed`, `Step.covered`).  That the single indirect
block of a file is not shared follows from the data blocks alone: another lookup
through it would read its first word, which is the block of a page
(`single_owner`).
-/

namespace Fs

open Lib Mem

/-! ## Routes -/

/-- Follow the offsets from the block `p`; `old` is what the variable holds that
is read into. -/
def follow (d : Disk) : UInt32 → UInt32 → List Nat → UInt32
  | p, _, [] => p
  | p, old, o :: os => follow d (readPtr d (addr32 p o) old) (readPtr d (addr32 p o) old) os

/-- The index blocks on the way. -/
def through (d : Disk) : UInt32 → UInt32 → List Nat → List UInt32
  | _, _, [] => []
  | p, old, o :: os => p :: through d (readPtr d (addr32 p o) old) (readPtr d (addr32 p o) old) os

/-- The addresses of the words that are read on the way. -/
def wordsRead (d : Disk) : UInt32 → UInt32 → List Nat → List Nat
  | _, _, [] => []
  | p, old, o :: os =>
      addr32 p o :: wordsRead d (readPtr d (addr32 p o) old) (readPtr d (addr32 p o) old) os

/-- The block the route of a page starts from. -/
def root (inode : Inode) (id : Nat) : UInt32 :=
  if h : id < directPtrs then inode.direct ⟨id, h⟩
  else if id < directPtrs + ptrPerPage then inode.singleInd
  else if id < directPtrs + ptrPerPage + ptrPerPage * ptrPerPage then inode.doubleInd
  else inode.tripleInd

/-- The offsets of the route of a page. -/
def offsets (id : Nat) : List Nat :=
  if id < directPtrs then []
  else if id < directPtrs + ptrPerPage then [(id - directPtrs) * 4]
  else if id < directPtrs + ptrPerPage + ptrPerPage * ptrPerPage then
    let readId := id - (directPtrs + ptrPerPage)
    [readId / ptrPerPage, readId % ptrPerPage]
  else
    let readId := id - (directPtrs + ptrPerPage + ptrPerPage * ptrPerPage)
    [readId / ptrPerPage / ptrPerPage, readId / ptrPerPage % ptrPerPage, readId % ptrPerPage]

section Levels

variable {inode : Inode} {id : Nat}

theorem root_single (h₁ : directPtrs ≤ id) (h₂ : id < directPtrs + ptrPerPage) :
    root inode id = inode.singleInd := by
  rw [root, dif_neg (by omega), if_pos h₂]

theorem offsets_single (h₁ : directPtrs ≤ id) (h₂ : id < directPtrs + ptrPerPage) :
    offsets id = [(id - directPtrs) * 4] := by
  rw [offsets, if_neg (by omega), if_pos h₂]

theorem root_double (h₁ : directPtrs + ptrPerPage ≤ id)
    (h₂ : id < directPtrs + ptrPerPage + ptrPerPage * ptrPerPage) :
    root inode id = inode.doubleInd := by
  rw [root, dif_neg (by omega), if_neg (by omega), if_pos h₂]

theorem offsets_double (h₁ : directPtrs + ptrPerPage ≤ id)
    (h₂ : id < directPtrs + ptrPerPage + ptrPerPage * ptrPerPage) :
    offsets id = [(id - (directPtrs + ptrPerPage)) / ptrPerPage,
      (id - (directPtrs + ptrPerPage)) % ptrPerPage] := by
  rw [offsets, if_neg (by omega), if_neg (by omega), if_pos h₂]

theorem root_triple (h : directPtrs + ptrPerPage + ptrPerPage * ptrPerPage ≤ id) :
    root inode id = inode.tripleInd := by
  rw [root, dif_neg (by omega), if_neg (by omega), if_neg (by omega)]

theorem offsets_triple (h : directPtrs + ptrPerPage + ptrPerPage * ptrPerPage ≤ id) :
    offsets id =
      [(id - (directPtrs + ptrPerPage + ptrPerPage * ptrPerPage)) / ptrPerPage / ptrPerPage,
        (id - (directPtrs + ptrPerPage + ptrPerPage * ptrPerPage)) / ptrPerPage % ptrPerPage,
        (id - (directPtrs + ptrPerPage + ptrPerPage * ptrPerPage)) % ptrPerPage] := by
  rw [offsets, if_neg (by omega), if_neg (by omega), if_neg (by omega)]

end Levels

theorem lookup_eq_follow (d : Disk) (inode : Inode) (junk : UInt32) (id : Nat) :
    lookup d inode junk id = follow d (root inode id) junk (offsets id) := by
  rw [lookup, root, offsets]
  split
  · rfl
  · split
    · rfl
    · split <;> rfl

/-- The index blocks the lookup of a page goes through. -/
def indexBlocks (d : Disk) (inode : Inode) (junk : UInt32) (id : Nat) : List UInt32 :=
  through d (root inode id) junk (offsets id)

/-- The words the lookup of a page reads. -/
def indexWords (d : Disk) (inode : Inode) (junk : UInt32) (id : Nat) : List Nat :=
  wordsRead d (root inode id) junk (offsets id)

/-! ## Views -/

structure View where
  file : Nat → Prop
  inode : Nat → Inode
  pages : Nat → Nat

/-- The number of pages of a file. -/
def pages (fs : Filesystem) (d : Disk) (inum : Nat) : Nat :=
  addr2PageUp (inodeOf fs d inum).sizeBytes.toNat

/-- The files of a disk. -/
def files (fs : Filesystem) (d : Disk) : View :=
  { file := IsFile fs d, inode := inodeOf fs d, pages := pages fs d }

/-- `i` is a page of the file `f`. -/
structure View.Page (v : View) (f i : Nat) : Prop where
  file : v.file f
  lt : i < v.pages f

/-- The block is an index block of some page. -/
def View.IsIndex (v : View) (d : Disk) (b : Nat) : Prop :=
  ∃ f i junk, v.Page f i ∧ ∃ q ∈ indexBlocks d (v.inode f) junk i, q.toNat = b

/-- The largest number of pages an inode has pointers for. -/
def maxPages : Nat :=
  directPtrs + ptrPerPage + ptrPerPage * ptrPerPage + ptrPerPage * ptrPerPage * ptrPerPage

/-- Every page of every file maps to a block of its own, in range, marked and
neither an index block nor metadata. -/
structure WellFormed (fs : Filesystem) (d : Disk) (v : View) : Prop where
  lt : ∀ {f i}, v.Page f i → ∀ junk, (lookup d (v.inode f) junk i).toNat < fs.sizeBlocks.toNat
  marked : ∀ {f i}, v.Page f i → ∀ junk, marked fs d (lookup d (v.inode f) junk i).toNat = true
  notIndex : ∀ {f i}, v.Page f i → ∀ junk, ¬ v.IsIndex d (lookup d (v.inode f) junk i).toNat
  notMeta : ∀ {f i}, v.Page f i → ∀ junk, fs.dataStart ≤ (lookup d (v.inode f) junk i).toNat
  distinct : ∀ {f i f' i'}, v.Page f i → v.Page f' i' → ∀ junk junk',
    lookup d (v.inode f) junk i = lookup d (v.inode f') junk' i' → f = f' ∧ i = i'

/-- The device holds the file system, the bitmap marks the metadata and the
index blocks, and the index blocks are in range, not metadata and below
`2 ^ 20`, where `ADDR` reaches them. -/
structure Covered (fs : Filesystem) (d : Disk) (v : View) : Prop where
  device : OnDevice fs d
  metaMarked : ∀ b, b < fs.dataStart → marked fs d b = true
  indexLt : ∀ {b}, v.IsIndex d b → b < fs.sizeBlocks.toNat ∧ b < 2 ^ 20
  indexMarked : ∀ {b}, v.IsIndex d b → marked fs d b = true
  indexNotMeta : ∀ {b}, v.IsIndex d b → fs.dataStart ≤ b
  pages : ∀ {f}, v.file f → v.pages f ≤ maxPages

/-! ## Empty files -/

section Empty

variable {fs : Filesystem} {d : Disk} (h : ∀ g, IsFile fs d g → pages fs d g = 0)
include h

theorem noPage_of_empty {g i : Nat} : ¬ (files fs d).Page g i := by
  intro hp
  have hlt : i < pages fs d g := hp.lt
  rw [h g hp.file] at hlt
  exact Nat.not_lt_zero i hlt

theorem wellFormed_of_empty : WellFormed fs d (files fs d) :=
  ⟨fun hp => absurd hp (noPage_of_empty h), fun hp => absurd hp (noPage_of_empty h),
    fun hp => absurd hp (noPage_of_empty h), fun hp => absurd hp (noPage_of_empty h),
    fun hp => absurd hp (noPage_of_empty h)⟩

theorem covered_of_empty (hdev : OnDevice fs d)
    (hmeta : ∀ b, b < fs.dataStart → Fs.marked fs d b = true) : Covered fs d (files fs d) := by
  have hindex : ∀ b, ¬ (files fs d).IsIndex d b := by
    rintro b ⟨g, i, junk, hp, -⟩
    exact noPage_of_empty h hp
  refine ⟨hdev, hmeta, fun hi => absurd hi (hindex _), fun hi => absurd hi (hindex _),
    fun hi => absurd hi (hindex _), fun {g} hg => ?_⟩
  show pages fs d g ≤ maxPages
  rw [h g hg]
  exact Nat.zero_le _

end Empty

/-! ## What a lookup depends on -/

/-- A word that is read lies in an index block, at an offset of the route. -/
theorem mem_wordsRead {d : Disk} :
    ∀ {p old : UInt32} {os : List Nat} {a : Nat}, a ∈ wordsRead d p old os →
      ∃ q ∈ through d p old os, ∃ o ∈ os, a = addr32 q o
  | _, _, [], _, h => absurd h List.not_mem_nil
  | p, _, o :: os, a, h => by
      rcases List.mem_cons.mp h with rfl | h
      · exact ⟨p, List.mem_cons_self, o, List.mem_cons_self, rfl⟩
      · obtain ⟨q, hq, o', ho', ha⟩ := mem_wordsRead h
        exact ⟨q, List.mem_cons_of_mem _ hq, o', List.mem_cons_of_mem _ ho', ha⟩

/-- A disk on which the words that are read are the same is followed the same
way. -/
theorem follow_congr {d d' : Disk} (hsize : d'.size = d.size) :
    ∀ (p old : UInt32) (os : List Nat),
      (∀ a ∈ wordsRead d p old os, ∀ j, j < 4 → d'.bytes (a + j) = d.bytes (a + j)) →
      follow d' p old os = follow d p old os ∧ through d' p old os = through d p old os ∧
        wordsRead d' p old os = wordsRead d p old os
  | _, _, [], _ => ⟨rfl, rfl, rfl⟩
  | p, old, o :: os, h => by
      have hread : readPtr d' (addr32 p o) old = readPtr d (addr32 p o) old := by
        rw [readPtr, readPtr, hsize, le32_congr (h _ List.mem_cons_self)]
      obtain ⟨hf, ht, hw⟩ := follow_congr hsize (readPtr d (addr32 p o) old)
        (readPtr d (addr32 p o) old) os fun a ha => h a (List.mem_cons_of_mem _ ha)
      rw [follow, through, wordsRead, hread, hf, ht, hw]
      exact ⟨rfl, rfl, rfl⟩

/-- When every word that is read is on the device, what the variable held before
does not matter. -/
theorem follow_old {d : Disk} (h64 : d.size < 2 ^ 64) {p old : UInt32} (old' : UInt32) :
    ∀ {os : List Nat}, (∀ a ∈ wordsRead d p old os, a + 4 ≤ d.size) →
      follow d p old os = follow d p old' os ∧ wordsRead d p old os = wordsRead d p old' os
  | [], _ => ⟨rfl, rfl⟩
  | o :: os, h => by
      have ho : addr32 p o + 4 ≤ d.size := h _ List.mem_cons_self
      have hread : readPtr d (addr32 p o) old = readPtr d (addr32 p o) old' := by
        rw [readPtr, readPtr, u64_of_lt (by omega), if_neg (by omega), if_neg (by omega)]
      rw [follow, follow, wordsRead, wordsRead, hread]
      exact ⟨rfl, rfl⟩

theorem offset_of_mem {id o : Nat} (hid : id < maxPages) (ho : o ∈ offsets id) :
    o + 4 ≤ pageSize := by
  rw [offsets] at ho
  split at ho
  · exact absurd ho List.not_mem_nil
  · split at ho
    · simp only [List.mem_singleton, directPtrs, ptrPerPage, pageSize] at *
      omega
    · split at ho <;>
        simp only [List.mem_cons, List.not_mem_nil, or_false, maxPages, directPtrs, ptrPerPage,
          pageSize] at * <;>
        omega

section View

variable {fs : Filesystem} {d d' : Disk} {v v' : View}

/-- The words a lookup reads lie in index blocks. -/
theorem Covered.word (hc : Covered fs d v) {f i : Nat} (hp : v.Page f i) {junk : UInt32} {a : Nat}
    (ha : a ∈ indexWords d (v.inode f) junk i) :
    ∃ q ∈ indexBlocks d (v.inode f) junk i, ∃ o ∈ offsets i,
      a = q.toNat * pageSize + o ∧ o + 4 ≤ pageSize := by
  obtain ⟨q, hq, o, ho, rfl⟩ := mem_wordsRead ha
  have hindex : v.IsIndex d q.toNat := ⟨f, i, junk, hp, q, hq, rfl⟩
  refine ⟨q, hq, o, ho, addr32_of_lt (hc.indexLt hindex).2 o, offset_of_mem ?_ ho⟩
  exact Nat.lt_of_lt_of_le hp.lt (hc.pages hp.file)

/-- The lookups of the pages of `v` on `d` are the same with `v'` on `d'`. -/
def SameLookups (d : Disk) (v : View) (d' : Disk) (v' : View) : Prop :=
  ∀ f i junk, v.Page f i →
    lookup d' (v'.inode f) junk i = lookup d (v.inode f) junk i ∧
      indexBlocks d' (v'.inode f) junk i = indexBlocks d (v.inode f) junk i

/-- A change of the disk that misses the words of all lookups. -/
theorem SameLookups.of_words (hsize : d'.size = d.size)
    (h : ∀ f i junk, v.Page f i → ∀ a ∈ indexWords d (v.inode f) junk i, ∀ j, j < 4 →
      d'.bytes (a + j) = d.bytes (a + j)) : SameLookups d v d' v := by
  intro f i junk hp
  obtain ⟨hf, ht, -⟩ := follow_congr hsize _ _ _ (h f i junk hp)
  rw [lookup_eq_follow, lookup_eq_follow]
  exact ⟨hf, ht⟩

/-- A change of the disk outside of the index blocks. -/
theorem SameLookups.of_blocks (hc : Covered fs d v) (hsize : d'.size = d.size)
    (h : ∀ b, v.IsIndex d b → ∀ o, o < pageSize →
      d'.bytes (b * pageSize + o) = d.bytes (b * pageSize + o)) : SameLookups d v d' v := by
  refine SameLookups.of_words hsize fun f i junk hp a ha j hj => ?_
  obtain ⟨q, hq, o, -, rfl, ho⟩ := hc.word hp ha
  rw [Nat.add_assoc]
  exact h q.toNat ⟨f, i, junk, hp, q, hq, rfl⟩ (o + j) (by omega)

/-- A change of an inode that none of its pages uses. -/
theorem SameLookups.of_inode (h : ∀ f i, v.Page f i → root (v'.inode f) i = root (v.inode f) i) :
    SameLookups d v d v' := by
  intro f i junk hp
  rw [lookup_eq_follow, lookup_eq_follow, indexBlocks, indexBlocks, h f i hp]
  exact ⟨rfl, rfl⟩

theorem SameLookups.trans {d'' : Disk} {v'' : View} (hpage : ∀ f i, v.Page f i → v'.Page f i)
    (h : SameLookups d v d' v') (h' : SameLookups d' v' d'' v'') : SameLookups d v d'' v'' := by
  intro f i junk hp
  obtain ⟨h₁, h₂⟩ := h f i junk hp
  obtain ⟨h₁', h₂'⟩ := h' f i junk (hpage f i hp)
  exact ⟨h₁'.trans h₁, h₂'.trans h₂⟩

/-! ## Blocks that are not in use -/

/-- The block is neither metadata nor used by a file. -/
structure Fresh (fs : Filesystem) (d : Disk) (v : View) (b : Nat) : Prop where
  notMeta : fs.dataStart ≤ b
  notIndex : ¬ v.IsIndex d b
  notBlock : ∀ {f i}, v.Page f i → ∀ junk, (lookup d (v.inode f) junk i).toNat ≠ b

/-- A block that is not marked is not in use. -/
theorem Fresh.of_free (hw : WellFormed fs d v) (hc : Covered fs d v) {b : Nat}
    (h : Fs.marked fs d b = false) : Fresh fs d v b := by
  refine ⟨Nat.le_of_not_lt fun hlt => ?_, fun hi => ?_, fun hp junk he => ?_⟩
  · rw [hc.metaMarked b hlt] at h
    cases h
  · rw [hc.indexMarked hi] at h
    cases h
  · rw [← he, hw.marked hp junk] at h
    cases h

/-! ## Steps that keep a view well formed -/

/-- A block that a step takes into use. -/
structure Taken (fs : Filesystem) (d : Disk) (v : View) (d' : Disk) (b : Nat) : Prop where
  fresh : Fresh fs d v b
  lt : b < fs.sizeBlocks.toNat
  marked : marked fs d' b = true

/-- A step from the view `v` on `d` to `v'` on `d'`.  Lookups of old pages give
the same.  At most one page is new, and its lookup goes through old index blocks
or blocks taken into use and ends in another block taken into use. -/
structure Step (fs : Filesystem) (d : Disk) (v : View) (d' : Disk) (v' : View) : Prop where
  size : d'.size = d.size
  file : ∀ f, v'.file f ↔ v.file f
  same : SameLookups d v d' v'
  marked : ∀ b, b < fs.sizeBlocks.toNat → marked fs d b = true → marked fs d' b = true
  one : ∀ {f i f' i'}, v'.Page f i → ¬ v.Page f i → v'.Page f' i' → ¬ v.Page f' i' →
    f = f' ∧ i = i'
  block : ∀ {f i}, v'.Page f i → ¬ v.Page f i → ∀ junk,
    Taken fs d v d' (lookup d' (v'.inode f) junk i).toNat
  index : ∀ {f i}, v'.Page f i → ¬ v.Page f i → ∀ junk, ∀ q ∈ indexBlocks d' (v'.inode f) junk i,
    v.IsIndex d q.toNat ∨ Taken fs d v d' q.toNat ∧ q.toNat < 2 ^ 20 ∧
      ∀ junk, (lookup d' (v'.inode f) junk i).toNat ≠ q.toNat
  pages : ∀ f, v'.file f → v'.pages f ≤ maxPages

namespace Step

variable (hs : Step fs d v d' v')
include hs

/-- An index block is an old one or one that the step took into use, which no
lookup ends in. -/
theorem isIndex {b : Nat} (h : v'.IsIndex d' b) :
    v.IsIndex d b ∨ Taken fs d v d' b ∧ b < 2 ^ 20 ∧
      ∀ f i junk, v'.Page f i → (lookup d' (v'.inode f) junk i).toNat ≠ b := by
  obtain ⟨f, i, junk, hp, q, hq, rfl⟩ := h
  by_cases hold : v.Page f i
  · exact .inl ⟨f, i, junk, hold, q, (hs.same f i junk hold).2 ▸ hq, rfl⟩
  · rcases hs.index hp hold junk q hq with h | ⟨ht, hlt, hne⟩
    · exact .inl h
    · refine .inr ⟨ht, hlt, fun f' i' junk' hp' => ?_⟩
      by_cases hold' : v.Page f' i'
      · rw [(hs.same f' i' junk' hold').1]
        exact ht.fresh.notBlock hold' junk'
      · obtain ⟨rfl, rfl⟩ := hs.one hp hold hp' hold'
        exact hne junk'

theorem wellFormed (hw : WellFormed fs d v) : WellFormed fs d' v' := by
  constructor
  · intro f i hp junk
    by_cases hold : v.Page f i
    · rw [(hs.same f i junk hold).1]
      exact hw.lt hold junk
    · exact (hs.block hp hold junk).lt
  · intro f i hp junk
    by_cases hold : v.Page f i
    · rw [(hs.same f i junk hold).1]
      exact hs.marked _ (hw.lt hold junk) (hw.marked hold junk)
    · exact (hs.block hp hold junk).marked
  · intro f i hp junk hindex
    rcases hs.isIndex hindex with h | ⟨-, -, hne⟩
    · by_cases hold : v.Page f i
      · rw [(hs.same f i junk hold).1] at h
        exact hw.notIndex hold junk h
      · exact (hs.block hp hold junk).fresh.notIndex h
    · exact hne f i junk hp rfl
  · intro f i hp junk
    by_cases hold : v.Page f i
    · rw [(hs.same f i junk hold).1]
      exact hw.notMeta hold junk
    · exact (hs.block hp hold junk).fresh.notMeta
  · intro f i f' i' hp hp' junk junk' he
    by_cases hold : v.Page f i <;> by_cases hold' : v.Page f' i'
    · rw [(hs.same f i junk hold).1, (hs.same f' i' junk' hold').1] at he
      exact hw.distinct hold hold' junk junk' he
    · rw [(hs.same f i junk hold).1] at he
      exact absurd (congrArg UInt32.toNat he) ((hs.block hp' hold' junk').fresh.notBlock hold junk)
    · rw [(hs.same f' i' junk' hold').1] at he
      exact absurd (congrArg UInt32.toNat he.symm) ((hs.block hp hold junk).fresh.notBlock hold' junk')
    · exact hs.one hp hold hp' hold'

theorem covered (hc : Covered fs d v) : Covered fs d' v' := by
  constructor
  · exact ⟨hs.size ▸ hc.device.le, hs.size ▸ hc.device.lt⟩
  · exact fun b hb => hs.marked b (Nat.lt_of_lt_of_le hb fs.metadata) (hc.metaMarked b hb)
  · intro b h
    rcases hs.isIndex h with h | ⟨ht, hlt, -⟩
    · exact hc.indexLt h
    · exact ⟨ht.lt, hlt⟩
  · intro b h
    rcases hs.isIndex h with h | ⟨ht, -⟩
    · exact hs.marked b (hc.indexLt h).1 (hc.indexMarked h)
    · exact ht.marked
  · intro b h
    rcases hs.isIndex h with h | ⟨ht, -⟩
    · exact hc.indexNotMeta h
    · exact ht.fresh.notMeta
  · exact fun {f} hf => hs.pages f hf

end Step

/-- A step that adds no page. -/
theorem Step.of_same (hc : Covered fs d v) (hsize : d'.size = d.size)
    (hfile : ∀ f, v'.file f ↔ v.file f) (hpages : ∀ f, v.file f → v'.pages f = v.pages f)
    (hsame : SameLookups d v d' v')
    (hmarked : ∀ b, b < fs.sizeBlocks.toNat → Fs.marked fs d b = true → Fs.marked fs d' b = true) :
    Step fs d v d' v' := by
  have hpage : ∀ {f i}, v'.Page f i → v.Page f i := fun {f i} hp =>
    ⟨(hfile f).mp hp.file, hpages f ((hfile f).mp hp.file) ▸ hp.lt⟩
  refine ⟨hsize, hfile, hsame, hmarked, ?_, ?_, ?_, fun f hf => ?_⟩
  · exact fun hp hold => absurd (hpage hp) hold
  · exact fun hp hold => absurd (hpage hp) hold
  · exact fun hp hold => absurd (hpage hp) hold
  · rw [hpages f ((hfile f).mp hf)]
    exact hc.pages ((hfile f).mp hf)

/-! ## Index blocks are not shared -/

/-- The first word of an index block `q` is read by the lookup of some page, which
ends in it or goes through it. -/
def ReadsFirst (d : Disk) (inode : Inode) (q : UInt32) (j : Nat) : Prop :=
  ∃ junk old, lookup d inode junk j = readPtr d (addr32 q 0) old ∨
    readPtr d (addr32 q 0) old ∈ indexBlocks d inode junk j

theorem first_word_double {inode : Inode} {junk : UInt32} {i : Nat} {q : UInt32}
    (h₁ : directPtrs + ptrPerPage ≤ i)
    (h₂ : i < directPtrs + ptrPerPage + ptrPerPage * ptrPerPage)
    (h : q ∈ indexBlocks d inode junk i) :
    ∃ j, directPtrs + ptrPerPage ≤ j ∧ j ≤ i ∧ ReadsFirst d inode q j := by
  rw [indexBlocks, root_double h₁ h₂, offsets_double h₁ h₂] at h
  simp only [through, List.mem_cons, List.not_mem_nil, or_false] at h
  generalize hr : i - (directPtrs + ptrPerPage) = r at h
  rcases h with rfl | hq
  · refine ⟨directPtrs + ptrPerPage, Nat.le_refl _, h₁, junk, junk, .inr ?_⟩
    rw [indexBlocks, root_double (Nat.le_refl _) (by decide),
      offsets_double (Nat.le_refl _) (by decide), Nat.sub_self]
    exact List.mem_cons_of_mem _ List.mem_cons_self
  · have hsub : directPtrs + ptrPerPage + r / ptrPerPage * ptrPerPage -
        (directPtrs + ptrPerPage) = r / ptrPerPage * ptrPerPage := Nat.add_sub_cancel_left ..
    have hle := Nat.div_mul_le_self r ptrPerPage
    refine ⟨directPtrs + ptrPerPage + r / ptrPerPage * ptrPerPage, Nat.le_add_right .., by omega,
      junk, q, .inl ?_⟩
    rw [lookup_eq_follow, root_double (Nat.le_add_right ..) (by omega),
      offsets_double (Nat.le_add_right ..) (by omega), hsub, Nat.mul_div_cancel _ (by decide),
      Nat.mul_mod_left, hq]
    rfl

theorem first_word_triple {inode : Inode} {junk : UInt32} {i : Nat} {q : UInt32}
    (h₁ : directPtrs + ptrPerPage + ptrPerPage * ptrPerPage ≤ i)
    (h : q ∈ indexBlocks d inode junk i) :
    ∃ j, directPtrs + ptrPerPage ≤ j ∧ j ≤ i ∧ ReadsFirst d inode q j := by
  rw [indexBlocks, root_triple h₁, offsets_triple h₁] at h
  simp only [through, List.mem_cons, List.not_mem_nil, or_false] at h
  generalize hr : i - (directPtrs + ptrPerPage + ptrPerPage * ptrPerPage) = r at h
  have hle := Nat.div_mul_le_self r ptrPerPage
  have hle' := Nat.div_mul_le_self (r / ptrPerPage) ptrPerPage
  have hmul : r / ptrPerPage / ptrPerPage * ptrPerPage * ptrPerPage ≤ r :=
    Nat.le_trans (Nat.mul_le_mul_right _ hle') hle
  rcases h with rfl | hq | hq
  · refine ⟨directPtrs + ptrPerPage + ptrPerPage * ptrPerPage, Nat.le_add_right .., h₁, junk, junk,
      .inr ?_⟩
    rw [indexBlocks, root_triple (Nat.le_refl _), offsets_triple (Nat.le_refl _), Nat.sub_self]
    exact List.mem_cons_of_mem _ List.mem_cons_self
  · refine ⟨directPtrs + ptrPerPage + ptrPerPage * ptrPerPage +
      r / ptrPerPage / ptrPerPage * ptrPerPage * ptrPerPage, by omega, by omega, junk, q, .inr ?_⟩
    rw [indexBlocks, root_triple (Nat.le_add_right ..), offsets_triple (Nat.le_add_right ..),
      Nat.add_sub_cancel_left, Nat.mul_div_cancel _ (by decide), Nat.mul_div_cancel _ (by decide),
      Nat.mul_mod_left, hq]
    exact List.mem_cons_of_mem _ (List.mem_cons_of_mem _ List.mem_cons_self)
  · refine ⟨directPtrs + ptrPerPage + ptrPerPage * ptrPerPage + r / ptrPerPage * ptrPerPage,
      by omega, by omega, junk, q, .inl ?_⟩
    rw [lookup_eq_follow, root_triple (Nat.le_add_right ..), offsets_triple (Nat.le_add_right ..),
      Nat.add_sub_cancel_left, Nat.mul_div_cancel _ (by decide), Nat.mul_mod_left, hq]
    rfl

theorem lookup_single {inode : Inode} {junk : UInt32} {i : Nat} (h₁ : directPtrs ≤ i)
    (h₂ : i < directPtrs + ptrPerPage) :
    lookup d inode junk i = readPtr d (addr32 inode.singleInd ((i - directPtrs) * 4)) junk := by
  rw [lookup_eq_follow, root_single h₁ h₂, offsets_single h₁ h₂]
  rfl

theorem indexBlocks_single {inode : Inode} {junk : UInt32} {i : Nat} (h₁ : directPtrs ≤ i)
    (h₂ : i < directPtrs + ptrPerPage) : indexBlocks d inode junk i = [inode.singleInd] := by
  rw [indexBlocks, root_single h₁ h₂, offsets_single h₁ h₂]
  rfl

theorem lookup_firstDouble {inode : Inode} {junk : UInt32} :
    lookup d inode junk (directPtrs + ptrPerPage) =
      readPtr d (addr32 (readPtr d (addr32 inode.doubleInd 0) junk) 0)
        (readPtr d (addr32 inode.doubleInd 0) junk) := by
  rw [lookup_eq_follow, root_double (Nat.le_refl _) (by decide),
    offsets_double (Nat.le_refl _) (by decide), Nat.sub_self]
  rfl

theorem indexBlocks_firstDouble {inode : Inode} {junk : UInt32} :
    indexBlocks d inode junk (directPtrs + ptrPerPage) =
      [inode.doubleInd, readPtr d (addr32 inode.doubleInd 0) junk] := by
  rw [indexBlocks, root_double (Nat.le_refl _) (by decide),
    offsets_double (Nat.le_refl _) (by decide), Nat.sub_self]
  rfl

/-- Only the single indirect pages of a file use its single indirect block. -/
theorem single_owner (hw : WellFormed fs d v) {f g i : Nat} {junk : UInt32}
    (h : v.Page f directPtrs) (hp : v.Page g i)
    (hq : (v.inode f).singleInd ∈ indexBlocks d (v.inode g) junk i) :
    g = f ∧ directPtrs ≤ i ∧ i < directPtrs + ptrPerPage := by
  have hfirst : ∀ old, lookup d (v.inode f) old directPtrs =
      readPtr d (addr32 (v.inode f).singleInd 0) old := fun old => by
    rw [lookup_single (Nat.le_refl _) (by decide), Nat.sub_self, Nat.zero_mul]
  -- a page that reads the first word too would share a block or an index block with `f`
  have hno : ∀ j, directPtrs + ptrPerPage ≤ j → j ≤ i →
      ¬ ReadsFirst d (v.inode g) (v.inode f).singleInd j := by
    rintro j hj hji ⟨junk, old, hl | hm⟩
    · rw [← hfirst] at hl
      obtain ⟨-, hd⟩ := hw.distinct ⟨hp.file, by have := hp.lt; omega⟩ h junk old hl
      simp only [hd, ptrPerPage] at hj
      omega
    · rw [← hfirst] at hm
      exact hw.notIndex h old ⟨g, j, junk, ⟨hp.file, by have := hp.lt; omega⟩, _, hm, rfl⟩
  by_cases h₁ : i < directPtrs
  · rw [indexBlocks, offsets, if_pos h₁] at hq
    exact absurd hq List.not_mem_nil
  by_cases h₂ : i < directPtrs + ptrPerPage
  · rw [indexBlocks_single (by omega) h₂, List.mem_singleton] at hq
    have hl : lookup d (v.inode f) junk directPtrs = lookup d (v.inode g) junk directPtrs := by
      rw [lookup_single (Nat.le_refl _) (by decide), lookup_single (Nat.le_refl _) (by decide), hq]
    obtain ⟨hfg, -⟩ := hw.distinct h ⟨hp.file, by have := hp.lt; omega⟩ junk junk hl
    exact ⟨hfg.symm, by omega, h₂⟩
  · obtain ⟨j, hj, hji, hr⟩ : ∃ j, directPtrs + ptrPerPage ≤ j ∧ j ≤ i ∧
        ReadsFirst d (v.inode g) (v.inode f).singleInd j := by
      by_cases h₃ : i < directPtrs + ptrPerPage + ptrPerPage * ptrPerPage
      · exact first_word_double (by omega) h₃ hq
      · exact first_word_triple (by omega) hq
    exact absurd hr (hno j hj hji)

end View

end Fs
