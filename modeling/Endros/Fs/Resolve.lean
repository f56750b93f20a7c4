import Endros.Fs.Path
import Mathlib.Data.List.Find
import Mathlib.Data.List.TakeWhile

/-!
# What a path means

The files of a disk form a tree: some of them are directories, and a directory
has entries, with a name and a file each.  A path is split at its slashes, and the
names lead from one directory to the next one, by the first entry of that name.

`getfile` does this with one loop over the text of the path
(`getfile_eq_lookupPath`).  It needs that the names on the disk end within their
fields and that entries are about allocated inodes.  A slash at the end of the path
makes no difference, and two slashes in a row have an empty name between them.
-/

namespace Fs

open Lib Mem

/-! ## Trees -/

/-- Files, of which some are directories with named entries. -/
structure Tree where
  isDirectory : UInt32 → Prop
  [decDirectory : DecidablePred isDirectory]
  entries : UInt32 → List (List UInt8 × UInt32)

namespace Tree

variable (t : Tree)

instance : DecidablePred t.isDirectory := t.decDirectory

/-- The first entry of a directory with exactly this name. -/
def child (i : UInt32) (name : List Chr) : Option UInt32 :=
  if t.isDirectory i then
    ((t.entries i).find? fun e => e.1 = name.map Subtype.val).map Prod.snd
  else none

/-- Where the names lead to. -/
def resolve (start : UInt32) (names : List (List Chr)) : Option UInt32 :=
  names.foldlM t.child start

theorem resolve_cons (start : UInt32) (name : List Chr) (names : List (List Chr)) :
    t.resolve start (name :: names) = (t.child start name).bind fun i => t.resolve i names := rfl

end Tree

/-- The names of a path: one slash at the end is dropped. -/
def components (rest : List Chr) : List (List Chr) :=
  (if rest.getLast? = some slash then rest.dropLast else rest).splitOn slash

/-- Where a path starts, and what of it is left. -/
def pathStart (root cwd : UInt32) (path : List Chr) : UInt32 × List Chr :=
  if path.head? = some slash then (root, path.drop 1) else (cwd, path)

/-- The file of a path. -/
def lookupPath (t : Tree) (root cwd : UInt32) (path : List Chr) : Option UInt32 :=
  let (start, rest) := pathStart root cwd path
  if rest = [] then none else t.resolve start (components rest)

/-- No name on the way leads to `dev`, and the path does not start there. -/
def Avoids (t : Tree) (root cwd dev : UInt32) (path : List Chr) : Prop :=
  ∀ names, names <+: components (pathStart root cwd path).2 →
    t.resolve (pathStart root cwd path).1 names ≠ some dev

/-! ## The tree of a disk -/

/-- The name in an entry, up to the zero behind it. -/
def storedName (c : Nat → UInt8) (j : Nat) : List UInt8 :=
  ((List.range nameSize).map fun k => c (j * dirEntrySize + k)).takeWhile (· != 0)

/-- The number of entries of a directory. -/
def entryCount (fs : Filesystem) (d : Disk) (i : UInt32) : Nat :=
  (inodeOf fs d i.toNat).sizeBytes.toNat / dirEntrySize

/-- The tree of a disk on which the file `i` has the contents `c i`. -/
def treeOf (fs : Filesystem) (d : Disk) (c : UInt32 → Nat → UInt8) : Tree where
  isDirectory i := (inodeOf fs d i.toNat).type = directory
  entries i := (List.range (entryCount fs d i)).map fun j => (storedName (c i) j, entryInode (c i) j)

/-- The files have these contents, the names in the directories end within their
fields, and the entries are about files. -/
structure Directories (fs : Filesystem) (d : Disk) (c : UInt32 → Nat → UInt8) : Prop where
  separate : Separate fs d
  contents : ∀ {i : UInt32}, IsFile fs d i.toNat → Contents fs d i.toNat (c i)
  terminated : ∀ {i : UInt32}, IsFile fs d i.toNat → (inodeOf fs d i.toNat).type = directory →
    ∀ j, j < entryCount fs d i → ∃ k, k < nameSize ∧ c i (j * dirEntrySize + k) = 0
  allocated : ∀ {i : UInt32}, IsFile fs d i.toNat → (inodeOf fs d i.toNat).type = directory →
    ∀ j, j < entryCount fs d i → IsFile fs d (entryInode (c i) j).toNat

/-! ## The comparison of names -/

theorem strlenIs_iff {s : Nat → UInt8} {n : Nat} :
    strlenIs s n = true ↔ (∀ k, k < n → s k ≠ 0) ∧ s n = 0 := by
  simp [strlenIs]

/-- The text of a string in memory that ends at `n`. -/
theorem takeWhile_range {s : Nat → UInt8} {n size : Nat} (hn : n < size)
    (hs : ∀ k, k < n → s k ≠ 0) (h0 : s n = 0) :
    ((List.range size).map s).takeWhile (· != 0) = (List.range n).map s := by
  obtain ⟨r, rfl⟩ : ∃ r, size = n + (r + 1) := ⟨size - n - 1, by omega⟩
  rw [List.range_add, List.map_append, List.takeWhile_append_of_pos]
  · rw [List.range_succ_eq_map]
    simp [h0]
  · intro b hb
    obtain ⟨k, hk, rfl⟩ := List.mem_map.mp hb
    simpa using hs k (List.mem_range.mp hk)

/-- An entry matches a name exactly if it is the one that is stored. -/
theorem entryMatches_iff {entries : Nat → UInt8} {ptr : List Chr} {n j : Nat}
    (hn : n ≤ ptr.length) (hend : ∃ k, k < nameSize ∧ entries (j * dirEntrySize + k) = 0) :
    entryMatches entries ptr n j = true ↔
      storedName entries j = (ptr.take n).map Subtype.val := by
  generalize hs : (fun k => entries (j * dirEntrySize + k)) = s at *
  have hend' : ∃ k, s k = 0 := hend.imp fun k hk => by rw [← hs]; exact hk.2
  -- the length of the stored name
  obtain ⟨l, hl, hlmin⟩ : ∃ l, s l = 0 ∧ ∀ k, k < l → s k ≠ 0 :=
    ⟨Nat.find hend', Nat.find_spec hend', fun k hk => Nat.find_min hend' hk⟩
  have hlsize : l < nameSize := by
    obtain ⟨k, hk, hzero⟩ := hend
    refine Nat.lt_of_le_of_lt (Nat.le_of_not_lt fun hlt => hlmin k hlt ?_) hk
    rw [← hs]
    exact hzero
  have hstored : storedName entries j = (List.range l).map s := by
    rw [storedName, hs, takeWhile_range hlsize hlmin hl]
  rw [entryMatches, hs, Bool.and_eq_true, strlenIs_iff, beq_iff_eq, hstored]
  constructor
  · rintro ⟨⟨hlt, h0⟩, hcmp⟩
    obtain rfl : n = l := by
      rcases Nat.lt_trichotomy n l with h | h | h
      · exact absurd h0 (hlmin n h)
      · exact h
      · exact absurd hl (hlt l h)
    exact ((strncmp_eq_zero hn hlt).mp hcmp).symm
  · intro heq
    have hlen := congrArg List.length heq
    simp only [List.length_map, List.length_range, List.length_take, Nat.min_eq_left hn] at hlen
    subst hlen
    exact ⟨⟨hlmin, hl⟩, (strncmp_eq_zero hn hlmin).mpr heq.symm⟩

/-! ## The components of a path -/

theorem ptr_eq (s : Walk) : s.name ++ s.rest = s.ptr := List.takeWhile_append_dropWhile

theorem slash_notMem_name (s : Walk) : slash ∉ s.name := by
  intro h
  have hns : Walk.notSlash slash = true := List.mem_takeWhile_imp h
  exact absurd hns (by decide)

/-- Behind a name there is nothing, or a slash. -/
theorem rest_cases (s : Walk) : s.rest = [] ∨ ∃ r, s.rest = slash :: r := by
  rw [Walk.rest]
  induction s.ptr with
  | nil => exact .inl rfl
  | cons c l ih =>
      by_cases hc : c = slash
      · subst hc
        exact .inr ⟨l, rfl⟩
      · have hns : Walk.notSlash c = true := bne_iff_ne.mpr hc
        rw [List.dropWhile_cons_of_pos hns]
        exact ih

theorem splitOn_name {name : List Chr} (h : slash ∉ name) : name.splitOn slash = [name] :=
  List.splitOnP_eq_singleton fun _ hc => beq_eq_false_iff_ne.mpr fun he => h (he ▸ hc)

theorem splitOn_name_append {name : List Chr} (h : slash ∉ name) (r : List Chr) :
    (name ++ slash :: r).splitOn slash = name :: r.splitOn slash := by
  have hsplit : (name ++ slash :: r).splitOn slash = name.splitOn slash ++ r.splitOn slash :=
    List.splitOnP_append_cons (p := (· == slash)) name r (by decide)
  rw [hsplit, splitOn_name h]
  rfl

/-- The last name of a path, with or without a slash behind it. -/
theorem components_last (s : Walk) (h : s.rest.drop 1 = []) : components s.ptr = [s.name] := by
  have hname := slash_notMem_name s
  rw [← ptr_eq, components]
  rcases rest_cases s with hrest | ⟨r, hrest⟩
  · rw [hrest, List.append_nil, if_neg fun hl => hname (List.mem_of_getLast? hl),
      splitOn_name hname]
  · rw [hrest] at h ⊢
    rw [show r = [] from h, if_pos (by simp), List.dropLast_concat, splitOn_name hname]

/-- A name with others behind it. -/
theorem components_cons (s : Walk) {r : List Chr} (h : s.rest = slash :: r) (hr : r ≠ []) :
    components s.ptr = s.name :: components r := by
  have hname := slash_notMem_name s
  have hlast : (s.name ++ slash :: r).getLast? = r.getLast? := by
    rw [List.getLast?_append_of_ne_nil _ (List.cons_ne_nil slash r), List.getLast?_cons_of_ne_nil hr]
  have hdrop : (s.name ++ slash :: r).dropLast = s.name ++ slash :: r.dropLast := by
    rw [List.dropLast_append_of_ne_nil (List.cons_ne_nil slash r), List.dropLast_cons_of_ne_nil hr]
  rw [← ptr_eq, h, components, components, hlast, hdrop]
  split
  · exact splitOn_name_append hname _
  · exact splitOn_name_append hname _

/-! ## One round -/

/-- Two searches that agree on every entry. -/
theorem find_entry_congr {p q : Nat → Bool} {f g : Nat → UInt32} {n : Nat}
    (hpq : ∀ j, j < n → p j = q j) (hfg : ∀ j, j < n → f j = g j) :
    ((List.range n).find? p).map f = ((List.range n).find? q).map g := by
  have hfind : (List.range n).find? p = (List.range n).find? q :=
    List.find?_congr fun j hj => hpq j (List.mem_range.mp hj)
  rw [hfind]
  cases hq : (List.range n).find? q with
  | none => rfl
  | some j => exact congrArg some (hfg j (List.mem_range.mp (List.mem_of_find?_eq_some hq)))

section Round

variable {m : Mount} {d : Disk} {u : GetfileLocals} {c : UInt32 → Nat → UInt8} {s : Walk}

theorem take_name (s : Walk) : s.ptr.take s.name.length = s.name := by
  conv_lhs => rw [← ptr_eq s]
  exact List.take_left

/-- The first of `n` entries with the name. -/
def findStored (c : Nat → UInt8) (n : Nat) (name : List Chr) : Option UInt32 :=
  ((List.range n).find? fun j => storedName c j = name.map Subtype.val).map (entryInode c)

/-- What a round finds in a directory with the bytes `c`, whose names end within
their fields. -/
theorem found_eq_findStored {c : Nat → UInt8} {size : Nat}
    (hsize : (s.inode m d u).sizeBytes.toNat = size)
    (hentries : ∀ a, a < size → s.entries m d u a = c a)
    (hend : ∀ j, j < size / dirEntrySize → ∃ k, k < nameSize ∧ c (j * dirEntrySize + k) = 0) :
    s.found m d u = findStored c (size / dirEntrySize) s.name := by
  have hinside : ∀ j, j < size / dirEntrySize → ∀ k, k < dirEntrySize →
      s.entries m d u (j * dirEntrySize + k) = c (j * dirEntrySize + k) := by
    intro j hj k hk
    refine hentries _ ?_
    simp only [dirEntrySize] at *
    omega
  have hname : s.name.length ≤ s.ptr.length := by
    rw [← ptr_eq s, List.length_append]
    omega
  rw [Walk.found, findEntry, hsize]
  refine find_entry_congr (fun j hj => ?_) fun j hj => ?_
  · obtain ⟨k, hk, hzero⟩ := hend j hj
    have hstored : storedName (s.entries m d u) j = storedName c j := by
      rw [storedName, storedName]
      congr 1
      refine List.map_congr_left fun k hk => hinside j hj k ?_
      exact Nat.lt_trans (List.mem_range.mp hk) (by decide)
    have hmatch := entryMatches_iff hname
      ⟨k, hk, (hinside j hj k (Nat.lt_trans hk (by decide))).trans hzero⟩
    rw [take_name, hstored] at hmatch
    rw [Bool.eq_iff_iff, decide_eq_true_iff]
    exact hmatch
  · refine le32_congr fun k hk => ?_
    rw [Nat.add_assoc]
    exact hinside j hj _ (by simp only [nameSize, dirEntrySize]; omega)

theorem Walk.entries_eq {c : Nat → UInt8}
    (hinode : s.inode m d u = inodeOf m.fs d s.cwd.toNat) (hc : Contents m.fs d s.cwd.toNat c)
    {a : Nat} (ha : a < (inodeOf m.fs d s.cwd.toNat).sizeBytes.toNat) :
    s.entries m d u a = c a := by
  have hread := hc (u.round s.round).read (u.round s.round).pages 0
    (inodeOf m.fs d s.cwd.toNat).sizeBytes.toNat
    (kallocBuffer (inodeOf m.fs d s.cwd.toNat).sizeBytes.toNat (u.round s.round).behind)
    (Nat.le_of_eq (Nat.zero_add _)) a ha
  rw [Nat.zero_add] at hread
  rw [Walk.entries, hinode]
  exact hread

theorem Directories.inode_eq (h : Directories m.fs d c) (hf : IsFile m.fs d s.cwd.toNat) :
    s.inode m d u = inodeOf m.fs d s.cwd.toNat := by
  rw [Walk.inode, getInode_of_le h.separate.metadata h.separate.size hf]

/-- What a round finds in a directory is what the tree has there. -/
theorem Directories.found_eq (h : Directories m.fs d c) (hf : IsFile m.fs d s.cwd.toNat)
    (hdir : (inodeOf m.fs d s.cwd.toNat).type = directory) :
    s.found m d u = (treeOf m.fs d c).child s.cwd s.name := by
  have hchild : (treeOf m.fs d c).child s.cwd s.name =
      findStored (c s.cwd) (entryCount m.fs d s.cwd) s.name := by
    rw [Tree.child, if_pos (show (treeOf m.fs d c).isDirectory s.cwd from hdir)]
    show (((List.range (entryCount m.fs d s.cwd)).map fun j =>
      (storedName (c s.cwd) j, entryInode (c s.cwd) j)).find? _).map _ = _
    rw [List.find?_map, Option.map_map]
    rfl
  have hinode := h.inode_eq (u := u) hf
  rw [hchild]
  exact found_eq_findStored (by rw [hinode])
    (fun a ha => Walk.entries_eq hinode (h.contents hf) ha)
    (h.terminated hf hdir)

/-- A child is a file. -/
theorem Directories.child_isFile (h : Directories m.fs d c) {i inum : UInt32} {name : List Chr}
    (hf : IsFile m.fs d i.toNat) (hchild : (treeOf m.fs d c).child i name = some inum) :
    IsFile m.fs d inum.toNat := by
  rw [Tree.child] at hchild
  split at hchild
  · rename_i hdir
    obtain ⟨e, he, rfl⟩ := Option.map_eq_some_iff.mp hchild
    obtain ⟨j, hj, rfl⟩ := List.mem_map.mp (List.mem_of_find?_eq_some he)
    exact h.allocated hf hdir j (List.mem_range.mp hj)
  · cases hchild

end Round

/-! ## The whole walk -/

section Walk

variable {m : Mount} {d : Disk} {u : GetfileLocals} {c : UInt32 → Nat → UInt8}

/-- The loop follows the names of what is left of the path.  The induction is on
the number of rounds, and every round takes one name. -/
theorem Directories.loop_eq (h : Directories m.fs d c) {n : Nat} {s : Walk} (hptr : s.ptr ≠ [])
    (hlen : s.ptr.length ≤ n) (hf : IsFile m.fs d s.cwd.toNat)
    (hdev : ∀ names, names <+: components s.ptr →
      (treeOf m.fs d c).resolve s.cwd names ≠ some m.dev) :
    s.loop m d u false n =
      some (((treeOf m.fs d c).resolve s.cwd (components s.ptr)).map Target.file, d) := by
  induction n generalizing s with
  | zero => exact absurd (List.length_pos_of_ne_nil hptr) (Nat.not_lt.mpr hlen)
  | succ n ih =>
      obtain ⟨names, hnames⟩ : ∃ names, components s.ptr = s.name :: names := by
        rcases rest_cases s with hrest | ⟨r, hrest⟩
        · exact ⟨[], components_last s (by rw [hrest]; rfl)⟩
        · by_cases hr : r = []
          · exact ⟨[], components_last s (by rw [hrest, hr]; rfl)⟩
          · exact ⟨_, components_cons s hrest hr⟩
      rw [hnames, Tree.resolve_cons]
      by_cases hdir : (inodeOf m.fs d s.cwd.toNat).type = directory
      · have hfound := h.found_eq (u := u) hf hdir
        have hdir' : (s.inode m d u).type = directory := by rw [h.inode_eq hf]; exact hdir
        -- neither the directory nor what is found in it is `/dev`
        have hnodev : s.device m d u = none := by
          refine if_neg fun he => ?_
          rw [Walk.searched, hfound] at he
          split at he
          · exact hdev [] List.nil_prefix (congrArg some he)
          · cases hchild : (treeOf m.fs d c).child s.cwd s.name with
            | none =>
                rw [hchild] at he
                exact hdev [] List.nil_prefix (congrArg some he)
            | some inum =>
                rw [hchild] at he
                refine hdev [s.name] (hnames ▸ List.cons_prefix_cons.mpr ⟨rfl, List.nil_prefix⟩) ?_
                rw [Tree.resolve_cons, hchild]
                exact congrArg some he
        cases hchild : (treeOf m.fs d c).child s.cwd s.name with
        | none =>
            rw [hchild] at hfound
            exact Walk.loop_missing hptr hdir' hnodev hfound
        | some inum =>
            rw [hchild] at hfound
            rw [Walk.loop_enter hptr hdir' hnodev hfound, Option.bind_some]
            by_cases hlast : s.rest.drop 1 = []
            · -- this was the last name
              rw [components_last s hlast] at hnames
              rw [Walk.loop_done hlast, ← (List.cons.inj hnames).2]
              rfl
            · obtain ⟨r, hrest⟩ := (rest_cases s).resolve_left fun he => hlast (by rw [he]; rfl)
              have hnext : (s.next m d u inum).ptr = r := by
                rw [Walk.next, hrest]
                rfl
              have hr : r ≠ [] := by
                rw [hrest] at hlast
                exact hlast
              rw [components_cons s hrest hr] at hnames hdev
              have hshort := Walk.next_length (m := m) (d := d) (u := u) hptr inum
              have hloop := ih (s := s.next m d u inum) (by rw [hnext]; exact hr) (by omega)
                (h.child_isFile hf hchild) fun names hpre he => by
                  rw [hnext] at hpre
                  refine hdev (s.name :: names) (List.cons_prefix_cons.mpr ⟨rfl, hpre⟩) ?_
                  rw [Tree.resolve_cons, hchild]
                  exact he
              rw [hloop, hnext, ← (List.cons.inj hnames).2]
              rfl
      · have hchild : (treeOf m.fs d c).child s.cwd s.name = none := if_neg hdir
        rw [hchild]
        exact Walk.loop_notDirectory hptr (by rw [h.inode_eq hf]; exact hdir)

/-- A path that does not come to `/dev` leads `getfile` where it leads in the tree
of the disk, and to `-1` if it leads nowhere.  The disk is not changed. -/
theorem getfile_eq_lookupPath (h : Directories m.fs d c) {cwd : UInt32} {path : List Chr}
    (hroot : IsFile m.fs d m.root.toNat) (hcwd : IsFile m.fs d cwd.toNat)
    (hdev : Avoids (treeOf m.fs d c) m.root cwd m.dev path) (u : GetfileLocals) :
    getfile m d u cwd path false =
      some ((lookupPath (treeOf m.fs d c) m.root cwd path).map Target.file, d) := by
  have hfirst : (firstRound m u cwd path).cwd = (pathStart m.root cwd path).1 ∧
      (firstRound m u cwd path).ptr = (pathStart m.root cwd path).2 := by
    rw [firstRound, pathStart]
    split
    · exact ⟨rfl, rfl⟩
    · exact ⟨rfl, rfl⟩
  have hstart : IsFile m.fs d (pathStart m.root cwd path).1.toNat := by
    rw [pathStart]
    split
    · exact hroot
    · exact hcwd
  rw [getfile, lookupPath]
  simp only [hfirst.2]
  split
  · rfl
  · rename_i hne
    rw [h.loop_eq (by rw [hfirst.2]; exact hne) (by rw [hfirst.2]) (by rw [hfirst.1]; exact hstart)
      (by rw [hfirst.1, hfirst.2]; exact hdev), hfirst.1, hfirst.2]

end Walk

/-! ## A directory with one entry -/

/-- The inode of a directory of one entry, in the block 4. -/
def oneEntryInode : Inode :=
  { type := directory
    permission := 6
    sizeBytes := 64
    direct := fun _ => 4
    singleInd := 0
    doubleInd := 0
    tripleInd := 0 }

/-- The directory 2 has the empty file 3 under the name `a`. -/
def oneEntryDisk : Disk :=
  ((((Disk.mk (fun _ => 0) (2048 * 4096)).write 4096 1 fun _ => 12).write (2 * 4096) 1
    fun _ => 0x1f).write (3 * 4096 + 256) 128 (bytesOfWords oneEntryInode.words)).write (3 * 4096 + 384)
    128 (bytesOfWords zeroCreateLocals.fileInode.words) |>.write (4 * 4096) 64
    (dirEntry (literal "a") 3)

theorem oneEntry_file {f : Nat} (h : IsFile sampleFs oneEntryDisk f) : f = 2 ∨ f = 3 := by
  have hall : ∀ f, f < 32 → bitmapGet (oneEntryDisk.bytes (inodeBitmapByte f)) f = true →
      f = 2 ∨ f = 3 := by decide
  exact hall f h.lt h.marked

theorem oneEntry_inode : inodeOf sampleFs oneEntryDisk 2 = oneEntryInode := by
  have hwords : ∀ k, k < inodeWords →
      le32 oneEntryDisk.bytes (inodeAddr sampleFs 2 + 4 * k) = oneEntryInode.words k := by decide
  rw [inodeOf, Inode.ofWords_congr hwords, Inode.ofWords_words]

theorem oneEntry_page {f i : Nat} (hp : (files sampleFs oneEntryDisk).Page f i) :
    f = 2 ∧ i = 0 := by
  have hlt : i < pages sampleFs oneEntryDisk f := hp.lt
  rcases oneEntry_file hp.file with rfl | rfl
  · rw [pages, oneEntry_inode, show addr2PageUp oneEntryInode.sizeBytes.toNat = 1 by decide] at hlt
    exact ⟨rfl, by omega⟩
  · rw [show pages sampleFs oneEntryDisk 3 = 0 by decide] at hlt
    exact absurd hlt (Nat.not_lt_zero i)

theorem oneEntry_isData {f b : Nat} (h : IsData sampleFs oneEntryDisk f b) : f = 2 ∧ b = 4 := by
  obtain ⟨i, junk, hp, rfl⟩ := h
  obtain ⟨rfl, rfl⟩ := oneEntry_page hp
  rw [oneEntry_inode]
  exact ⟨rfl, rfl⟩

theorem oneEntry_usesIndex {f b : Nat} : ¬ UsesIndex sampleFs oneEntryDisk f b := by
  rintro ⟨i, junk, hp, a, ha, -⟩
  obtain ⟨rfl, rfl⟩ := oneEntry_page hp
  exact absurd ha List.not_mem_nil

theorem oneEntry_separate : Separate sampleFs oneEntryDisk := by
  have hsize : oneEntryDisk.size = 2048 * 4096 := rfl
  constructor
  · rw [hsize]
    decide
  · rw [hsize]
    decide
  · intro f i i' hp hp' _ _ _
    rw [(oneEntry_page hp).2, (oneEntry_page hp').2]
  · intro f f' b hne hd hd'
    exact hne ((oneEntry_isData hd).1.trans (oneEntry_isData hd').1.symm)
  · exact fun _ h => absurd h oneEntry_usesIndex
  · exact fun _ => oneEntry_usesIndex
  · rintro f b (h | h)
    · rw [(oneEntry_isData h).2]
      decide
    · exact absurd h oneEntry_usesIndex
  · rintro f b (h | h)
    · rw [(oneEntry_isData h).2, hsize]
      decide
    · exact absurd h oneEntry_usesIndex

/-- What the files hold. -/
def oneEntryContents (i : UInt32) (y : Nat) : UInt8 :=
  oneEntryDisk.bytes (byteAddr (blockOf sampleFs oneEntryDisk i.toNat) y)

theorem oneEntry_directory {i : UInt32} (hf : IsFile sampleFs oneEntryDisk i.toNat)
    (hdir : (inodeOf sampleFs oneEntryDisk i.toNat).type = directory) : i = 2 := by
  rcases oneEntry_file hf with h | h
  · exact UInt32.toNat_inj.mp h
  · rw [h] at hdir
    exact absurd hdir (by decide)

theorem oneEntry_directories : Directories sampleFs oneEntryDisk oneEntryContents := by
  have hcount : entryCount sampleFs oneEntryDisk 2 = 1 := by decide
  refine ⟨oneEntry_separate, fun hf => oneEntry_separate.contents hf, ?_, ?_⟩
  · intro i hf hdir j hj
    obtain rfl := oneEntry_directory hf hdir
    obtain rfl : j = 0 := by omega
    exact ⟨1, by decide, by decide⟩
  · intro i hf hdir j hj
    obtain rfl := oneEntry_directory hf hdir
    obtain rfl : j = 0 := by omega
    exact ⟨by decide, by decide⟩

/-- The path `/a/` on this disk. -/
theorem getfile_oneEntry :
    Directories sampleFs oneEntryDisk oneEntryContents ∧
      getfile ⟨sampleFs, 2, 5⟩ oneEntryDisk zeroGetfileLocals 2 (literal "/a/") false =
        some (some (.file 3), oneEntryDisk) := by
  have hpath : components (pathStart 2 2 (literal "/a/")).2 = [literal "a"] := by decide
  have ha : (treeOf sampleFs oneEntryDisk oneEntryContents).resolve 2 [literal "a"] = some 3 := by
    decide
  have hlookup : lookupPath (treeOf sampleFs oneEntryDisk oneEntryContents) 2 2 (literal "/a/") =
      some 3 := by decide
  refine ⟨oneEntry_directories, ?_⟩
  rw [getfile_eq_lookupPath (m := ⟨sampleFs, 2, 5⟩) oneEntry_directories ⟨by decide, by decide⟩
    ⟨by decide, by decide⟩, hlookup]
  · rfl
  · intro names hpre
    rw [hpath] at hpre
    rcases List.prefix_cons_iff.mp hpre with rfl | ⟨t, rfl, ht⟩
    · decide
    · rw [List.prefix_nil.mp ht]
      show (treeOf sampleFs oneEntryDisk oneEntryContents).resolve 2 [literal "a"] ≠ some 5
      rw [ha]
      decide

end Fs
