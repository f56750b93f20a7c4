import Endros.Fs.Outcome

/-!
# Paths

`getfile` walks along a path.  In each round it reads the directory it is in,
takes the text up to the next slash for a name and looks for an entry with this
name.  A path that ends with a name without an entry makes `create_file` add one
if this was asked for.  In the directory `/dev` the names of the devices are
compared with the rest of the path, behind that.

So a device that has no entry of its name in `/dev` is found by a lookup, and by
a lookup that may create becomes a new file.  There is no other difference
(`create_keeps_iff`).
-/

namespace Fs

open Lib Mem

/-! ## Strings -/

/-- A character of a string, which is not the one that ends it. -/
abbrev Chr : Type := { b : UInt8 // b ≠ 0 }

/-- `'/'`. -/
def slash : Chr := ⟨47, by decide⟩

/-- `strlen(s) == n`. -/
def strlenIs (s : Nat → UInt8) (n : Nat) : Bool :=
  ((List.range n).all fun k => s k != 0) && s n == 0

/-- `strncmp`. -/
def strncmp : List Chr → (Nat → UInt8) → Nat → Int
  | _, _, 0 => 0
  | [], s₂, _ + 1 => 0 - (s₂ 0).toNat
  | c :: s₁, s₂, n + 1 =>
      if s₂ 0 = 0 then c.val.toNat
      else if c.val ≠ s₂ 0 then (c.val.toNat : Int) - (s₂ 0).toNat
      else strncmp s₁ (fun k => s₂ (k + 1)) n

/-- `strcmp`. -/
def strcmp : List Chr → List Chr → Int
  | [], [] => 0
  | [], b :: _ => 0 - (b.val.toNat : Int)
  | a :: _, [] => a.val.toNat
  | a :: s₁, b :: s₂ => if a ≠ b then (a.val.toNat : Int) - b.val.toNat else strcmp s₁ s₂

theorem chr_toNat_ne_zero (c : Chr) : c.val.toNat ≠ 0 := fun h =>
  c.property (UInt8.toNat_inj.mp h)

theorem strcmp_eq_zero {s₁ s₂ : List Chr} : strcmp s₁ s₂ = 0 ↔ s₁ = s₂ := by
  induction s₁ generalizing s₂ with
  | nil =>
      cases s₂ with
      | nil => simp [strcmp]
      | cons b s₂ =>
          have hb := chr_toNat_ne_zero b
          simp only [strcmp, reduceCtorEq, iff_false]
          omega
  | cons a s₁ ih =>
      cases s₂ with
      | nil =>
          have ha := chr_toNat_ne_zero a
          simp only [strcmp, reduceCtorEq, iff_false]
          omega
      | cons b s₂ =>
          rw [strcmp]
          split
          · rename_i hne
            have hval : a.val.toNat ≠ b.val.toNat := fun h =>
              hne (Subtype.ext (UInt8.toNat_inj.mp h))
            refine ⟨fun h => ?_, fun h => absurd (List.cons.inj h).1 hne⟩
            omega
          · rename_i heq
            rw [ih, not_not.mp heq, List.cons_inj_right]

/-- Behind a match of the lengths, `strncmp` compares the texts. -/
theorem strncmp_eq_zero {s₁ : List Chr} {s₂ : Nat → UInt8} {n : Nat} (hn : n ≤ s₁.length)
    (hs : ∀ k, k < n → s₂ k ≠ 0) :
    strncmp s₁ s₂ n = 0 ↔ (s₁.take n).map Subtype.val = (List.range n).map s₂ := by
  induction n generalizing s₁ s₂ with
  | zero => simp [strncmp]
  | succ n ih =>
      cases s₁ with
      | nil => exact absurd hn (Nat.not_succ_le_zero n)
      | cons c s₁ =>
          have hrest := @ih s₁ (fun k => s₂ (k + 1)) (Nat.le_of_succ_le_succ hn)
            fun k hk => hs (k + 1) (by omega)
          rw [strncmp, if_neg (hs 0 (by omega)), List.take_succ_cons, List.map_cons,
            List.range_succ_eq_map, List.map_cons, List.map_map, List.cons_eq_cons]
          split
          · rename_i hne
            have hval : c.val.toNat ≠ (s₂ 0).toNat := fun h => hne (UInt8.toNat_inj.mp h)
            refine ⟨fun h => ?_, fun h => absurd h.1 hne⟩
            omega
          · rename_i heq
            rw [hrest]
            exact ⟨fun h => ⟨not_not.mp heq, h⟩, fun h => h.2⟩

/-! ## Directory entries -/

/-- `sizeof(DirEntry)`, of which 60 bytes are the name. -/
def dirEntrySize : Nat := 64

/-- `sizeof` of the field `name`. -/
def nameSize : Nat := 60

/-- The `DirEntry` that `create_file` writes: the name, cut off behind 60 bytes and
filled up with zeros, and the number of the inode. -/
def dirEntry (filename : List Chr) (inum : UInt32) (k : Nat) : UInt8 :=
  if k < nameSize then ((filename[k]?).map Subtype.val).getD 0 else bytes32 inum (k - nameSize)

/-- The entry at the index `i` has the name in front of `ptr + n`. -/
def entryMatches (entries : Nat → UInt8) (ptr : List Chr) (n i : Nat) : Bool :=
  strlenIs (fun k => entries (i * dirEntrySize + k)) n &&
    strncmp ptr (fun k => entries (i * dirEntrySize + k)) n == 0

/-- The number of the inode in the entry at the index `i`. -/
def entryInode (entries : Nat → UInt8) (i : Nat) : UInt32 :=
  le32 entries (i * dirEntrySize + nameSize)

/-- The loop over the entries. -/
def findEntry (entries : Nat → UInt8) (count : Nat) (ptr : List Chr) (n : Nat) : Option UInt32 :=
  ((List.range count).find? (entryMatches entries ptr n)).map (entryInode entries)

/-! ## `create_file` -/

/-- The types of an inode. -/
def directory : UInt32 := 0

def file : UInt32 := 1

/-- The uninitialised locals of `create_file` and of what it calls. -/
structure CreateLocals where
  parent : Uninit
  truncate : TruncateLocals
  undo : TruncateLocals
  write : Uninit
  pages : Nat → UInt32
  inode : Inode

/-- `dir_entry.inode = allocate_inode(..)`: of `-1` the low 32 bits are kept. -/
def newInode (fs : Filesystem) (d : Disk) : UInt32 × Disk :=
  match allocateInode fs.sizeBlocks d with
  | none => (0xffffffff, d)
  | some (i, d) => (UInt32.ofNat i, d)

/-- The inode of a new file.  The pointers are not initialised. -/
def CreateLocals.fileInode (u : CreateLocals) : Inode :=
  { u.inode with sizeBytes := 0, type := file, permission := 4 ||| 2 }

/-- `create_file`.  The inner option is `none` for `-1`, and the outer one if
`fs_file_truncate` does not end. -/
def createFile (fs : Filesystem) (d : Disk) (u : CreateLocals) (parent : UInt32)
    (filename : List Chr) : Option (Option UInt32 × Disk) :=
  let oldSize := (getInode fs d u.parent parent.toNat).1.sizeBytes
  match fsFileTruncate fs d u.truncate parent.toNat (oldSize + UInt64.ofNat dirEntrySize) with
  | none => none
  | some (r, d) =>
      if r < 0 then some (none, d)
      else
        let (inum, d) := newInode fs d
        -- the field is unsigned
        if inum.toNat < 0 then
          (fsFileTruncate fs d u.undo parent.toNat oldSize).map fun r => (none, r.2)
        else
          let d := fsFileWrite fs d u.write u.pages parent.toNat oldSize.toNat
            (dirEntry filename inum) dirEntrySize
          some (some inum, fsFileSync fs d inum.toNat u.fileInode)

/-! ## `getfile` -/

/-- A mounted file system, with the inodes of `/` and `/dev`. -/
structure Mount where
  fs : Filesystem
  root : UInt32
  dev : UInt32

/-- What a path leads to. -/
inductive Target where
  | file (inum : UInt32)
  | framebuffer
  | stdin
  | stdout
  | vda
  deriving DecidableEq

/-- The text of a C string literal. -/
def literal (s : String) : List Chr :=
  s.toList.filterMap fun c => if h : UInt8.ofNat c.toNat ≠ 0 then some ⟨_, h⟩ else none

/-- The devices that are not in the file system. -/
def deviceNamed (ptr : List Chr) : Option Target :=
  if strcmp ptr (literal "framebuffer") = 0 then some .framebuffer
  else if strcmp ptr (literal "stdin") = 0 then some .stdin
  else if strcmp ptr (literal "stdout") = 0 then some .stdout
  else if strcmp ptr (literal "stderr") = 0 then some .stdout
  else if strcmp ptr (literal "vda") = 0 then some .vda
  else none

/-- What the uninitialised locals hold in a round, and the memory behind the
buffer for the entries. -/
structure RoundLocals where
  bitmapByte : UInt8
  read : Uninit
  pages : Nat → UInt32
  behind : Nat → UInt8

structure GetfileLocals where
  inode : Inode
  round : Nat → RoundLocals
  create : CreateLocals

/-- What `kalloc` returns: pages of zeros. -/
def kallocBuffer (size : Nat) (behind : Nat → UInt8) (a : Nat) : UInt8 :=
  if a < addr2PageUp size * pageSize then 0 else behind a

/-- The variables at the head of the loop.  `ptr` and `end` are the same there. -/
structure Walk where
  round : Nat
  cwd : UInt32
  cwdInode : Inode
  ptr : List Chr

namespace Walk

/-- `*p != '/'`. -/
def notSlash (c : Chr) : Bool := c != slash

section Round

variable (m : Mount) (d : Disk) (u : GetfileLocals) (s : Walk)

/-- `cwd_inode`, which stays as it is if there is no such inode. -/
def inode : Inode :=
  (getInode m.fs d ⟨(u.round s.round).bitmapByte, s.cwdInode⟩ s.cwd.toNat).1

/-- The name in front of `end`. -/
def name : List Chr := s.ptr.takeWhile notSlash

/-- What is behind the name, from `end` on. -/
def rest : List Chr := s.ptr.dropWhile notSlash

/-- The entries of the directory. -/
def entries : Nat → UInt8 :=
  let size := (s.inode m d u).sizeBytes.toNat
  let v := u.round s.round
  fsFileRead m.fs d v.read v.pages s.cwd.toNat 0 (kallocBuffer size v.behind) size

/-- The inode with the name, if there is one. -/
def found : Option UInt32 :=
  findEntry (s.entries m d u) ((s.inode m d u).sizeBytes.toNat / dirEntrySize) s.ptr s.name.length

/-- `cwd->inum` behind the search.  From the second round on `cwd` is `fileout`, which has
the inode of an entry that was found. -/
def searched : UInt32 := if s.round = 0 then s.cwd else (s.found m d u).getD s.cwd

/-- The device, if the directory is `/dev`. -/
def device : Option Target := if s.searched m d u = m.dev then deviceNamed s.ptr else none

/-- The next round, in the directory `inum`. -/
def next (inum : UInt32) : Walk := ⟨s.round + 1, inum, s.inode m d u, s.rest.drop 1⟩

end Round

/-- The loop of `getfile`, for at most `fuel` rounds. -/
def loop (m : Mount) (d : Disk) (u : GetfileLocals) (create : Bool) :
    Nat → Walk → Option (Option Target × Disk)
  | 0, s => some (some (.file s.cwd), d)
  | fuel + 1, s =>
      if s.ptr = [] then some (some (.file s.cwd), d)
      else if (s.inode m d u).type ≠ directory then some (none, d)
      else if s.rest = [] ∧ s.found m d u = none ∧ create then
        (createFile m.fs d u.create s.cwd s.ptr).map fun r => (r.1.map Target.file, r.2)
      else
        match s.device m d u with
        | some t => some (some t, d)
        | none =>
            match s.found m d u with
            | none => some (none, d)
            | some inum => loop m d u create fuel (s.next m d u inum)

end Walk

/-- The first round: a path with a slash at its front starts at the root. -/
def firstRound (m : Mount) (u : GetfileLocals) (cwd : UInt32) (path : List Chr) : Walk :=
  if path.head? = some slash then ⟨0, m.root, u.inode, path.drop 1⟩ else ⟨0, cwd, u.inode, path⟩

/-- `getfile`.  A round takes at least one character off the path. -/
def getfile (m : Mount) (d : Disk) (u : GetfileLocals) (cwd : UInt32) (path : List Chr)
    (create : Bool) : Option (Option Target × Disk) :=
  let s := firstRound m u cwd path
  if s.ptr = [] then some (none, d) else s.loop m d u create s.ptr.length

/-! ## The ways a round ends -/

/-- The devices have one name of a path, and are no files. -/
theorem deviceNamed_some {ptr : List Chr} {t : Target} (h : deviceNamed ptr = some t) :
    ptr ≠ [] ∧ ptr.dropWhile Walk.notSlash = [] ∧ ∀ inum, t ≠ .file inum := by
  simp only [deviceNamed, strcmp_eq_zero] at h
  repeat' split at h
  all_goals cases h
  all_goals
    subst ptr
    exact ⟨by decide, by decide, nofun⟩

namespace Walk

section Rounds

variable {m : Mount} {d : Disk} {u : GetfileLocals} {create : Bool} {n : Nat} {s : Walk}

theorem loop_done (h : s.ptr = []) : s.loop m d u create n = some (some (.file s.cwd), d) := by
  cases n with
  | zero => rfl
  | succ n => rw [loop, if_pos h]

section Nonempty

variable (hptr : s.ptr ≠ [])
include hptr

/-- A round takes the name off, and the slash behind it. -/
theorem next_length (inum : UInt32) : (s.next m d u inum).ptr.length < s.ptr.length := by
  have hlen : s.rest.length ≤ s.ptr.length := (List.dropWhile_sublist _).length_le
  have hpos := List.length_pos_of_ne_nil hptr
  rw [next, List.length_drop]
  omega

theorem loop_notDirectory (hdir : (s.inode m d u).type ≠ directory) :
    s.loop m d u create (n + 1) = some (none, d) := by
  rw [loop, if_neg hptr, if_pos hdir]

variable (hdir : (s.inode m d u).type = directory)
include hdir

theorem loop_create (hrest : s.rest = []) (hfound : s.found m d u = none) :
    s.loop m d u true (n + 1) =
      (createFile m.fs d u.create s.cwd s.ptr).map fun r => (r.1.map Target.file, r.2) := by
  rw [loop, if_neg hptr, if_neg (not_not.mpr hdir), if_pos ⟨hrest, hfound, rfl⟩]

theorem loop_device {t : Target} (hdev : s.device m d u = some t)
    (h : create = true → s.found m d u ≠ none) :
    s.loop m d u create (n + 1) = some (some t, d) := by
  rw [loop, if_neg hptr, if_neg (not_not.mpr hdir), if_neg fun hc => h hc.2.2 hc.2.1, hdev]

theorem loop_missing (hdev : s.device m d u = none) (hfound : s.found m d u = none) :
    s.loop m d u false (n + 1) = some (none, d) := by
  rw [loop, if_neg hptr, if_neg (not_not.mpr hdir), if_neg fun hc => Bool.noConfusion hc.2.2, hdev,
    hfound]

theorem loop_enter {inum : UInt32} (hdev : s.device m d u = none)
    (hfound : s.found m d u = some inum) :
    s.loop m d u create (n + 1) = (s.next m d u inum).loop m d u create n := by
  rw [loop, if_neg hptr, if_neg (not_not.mpr hdir), if_neg fun hc => ?_, hdev, hfound]
  rw [hfound] at hc
  cases hc.2.1

end Nonempty

/-- Without `create` the disk is only read. -/
theorem loop_disk {r : Option Target × Disk} (h : s.loop m d u false n = some r) : r.2 = d := by
  induction n generalizing s with
  | zero =>
      cases h
      rfl
  | succ n ih =>
      rw [loop] at h
      split at h
      · cases h
        rfl
      · split at h
        · cases h
          rfl
        · rw [if_neg fun hc => Bool.noConfusion hc.2.2] at h
          split at h
          · cases h
            rfl
          · split at h
            · cases h
              rfl
            · exact ih h

end Rounds

end Walk

/-! ## Asking to create -/

/-- Rounds that each find an entry lead from `s` to `s'`. -/
inductive Leads (m : Mount) (d : Disk) (u : GetfileLocals) : Walk → Walk → Prop where
  | here (s : Walk) : Leads m d u s s
  | enter {s s' : Walk} {inum : UInt32} (ptr : s.ptr ≠ [])
      (directory : (s.inode m d u).type = directory) (device : s.device m d u = none)
      (found : s.found m d u = some inum) (rest : Leads m d u (s.next m d u inum) s') :
      Leads m d u s s'

/-- The path leads to a device without an entry of its name. -/
def MeetsDevice (m : Mount) (d : Disk) (u : GetfileLocals) (s : Walk) : Prop :=
  ∃ s', Leads m d u s s' ∧ (s'.inode m d u).type = directory ∧ s'.found m d u = none ∧
    s'.device m d u ≠ none

section Create

variable {m : Mount} {d : Disk} {u : GetfileLocals} {n : Nat} {s s' : Walk}

theorem Walk.device_some {t : Target} (h : s.device m d u = some t) :
    s.ptr ≠ [] ∧ s.rest = [] ∧ ∀ inum, t ≠ .file inum := by
  rw [Walk.device] at h
  split at h
  · exact deviceNamed_some h
  · cases h

/-- Rounds that find entries do the same with and without `create`. -/
theorem Leads.loop_eq (h : Leads m d u s s') (hlen : s.ptr.length ≤ n) :
    ∃ n', s'.ptr.length ≤ n' ∧
      ∀ create, s.loop m d u create n = s'.loop m d u create n' := by
  induction h generalizing n with
  | here s => exact ⟨n, hlen, fun _ => rfl⟩
  | @enter s s' inum hptr hdir hdev hfound _ ih =>
      have hnext := Walk.next_length (m := m) (d := d) (u := u) hptr inum
      obtain ⟨n, rfl⟩ : ∃ k, n = k + 1 := ⟨n - 1, by omega⟩
      obtain ⟨n', hn', heq⟩ := ih (n := n) (by omega)
      refine ⟨n', hn', fun create => ?_⟩
      rw [Walk.loop_enter hptr hdir hdev hfound]
      exact heq create

/-- Such a device is found, but not by a lookup that may create. -/
theorem MeetsDevice.loop_ne (h : MeetsDevice m d u s) (hlen : s.ptr.length ≤ n) :
    ∃ t, s.loop m d u false n = some (some t, d) ∧ s.loop m d u true n ≠ some (some t, d) := by
  obtain ⟨s', hleads, hdir, hfound, hdev⟩ := h
  obtain ⟨t, ht⟩ := Option.ne_none_iff_exists'.mp hdev
  obtain ⟨hptr, hrest, hfile⟩ := Walk.device_some ht
  obtain ⟨n', hn', heq⟩ := hleads.loop_eq hlen
  have hpos := List.length_pos_of_ne_nil hptr
  obtain ⟨k, rfl⟩ : ∃ k, n' = k + 1 := ⟨n' - 1, by omega⟩
  refine ⟨t, ?_, ?_⟩
  · rw [heq, Walk.loop_device hptr hdir ht fun h : false = true => nomatch h]
  · rw [heq, Walk.loop_create hptr hdir hrest hfound]
    intro hc
    obtain ⟨r, -, hr⟩ := Option.map_eq_some_iff.mp hc
    obtain ⟨inum, -, ht⟩ := Option.map_eq_some_iff.mp (Prod.mk.inj hr).1
    exact hfile inum ht.symm

/-- Without such a device, what is found is found again. -/
theorem loop_create_of_not_meets (h : ¬ MeetsDevice m d u s) {t : Target}
    (hloop : s.loop m d u false n = some (some t, d)) :
    s.loop m d u true n = some (some t, d) := by
  induction n generalizing s with
  | zero => exact hloop
  | succ n ih =>
      by_cases hptr : s.ptr = []
      · rwa [Walk.loop_done hptr] at hloop ⊢
      by_cases hdir : (s.inode m d u).type = directory
      · cases hdev : s.device m d u with
        | some t' =>
            have hfound : s.found m d u ≠ none := fun hnone =>
              h ⟨s, .here s, hdir, hnone, by rw [hdev]; exact Option.some_ne_none t'⟩
            rw [Walk.loop_device hptr hdir hdev fun h : false = true => nomatch h] at hloop
            rw [Walk.loop_device hptr hdir hdev fun _ => hfound, hloop]
        | none =>
            cases hfound : s.found m d u with
            | none =>
                rw [Walk.loop_missing hptr hdir hdev hfound] at hloop
                cases hloop
            | some inum =>
                rw [Walk.loop_enter hptr hdir hdev hfound] at hloop ⊢
                refine ih (fun ⟨s', hleads, hmeets⟩ => h ⟨s', ?_, hmeets⟩) hloop
                exact .enter hptr hdir hdev hfound hleads
      · rw [Walk.loop_notDirectory hptr hdir] at hloop
        cases hloop

end Create

/-- Asking to create keeps the meaning of a path that has one, exactly if this is
not a device without an entry of its name. -/
theorem create_keeps_iff (m : Mount) (d : Disk) (u : GetfileLocals) (cwd : UInt32)
    (path : List Chr) :
    (∀ t d', getfile m d u cwd path false = some (some t, d') →
      getfile m d u cwd path true = some (some t, d)) ↔
      ¬ MeetsDevice m d u (firstRound m u cwd path) := by
  simp only [getfile]
  generalize firstRound m u cwd path = s
  constructor
  · intro h hmeets
    obtain ⟨t, hfalse, htrue⟩ := hmeets.loop_ne (Nat.le_refl _)
    by_cases hptr : s.ptr = []
    · rw [Walk.loop_done hptr] at hfalse htrue
      exact htrue hfalse
    · have hkeeps := h t d (by rw [if_neg hptr]; exact hfalse)
      rw [if_neg hptr] at hkeeps
      exact htrue hkeeps
  · intro hmeets t d' h
    by_cases hptr : s.ptr = []
    · rw [if_pos hptr] at h
      cases h
    · rw [if_neg hptr] at h ⊢
      obtain rfl : d' = d := Walk.loop_disk h
      exact loop_create_of_not_meets hmeets h

/-- The file 2 of a small disk is the directory `/dev`. -/
def devMount : Mount := ⟨sampleFs, 2, 2⟩

/-- Locals that happen to hold zeros. -/
def zeroCreateLocals : CreateLocals :=
  ⟨zeroUninit, zeroLocals, zeroLocals, zeroUninit, fun _ => 0, zeroUninit.inode⟩

def zeroGetfileLocals : GetfileLocals :=
  ⟨zeroUninit.inode, fun _ => ⟨0, zeroUninit, fun _ => 0, fun _ => 0⟩, zeroCreateLocals⟩

/-- In `/dev`, which is empty, `stdin` is the device, and with `create` it is a new
file. -/
theorem stdin_created :
    getfile devMount emptyDisk zeroGetfileLocals 2 (literal "stdin") false =
        some (some .stdin, emptyDisk) ∧
      (getfile devMount emptyDisk zeroGetfileLocals 2 (literal "stdin") true).map Prod.fst =
        some (some (.file 0)) := by
  refine ⟨rfl, by decide⟩

end Fs
