import Mathlib.Data.List.Nodup
import Endros.Mkfs.Create

/-!
# Walking the directory

`create_dir_bfs` visits a directory tree in breadth-first order.  The queue has
the paths that are still to be visited, each with its inode number and that of
its parent.  A directory promises the next numbers to its children, writes them
into its entries and puts the children at the end of the queue.

A tree is what `os.listdir` and `open` find, with the names as bytes.  The state
`σ` is that of the image, and `create` is `create_file` on it, which may raise.
`DirEntry` raises as well: a name that is not UTF-8 cannot be encoded, and one of
more than 60 bytes does not fit its field.

The walk makes a list of calls (`visits`) that depends on the tree only, and stops
at the first one that raises (`createDirBfs_eq`).  The queue always holds adjacent
numbers, up to `current_inode`.  So the calls have the numbers 2, 3, 4, ... in
this order, and what a directory has promised is what its children get.
-/

namespace Mkfs

open Lib Fs Mem

/-! ## Trees -/

/-- The bytes of a file name. -/
abbrev Name := List UInt8

/-- A path below the directory that the script is given. -/
abbrev Path := List Name

inductive Node where
  | file (permission : UInt32) (data : List UInt8)
  | dir (permission : UInt32) (children : List (Name × Node))

mutual

/-- All paths of a tree, with what is found there. -/
def Node.walk : Node → List (Path × Node)
  | .file permission data => [([], .file permission data)]
  | .dir permission children => ([], .dir permission children) :: walkAll children

def walkAll : List (Name × Node) → List (Path × Node)
  | [] => []
  | (name, node) :: children => (node.walk.map fun e => (name :: e.1, e.2)) ++ walkAll children

end

/-- No directory has two entries of one name. -/
inductive Node.Distinct : Node → Prop
  | file (permission : UInt32) (data : List UInt8) : Distinct (.file permission data)
  | dir {permission : UInt32} {children : List (Name × Node)} (names : (children.map (·.1)).Nodup)
      (nodes : ∀ c ∈ children, Distinct c.2) : Distinct (.dir permission children)

/-- `name.encode()` succeeds. -/
def utf8 (name : Name) : Bool := ByteArray.validateUTF8 ⟨name.toArray⟩

/-- The name can be stored in a `DirEntry`. -/
def Fits (name : Name) : Prop := utf8 name = true ∧ name.length ≤ 60

instance (name : Name) : Decidable (Fits name) :=
  inferInstanceAs (Decidable (utf8 name = true ∧ name.length ≤ 60))

inductive Node.NamesFit : Node → Prop
  | file (permission : UInt32) (data : List UInt8) : NamesFit (.file permission data)
  | dir {permission : UInt32} {children : List (Name × Node)} (names : ∀ c ∈ children, Fits c.1)
      (nodes : ∀ c ∈ children, NamesFit c.2) : NamesFit (.dir permission children)

/-! ## `create_dir_bfs` -/

inductive WalkError where
  /-- `surrogates not allowed`. -/
  | encode
  /-- `bytes too long`. -/
  | tooLong
  /-- An exception of `create_file`. -/
  | create (e : Error)
deriving DecidableEq, Repr

/-- `VSFS_DIRECTORY`. -/
def vsfsDirectory : UInt32 := 0

/-- `VSFS_FILE`. -/
def vsfsFile : UInt32 := 1

/-- `DIR_ENTRY_SIZE`. -/
def dirEntrySize : Nat := 64

/-- The bytes of a `DirEntry`. -/
def entryBytes (name : Name) (inode : Nat) : List UInt8 :=
  name ++ List.replicate (60 - name.length) 0 ++ (List.range 4).map (bytes32 (UInt32.ofNat inode))

/-- `DirEntry(name.encode(), inode)`. -/
def dirEntry (name : Name) (inode : Nat) : Except WalkError (List UInt8) :=
  if utf8 name = false then .error .encode
  else if 60 < name.length then .error .tooLong
  else .ok (entryBytes name inode)

/-- `"."` -/
def dot : Name := [46]

/-- `".."` -/
def dotdot : Name := [46, 46]

/-- An element of the queue, with what is found at its path. -/
structure Pending where
  path : Path
  node : Node
  inode : Nat
  pInode : Nat

structure Walk (σ : Type) where
  queue : List Pending
  currentInode : Nat
  g : σ

/-- The bytes of a list, as `create_file` gets them. -/
def bytesOf (l : List UInt8) (i : Nat) : UInt8 := l.getD i 0

/-- The loop over the children of a directory, the next of which gets the number
`k`. -/
def addChildren (path : Path) (inode : Nat) :
    Nat → List (Name × Node) → List Pending → List UInt8 →
      Except WalkError (List Pending × List UInt8)
  | _, [], queue, data => .ok (queue, data)
  | k, (name, node) :: children, queue, data => do
      let entry ← dirEntry name k
      addChildren path inode (k + 1) children (queue ++ [⟨path ++ [name], node, k, inode⟩])
        (data ++ entry)

section Bfs

variable {σ : Type} (create : σ → NewFile → Except Error σ)

/-- `create_file`. -/
def callCreate (g : σ) (f : NewFile) : Except WalkError σ :=
  match create g f with
  | .error e => .error (.create e)
  | .ok g => .ok g

/-- One round of the loop, for the element that was taken from the queue. -/
def visit (s : Walk σ) (p : Pending) : Except WalkError (Walk σ) :=
  match p.node with
  | .file permission data => do
      let g ← callCreate create s.g ⟨p.inode, vsfsFile, permission, data.length, bytesOf data⟩
      return { s with g }
  | .dir permission children => do
      let (queue, data) ← addChildren p.path p.inode s.currentInode children s.queue
        (entryBytes dot p.inode ++ entryBytes dotdot p.pInode)
      let g ← callCreate create s.g
        ⟨p.inode, vsfsDirectory, permission, (2 + children.length) * dirEntrySize, bytesOf data⟩
      return ⟨queue, s.currentInode + children.length, g⟩

/-- The nodes that are still to be visited. -/
def weight (queue : List Pending) : Nat := (queue.map fun p => p.node.walk.length).sum

/-- The children of a directory in the queue. -/
def kids (path : Path) (inode : Nat) : Nat → List (Name × Node) → List Pending
  | _, [] => []
  | k, (name, node) :: children =>
      ⟨path ++ [name], node, k, inode⟩ :: kids path inode (k + 1) children

theorem weight_append (q q' : List Pending) : weight (q ++ q') = weight q + weight q' := by
  simp [weight]

theorem weight_kids (path : Path) (inode k : Nat) (children : List (Name × Node)) :
    weight (kids path inode k children) = (walkAll children).length := by
  induction children generalizing k with
  | nil => rfl
  | cons c children ih =>
      have h := ih (k + 1)
      simp only [weight, kids, walkAll, List.map_cons, List.sum_cons, List.length_append,
        List.length_map] at h ⊢
      rw [h]

/-- The queue gets the children, whatever is in the entries. -/
theorem addChildren_queue {path : Path} {inode k : Nat} {children : List (Name × Node)}
    {queue queue' : List Pending} {data data' : List UInt8}
    (h : addChildren path inode k children queue data = .ok (queue', data')) :
    queue' = queue ++ kids path inode k children := by
  induction children generalizing k queue data with
  | nil =>
      cases h
      simp [kids]
  | cons c children ih =>
      obtain ⟨entry, -, h⟩ := bind_ok h
      rw [ih h, kids, List.append_assoc]
      rfl

/-- A round visits one node. -/
theorem visit_weight {s s' : Walk σ} {p : Pending} (h : visit create s p = .ok s') :
    weight s'.queue < weight (p :: s.queue) := by
  rw [visit] at h
  have hcons : weight (p :: s.queue) = p.node.walk.length + weight s.queue := by simp [weight]
  rw [hcons]
  cases hn : p.node with
  | file permission data =>
      rw [hn] at h
      obtain ⟨g, -, h⟩ := bind_ok h
      cases h
      simp [Node.walk]
  | dir permission children =>
      rw [hn] at h
      obtain ⟨⟨queue, data⟩, hadd, h⟩ := bind_ok h
      obtain ⟨g, -, h⟩ := bind_ok h
      cases h
      rw [addChildren_queue hadd, weight_append, weight_kids, Node.walk, List.length_cons]
      omega

/-- The loop of `create_dir_bfs`. -/
def bfsLoop (s : Walk σ) : Except WalkError σ :=
  match _hq : s.queue with
  | [] => .ok s.g
  | p :: rest =>
      match _hv : visit create { s with queue := rest } p with
      | .error e => .error e
      | .ok s' => bfsLoop s'
termination_by weight s.queue
decreasing_by
  rw [_hq]
  exact visit_weight create _hv

def createDirBfs (g : σ) (root : Node) (inode : Nat) : Except WalkError σ :=
  bfsLoop create ⟨[⟨[], root, inode, inode⟩], inode + 1, g⟩

end Bfs

/-! ## The calls of a walk -/

/-- The entries of the children, the first of which gets the number `k`. -/
def childEntries : Nat → List (Name × Node) → List UInt8
  | _, [] => []
  | k, (name, _) :: children => entryBytes name k ++ childEntries (k + 1) children

namespace Pending

/-- What is put into the queue, if the next number is `k`. -/
def kids (p : Pending) (k : Nat) : List Pending :=
  match p.node with
  | .file _ _ => []
  | .dir _ children => Mkfs.kids p.path p.inode k children

/-- The arguments of `create_file`. -/
def newFile (p : Pending) (k : Nat) : NewFile :=
  match p.node with
  | .file permission data => ⟨p.inode, vsfsFile, permission, data.length, bytesOf data⟩
  | .dir permission children =>
      ⟨p.inode, vsfsDirectory, permission, (2 + children.length) * dirEntrySize,
        bytesOf (entryBytes dot p.inode ++ entryBytes dotdot p.pInode ++ childEntries k children)⟩

theorem weight_kids_lt (p : Pending) (k : Nat) (rest : List Pending) :
    weight (rest ++ p.kids k) < weight (p :: rest) := by
  rw [weight_append, kids]
  cases hn : p.node with
  | file permission data => simp [weight, hn, Node.walk]
  | dir permission children =>
      dsimp only
      rw [weight_kids]
      simp only [weight, List.map_cons, List.sum_cons, hn, Node.walk, List.length_cons]
      omega

end Pending

/-- The elements of the queue in the order in which they are visited, with the
calls of `create_file`. -/
def visits : List Pending → Nat → List (Pending × NewFile)
  | [], _ => []
  | p :: rest, k => (p, p.newFile k) :: visits (rest ++ p.kids k) (k + (p.kids k).length)
termination_by queue => weight queue
decreasing_by exact p.weight_kids_lt k rest

/-- Calls of `create_file`, up to the first one that raises. -/
def createAll {σ : Type} (create : σ → NewFile → Except Error σ) (g : σ) :
    List NewFile → Except WalkError σ
  | [] => .ok g
  | f :: files => do
      let g ← callCreate create g f
      createAll create g files

section Calls

theorem length_kids (path : Path) (inode k : Nat) (children : List (Name × Node)) :
    (kids path inode k children).length = children.length := by
  induction children generalizing k with
  | nil => rfl
  | cons c children ih => rw [kids, List.length_cons, ih, List.length_cons]

theorem mem_kids {path : Path} {inode k : Nat} {children : List (Name × Node)} {p : Pending}
    (h : p ∈ kids path inode k children) :
    ∃ c ∈ children, p.node = c.2 ∧ p.path = path ++ [c.1] ∧ p.pInode = inode := by
  induction children generalizing k with
  | nil => cases h
  | cons c children ih =>
      rcases List.mem_cons.mp h with rfl | h
      · exact ⟨c, List.mem_cons_self, rfl, rfl, rfl⟩
      · obtain ⟨c', hc, hp⟩ := ih h
        exact ⟨c', List.mem_cons_of_mem _ hc, hp⟩

theorem exists_kid (path : Path) (inode k : Nat) {children : List (Name × Node)} {c : Name × Node}
    (h : c ∈ children) : ∃ p ∈ kids path inode k children, p.node = c.2 := by
  induction children generalizing k with
  | nil => cases h
  | cons c' children ih =>
      rcases List.mem_cons.mp h with rfl | h
      · exact ⟨_, List.mem_cons_self, rfl⟩
      · obtain ⟨p, hp, hn⟩ := ih (k + 1) h
        exact ⟨p, List.mem_cons_of_mem _ hp, hn⟩

theorem dirEntry_ok {name : Name} {inode : Nat} (h : Fits name) :
    dirEntry name inode = .ok (entryBytes name inode) := by
  rw [dirEntry, h.1, if_neg (by simp), if_neg (Nat.not_lt_of_le h.2)]

theorem fits_of_dirEntry {name : Name} {inode : Nat} {entry : List UInt8}
    (h : dirEntry name inode = .ok entry) : Fits name := by
  rw [dirEntry] at h
  split at h
  · cases h
  · rename_i hu
    split at h
    · cases h
    · rename_i hl
      exact ⟨by simpa using hu, Nat.le_of_not_lt hl⟩

theorem addChildren_ok {path : Path} {inode k : Nat} {children : List (Name × Node)}
    {queue : List Pending} {data : List UInt8} (h : ∀ c ∈ children, Fits c.1) :
    addChildren path inode k children queue data =
      .ok (queue ++ kids path inode k children, data ++ childEntries k children) := by
  induction children generalizing k queue data with
  | nil => simp [addChildren, kids, childEntries]
  | cons c children ih =>
      rw [addChildren, dirEntry_ok (h c List.mem_cons_self), ok_bind,
        ih fun c' hc => h c' (List.mem_cons_of_mem _ hc), kids, childEntries]
      simp

theorem fits_of_addChildren {path : Path} {inode k : Nat} {children : List (Name × Node)}
    {queue : List Pending} {data : List UInt8} {r : List Pending × List UInt8}
    (h : addChildren path inode k children queue data = .ok r) : ∀ c ∈ children, Fits c.1 := by
  induction children generalizing k queue data with
  | nil => exact fun c hc => nomatch hc
  | cons c children ih =>
      obtain ⟨entry, hentry, h⟩ := bind_ok h
      intro c' hc
      rcases List.mem_cons.mp hc with rfl | hc
      · exact fits_of_dirEntry hentry
      · exact ih h c' hc

variable {σ : Type} (create : σ → NewFile → Except Error σ)

/-- One round, if the names fit. -/
theorem visit_eq {queue : List Pending} {k : Nat} {g : σ} {p : Pending} (h : p.node.NamesFit) :
    visit create ⟨queue, k, g⟩ p = (do
      let g ← callCreate create g (p.newFile k)
      return ⟨queue ++ p.kids k, k + (p.kids k).length, g⟩) := by
  obtain ⟨path, node, inode, pInode⟩ := p
  cases h with
  | file permission data => simp [visit, Pending.newFile, Pending.kids]
  | dir names nodes =>
      rw [visit]
      dsimp only
      rw [addChildren_ok names, ok_bind]
      simp only [Pending.newFile, Pending.kids, length_kids]

theorem NamesFit.kids {p : Pending} {k : Nat} (h : p.node.NamesFit) :
    ∀ q ∈ p.kids k, q.node.NamesFit := by
  obtain ⟨path, node, inode, pInode⟩ := p
  cases h with
  | file permission data => exact fun q hq => nomatch hq
  | dir names nodes =>
      intro q hq
      obtain ⟨c, hc, hn, -⟩ := mem_kids hq
      rw [hn]
      exact nodes c hc

/-- The walk makes the calls of `visits`. -/
theorem bfsLoop_eq {queue : List Pending} {k : Nat} {g : σ}
    (h : ∀ p ∈ queue, p.node.NamesFit) :
    bfsLoop create ⟨queue, k, g⟩ = createAll create g ((visits queue k).map (·.2)) := by
  induction queue, k using visits.induct generalizing g with
  | case1 k =>
      rw [bfsLoop, visits]
      rfl
  | case2 p rest k ih =>
      have hp := h p List.mem_cons_self
      have hrest : ∀ q ∈ rest ++ p.kids k, q.node.NamesFit := by
        intro q hq
        rcases List.mem_append.mp hq with hq | hq
        · exact h q (List.mem_cons_of_mem _ hq)
        · exact NamesFit.kids hp q hq
      rw [bfsLoop, visits]
      dsimp only
      rw [visit_eq create hp, List.map_cons, createAll]
      cases callCreate create g (p.newFile k) with
      | error e => rfl
      | ok g' => exact ih hrest

/-- A round that returns has found only names that fit. -/
theorem fits_of_visit {s s' : Walk σ} {p : Pending} (h : visit create s p = .ok s')
    (hq : ∀ q ∈ s'.queue, q.node.NamesFit) :
    p.node.NamesFit ∧ ∀ q ∈ s.queue, q.node.NamesFit := by
  rw [visit] at h
  cases hn : p.node with
  | file permission data =>
      rw [hn] at h
      obtain ⟨g, -, h⟩ := bind_ok h
      cases h
      exact ⟨.file permission data, hq⟩
  | dir permission children =>
      rw [hn] at h
      obtain ⟨⟨queue, data⟩, hadd, h⟩ := bind_ok h
      obtain ⟨g, -, h⟩ := bind_ok h
      cases h
      obtain rfl := addChildren_queue hadd
      refine ⟨.dir (fits_of_addChildren hadd) fun c hc => ?_,
        fun q hmem => hq q (List.mem_append_left _ hmem)⟩
      obtain ⟨q, hmem, hnode⟩ := exists_kid p.path p.inode s.currentInode hc
      rw [← hnode]
      exact hq q (List.mem_append_right _ hmem)

/-- A walk that returns has found only names that fit. -/
theorem fits_of_bfsLoop {s : Walk σ} {g : σ} (h : bfsLoop create s = .ok g) :
    ∀ p ∈ s.queue, p.node.NamesFit := by
  induction s using bfsLoop.induct create with
  | case1 s hq =>
      rw [hq]
      exact fun p hp => nomatch hp
  | case2 s p rest hq e hv =>
      obtain ⟨queue, k, g'⟩ := s
      obtain rfl : queue = p :: rest := hq
      rw [bfsLoop] at h
      dsimp only at h hv
      rw [hv] at h
      cases h
  | case3 s p rest hq s' hv ih =>
      obtain ⟨queue, k, g'⟩ := s
      obtain rfl : queue = p :: rest := hq
      rw [bfsLoop] at h
      dsimp only at h hv
      rw [hv] at h
      obtain ⟨hp, hrest⟩ := fits_of_visit create hv (ih h)
      intro q hq
      rcases List.mem_cons.mp hq with rfl | hq
      · exact hp
      · exact hrest q hq

end Calls

/-! ## Numbers -/

section Numbers

theorem map_inode_kids (path : Path) (inode k : Nat) (children : List (Name × Node)) :
    (kids path inode k children).map (·.inode) = List.range' k children.length := by
  induction children generalizing k with
  | nil => rfl
  | cons c children ih => rw [kids, List.map_cons, ih, List.length_cons, List.range'_succ]

/-- The queue has adjacent numbers, and so have the calls. -/
theorem visits_inodes (queue : List Pending) {k first : Nat}
    (hq : queue.map (·.inode) = List.range' first queue.length) (hk : k = first + queue.length) :
    (visits queue k).map (·.1.inode) = List.range' first (visits queue k).length := by
  induction queue, k using visits.induct generalizing first with
  | case1 k => rw [visits]; rfl
  | case2 p rest k ih =>
      rw [List.map_cons, List.length_cons, List.range'_succ] at hq
      obtain ⟨hp, hrest⟩ := List.cons.inj hq
      have hkids : (p.kids k).map (·.inode) = List.range' k (p.kids k).length := by
        rw [Pending.kids]
        cases p.node with
        | file permission data => rfl
        | dir permission children =>
            dsimp only
            rw [map_inode_kids, length_kids]
      have hnext : (rest ++ p.kids k).map (·.inode) =
          List.range' (first + 1) (rest ++ p.kids k).length := by
        rw [List.map_append, hrest, hkids, List.length_append, hk, List.length_cons,
          ← List.range'_append_1, Nat.add_assoc first 1, Nat.add_comm 1]
      rw [visits, List.map_cons, List.length_cons, List.range'_succ, hp,
        ih hnext (by rw [List.length_append, hk, List.length_cons]; omega)]

/-- A node of the queue with all that is below it. -/
def below (p : Pending) : List (Path × Node) := p.node.walk.map fun e => (p.path ++ e.1, e.2)

theorem below_kids (path : Path) (inode k : Nat) (children : List (Name × Node)) :
    (kids path inode k children).flatMap below =
      (walkAll children).map fun e => (path ++ e.1, e.2) := by
  induction children generalizing k with
  | nil => rfl
  | cons c children ih =>
      rw [kids, List.flatMap_cons, ih, walkAll, List.map_append, below, List.map_map]
      simp [Function.comp_def]

/-- Every node below the queue is visited once. -/
theorem visits_perm (queue : List Pending) (k : Nat) :
    ((visits queue k).map fun v => (v.1.path, v.1.node)).Perm (queue.flatMap below) := by
  induction queue, k using visits.induct with
  | case1 k => rw [visits]; exact .refl _
  | case2 p rest k ih =>
      have hbelow : below p = (p.path, p.node) :: (p.kids k).flatMap below := by
        rw [below, Pending.kids]
        cases hn : p.node with
        | file permission data => simp [Node.walk]
        | dir permission children =>
            dsimp only
            rw [below_kids, Node.walk]
            simp
      rw [visits, List.map_cons, List.flatMap_cons, hbelow, List.cons_append]
      refine List.Perm.cons _ (ih.trans ?_)
      rw [List.flatMap_append]
      exact List.perm_append_comm

/-- Every element of the queue is visited. -/
theorem exists_visit {queue : List Pending} {k : Nat} {p : Pending} (h : p ∈ queue) :
    ∃ f, (p, f) ∈ visits queue k := by
  induction queue, k using visits.induct with
  | case1 k => cases h
  | case2 q rest k ih =>
      rw [visits]
      rcases List.mem_cons.mp h with rfl | h
      · exact ⟨_, List.mem_cons_self⟩
      · obtain ⟨f, hf⟩ := ih (List.mem_append_left _ h)
        exact ⟨f, List.mem_cons_of_mem _ hf⟩

end Numbers

/-- The call of `create_file` for what is at a path, with the numbers that
`number` gives to the paths.  The root is its own parent. -/
def describe (number : Path → Nat) (path : Path) : Node → NewFile
  | .file permission data => ⟨number path, vsfsFile, permission, data.length, bytesOf data⟩
  | .dir permission children =>
      ⟨number path, vsfsDirectory, permission, (2 + children.length) * dirEntrySize,
        bytesOf (entryBytes dot (number path) ++ entryBytes dotdot (number path.dropLast) ++
          children.flatMap fun c => entryBytes c.1 (number (path ++ [c.1])))⟩

section Describe

variable {number : Path → Nat}

theorem childEntries_eq {path : Path} {inode k : Nat} {children : List (Name × Node)}
    (h : ∀ q ∈ kids path inode k children, number q.path = q.inode) :
    childEntries k children = children.flatMap fun c => entryBytes c.1 (number (path ++ [c.1])) := by
  induction children generalizing k with
  | nil => rfl
  | cons c children ih =>
      have hc : number (path ++ [c.1]) = k := h ⟨path ++ [c.1], c.2, k, inode⟩ List.mem_cons_self
      rw [childEntries, List.flatMap_cons, hc, ih fun q hq => h q (List.mem_cons_of_mem _ hq)]

/-- A call has the numbers of the paths, if the queue has. -/
theorem newFile_eq {p : Pending} {k : Nat} (hp : number p.path = p.inode)
    (hup : number p.path.dropLast = p.pInode)
    (hkids : ∀ q ∈ p.kids k, number q.path = q.inode) :
    p.newFile k = describe number p.path p.node := by
  rw [Pending.kids] at hkids
  rw [Pending.newFile]
  cases hn : p.node with
  | file permission data => simp only [describe, hp]
  | dir permission children =>
      rw [hn] at hkids
      simp only [describe, hp, hup, childEntries_eq hkids]

/-- If the visits have the numbers of their paths, and the parents of the queue
as well, then so have all calls. -/
theorem visits_describe (number : Path → Nat) (queue : List Pending) {k : Nat}
    (hnum : ∀ v ∈ visits queue k, number v.1.path = v.1.inode)
    (hup : ∀ p ∈ queue, number p.path.dropLast = p.pInode) :
    ∀ v ∈ visits queue k, v.2 = describe number v.1.path v.1.node := by
  induction queue, k using visits.induct with
  | case1 k =>
      rw [visits]
      exact fun v hv => nomatch hv
  | case2 p rest k ih =>
      rw [visits] at hnum ⊢
      have hp : number p.path = p.inode := hnum (p, p.newFile k) List.mem_cons_self
      have hnum' := fun v hv => hnum v (List.mem_cons_of_mem _ hv)
      have hkids : ∀ q ∈ p.kids k, number q.path = q.inode := by
        intro q hq
        obtain ⟨f, hf⟩ := exists_visit (List.mem_append_right rest hq)
        exact hnum' (q, f) hf
      have hup' : ∀ q ∈ rest ++ p.kids k, number q.path.dropLast = q.pInode := by
        intro q hq
        rcases List.mem_append.mp hq with hq | hq
        · exact hup q (List.mem_cons_of_mem _ hq)
        · rw [Pending.kids] at hq
          cases hn : p.node with
          | file permission data =>
              rw [hn] at hq
              cases hq
          | dir permission children =>
              rw [hn] at hq
              obtain ⟨c, -, -, hpath, hpi⟩ := mem_kids hq
              rw [hpath, List.dropLast_concat, hp, hpi]
      intro v hv
      rcases List.mem_cons.mp hv with rfl | hv
      · exact newFile_eq hp (hup p List.mem_cons_self) hkids
      · exact ih hnum' hup' v hv

end Describe

/-! ## Paths -/

/-- The first name of a path below a directory is that of a child. -/
theorem mem_walkAll {children : List (Name × Node)} {e : Path × Node} (h : e ∈ walkAll children) :
    ∃ c ∈ children, ∃ e' ∈ c.2.walk, e.1 = c.1 :: e'.1 := by
  induction children with
  | nil => cases h
  | cons c children ih =>
      rw [walkAll, List.mem_append, List.mem_map] at h
      rcases h with ⟨e', he', rfl⟩ | h
      · exact ⟨c, List.mem_cons_self, e', he', rfl⟩
      · obtain ⟨c', hc, he⟩ := ih h
        exact ⟨c', List.mem_cons_of_mem _ hc, he⟩

theorem walkAll_nodup {children : List (Name × Node)} (names : (children.map (·.1)).Nodup)
    (nodes : ∀ c ∈ children, (c.2.walk.map (·.1)).Nodup) :
    ((walkAll children).map (·.1)).Nodup := by
  induction children with
  | nil => exact List.nodup_nil
  | cons c children ih =>
      obtain ⟨hc, names⟩ := List.nodup_cons.mp names
      have hmap : (c.2.walk.map fun e => (c.1 :: e.1, e.2)).map (·.1) =
          (c.2.walk.map (·.1)).map (c.1 :: ·) := by
        simp [Function.comp_def]
      have hinj : Function.Injective (c.1 :: · : Path → Path) := fun _ _ h => (List.cons.inj h).2
      rw [walkAll, List.map_append, hmap]
      refine ((nodes c List.mem_cons_self).map hinj).append
        (ih names fun c' h => nodes c' (List.mem_cons_of_mem _ h)) fun path h₁ h₂ => ?_
      obtain ⟨q, -, rfl⟩ := List.mem_map.mp h₁
      obtain ⟨e, he, hpath⟩ := List.mem_map.mp h₂
      obtain ⟨c', hc', e', -, he'⟩ := mem_walkAll he
      have hname : c.1 = c'.1 := (List.cons.inj (hpath.symm.trans he')).1
      exact hc (List.mem_map.mpr ⟨c', hc', hname.symm⟩)

/-- No path is found twice. -/
theorem Node.Distinct.nodup {node : Node} (h : node.Distinct) : (node.walk.map (·.1)).Nodup := by
  induction h with
  | file permission data => simp [Node.walk]
  | dir names nodes ih =>
      rw [Node.walk, List.map_cons]
      refine List.nodup_cons.mpr ⟨fun hmem => ?_, walkAll_nodup names ih⟩
      obtain ⟨e, he, hpath⟩ := List.mem_map.mp hmem
      obtain ⟨c, -, e', -, he'⟩ := mem_walkAll he
      cases hpath.symm.trans he'

/-- The number under which a path is visited. -/
def numberIn (vs : List (Pending × NewFile)) (path : Path) : Nat :=
  ((vs.find? fun v => v.1.path = path).map (·.1.inode)).getD 0

theorem numberIn_eq {vs : List (Pending × NewFile)} (h : (vs.map (·.1.path)).Nodup)
    {v : Pending × NewFile} (hv : v ∈ vs) : numberIn vs v.1.path = v.1.inode := by
  induction vs with
  | nil => cases hv
  | cons w vs ih =>
      obtain ⟨hw, h⟩ := List.nodup_cons.mp h
      rw [numberIn, List.find?_cons]
      rcases List.mem_cons.mp hv with rfl | hv
      · simp
      · have hne : w.1.path ≠ v.1.path := fun he => hw (List.mem_map.mpr ⟨v, hv, he.symm⟩)
        rw [decide_eq_false hne]
        exact ih h hv

/-! ## The numbering of a tree -/

/-- The calls that `create_dir_bfs` makes for a tree: one for each path, numbered
from `first` on in this order, and with the numbers of the paths in the entries of
the directories. -/
structure Numbered (root : Node) (first : Nat) (order : List (Path × Node)) (number : Path → Nat) :
    Prop where
  perm : order.Perm root.walk
  nodup : (order.map (·.1)).Nodup
  numbers : (order.map fun e => number e.1) = List.range' first order.length

/-- The queue at the start. -/
def rootQueue (root : Node) (first : Nat) : List Pending := [⟨[], root, first, first⟩]

/-- The visits of a tree are numbered. -/
theorem visits_numbered {root : Node} (first : Nat) (hd : root.Distinct) :
    ∃ number, Numbered root first
        ((visits (rootQueue root first) (first + 1)).map fun v => (v.1.path, v.1.node)) number ∧
      ∀ v ∈ visits (rootQueue root first) (first + 1), v.2 = describe number v.1.path v.1.node := by
  have hperm := visits_perm (rootQueue root first) (first + 1)
  have hinodes := visits_inodes (rootQueue root first) (k := first + 1) rfl rfl
  have hdescribe := visits_describe (numberIn (visits (rootQueue root first) (first + 1)))
    (rootQueue root first) (k := first + 1)
  obtain ⟨f, hroot⟩ : ∃ f, (⟨[], root, first, first⟩, f) ∈ visits (rootQueue root first) (first + 1) :=
    exists_visit List.mem_cons_self
  generalize visits (rootQueue root first) (first + 1) = vs at *
  have hbelow : (rootQueue root first).flatMap below = root.walk := by simp [rootQueue, below]
  rw [hbelow] at hperm
  have hnodup : ((vs.map fun v => (v.1.path, v.1.node)).map (·.1)).Nodup :=
    (hperm.map _).nodup_iff.mpr hd.nodup
  have hpaths : (vs.map (·.1.path)).Nodup := by simpa [Function.comp_def] using hnodup
  refine ⟨numberIn vs, ⟨hperm, hnodup, ?_⟩, hdescribe (fun v hv => numberIn_eq hpaths hv) ?_⟩
  · rw [List.map_map, List.length_map, ← hinodes]
    exact List.map_congr_left fun v hv => numberIn_eq hpaths hv
  · intro p hp
    obtain rfl := List.mem_singleton.mp hp
    exact numberIn_eq hpaths hroot

/-- `mkfs.py` numbers a tree consistently.  The calls of `create_file` are the same
for every image and every `create_file`, which may raise.  If a name cannot be
stored, the walk raises. -/
theorem createDirBfs_numbered (root : Node) (first : Nat) (hd : root.Distinct) :
    (root.NamesFit → ∃ order number, Numbered root first order number ∧
      ∀ (σ : Type) (create : σ → NewFile → Except Error σ) (g : σ),
        createDirBfs create g root first =
          createAll create g (order.map fun e => describe number e.1 e.2)) ∧
    (¬ root.NamesFit → ∀ (σ : Type) (create : σ → NewFile → Except Error σ) (g : σ),
      ∃ e, createDirBfs create g root first = .error e) := by
  constructor
  · intro hfit
    obtain ⟨number, hnum, hcall⟩ := visits_numbered first hd
    refine ⟨_, number, hnum, fun σ create g => ?_⟩
    rw [createDirBfs, ← rootQueue, bfsLoop_eq create (by simpa [rootQueue] using hfit), List.map_map]
    exact congrArg (createAll create g) (List.map_congr_left hcall)
  · intro hfit σ create g
    cases hrun : createDirBfs create g root first with
    | error e => exact ⟨e, rfl⟩
    | ok g' => exact absurd (fits_of_bfsLoop create hrun _ List.mem_cons_self) hfit

/-- A `create_file` that keeps its arguments. -/
def record (calls : List NewFile) (f : NewFile) : Except Error (List NewFile) := .ok (calls ++ [f])

/-- A directory with a file `a` and a directory `b` with a file `c` in it. -/
def smallTree : Node :=
  .dir 0o755 [([97], .file 0o644 [1, 2, 3]), ([98], .dir 0o755 [([99], .file 0o644 [])])]

theorem createDirBfs_numbered_smallTree :
    ∃ order number, Numbered smallTree 2 order number ∧
      createDirBfs record [] smallTree 2 =
        createAll record [] (order.map fun e => describe number e.1 e.2) := by
  have hd : smallTree.Distinct := by
    refine .dir (by decide) fun c hc => ?_
    rcases List.mem_cons.mp hc with rfl | hc
    · exact .file _ _
    · obtain rfl := List.mem_singleton.mp hc
      refine .dir (by decide) fun c hc => ?_
      obtain rfl := List.mem_singleton.mp hc
      exact .file _ _
  have hfit : smallTree.NamesFit := by
    refine .dir (by simp only [List.forall_mem_cons]; decide) fun c hc => ?_
    rcases List.mem_cons.mp hc with rfl | hc
    · exact .file _ _
    · obtain rfl := List.mem_singleton.mp hc
      refine .dir (by simp only [List.forall_mem_cons]; decide) fun c hc => ?_
      obtain rfl := List.mem_singleton.mp hc
      exact .file _ _
  obtain ⟨order, number, hnum, hcalls⟩ := (createDirBfs_numbered smallTree 2 hd).1 hfit
  exact ⟨order, number, hnum, hcalls _ record []⟩

/-- A name of 61 bytes ends the walk before the first call. -/
theorem long_name_raises :
    createDirBfs record [] (.dir 0o755 [(List.replicate 61 97, .file 0o644 [])]) 2 =
      .error .tooLong := by
  rw [createDirBfs, bfsLoop]
  rfl

/-! ## The script -/

/-- `main`, for a tree. -/
def makeImage (geo : Geometry) (root : Node) : Except WalkError Globals :=
  match start geo with
  | .error e => .error (.create e)
  | .ok g => createDirBfs (fun g f => (createFile geo g f).map (·.2)) g root 2

/-- Calls that do not raise are a run of the script between two calls. -/
theorem isRun_of_createAll {geo : Geometry} {files : List NewFile} {s : Build} {g : Globals}
    (h : createAll (fun g f => (createFile geo g f).map (·.2)) s.g files = .ok g) :
    ∃ r, IsRun (fun s f s' => Build.step geo s f = some s') s r ∧ r.map (·.1) = files ∧
      (finalState s r).g = g := by
  induction files generalizing s with
  | nil =>
      cases h
      exact ⟨[], trivial, rfl, rfl⟩
  | cons f files ih =>
      obtain ⟨g₁, hcall, h⟩ := bind_ok h
      cases hf : createFile geo s.g f with
      | error e =>
          rw [callCreate, hf] at hcall
          cases hcall
      | ok r₁ =>
          rw [callCreate, hf] at hcall
          obtain rfl : r₁.2 = g₁ := Except.ok.inj hcall
          obtain ⟨r, hr, hfiles, hfinal⟩ := ih (s := ⟨r₁.2, r₁.1 :: s.files⟩) h
          refine ⟨(f, ⟨r₁.2, r₁.1 :: s.files⟩) :: r, ⟨?_, hr⟩, by rw [List.map_cons, hfiles], hfinal⟩
          show Build.step geo s f = some _
          rw [Build.step, hf]
          rfl

/-- An image that the script has made comes from a run that makes the calls of the
numbered tree. -/
theorem makeImage_run {geo : Geometry} {root : Node} {g : Globals} (hd : root.Distinct)
    (h : makeImage geo root = .ok g) :
    ∃ g₀ r order number, start geo = .ok g₀ ∧ Numbered root 2 order number ∧
      IsRun (fun s f s' => Build.step geo s f = some s') ⟨g₀, []⟩ r ∧
      (r.map (·.1)) = (order.map fun e => describe number e.1 e.2) ∧
      (finalState ⟨g₀, []⟩ r).g = g := by
  rw [makeImage] at h
  split at h
  · cases h
  · rename_i g₀ hstart
    have hfit : root.NamesFit := fits_of_bfsLoop _ h _ List.mem_cons_self
    obtain ⟨number, hnum, hcall⟩ := visits_numbered 2 hd
    rw [createDirBfs, ← rootQueue, bfsLoop_eq _ (by simpa [rootQueue] using hfit)] at h
    obtain ⟨r, hr, hfiles, hfinal⟩ := isRun_of_createAll (s := ⟨g₀, []⟩) h
    refine ⟨g₀, r, _, number, hstart, hnum, hr, ?_, hfinal⟩
    rw [hfiles, List.map_map]
    exact List.map_congr_left hcall

end Mkfs
