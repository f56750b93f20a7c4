import Endros.Fdt.Grammar

/-!
# The tables of `parse_dtb`

`parse_dtb` stores the names of the open nodes in an array of eight, at its depth, and the
devices in an array of 64.  It does not check the indices, and its depth is an unsigned
number that goes below zero when there are more end tokens than nodes.  `accesses` are the
places of the two arrays that the body of the loop uses.

A `Reader` reads the same words with a depth that is a number, and with the names and the
devices in tables that have room for all of them.  The parser follows it as long as
everything fits (`Matches`).  So the parser stays within its tables exactly if what the
reader puts into its own would fit into them, and if it does not ask for a name that
nobody has given (`parseDtb_in_tables`).
-/

namespace Fdt

open Lib Mem

/-! ## What the body uses -/

inductive Access where
  | storeName (j : Nat)
  | loadName (j : Nat)
  | storeHeader (j : Nat)

/-- The access is within its array, and what is read has been stored. -/
def Access.Valid (stored : Nat → Prop) : Access → Prop
  | .storeName j => j < 8
  | .loadName j => j < 8 ∧ stored j
  | .storeHeader j => j < maxVirtioMmio

section Accesses

variable (bytes : Bytes) (i : Nat) (s : Parser)

/-- `prop_name`, at the word `i`. -/
def propNameAt : Nat → UInt8 := fun k => bytes (nameBlock bytes + (word bytes i).toNat + k)

/-- The accesses of the test for the memory, and of that for the clock. -/
def accessesDepth2 : List Access := if s.indent = 2 then [.loadName 1] else []

def accessesCpu : List Access :=
  if s.indent > 2 then
    .loadName 1 :: if strcmp (levelName bytes s 1) (ascii "cpus") = 0 then [.loadName 2] else []
  else []

def accessesVirtio : List Access :=
  if s.indent = 3 then
    .loadName 1 ::
      if strcmp (levelName bytes s 1) (ascii "soc") = 0 then
        .loadName 2 ::
          if strncmp (levelName bytes s 2) (ascii "virtio_mmio@") 12 = 0 ∧
              strcmp (propNameAt bytes i) (ascii "reg") = 0 then
            [.storeHeader s.globals.virtioMmioHeaders.length]
          else []
      else []
  else []

/-- The accesses of the body of the loop, for the word `i`. -/
def accesses : List Access :=
  match s.state with
  | .initial | .nodeprop => if word bytes i = fdtBeginNode then [.storeName s.indent.toNat] else []
  | .propoff => accessesDepth2 s ++ (accessesCpu bytes s ++ (accessesDepth2 s ++ accessesVirtio bytes i s))
  | _ => []

end Accesses

section Bounds

variable (bytes : Bytes) (levelNames : Nat → Nat) (globals : Globals)

/-- The state before the first word. -/
def Parser.start : Parser := ⟨globals, .initial, 0, 0, levelNames⟩

/-- The parser has the state `s` before the word `i`. -/
def Reaches (i : Nat) (s : Parser) : Prop := Runs (body bytes) 0 (Parser.start levelNames globals) i s

/-- The parser has stored a name at `j`, before the word `i`. -/
def Stored (i j : Nat) : Prop :=
  ∃ k s, k < i ∧ Reaches bytes levelNames globals k s ∧ .storeName j ∈ accesses bytes k s

/-- Every access of `parse_dtb` is valid. -/
def InBounds : Prop :=
  ∀ i s, i < sizeDtStruct bytes / 4 → Reaches bytes levelNames globals i s →
    ∀ a ∈ accesses bytes i s, a.Valid (Stored bytes levelNames globals i)

end Bounds

/-! ## Readers -/

/-- The words that `parse_dtb` takes for a value.  A length from `2 ^ 31 + 4` on is a negative
number. -/
def codeWords (len : UInt32) : Nat := if len.toNat < 2 ^ 31 + 4 then valueWords len else 1

/-- `names` are those of the nodes that were opened last at a depth, and `virtio` is the number of
devices. -/
structure Reader where
  cursor : Cursor
  names : Int → Option Nat
  virtio : Nat

def Place.isOffset : Place → Bool
  | .propoff _ => true
  | _ => false

namespace Reader

variable (bytes : Bytes) (i count : Nat) (r : Reader)

/-- A node is opened. -/
def Opens (w : UInt32) : Prop :=
  (r.cursor.place = .initial ∨ r.cursor.place = .nodeprop) ∧ w = fdtBeginNode

instance (w : UInt32) : Decidable (r.Opens w) := inferInstanceAs (Decidable (_ ∧ _))

/-- The name of the node that was opened last at a depth has a property. -/
def named (j : Int) (p : (Nat → UInt8) → Bool) : Bool := (r.names j).any fun a => p fun k => bytes (a + k)

/-- The word is the offset of the name of a `/soc/virtio_mmio@*` node's `reg`. -/
def VirtioReg : Prop :=
  r.cursor.place.isOffset ∧ r.cursor.depth = 3 ∧
    r.named bytes 1 (fun n => strcmp n (ascii "soc") = 0) ∧
    r.named bytes 2 (fun n => strncmp n (ascii "virtio_mmio@") 12 = 0) ∧
    strcmp (propNameAt bytes i) (ascii "reg") = 0

instance : Decidable (r.VirtioReg bytes i) := inferInstanceAs (Decidable (_ ∧ _))

/-- The word `i`. -/
def next : Option Reader :=
  match r.cursor.step codeWords (word bytes i) with
  | .error _ => none
  | .ok c => some {
      cursor := c
      names :=
        if r.Opens (word bytes i) then
          Function.update r.names r.cursor.depth (some (fdtStructs bytes + 4 * (i + 1)))
        else r.names
      virtio := if r.VirtioReg bytes i then r.virtio + 1 else r.virtio }

/-- What is put into the tables would fit, when there are `count` devices before. -/
structure StoresFit : Prop where
  node : r.Opens (word bytes i) → 0 ≤ r.cursor.depth ∧ r.cursor.depth < 8
  virtio : r.VirtioReg bytes i → count + r.virtio < maxVirtioMmio

/-- Below depth 0, there has been a node at depth 1, and one at depth 2 if it was `cpus`. -/
def LoadsFit : Prop :=
  r.cursor.place.isOffset → r.cursor.depth < 0 →
    r.names 1 ≠ none ∧ (r.named bytes 1 (fun n => strcmp n (ascii "cpus") = 0) → r.names 2 ≠ none)

end Reader

/-- The reader before the word `i`, `none` if the reading has ended before. -/
def readAt (bytes : Bytes) : Nat → Option Reader
  | 0 => some ⟨.start, fun _ => none, 0⟩
  | i + 1 => (readAt bytes i).bind fun r => r.next bytes i

/-! ## Values -/

/-- The words of a value that are left, for a value of `prop_l`. -/
def wordsOf (l : Int) : Nat :=
  if l < -2 ^ 31 + 4 then ((l + 2 ^ 32).toNat + 3) / 4
  else if l < 0 then 1
  else (l.toNat + 3) / 4

def InI32 (l : Int) : Prop := -2 ^ 31 ≤ l ∧ l < 2 ^ 31

theorem wordsOf_wraps {l : Int} (h : l < -2 ^ 31 + 4) : wordsOf l = ((l + 2 ^ 32).toNat + 3) / 4 := if_pos h

theorem wordsOf_neg {l : Int} (h : -2 ^ 31 + 4 ≤ l) (h' : l < 0) : wordsOf l = 1 := by
  rw [wordsOf, if_neg (by omega), if_pos h']

theorem wordsOf_nonneg {l : Int} (h : 0 ≤ l) : wordsOf l = (l.toNat + 3) / 4 := by
  rw [wordsOf, if_neg (by omega), if_neg (by omega)]

theorem toI32_inI32 (x : UInt32) : InI32 (toI32 x) := by
  have hx := x.toNat_lt
  rw [toI32]
  split <;> constructor <;> omega

theorem codeWords_eq (len : UInt32) : codeWords len = wordsOf (toI32 len) := by
  have hx := len.toNat_lt
  rw [codeWords, valueWords, toI32]
  by_cases h : len.toNat < 2 ^ 31
  · rw [if_pos h, if_pos (by omega), wordsOf_nonneg (by omega), Int.toNat_natCast]
  · rw [if_neg h]
    by_cases h' : len.toNat < 2 ^ 31 + 4
    · rw [if_pos h', wordsOf_wraps (by omega), Int.sub_add_cancel, Int.toNat_natCast]
    · rw [if_neg h', wordsOf_neg (by omega) (by omega)]

theorem wordsOf_eq_zero {l : Int} (h : InI32 l) : wordsOf l = 0 ↔ l = 0 := by
  obtain ⟨h₁, h₂⟩ := h
  rw [wordsOf]
  split
  · omega
  · split <;> omega

theorem subI32_inI32 {l : Int} (h : InI32 l) : InI32 (subI32 l 4) := by
  obtain ⟨h₁, h₂⟩ := h
  rw [subI32]
  split <;> constructor <;> omega

/-- One word less. -/
theorem wordsOf_sub {l : Int} (h : InI32 l) :
    Place.value (wordsOf l - 1) =
      if subI32 l 4 ≤ 0 then .nodeprop else .propval (wordsOf (subI32 l 4)) := by
  obtain ⟨h₁, h₂⟩ := h
  by_cases hwraps : l < -2 ^ 31 + 4
  · -- the difference is positive again
    have hsub : subI32 l 4 = l - 4 + 2 ^ 32 := if_pos (by omega)
    rw [hsub, if_neg (by omega), wordsOf_wraps hwraps, wordsOf_nonneg (by omega), Place.value,
      if_neg (by omega)]
    congr 1
    omega
  · have hsub : subI32 l 4 = l - 4 := if_neg (by omega)
    rw [hsub]
    by_cases hneg : l < 0
    · rw [if_pos (by omega), wordsOf_neg (by omega) hneg]
      rfl
    · rw [wordsOf_nonneg (by omega), Place.value]
      by_cases h4 : l ≤ 4
      · rw [if_pos (by omega), if_pos (by omega)]
      · rw [if_neg (by omega), if_neg (by omega), wordsOf_nonneg (by omega)]
        congr 1
        omega

/-! ## The parser and the reader -/

/-- The place of the reader, and the state of the parser. -/
inductive PlaceOf : Place → PdaState → Int → Prop where
  | initial (l : Int) : PlaceOf .initial .initial l
  | nodename (l : Int) : PlaceOf .nodename .nodename l
  | nodeprop (l : Int) : PlaceOf .nodeprop .nodeprop l
  | proplen (l : Int) : PlaceOf .proplen .proplen l
  | propoff {l : Int} : InI32 l → PlaceOf (.propoff (wordsOf l)) .propoff l
  | propval {l : Int} : InI32 l → l ≠ 0 → PlaceOf (.propval (wordsOf l)) .propval l

/-- The parser is where the reader is, and its tables have what those of the reader have. -/
structure Matches (count i : Nat) (s : Parser) (r : Reader) : Prop where
  place : PlaceOf r.cursor.place s.state s.propL
  indent : (s.indent.toNat : Int) = r.cursor.depth % 2 ^ 32
  low : -(i : Int) ≤ r.cursor.depth
  high : r.cursor.depth ≤ 8
  names : ∀ (j : Nat) a, r.names j = some a → s.levelNames j = a
  opened : ∀ j : Nat, (j : Int) < r.cursor.depth → r.names j ≠ none
  virtio : s.globals.virtioMmioHeaders.length = count + r.virtio

theorem matches_start (levelNames : Nat → Nat) (globals : Globals) :
    Matches globals.virtioMmioHeaders.length 0 (.start levelNames globals) ⟨.start, fun _ => none, 0⟩ where
  place := .initial 0
  indent := rfl
  low := Int.le_refl 0
  high := by decide
  names j a h := by cases h
  opened j h := absurd h (Int.not_lt.mpr (Int.natCast_nonneg j))
  virtio := rfl

section Matches

variable {bytes : Bytes} {count i : Nat} {s : Parser} {r : Reader}

/-- The depth as an unsigned number. -/
theorem Matches.depth_cases (h : Matches count i s r) (hi : i < 2 ^ 30) :
    (0 ≤ r.cursor.depth ∧ (s.indent.toNat : Int) = r.cursor.depth) ∨
      (r.cursor.depth < 0 ∧ 2 ^ 31 ≤ s.indent.toNat) := by
  have hindent := h.indent
  have hlow := h.low
  have hhigh := h.high
  omega

theorem Matches.indent_eq (h : Matches count i s r) (hi : i < 2 ^ 30) {k : UInt32} (hk : k.toNat < 8) :
    s.indent = k ↔ r.cursor.depth = k.toNat := by
  rw [← UInt32.toNat_inj]
  have hcases := h.depth_cases hi
  omega

theorem Matches.indent_lt (h : Matches count i s r) (hi : i < 2 ^ 30) :
    s.indent < 8 ↔ 0 ≤ r.cursor.depth ∧ r.cursor.depth < 8 := by
  rw [UInt32.lt_iff_toNat_lt, show (8 : UInt32).toNat = 8 from rfl]
  have hcases := h.depth_cases hi
  omega

theorem Matches.indent_gt (h : Matches count i s r) (hi : i < 2 ^ 30) :
    s.indent > 2 ↔ 2 < r.cursor.depth ∨ r.cursor.depth < 0 := by
  rw [gt_iff_lt, UInt32.lt_iff_toNat_lt, show (2 : UInt32).toNat = 2 from rfl]
  have hcases := h.depth_cases hi
  omega

/-- A name of the reader is the name that the parser has. -/
theorem Matches.named_iff (h : Matches count i s r) {j : Nat} (hj : r.names j ≠ none)
    (p : (Nat → UInt8) → Bool) : r.named bytes j p = p (levelName bytes s j) := by
  obtain ⟨a, ha⟩ := Option.ne_none_iff_exists'.mp hj
  rw [Reader.named, ha, Option.any_some, ← h.names j a ha]
  rfl

/-- The test for a device. -/
theorem Matches.virtioReg_iff (h : Matches count i s r) (hi : i < 2 ^ 30) (hstate : s.state = .propoff) :
    r.VirtioReg bytes i ↔ s.indent = 3 ∧ strcmp (levelName bytes s 1) (ascii "soc") = 0 ∧
      strncmp (levelName bytes s 2) (ascii "virtio_mmio@") 12 = 0 ∧
      strcmp (propNameAt bytes i) (ascii "reg") = 0 := by
  have hoffset : r.cursor.place.isOffset = true := by
    have hplace := h.place
    rw [hstate] at hplace
    cases hp : r.cursor.place with
    | propoff left => rfl
    | _ => rw [hp] at hplace; cases hplace
  have hdepth := h.indent_eq hi (k := 3) (by decide)
  rw [Reader.VirtioReg, hdepth]
  rw [and_iff_right hoffset]
  refine and_congr_right fun hd => ?_
  have hd3 : r.cursor.depth = 3 := hd
  have h₁ : ∀ p, r.named bytes 1 p = p (levelName bytes s 1) :=
    fun p => h.named_iff (j := 1) (h.opened 1 (by omega)) p
  have h₂ : ∀ p, r.named bytes 2 p = p (levelName bytes s 2) :=
    fun p => h.named_iff (j := 2) (h.opened 2 (by omega)) p
  rw [h₁, h₂, decide_eq_true_iff, decide_eq_true_iff]

/-! ## One word -/

/-- The value that is returned, for the end of the reading. -/
inductive Verdict : End → Int → Prop where
  | bad : Verdict .bad (-1)
  | fin (d : Int) : Verdict (.fin d) (if d = 0 then 0 else -1)

/-- Both go on, or both stop. -/
inductive StepCase (bytes : Bytes) (count i : Nat) (s : Parser) (r : Reader) : Prop where
  | ok {s' : Parser} {r' : Reader} : body bytes i s = .ok s' → r.next bytes i = some r' →
      Matches count (i + 1) s' r' → StepCase bytes count i s r
  | stop {e : End} {v : Int} {g : Globals} : body bytes i s = .error (.ret v g) →
      r.cursor.step codeWords (word bytes i) = .error e → Verdict e v → StepCase bytes count i s r

theorem Reader.next_of_ok {c : Cursor} (h : r.cursor.step codeWords (word bytes i) = .ok c)
    (hopens : ¬ r.Opens (word bytes i)) (hreg : ¬ r.VirtioReg bytes i) :
    r.next bytes i = some { r with cursor := c } := by
  rw [next, h]
  dsimp only
  rw [if_neg hopens, if_neg hreg]

theorem Reader.not_virtioReg (h : r.cursor.place.isOffset = false) : ¬ r.VirtioReg bytes i :=
  fun hreg => Bool.false_ne_true (h.symm.trans hreg.1)

/-- A word that changes only the place. -/
theorem Matches.move {c : Cursor} {state : PdaState} {l : Int} (h : Matches count i s r)
    (hplace : PlaceOf c.place state l) (hdepth : c.depth = r.cursor.depth) :
    Matches count (i + 1) { s with state := state, propL := l } { r with cursor := c } where
  place := hplace
  indent := by rw [hdepth]; exact h.indent
  low := by
    have hlow := h.low
    rw [hdepth]
    omega
  high := by rw [hdepth]; exact h.high
  names := h.names
  opened j hj := h.opened j (by rwa [← hdepth])
  virtio := h.virtio

/-- A node that fits. -/
theorem Matches.begin {l : Int} (h : Matches count i s r) (hi : i < 2 ^ 30)
    (hdepth : 0 ≤ r.cursor.depth ∧ r.cursor.depth < 8) :
    Matches count (i + 1) { s with
      state := .nodename
      propL := l
      levelNames := Function.update s.levelNames s.indent.toNat (fdtStructs bytes + 4 * (i + 1))
      indent := s.indent + 1 }
      { r with
        cursor := ⟨.nodename, r.cursor.depth + 1⟩
        names := Function.update r.names r.cursor.depth (some (fdtStructs bytes + 4 * (i + 1))) } where
  place := .nodename l
  indent := by
    have hcases := h.depth_cases hi
    dsimp only
    rw [UInt32.toNat_add, show (1 : UInt32).toNat = 1 from rfl]
    omega
  low := by
    dsimp only
    omega
  high := by
    dsimp only
    omega
  names j a ha := by
    have hcases := h.depth_cases hi
    dsimp only at ha ⊢
    by_cases hj : (j : Int) = r.cursor.depth
    · rw [hj, Function.update_self] at ha
      rw [show j = s.indent.toNat by omega, Function.update_self]
      exact Option.some.inj ha
    · rw [Function.update_of_ne hj] at ha
      rw [Function.update_of_ne (by omega)]
      exact h.names j a ha
  opened j hj := by
    dsimp only at hj ⊢
    by_cases hj' : (j : Int) = r.cursor.depth
    · rw [hj', Function.update_self]
      exact Option.some_ne_none _
    · rw [Function.update_of_ne hj']
      exact h.opened j (by omega)
  virtio := h.virtio

/-- A node is closed. -/
theorem Matches.end (h : Matches count i s r) (hstate : s.state = .nodeprop) :
    Matches count (i + 1) { s with indent := s.indent - 1 }
      { r with cursor := ⟨.nodeprop, r.cursor.depth - 1⟩ } where
  place := by
    dsimp only
    rw [hstate]
    exact .nodeprop _
  indent := by
    have hindent := h.indent
    have hlt := s.indent.toNat_lt
    dsimp only
    rw [UInt32.toNat_sub, show (1 : UInt32).toNat = 1 from rfl]
    omega
  low := by
    have hlow := h.low
    dsimp only
    omega
  high := by
    have hhigh := h.high
    dsimp only
    omega
  names := h.names
  opened j hj := h.opened j (by dsimp only at hj; omega)
  virtio := h.virtio

/-! ## The words of each place -/

theorem body_of_initial (hs : s.state = .initial) :
    body bytes i s =
      if word bytes i = fdtNop then .ok s
      else if word bytes i = fdtBeginNode then beginNode bytes i s
      else .error (.ret (-1) s.globals) := by
  simp only [body, hs]

theorem body_of_nodename (hs : s.state = .nodename) :
    body bytes i s = if HasZero (word bytes i) then .ok { s with state := .nodeprop } else .ok s := by
  simp only [body, hs, HasZero]
  rfl

theorem body_of_nodeprop (hs : s.state = .nodeprop) :
    body bytes i s =
      if word bytes i = fdtNop then .ok s
      else if word bytes i = fdtProp then .ok { s with state := .proplen }
      else if word bytes i = fdtBeginNode then beginNode bytes i s
      else if word bytes i = fdtEndNode then .ok { s with indent := s.indent - 1 }
      else if word bytes i = fdtEnd then .error (.ret (if s.indent ≠ 0 then -1 else 0) s.globals)
      else .error (.ret (-1) s.globals) := by
  simp only [body, hs]

theorem body_of_proplen (hs : s.state = .proplen) :
    body bytes i s = .ok { s with propL := toI32 (word bytes i), state := .propoff } := by
  simp only [body, hs]

theorem body_of_propoff (hs : s.state = .propoff) :
    body bytes i s = (testProperty bytes i s (word bytes i)).bind fun globals =>
      .ok { s with globals, state := if s.propL ≠ 0 then .propval else .nodeprop } := by
  simp only [body, hs]
  rfl

theorem body_of_propval (hs : s.state = .propval) :
    body bytes i s = .ok { s with
      propL := subI32 s.propL 4
      state := if subI32 s.propL 4 ≤ 0 then .nodeprop else .propval } := by
  simp only [body, hs]

/-- The first three tests do not store a device. -/
theorem testProperty_eq (bytes : Bytes) (i : Nat) (s : Parser) :
    ∃ g : Globals, g.virtioMmioHeaders = s.globals.virtioMmioHeaders ∧
      testProperty bytes i s (word bytes i) = testVirtio bytes i s (propNameAt bytes i) g := by
  have hmemory : ∀ g, (testMemory bytes i s (propNameAt bytes i) g).virtioMmioHeaders = g.virtioMmioHeaders := by
    intro g
    rw [testMemory]
    split <;> rfl
  have hcpu : ∀ g, (testCpu bytes s (propNameAt bytes i) g).virtioMmioHeaders = g.virtioMmioHeaders := by
    intro g
    rw [testCpu]
    split <;> rfl
  have hclock : ∀ g, (testClock bytes i s (propNameAt bytes i) g).virtioMmioHeaders = g.virtioMmioHeaders := by
    intro g
    rw [testClock]
    split <;> rfl
  exact ⟨_, (hclock _).trans ((hcpu _).trans (hmemory _)), rfl⟩

/-- A node is opened by both if there is room for it, and by the reader alone if there is not. -/
theorem Matches.beginNode (h : Matches count i s r) (hi : i < 2 ^ 30) (hopens : r.Opens (word bytes i))
    (hdepth : 0 ≤ r.cursor.depth ∧ r.cursor.depth < 8) (hbody : body bytes i s = beginNode bytes i s)
    (hcursor : r.cursor.step codeWords (word bytes i) = .ok ⟨.nodename, r.cursor.depth + 1⟩) :
    StepCase bytes count i s r := by
  have hreg : ¬ r.VirtioReg bytes i := by
    refine Reader.not_virtioReg ?_
    rcases hopens.1 with hp | hp <;> rw [hp] <;> rfl
  refine .ok (hbody.trans (if_pos ((h.indent_lt hi).mpr hdepth))) ?_ (h.begin hi hdepth)
  rw [Reader.next, hcursor]
  dsimp only
  rw [if_pos hopens, if_neg hreg]

/-- A word that is no node, at a place where no name is. -/
theorem Matches.moves {c : Cursor} {state : PdaState} {l : Int} (h : Matches count i s r)
    (hbody : body bytes i s = .ok { s with state := state, propL := l })
    (hcursor : r.cursor.step codeWords (word bytes i) = .ok c) (hopens : ¬ r.Opens (word bytes i))
    (hoffset : r.cursor.place.isOffset = false) (hplace : PlaceOf c.place state l)
    (hdepth : c.depth = r.cursor.depth) : StepCase bytes count i s r :=
  .ok hbody (Reader.next_of_ok hcursor hopens (Reader.not_virtioReg hoffset)) (h.move hplace hdepth)

/-- A word that changes nothing. -/
theorem Matches.stays (h : Matches count i s r) (hbody : body bytes i s = .ok s)
    (hcursor : r.cursor.step codeWords (word bytes i) = .ok r.cursor) (hopens : ¬ r.Opens (word bytes i))
    (hoffset : r.cursor.place.isOffset = false) : StepCase bytes count i s r :=
  h.moves hbody hcursor hopens hoffset h.place rfl

section Place

variable {c : Cursor} {size : UInt32 → Nat} {w : UInt32}

theorem Cursor.step_of_initial (h : c.place = .initial) : c.step size w =
    if w = fdtNop then .ok c else if w = fdtBeginNode then .ok ⟨.nodename, c.depth + 1⟩ else .error .bad := by
  simp only [Cursor.step, h]

theorem Cursor.step_of_nodename (h : c.place = .nodename) : c.step size w =
    if HasZero w then .ok ⟨.nodeprop, c.depth⟩ else .ok c := by
  simp only [Cursor.step, h]

theorem Cursor.step_of_nodeprop (h : c.place = .nodeprop) : c.step size w =
    if w = fdtNop then .ok c
    else if w = fdtProp then .ok ⟨.proplen, c.depth⟩
    else if w = fdtBeginNode then .ok ⟨.nodename, c.depth + 1⟩
    else if w = fdtEndNode then .ok ⟨.nodeprop, c.depth - 1⟩
    else if w = fdtEnd then .error (.fin c.depth)
    else .error .bad := by
  simp only [Cursor.step, h]

theorem Cursor.step_of_proplen (h : c.place = .proplen) : c.step size w = .ok ⟨.propoff (size w), c.depth⟩ := by
  simp only [Cursor.step, h]

theorem Cursor.step_of_propoff {left : Nat} (h : c.place = .propoff left) :
    c.step size w = .ok ⟨.value left, c.depth⟩ := by
  simp only [Cursor.step, h]

theorem Cursor.step_of_propval {left : Nat} (h : c.place = .propval left) :
    c.step size w = .ok ⟨.value (left - 1), c.depth⟩ := by
  simp only [Cursor.step, h]

end Place

section Cases

variable (h : Matches count i s r) (hi : i < 2 ^ 30) (hfit : r.StoresFit bytes i count)

include h hi hfit

theorem Matches.step_initial (hp : r.cursor.place = .initial) (hs : s.state = .initial) :
    StepCase bytes count i s r := by
  have hcursor : r.cursor.step codeWords (word bytes i) = _ := Cursor.step_of_initial hp
  have hbody : body bytes i s = _ := body_of_initial hs
  by_cases hnop : word bytes i = fdtNop
  · rw [if_pos hnop] at hbody hcursor
    refine h.stays hbody hcursor (fun ho => ?_) (by rw [hp]; rfl)
    exact absurd (hnop.symm.trans ho.2) (by decide)
  rw [if_neg hnop] at hbody hcursor
  by_cases hbegin : word bytes i = fdtBeginNode
  · rw [if_pos hbegin] at hbody hcursor
    have hopens : r.Opens (word bytes i) := ⟨.inl hp, hbegin⟩
    exact h.beginNode hi hopens (hfit.node hopens) hbody hcursor
  · rw [if_neg hbegin] at hbody hcursor
    exact .stop hbody hcursor .bad

theorem Matches.step_nodeprop (hp : r.cursor.place = .nodeprop) (hs : s.state = .nodeprop) :
    StepCase bytes count i s r := by
  have hcursor : r.cursor.step codeWords (word bytes i) = _ := Cursor.step_of_nodeprop hp
  have hbody : body bytes i s = _ := body_of_nodeprop hs
  have hoffset : r.cursor.place.isOffset = false := by rw [hp]; rfl
  by_cases hnop : word bytes i = fdtNop
  · rw [if_pos hnop] at hbody hcursor
    refine h.stays hbody hcursor (fun ho => ?_) hoffset
    exact absurd (hnop.symm.trans ho.2) (by decide)
  rw [if_neg hnop] at hbody hcursor
  by_cases hprop : word bytes i = fdtProp
  · rw [if_pos hprop] at hbody hcursor
    refine h.moves (l := s.propL) hbody hcursor (fun ho => ?_) hoffset (.proplen _) rfl
    exact absurd (hprop.symm.trans ho.2) (by decide)
  rw [if_neg hprop] at hbody hcursor
  by_cases hbegin : word bytes i = fdtBeginNode
  · rw [if_pos hbegin] at hbody hcursor
    have hopens : r.Opens (word bytes i) := ⟨.inr hp, hbegin⟩
    exact h.beginNode hi hopens (hfit.node hopens) hbody hcursor
  rw [if_neg hbegin] at hbody hcursor
  have hopens : ¬ r.Opens (word bytes i) := fun ho => hbegin ho.2
  by_cases hend : word bytes i = fdtEndNode
  · rw [if_pos hend] at hbody hcursor
    exact .ok hbody (Reader.next_of_ok hcursor hopens (Reader.not_virtioReg hoffset)) (h.end hs)
  rw [if_neg hend] at hbody hcursor
  by_cases hfin : word bytes i = fdtEnd
  · rw [if_pos hfin] at hbody hcursor
    have hzero : s.indent = 0 ↔ r.cursor.depth = 0 := h.indent_eq hi (k := 0) (by decide)
    have hvalue : (if s.indent ≠ 0 then (-1 : Int) else 0) = if r.cursor.depth = 0 then 0 else -1 := by
      by_cases hd : r.cursor.depth = 0
      · rw [if_pos hd, if_neg fun hne => hne (hzero.mpr hd)]
      · rw [if_neg hd, if_pos fun hz => hd (hzero.mp hz)]
    rw [hvalue] at hbody
    exact .stop hbody hcursor (.fin _)
  · rw [if_neg hfin] at hbody hcursor
    exact .stop hbody hcursor .bad

theorem Matches.step_propoff (hp : r.cursor.place = .propoff (wordsOf s.propL)) (hs : s.state = .propoff)
    (hl : InI32 s.propL) : StepCase bytes count i s r := by
  have hcursor : r.cursor.step codeWords (word bytes i) = _ := Cursor.step_of_propoff hp
  have hbody : body bytes i s = _ := body_of_propoff hs
  have hopens : ¬ r.Opens (word bytes i) := fun ho => by
    rcases ho.1 with hp' | hp' <;> cases hp.symm.trans hp'
  have hplace : PlaceOf (.value (wordsOf s.propL)) (if s.propL ≠ 0 then .propval else .nodeprop) s.propL := by
    by_cases hz : s.propL = 0
    · rw [if_neg fun hne => hne hz, (wordsOf_eq_zero hl).mpr hz]
      exact .nodeprop _
    · rw [if_pos hz, Place.value, if_neg fun hw => hz ((wordsOf_eq_zero hl).mp hw)]
      exact .propval hl hz
  obtain ⟨g, hg, htest⟩ := testProperty_eq bytes i s
  have hiff : r.VirtioReg bytes i ↔ _ := h.virtioReg_iff hi hs
  rw [htest, testVirtio] at hbody
  by_cases hreg : r.VirtioReg bytes i
  · rw [if_pos (hiff.mp hreg), if_pos (by rw [hg, h.virtio]; exact hfit.virtio hreg)] at hbody
    have hnext : r.next bytes i = some { r with
        cursor := ⟨.value (wordsOf s.propL), r.cursor.depth⟩
        virtio := r.virtio + 1 } := by
      rw [Reader.next, hcursor]
      dsimp only
      rw [if_neg hopens, if_pos hreg]
    have hmove := h.move (c := ⟨.value (wordsOf s.propL), r.cursor.depth⟩) hplace rfl
    refine .ok hbody hnext ⟨hmove.place, hmove.indent, hmove.low, hmove.high, hmove.names, hmove.opened, ?_⟩
    dsimp only
    rw [List.length_append, hg, h.virtio, List.length_singleton, Nat.add_assoc]
  · rw [if_neg fun hc => hreg (hiff.mpr hc)] at hbody
    refine .ok hbody (Reader.next_of_ok hcursor hopens hreg) ?_
    have hmove := h.move (c := ⟨.value (wordsOf s.propL), r.cursor.depth⟩) hplace rfl
    refine ⟨hmove.place, hmove.indent, hmove.low, hmove.high, hmove.names, hmove.opened, ?_⟩
    dsimp only
    rw [hg, h.virtio]

/-- A word for which there is room. -/
theorem Matches.step : StepCase bytes count i s r := by
  have hplace := h.place
  generalize hp : r.cursor.place = p at hplace
  generalize hs : s.state = state at hplace
  generalize hl : s.propL = l at hplace
  have hnot : p ≠ .initial → p ≠ .nodeprop → ¬ r.Opens (word bytes i) := by
    intro h₁ h₂ ho
    rcases ho.1 with hp' | hp'
    · exact h₁ (hp.symm.trans hp')
    · exact h₂ (hp.symm.trans hp')
  cases hplace with
  | initial => exact h.step_initial hi hfit hp hs
  | nodeprop => exact h.step_nodeprop hi hfit hp hs
  | propoff hrange =>
      subst hl
      exact h.step_propoff hi hfit hp hs hrange
  | nodename =>
      have hcursor : r.cursor.step codeWords (word bytes i) = _ := Cursor.step_of_nodename hp
      have hbody : body bytes i s = _ := body_of_nodename hs
      by_cases hz : HasZero (word bytes i)
      · rw [if_pos hz] at hbody hcursor
        exact h.moves (l := s.propL) hbody hcursor (hnot nofun nofun) (by rw [hp]; rfl) (.nodeprop _) rfl
      · rw [if_neg hz] at hbody hcursor
        exact h.stays hbody hcursor (hnot nofun nofun) (by rw [hp]; rfl)
  | proplen =>
      refine h.moves (body_of_proplen hs) (Cursor.step_of_proplen hp) (hnot nofun nofun) (by rw [hp]; rfl) ?_ rfl
      rw [codeWords_eq]
      exact .propoff (toI32_inI32 _)
  | propval hrange hne =>
      subst hl
      refine h.moves (body_of_propval hs) (Cursor.step_of_propval hp) (hnot nofun nofun) (by rw [hp]; rfl) ?_ rfl
      dsimp only
      rw [wordsOf_sub hrange]
      split
      · exact .nodeprop _
      · exact .propval (subI32_inI32 hrange) (by omega)

end Cases

/-! ## Words that do not fit -/

theorem Matches.opens_iff {w : UInt32} (h : Matches count i s r) :
    r.Opens w ↔ (s.state = .initial ∨ s.state = .nodeprop) ∧ w = fdtBeginNode := by
  have hplace := h.place
  rw [Reader.Opens]
  generalize r.cursor.place = p at hplace ⊢
  generalize s.state = state at hplace ⊢
  cases hplace <;> simp

theorem Matches.isOffset_iff (h : Matches count i s r) : r.cursor.place.isOffset = true ↔ s.state = .propoff := by
  have hplace := h.place
  generalize r.cursor.place = p at hplace ⊢
  generalize s.state = state at hplace ⊢
  cases hplace with
  | propoff _ => exact iff_of_true rfl rfl
  | _ => exact iff_of_false Bool.false_ne_true nofun

theorem body_of_begin (hs : s.state = .initial ∨ s.state = .nodeprop) (hw : word bytes i = fdtBeginNode) :
    body bytes i s = beginNode bytes i s := by
  rcases hs with hs | hs
  · rw [body_of_initial hs, hw]
    rfl
  · rw [body_of_nodeprop hs, hw]
    rfl

/-- The parser writes behind the end of one of its arrays. -/
theorem Matches.fault (h : Matches count i s r) (hi : i < 2 ^ 30) (hfit : ¬ r.StoresFit bytes i count) :
    body bytes i s = .error .fault := by
  by_cases hnode : r.Opens (word bytes i) → 0 ≤ r.cursor.depth ∧ r.cursor.depth < 8
  · have hvirtio : ¬ (r.VirtioReg bytes i → count + r.virtio < maxVirtioMmio) := fun hv => hfit ⟨hnode, hv⟩
    obtain ⟨hreg, hfull⟩ := Classical.not_imp.mp hvirtio
    have hs : s.state = .propoff := h.isOffset_iff.mp hreg.1
    obtain ⟨g, hg, htest⟩ := testProperty_eq bytes i s
    rw [body_of_propoff hs, htest, testVirtio, if_pos ((h.virtioReg_iff hi hs).mp hreg),
      if_neg (by rw [hg, h.virtio]; exact hfull)]
    rfl
  · obtain ⟨hopens, hdepth⟩ := Classical.not_imp.mp hnode
    rw [body_of_begin (h.opens_iff.mp hopens).1 hopens.2]
    exact if_neg fun hlt => hdepth ((h.indent_lt hi).mp hlt)

/-! ## The accesses -/

theorem Matches.accesses_of_opens (h : Matches count i s r) (hopens : r.Opens (word bytes i)) :
    accesses bytes i s = [.storeName s.indent.toNat] := by
  rcases (h.opens_iff.mp hopens).1 with hs | hs <;> simp only [accesses, hs, hopens.2, if_pos]

theorem Matches.accesses_of_not (h : Matches count i s r) (hopens : ¬ r.Opens (word bytes i))
    (hs : s.state ≠ .propoff) : accesses bytes i s = [] := by
  rw [h.opens_iff] at hopens
  cases hs' : s.state with
  | propoff => exact absurd hs' hs
  | initial => simp only [accesses, hs', if_neg fun hw => hopens ⟨.inl hs', hw⟩]
  | nodeprop => simp only [accesses, hs', if_neg fun hw => hopens ⟨.inr hs', hw⟩]
  | _ => simp only [accesses, hs']

theorem accesses_of_propoff (hs : s.state = .propoff) : accesses bytes i s =
    accessesDepth2 s ++ (accessesCpu bytes s ++ (accessesDepth2 s ++ accessesVirtio bytes i s)) := by
  simp only [accesses, hs]

/-- The tests store no name. -/
theorem storeName_not_mem {j : Nat} (hs : s.state = .propoff) : .storeName j ∉ accesses bytes i s := by
  have hdepth2 : Access.storeName j ∉ accessesDepth2 s := by
    rw [accessesDepth2]
    split <;> simp
  have hcpu : Access.storeName j ∉ accessesCpu bytes s := by
    rw [accessesCpu]
    split
    · split <;> simp
    · simp
  have hvirtio : Access.storeName j ∉ accessesVirtio bytes i s := by
    rw [accessesVirtio]
    split
    · split
      · split <;> simp
      · simp
    · simp
  rw [accesses_of_propoff hs, List.mem_append, List.mem_append, List.mem_append]
  rintro (h | h | h | h)
  · exact hdepth2 h
  · exact hcpu h
  · exact hdepth2 h
  · exact hvirtio h

section Valid

variable {stored : Nat → Prop} (h : Matches count i s r) (hi : i < 2 ^ 30)
  (hstored : ∀ j : Nat, stored j ↔ r.names j ≠ none)

include h hi hstored

theorem Matches.valid_depth2 : ∀ a ∈ accessesDepth2 s, a.Valid stored := by
  intro a ha
  rw [accessesDepth2] at ha
  by_cases hd : s.indent = 2
  · rw [if_pos hd] at ha
    cases List.mem_singleton.mp ha
    have hdepth : r.cursor.depth = 2 := (h.indent_eq hi (by decide)).mp hd
    exact ⟨by decide, (hstored 1).mpr (h.opened 1 (by omega))⟩
  · rw [if_neg hd] at ha
    cases ha

/-- The test for a processor is made below depth 0 too. -/
theorem Matches.valid_cpu (hs : s.state = .propoff) :
    (∀ a ∈ accessesCpu bytes s, a.Valid stored) ↔ r.LoadsFit bytes := by
  rw [Reader.LoadsFit, accessesCpu]
  have hoffset : r.cursor.place.isOffset = true := h.isOffset_iff.mpr hs
  by_cases hgt : s.indent > 2
  · rw [if_pos hgt]
    rcases (h.indent_gt hi).mp hgt with hdepth | hdepth
    · -- both names are those of open nodes
      refine iff_of_true (fun a ha => ?_) fun _ hneg => by omega
      have h₁ : stored 1 := (hstored 1).mpr (h.opened 1 (by omega))
      have h₂ : stored 2 := (hstored 2).mpr (h.opened 2 (by omega))
      cases ha with
      | head => exact ⟨by decide, h₁⟩
      | tail _ ha =>
          split at ha
          · cases List.mem_singleton.mp ha
            exact ⟨by decide, h₂⟩
          · cases ha
    · constructor
      · intro hvalid _ _
        have h₁ : r.names 1 ≠ none := (hstored 1).mp (hvalid _ List.mem_cons_self).2
        refine ⟨h₁, fun hcpus => ?_⟩
        rw [show r.named bytes 1 _ = _ from h.named_iff (j := 1) h₁ _, decide_eq_true_iff] at hcpus
        rw [if_pos hcpus] at hvalid
        exact (hstored 2).mp (hvalid _ (List.mem_cons_of_mem _ List.mem_cons_self)).2
      · intro hfit a ha
        obtain ⟨h₁, h₂⟩ := hfit hoffset hdepth
        cases ha with
        | head => exact ⟨by decide, (hstored 1).mpr h₁⟩
        | tail _ ha =>
            split at ha
            · rename_i hcpus
              cases List.mem_singleton.mp ha
              refine ⟨by decide, (hstored 2).mpr (h₂ ?_)⟩
              rw [show r.named bytes 1 _ = _ from h.named_iff (j := 1) h₁ _, decide_eq_true_iff]
              exact hcpus
            · cases ha
  · rw [if_neg hgt]
    refine iff_of_true (fun a ha => by cases ha) fun _ hneg => ?_
    exact absurd ((h.indent_gt hi).mpr (.inr hneg)) hgt

theorem Matches.valid_virtio (hs : s.state = .propoff) :
    (∀ a ∈ accessesVirtio bytes i s, a.Valid stored) ↔
      (r.VirtioReg bytes i → count + r.virtio < maxVirtioMmio) := by
  rw [accessesVirtio, h.virtioReg_iff hi hs, ← h.virtio]
  by_cases hd : s.indent = 3
  · have hdepth : r.cursor.depth = 3 := (h.indent_eq hi (by decide)).mp hd
    have h₁ : stored 1 := (hstored 1).mpr (h.opened 1 (by omega))
    have h₂ : stored 2 := (hstored 2).mpr (h.opened 2 (by omega))
    rw [if_pos hd]
    constructor
    · rintro hvalid ⟨-, hsoc, hname, hreg⟩
      rw [if_pos hsoc, if_pos ⟨hname, hreg⟩] at hvalid
      exact hvalid _ (List.mem_cons_of_mem _ (List.mem_cons_of_mem _ List.mem_cons_self))
    · intro hfit a ha
      cases ha with
      | head => exact ⟨by decide, h₁⟩
      | tail _ ha =>
          split at ha
          · rename_i hsoc
            cases ha with
            | head => exact ⟨by decide, h₂⟩
            | tail _ ha =>
                split at ha
                · rename_i hname
                  cases List.mem_singleton.mp ha
                  exact hfit ⟨hd, hsoc, hname.1, hname.2⟩
                · cases ha
          · cases ha
  · rw [if_neg hd]
    exact iff_of_true (fun a ha => by cases ha) fun hc => absurd hc.1 hd

/-- The accesses for a word are valid exactly if there is room for it, and if the names that are
read are there. -/
theorem Matches.valid_iff :
    (∀ a ∈ accesses bytes i s, a.Valid stored) ↔ r.StoresFit bytes i count ∧ r.LoadsFit bytes := by
  by_cases hs : s.state = .propoff
  · have hopens : ¬ r.Opens (word bytes i) := fun ho => by
      rcases (h.opens_iff.mp ho).1 with hs' | hs' <;> cases hs.symm.trans hs'
    have hdepth2 := h.valid_depth2 hi hstored
    rw [accesses_of_propoff hs, List.forall_mem_append, List.forall_mem_append, List.forall_mem_append,
      h.valid_cpu hi hstored hs, h.valid_virtio hi hstored hs]
    constructor
    · rintro ⟨-, hloads, -, hvirtio⟩
      exact ⟨⟨fun ho => absurd ho hopens, hvirtio⟩, hloads⟩
    · rintro ⟨hstores, hloads⟩
      exact ⟨hdepth2, hloads, hdepth2, hstores.virtio⟩
  · have hoffset : ¬ r.cursor.place.isOffset = true := fun ho => hs (h.isOffset_iff.mp ho)
    have hloads : r.LoadsFit bytes := fun ho => absurd ho hoffset
    have hvirtio : r.VirtioReg bytes i → count + r.virtio < maxVirtioMmio := fun hreg => absurd hreg.1 hoffset
    rw [and_iff_left hloads]
    by_cases hopens : r.Opens (word bytes i)
    · rw [h.accesses_of_opens hopens, List.forall_mem_singleton]
      have hlt : Access.Valid stored (.storeName s.indent.toNat) ↔ s.indent < 8 := by
        rw [UInt32.lt_iff_toNat_lt]
        rfl
      rw [hlt, h.indent_lt hi]
      exact ⟨fun hd => ⟨fun _ => hd, hvirtio⟩, fun hfit => hfit.node hopens⟩
    · rw [h.accesses_of_not hopens hs]
      exact iff_of_true (fun a ha => by cases ha) ⟨fun ho => absurd ho hopens, hvirtio⟩

end Valid

end Matches

/-! ## The whole block -/

section Block

variable {bytes : Bytes} {levelNames : Nat → Nat} {globals : Globals} {i j : Nat}

theorem Reaches.unique {s s' : Parser} (h : Reaches bytes levelNames globals i s)
    (h' : Reaches bytes levelNames globals i s') : s = s' :=
  Except.ok.inj (h.loop_eq.symm.trans h'.loop_eq)

/-- The names that are stored for one more word. -/
theorem stored_succ {s : Parser} (h : Reaches bytes levelNames globals i s) :
    Stored bytes levelNames globals (i + 1) j ↔
      Stored bytes levelNames globals i j ∨ .storeName j ∈ accesses bytes i s := by
  constructor
  · rintro ⟨k, s', hk, hreach, hmem⟩
    rcases Nat.lt_succ_iff_lt_or_eq.mp hk with hlt | rfl
    · exact .inl ⟨k, s', hlt, hreach, hmem⟩
    · exact .inr (hreach.unique h ▸ hmem)
  · rintro (⟨k, s', hk, hreach, hmem⟩ | hmem)
    · exact ⟨k, s', Nat.lt_succ_of_lt hk, hreach, hmem⟩
    · exact ⟨i, s, Nat.lt_succ_self i, h, hmem⟩

/-- A word stores a name where the reader puts one. -/
theorem Matches.storeName_iff {count : Nat} {s : Parser} {r r' : Reader} (h : Matches count i s r)
    (hi : i < 2 ^ 30) (hfit : r.StoresFit bytes i count) (hnext : r.next bytes i = some r') :
    r'.names j ≠ none ↔ r.names j ≠ none ∨ .storeName j ∈ accesses bytes i s := by
  have hnames : r'.names = if r.Opens (word bytes i) then
      Function.update r.names r.cursor.depth (some (fdtStructs bytes + 4 * (i + 1))) else r.names := by
    rw [Reader.next] at hnext
    split at hnext
    · cases hnext
    · cases hnext
      rfl
  rw [hnames]
  by_cases hopens : r.Opens (word bytes i)
  · have hcases := h.depth_cases hi
    have hdepth := hfit.node hopens
    rw [if_pos hopens, h.accesses_of_opens hopens, List.mem_singleton, Access.storeName.injEq]
    by_cases hj : (j : Int) = r.cursor.depth
    · rw [hj, Function.update_self]
      exact iff_of_true (Option.some_ne_none _) (.inr (by omega))
    · rw [Function.update_of_ne hj, or_iff_left (by omega)]
  · have hmem : .storeName j ∉ accesses bytes i s := by
      by_cases hs : s.state = .propoff
      · exact storeName_not_mem hs
      · rw [h.accesses_of_not hopens hs]
        exact List.not_mem_nil
    rw [if_neg hopens, or_iff_left hmem]

/-- The parser and the reader before the word `i`, when everything before has fitted: both are
there, or both have stopped. -/
inductive RunCase (bytes : Bytes) (levelNames : Nat → Nat) (globals : Globals) (i : Nat) : Prop where
  | ok {s : Parser} {r : Reader} : Reaches bytes levelNames globals i s → readAt bytes i = some r →
      Matches globals.virtioMmioHeaders.length i s r →
      (∀ j : Nat, Stored bytes levelNames globals i j ↔ r.names j ≠ none) → RunCase bytes levelNames globals i
  | stop {k : Nat} {s : Parser} {r : Reader} {e : End} {v : Int} {g : Globals} : k < i →
      Reaches bytes levelNames globals k s → readAt bytes k = some r → body bytes k s = .error (.ret v g) →
      r.cursor.step codeWords (word bytes k) = .error e → Verdict e v → readAt bytes i = none →
      RunCase bytes levelNames globals i

/-- Everything before the word `i` fits into the tables. -/
def StoresFitBefore (bytes : Bytes) (count i : Nat) : Prop :=
  ∀ k r, k < i → readAt bytes k = some r → r.StoresFit bytes k count

theorem run_cases (levelNames : Nat → Nat) (hfit : StoresFitBefore bytes globals.virtioMmioHeaders.length i) (hi : i ≤ 2 ^ 30) :
    RunCase bytes levelNames globals i := by
  induction i with
  | zero =>
      refine .ok .refl rfl (matches_start levelNames globals) fun j => ?_
      exact iff_of_false (fun ⟨_, _, hk, _⟩ => absurd hk (Nat.not_lt_zero _)) fun hne => hne rfl
  | succ i ih =>
      cases ih (fun k r hk => hfit k r (Nat.lt_succ_of_lt hk)) (Nat.le_of_succ_le hi) with
      | stop hk hreach hread hbody hcursor hv hnone =>
          refine .stop (Nat.lt_succ_of_lt hk) hreach hread hbody hcursor hv ?_
          rw [readAt, hnone, Option.bind_none]
      | @ok s r hreach hread hmatch hstored =>
          have hroom := hfit i r (Nat.lt_succ_self i) hread
          cases hmatch.step hi hroom with
          | ok hbody hnext hmatch' =>
              refine .ok (.step hreach hbody) (by rw [readAt, hread, Option.bind_some, hnext]) hmatch' fun j => ?_
              rw [stored_succ hreach, hstored j, hmatch.storeName_iff hi hroom hnext]
          | stop hbody hcursor hv =>
              refine .stop (Nat.lt_succ_self i) hreach hread hbody hcursor hv ?_
              rw [readAt, hread, Option.bind_some, Reader.next, hcursor]

end Block

/-- The words of a block are fewer than `2 ^ 30`. -/
theorem words_lt (bytes : Bytes) : sizeDtStruct bytes / 4 < 2 ^ 30 := by
  have hlt : sizeDtStruct bytes < 2 ^ 32 := UInt32.toNat_lt _
  omega

/-- `parse_dtb` stays within its tables, and reads only names that it has stored, exactly if the
tables have room for what is read, and if the names of the nodes are there below depth 0. -/
theorem parseDtb_in_tables (bytes : Bytes) (levelNames : Nat → Nat) (globals : Globals) :
    InBounds bytes levelNames globals ↔ ∀ i r, i < sizeDtStruct bytes / 4 → readAt bytes i = some r →
      r.StoresFit bytes i globals.virtioMmioHeaders.length ∧ r.LoadsFit bytes := by
  have hlt := words_lt bytes
  constructor
  · intro hbounds i
    induction i using Nat.strongRecOn with
    | ind i ih =>
        intro r hi hread
        have hbefore : StoresFitBefore bytes globals.virtioMmioHeaders.length i :=
          fun k r hk hread => (ih k hk r (Nat.lt_trans hk hi) hread).1
        cases run_cases levelNames hbefore (by omega) with
        | stop _ _ _ _ _ _ hnone => cases hread.symm.trans hnone
        | ok hreach hread' hmatch hstored =>
            cases hread.symm.trans hread'
            exact (hmatch.valid_iff (by omega) hstored).mp (hbounds i _ hi hreach)
  · intro hfit i s hi hreach
    have hbefore : StoresFitBefore bytes globals.virtioMmioHeaders.length i :=
      fun k r hk hread => (hfit k r (Nat.lt_trans hk hi) hread).1
    cases run_cases levelNames hbefore (by omega) with
    | stop hk hreach' _ hbody _ _ _ => cases hreach.loop_eq.symm.trans (hreach'.loop_error hbody hk)
    | ok hreach' hread hmatch hstored =>
        cases hreach.unique hreach'
        exact (hmatch.valid_iff (by omega) hstored).mpr (hfit i _ hi hread)

/-- A block with nine nodes in one another, whose names are empty. -/
def nineNodes : Bytes := fun a =>
  if a = 11 then 40 else if a = 39 then 72 else if 40 ≤ a ∧ a % 8 = 3 then 1 else 0

/-- The name of the ninth node is stored behind the end of the array. -/
theorem parseDtb_nine_nodes : ¬ InBounds nineNodes (fun _ => 0) ⟨0, 0, 0, []⟩ := by
  intro hbounds
  have hrun : (match loop (body nineNodes) 16 (.start (fun _ => 0) ⟨0, 0, 0, []⟩) with
      | .ok s => s.state = .nodeprop && s.indent = 8
      | .error _ => false) = true := by decide
  cases hloop : loop (body nineNodes) 16 (.start (fun _ => 0) ⟨0, 0, 0, []⟩) with
  | error e =>
      rw [hloop] at hrun
      cases hrun
  | ok s =>
      rw [hloop] at hrun
      obtain ⟨hstate, hindent⟩ := Bool.and_eq_true_iff.mp hrun
      have haccess : Access.storeName 8 ∈ accesses nineNodes 16 s := by
        simp only [accesses, of_decide_eq_true hstate, of_decide_eq_true hindent,
          show word nineNodes 16 = fdtBeginNode by decide, if_pos]
        exact List.mem_singleton.mpr rfl
      exact Nat.lt_irrefl 8 (hbounds 16 s (by decide) (runs_of_loop hloop) _ haccess)

end Fdt
