import Endros.Fdt.Parse

/-!
# The grammar of structure blocks

A structure block is a sequence of words.  `Items` are the words of the items of a node,
up to its end token, and `Document` are NOP tokens, one root node, NOP tokens and the end
of the block.  The last word of a name, and that of a value, may have any bytes behind
its end.

A `Cursor` reads such a sequence word by word.  It knows what the next word is, and how
many nodes are open.  It is like the machine of `parse_dtb`, but its depth is not a
32-bit number and it has no tables.  How many words a value has is a parameter: `parse_dtb`
takes the length of a property as a signed number.

A strict cursor also stops when there is something else than NOP tokens outside of the
root.  With it, a sequence starts with a document exactly if the reading ends with the end
token at depth 0 (`document_iff`).
-/

namespace Fdt

open Lib Mem

/-! ## Documents -/

/-- One of the bytes of a word is zero. -/
def HasZero (w : UInt32) : Prop :=
  bytes32 (ntohl w) 0 = 0 ∨ bytes32 (ntohl w) 1 = 0 ∨ bytes32 (ntohl w) 2 = 0 ∨ bytes32 (ntohl w) 3 = 0

instance (w : UInt32) : Decidable (HasZero w) := inferInstanceAs (Decidable (_ ∨ _))

/-- The words of a name. -/
inductive NameWords : List UInt32 → Prop where
  | last {w : UInt32} : HasZero w → NameWords [w]
  | more {w : UInt32} {ws : List UInt32} : ¬ HasZero w → NameWords ws → NameWords (w :: ws)

/-- The words of a value of `len` bytes. -/
def valueWords (len : UInt32) : Nat := (len.toNat + 3) / 4

/-- The items of a node, and its end token. -/
inductive Items : List UInt32 → Prop where
  | close : Items [fdtEndNode]
  | nop {ws : List UInt32} : Items ws → Items (fdtNop :: ws)
  | prop {len nameoff : UInt32} {value ws : List UInt32} : value.length = valueWords len → Items ws →
      Items (fdtProp :: len :: nameoff :: (value ++ ws))
  | node {name items ws : List UInt32} : NameWords name → Items items → Items ws →
      Items (fdtBeginNode :: (name ++ (items ++ ws)))

/-- NOP tokens, a root node, NOP tokens and the end. -/
inductive Document : List UInt32 → Prop where
  | mk (before after : Nat) {name items : List UInt32} : NameWords name → Items items →
      Document (List.replicate before fdtNop ++ (fdtBeginNode :: (name ++ (items ++
        (List.replicate after fdtNop ++ [fdtEnd])))))

/-! ## Cursors -/

/-- What the next word is.  A number is that of the words of the value. -/
inductive Place where
  | initial | nodename | nodeprop | proplen
  | propoff (left : Nat)
  | propval (left : Nat)
deriving DecidableEq, Repr

structure Cursor where
  place : Place
  depth : Int
deriving DecidableEq, Repr

/-- How the reading ends. -/
inductive End where
  | out | bad | outside
  | fin (depth : Int)
deriving DecidableEq, Repr

/-- The place behind the offset of a name, or behind a word of a value. -/
def Place.value (left : Nat) : Place := if left = 0 then .nodeprop else .propval left

/-- One word, where the value of a property of length `len` has `size len` words. -/
def Cursor.step (size : UInt32 → Nat) (w : UInt32) (c : Cursor) : Except End Cursor :=
  match c.place with
  | .initial =>
      if w = fdtNop then .ok c
      else if w = fdtBeginNode then .ok ⟨.nodename, c.depth + 1⟩
      else .error .bad
  | .nodename => if HasZero w then .ok ⟨.nodeprop, c.depth⟩ else .ok c
  | .nodeprop =>
      if w = fdtNop then .ok c
      else if w = fdtProp then .ok ⟨.proplen, c.depth⟩
      else if w = fdtBeginNode then .ok ⟨.nodename, c.depth + 1⟩
      else if w = fdtEndNode then .ok ⟨.nodeprop, c.depth - 1⟩
      else if w = fdtEnd then .error (.fin c.depth)
      else .error .bad
  | .proplen => .ok ⟨.propoff (size w), c.depth⟩
  | .propoff left => .ok ⟨.value left, c.depth⟩
  | .propval left => .ok ⟨.value (left - 1), c.depth⟩

/-- A word that is outside of the root. -/
def Cursor.Outside (w : UInt32) (c : Cursor) : Prop :=
  c.place = .nodeprop ∧ c.depth ≤ 0 ∧ (w = fdtProp ∨ w = fdtBeginNode ∨ w = fdtEndNode)

instance (w : UInt32) (c : Cursor) : Decidable (c.Outside w) := inferInstanceAs (Decidable (_ ∧ _))

def Cursor.strictStep (size : UInt32 → Nat) (w : UInt32) (c : Cursor) : Except End Cursor :=
  if c.Outside w then .error .outside else c.step size w

/-- The reading of a sequence of words. -/
def scan (step : UInt32 → Cursor → Except End Cursor) : Cursor → List UInt32 → End
  | _, [] => .out
  | c, w :: ws =>
      match step w c with
      | .error e => e
      | .ok c => scan step c ws

def Cursor.start : Cursor := ⟨.initial, 0⟩

section Scan

variable {size : UInt32 → Nat} {step : UInt32 → Cursor → Except End Cursor} {w : UInt32}
  {ws ws' name items value : List UInt32} {c c' : Cursor} {d d' : Int} {e : End} {left : Nat}

theorem scan_ok (h : step w c = .ok c') : scan step c (w :: ws) = scan step c' ws := by
  rw [scan, h]

theorem scan_error (h : step w c = .error e) : scan step c (w :: ws) = e := by
  rw [scan, h]

theorem strictStep_of_not (h : ¬ c.Outside w) : c.strictStep size w = c.step size w := if_neg h

/-- The strict cursor finds the end where the other one finds it. -/
theorem scan_of_strict (h : scan (Cursor.strictStep size) c ws = .fin d) :
    scan (Cursor.step size) c ws = .fin d := by
  induction ws generalizing c with
  | nil => cases h
  | cons w ws ih =>
      by_cases hout : c.Outside w
      · rw [scan_error (e := .outside) (if_pos hout)] at h
        cases h
      · rw [scan, strictStep_of_not hout] at h
        rw [scan]
        cases hstep : c.step size w with
        | error e =>
            rw [hstep] at h
            exact h
        | ok c' =>
            rw [hstep] at h
            exact ih h

/-! ## From a document to its reading -/

theorem strict_inside (hd : 0 < d) {p : Place} : ¬ (⟨p, d⟩ : Cursor).Outside w :=
  fun h => absurd h.2.1 (Int.not_le.mpr hd)

theorem strict_initial : (⟨.initial, d⟩ : Cursor).strictStep size w = (⟨.initial, d⟩ : Cursor).step size w :=
  if_neg fun h => nomatch h.1

theorem strict_nodename : (⟨.nodename, d⟩ : Cursor).strictStep size w =
    if HasZero w then .ok ⟨.nodeprop, d⟩ else .ok ⟨.nodename, d⟩ :=
  if_neg fun h => nomatch h.1

theorem strict_proplen : (⟨.proplen, d⟩ : Cursor).strictStep size w = .ok ⟨.propoff (size w), d⟩ :=
  if_neg fun h => nomatch h.1

theorem strict_propoff : (⟨.propoff left, d⟩ : Cursor).strictStep size w = .ok ⟨.value left, d⟩ :=
  if_neg fun h => nomatch h.1

theorem strict_value : (⟨.value (left + 1), d⟩ : Cursor).strictStep size w = .ok ⟨.value left, d⟩ :=
  if_neg fun h => nomatch h.1

theorem NameWords.scan (h : NameWords name) :
    scan (Cursor.strictStep size) ⟨.nodename, d⟩ (name ++ ws) =
      scan (Cursor.strictStep size) ⟨.nodeprop, d⟩ ws := by
  induction h with
  | last hz => exact scan_ok (strict_nodename.trans (if_pos hz))
  | more hz _ ih => exact (scan_ok (strict_nodename.trans (if_neg hz))).trans ih

theorem scan_value (h : value.length = left) :
    scan (Cursor.strictStep size) ⟨.value left, d⟩ (value ++ ws) =
      scan (Cursor.strictStep size) ⟨.nodeprop, d⟩ ws := by
  induction value generalizing left with
  | nil =>
      cases h
      rfl
  | cons w value ih =>
      cases h
      exact (scan_ok strict_value).trans (ih rfl)

theorem strict_nop : (⟨.nodeprop, d⟩ : Cursor).strictStep size fdtNop = .ok ⟨.nodeprop, d⟩ := by
  refine strictStep_of_not fun h => ?_
  rcases h.2.2 with h | h | h <;> cases h

/-- The items of a node are read, and the node is closed. -/
theorem Items.scan (h : Items items) (hd : 0 < d) :
    scan (Cursor.strictStep valueWords) ⟨.nodeprop, d⟩ (items ++ ws) =
      scan (Cursor.strictStep valueWords) ⟨.nodeprop, d - 1⟩ ws := by
  induction h generalizing d ws with
  | close => exact scan_ok (strictStep_of_not (strict_inside hd))
  | nop _ ih => exact (scan_ok strict_nop).trans (ih hd)
  | @prop len nameoff value items hlen _ ih =>
      rw [List.cons_append, List.cons_append, List.cons_append, List.append_assoc]
      calc
        _ = Fdt.scan (Cursor.strictStep valueWords) ⟨.proplen, d⟩ (len :: nameoff :: (value ++ (items ++ ws))) :=
          scan_ok (strictStep_of_not (strict_inside hd))
        _ = Fdt.scan (Cursor.strictStep valueWords) ⟨.propoff (valueWords len), d⟩
              (nameoff :: (value ++ (items ++ ws))) := scan_ok strict_proplen
        _ = Fdt.scan (Cursor.strictStep valueWords) ⟨.value (valueWords len), d⟩ (value ++ (items ++ ws)) :=
          scan_ok strict_propoff
        _ = Fdt.scan (Cursor.strictStep valueWords) ⟨.nodeprop, d⟩ (items ++ ws) := scan_value hlen
        _ = _ := ih hd
  | @node name inner items hname _ _ ihinner ih =>
      rw [List.cons_append, List.append_assoc, List.append_assoc]
      calc
        _ = Fdt.scan (Cursor.strictStep valueWords) ⟨.nodename, d + 1⟩ (name ++ (inner ++ (items ++ ws))) :=
          scan_ok (strictStep_of_not (strict_inside hd))
        _ = Fdt.scan (Cursor.strictStep valueWords) ⟨.nodeprop, d + 1⟩ (inner ++ (items ++ ws)) := hname.scan
        _ = Fdt.scan (Cursor.strictStep valueWords) ⟨.nodeprop, d⟩ (items ++ ws) := by
          rw [ihinner (by omega), Int.add_sub_cancel]
        _ = _ := ih hd

theorem scan_nops {n : Nat} {p : Place} (h : (⟨p, d⟩ : Cursor).strictStep size fdtNop = .ok ⟨p, d⟩) :
    scan (Cursor.strictStep size) ⟨p, d⟩ (List.replicate n fdtNop ++ ws) =
      scan (Cursor.strictStep size) ⟨p, d⟩ ws := by
  induction n with
  | zero => rfl
  | succ n ih =>
      rw [List.replicate_succ, List.cons_append, scan_ok h]
      exact ih

theorem Document.scan (h : Document items) :
    scan (Cursor.strictStep valueWords) .start (items ++ ws) = .fin 0 := by
  cases h with
  | @mk before after name items hname hitems =>
      rw [List.append_assoc, List.cons_append, List.append_assoc, List.append_assoc, List.append_assoc]
      calc
        _ = Fdt.scan (Cursor.strictStep valueWords) .start (fdtBeginNode :: (name ++ (items ++
              (List.replicate after fdtNop ++ ([fdtEnd] ++ ws))))) :=
          scan_nops strict_initial
        _ = Fdt.scan (Cursor.strictStep valueWords) ⟨.nodename, 0 + 1⟩ (name ++ (items ++
              (List.replicate after fdtNop ++ ([fdtEnd] ++ ws)))) := scan_ok strict_initial
        _ = Fdt.scan (Cursor.strictStep valueWords) ⟨.nodeprop, 0 + 1⟩ (items ++
              (List.replicate after fdtNop ++ ([fdtEnd] ++ ws))) := hname.scan
        _ = Fdt.scan (Cursor.strictStep valueWords) ⟨.nodeprop, 0⟩
              (List.replicate after fdtNop ++ ([fdtEnd] ++ ws)) := hitems.scan (by decide)
        _ = Fdt.scan (Cursor.strictStep valueWords) ⟨.nodeprop, 0⟩ ([fdtEnd] ++ ws) := scan_nops strict_nop
        _ = .fin 0 := scan_error rfl

/-! ## From a reading to the document -/

/-- A name has been read. -/
theorem scan_name (h : scan (Cursor.strictStep size) ⟨.nodename, d⟩ ws = .fin d') :
    ∃ name rest, ws = name ++ rest ∧ NameWords name ∧
      scan (Cursor.strictStep size) ⟨.nodeprop, d⟩ rest = .fin d' := by
  induction ws with
  | nil => cases h
  | cons w ws ih =>
      by_cases hz : HasZero w
      · rw [scan_ok (strict_nodename.trans (if_pos hz))] at h
        exact ⟨[w], ws, rfl, .last hz, h⟩
      · rw [scan_ok (strict_nodename.trans (if_neg hz))] at h
        obtain ⟨name, rest, rfl, hname, hrest⟩ := ih h
        exact ⟨w :: name, rest, rfl, .more hz hname, hrest⟩

/-- A value has been read. -/
theorem scan_value_split (h : scan (Cursor.strictStep size) ⟨.value left, d⟩ ws = .fin d') :
    ∃ value rest, ws = value ++ rest ∧ value.length = left ∧
      scan (Cursor.strictStep size) ⟨.nodeprop, d⟩ rest = .fin d' := by
  induction left generalizing ws with
  | zero => exact ⟨[], ws, rfl, rfl, h⟩
  | succ left ih =>
      cases ws with
      | nil => cases h
      | cons w ws =>
          rw [scan_ok strict_value] at h
          obtain ⟨value, rest, rfl, hlen, hrest⟩ := ih h
          exact ⟨w :: value, rest, rfl, congrArg (· + 1) hlen, hrest⟩

/-- The tokens of the strict cursor inside of the root. -/
theorem strict_nodeprop (hd : 0 < d) :
    (⟨.nodeprop, d⟩ : Cursor).strictStep size w = (⟨.nodeprop, d⟩ : Cursor).step size w :=
  strictStep_of_not (strict_inside hd)

/-- The items of a node have been read, up to the one that closes it. -/
theorem scan_items {n : Nat} (hn : ws.length ≤ n) (hd : 0 < d)
    (h : scan (Cursor.strictStep valueWords) ⟨.nodeprop, d⟩ ws = .fin 0) :
    ∃ items rest, ws = items ++ rest ∧ Items items ∧
      scan (Cursor.strictStep valueWords) ⟨.nodeprop, d - 1⟩ rest = .fin 0 := by
  induction n generalizing ws d with
  | zero =>
      cases List.eq_nil_of_length_eq_zero (Nat.le_zero.mp hn)
      cases h
  | succ n ih =>
      cases ws with
      | nil => cases h
      | cons w ws =>
          have hlen : ws.length ≤ n := Nat.le_of_succ_le_succ hn
          rw [scan, strict_nodeprop hd, Cursor.step] at h
          dsimp only at h
          by_cases hnop : w = fdtNop
          · rw [if_pos hnop] at h
            obtain ⟨items, rest, rfl, hitems, hrest⟩ := ih hlen hd h
            exact ⟨w :: items, rest, rfl, hnop ▸ .nop hitems, hrest⟩
          rw [if_neg hnop] at h
          by_cases hprop : w = fdtProp
          · rw [if_pos hprop] at h
            dsimp only at h
            cases ws with
            | nil => cases h
            | cons len ws =>
                rw [scan_ok strict_proplen] at h
                cases ws with
                | nil => cases h
                | cons nameoff ws =>
                    rw [scan_ok strict_propoff] at h
                    obtain ⟨value, ws, rfl, hvalue, hws⟩ := scan_value_split h
                    simp only [List.length_cons, List.length_append] at hlen
                    obtain ⟨items, rest, rfl, hitems, hrest⟩ := ih (by omega) hd hws
                    refine ⟨w :: len :: nameoff :: (value ++ items), rest, ?_, hprop ▸ .prop hvalue hitems, hrest⟩
                    rw [List.cons_append, List.cons_append, List.cons_append, List.append_assoc]
          rw [if_neg hprop] at h
          by_cases hbegin : w = fdtBeginNode
          · rw [if_pos hbegin] at h
            obtain ⟨name, ws, rfl, hname, hws⟩ := scan_name h
            rw [List.length_append] at hlen
            obtain ⟨inner, ws, rfl, hinner, hws⟩ := ih (by omega) (by omega) hws
            rw [Int.add_sub_cancel] at hws
            rw [List.length_append] at hlen
            obtain ⟨items, rest, rfl, hitems, hrest⟩ := ih (by omega) hd hws
            refine ⟨w :: (name ++ (inner ++ items)), rest, ?_, hbegin ▸ .node hname hinner hitems, hrest⟩
            rw [List.cons_append, List.append_assoc, List.append_assoc]
          rw [if_neg hbegin] at h
          by_cases hend : w = fdtEndNode
          · rw [if_pos hend] at h
            exact ⟨[w], ws, rfl, hend ▸ .close, h⟩
          rw [if_neg hend] at h
          by_cases hfin : w = fdtEnd
          · rw [if_pos hfin] at h
            cases h
            exact absurd hd (by decide)
          · rw [if_neg hfin] at h
            cases h

/-- Behind the root there are NOP tokens and the end. -/
theorem scan_behind (h : scan (Cursor.strictStep size) ⟨.nodeprop, 0⟩ ws = .fin 0) :
    ∃ after rest, ws = List.replicate after fdtNop ++ ([fdtEnd] ++ rest) := by
  induction ws with
  | nil => cases h
  | cons w ws ih =>
      by_cases hout : (⟨.nodeprop, 0⟩ : Cursor).Outside w
      · rw [scan_error (e := .outside) (if_pos hout)] at h
        cases h
      · rw [scan, strictStep_of_not hout, Cursor.step] at h
        dsimp only at h
        by_cases hnop : w = fdtNop
        · rw [if_pos hnop] at h
          obtain ⟨after, rest, hws⟩ := ih h
          exact ⟨after + 1, rest, by rw [hws, hnop]; rfl⟩
        · rw [if_neg hnop, if_neg fun hp => hout ⟨rfl, Int.le_refl 0, .inl hp⟩,
            if_neg fun hb => hout ⟨rfl, Int.le_refl 0, .inr (.inl hb)⟩,
            if_neg fun he => hout ⟨rfl, Int.le_refl 0, .inr (.inr he)⟩] at h
          by_cases hfin : w = fdtEnd
          · exact ⟨0, ws, by rw [hfin]; rfl⟩
          · rw [if_neg hfin] at h
            cases h

theorem scan_document (h : scan (Cursor.strictStep valueWords) .start ws = .fin 0) :
    ∃ doc rest, ws = doc ++ rest ∧ Document doc := by
  suffices hroot : ∃ before root, ws = List.replicate before fdtNop ++ (fdtBeginNode :: root) ∧
      scan (Cursor.strictStep valueWords) ⟨.nodename, 0 + 1⟩ root = .fin 0 by
    obtain ⟨before, root, rfl, hroot⟩ := hroot
    obtain ⟨name, ws, rfl, hname, hws⟩ := scan_name hroot
    obtain ⟨items, ws, rfl, hitems, hws⟩ := scan_items (Nat.le_refl _) (by decide) hws
    obtain ⟨after, rest, rfl⟩ := scan_behind hws
    refine ⟨_, rest, ?_, .mk before after hname hitems⟩
    simp only [List.append_assoc, List.cons_append]
  induction ws with
  | nil => cases h
  | cons w ws ih =>
      rw [scan, Cursor.start, strict_initial, Cursor.step] at h
      dsimp only at h
      by_cases hnop : w = fdtNop
      · rw [if_pos hnop] at h
        obtain ⟨before, root, rfl, hroot⟩ := ih h
        exact ⟨before + 1, root, by rw [hnop]; rfl, hroot⟩
      rw [if_neg hnop] at h
      by_cases hbegin : w = fdtBeginNode
      · rw [if_pos hbegin] at h
        exact ⟨0, ws, by rw [hbegin]; rfl, h⟩
      · rw [if_neg hbegin] at h
        cases h

end Scan

/-- A sequence of words that starts with a document. -/
def WellFormed (ws : List UInt32) : Prop := ∃ doc rest, ws = doc ++ rest ∧ Document doc

/-- The strict cursor decides which sequences these are. -/
theorem document_iff {ws : List UInt32} :
    WellFormed ws ↔ scan (Cursor.strictStep valueWords) .start ws = .fin 0 := by
  constructor
  · rintro ⟨doc, rest, rfl, hdoc⟩
    exact hdoc.scan
  · exact scan_document

end Fdt
