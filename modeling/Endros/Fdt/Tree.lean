import Endros.Fdt.Parse

/-!
# Device trees

A node of a device tree has a name and a list of items: properties, nodes, and the
NOP tokens that may stand between them.  `flatten` is its form in the structure
block.  The name of a property is in the block of strings, at an offset that the
property has.

`memoryRegs`, `timebases` and `virtioRegs` are the values that `parse_dtb` looks
for, in the order of the document.  `Facts` is what is known of them in the middle
of a document: `facts` reads one item after the other, as the parser does, and
`facts_root` says that the end result is what the tree has.
-/

namespace Fdt

open Lib Mem

abbrev Name := List UInt8

structure Property where
  name : Name
  nameoff : UInt32
  value : List UInt8

inductive Item where
  | nop
  | prop (p : Property)
  | node (name : Name) (items : List Item)

/-! ## The structure block -/

/-- A word with its highest byte first. -/
def bytesBE (x : UInt32) : List UInt8 := [bytes32 x 3, bytes32 x 2, bytes32 x 1, bytes32 x 0]

/-- Zeros up to the end of a word. -/
def padded (l : List UInt8) : List UInt8 := l ++ List.replicate ((4 - l.length % 4) % 4) 0

mutual

def Item.flatten : Item → List UInt8
  | .nop => bytesBE fdtNop
  | .prop p => bytesBE fdtProp ++ (bytesBE (UInt32.ofNat p.value.length) ++
      (bytesBE p.nameoff ++ padded p.value))
  | .node name items => bytesBE fdtBeginNode ++ (padded (name ++ [0]) ++
      (flattenAll items ++ bytesBE fdtEndNode))

def flattenAll : List Item → List UInt8
  | [] => []
  | it :: items => it.flatten ++ flattenAll items

end

/-- The root, with `before` and `after` NOP tokens around it, and the end. -/
def structBlock (before after : Nat) (root : Item) : List UInt8 :=
  flattenAll (List.replicate before .nop) ++ (root.flatten ++
    (flattenAll (List.replicate after .nop) ++ bytesBE fdtEnd))

/-! ## What the tree has -/

def props : List Item → List Property
  | [] => []
  | .prop p :: items => p :: props items
  | _ :: items => props items

def nodes : List Item → List (Name × List Item)
  | [] => []
  | .node name items' :: items => (name, items') :: nodes items
  | _ :: items => nodes items

/-- The value of a property of a node. -/
def valueOf (name : Name) (items : List Item) : Option (List UInt8) :=
  ((props items).find? fun p => p.name = name).map (·.value)

/-- The number with the highest byte first. -/
def bigEndian (l : List UInt8) : Nat := l.foldl (fun n b => n * 256 + b.toNat) 0

/-- The first address of a `reg` property. -/
def address (value : List UInt8) : UInt64 := UInt64.ofNat (bigEndian (value.take 8))

/-- The frame behind the memory of a `reg` property. -/
def lastPfn (value : List UInt8) : UInt64 :=
  UInt64.ofNat ((bigEndian (value.take 8) + bigEndian ((value.drop 8).take 8)) % 2 ^ 64 / pageSize)

/-- The `reg` properties of the nodes `/memory@*`. -/
def memoryRegs (items : List Item) : List (List UInt8) :=
  (nodes items).filterMap fun n => if ascii "memory@" <+: n.1 then valueOf (ascii "reg") n.2 else none

/-- The properties `timebase-frequency` of the nodes `/cpus`. -/
def timebases (items : List Item) : List (List UInt8) :=
  (nodes items).filterMap fun n =>
    if n.1 = ascii "cpus" then valueOf (ascii "timebase-frequency") n.2 else none

/-- The nodes `/soc/virtio_mmio@*`. -/
def virtioNodes (items : List Item) : List (Name × List Item) :=
  (nodes items).flatMap fun n =>
    if n.1 = ascii "soc" then (nodes n.2).filter fun n => ascii "virtio_mmio@" <+: n.1 else []

/-- The `reg` properties of the nodes `/soc/virtio_mmio@*`. -/
def virtioRegs (items : List Item) : List (List UInt8) :=
  (virtioNodes items).filterMap fun n => valueOf (ascii "reg") n.2

/-- What is asked of a tree whose names are in the memory `strings`.  There are at most
`levels` nested nodes. -/
inductive Item.WellFormed (strings : Nat → UInt8) : Nat → Item → Prop where
  | nop {levels : Nat} : WellFormed strings levels .nop
  | prop {levels : Nat} {p : Property} (name : IsString (fun k => strings (p.nameoff.toNat + k)) p.name)
      (length : p.value.length < 2 ^ 31) (reg : p.name = ascii "reg" → 16 ≤ p.value.length) :
      WellFormed strings levels (.prop p)
  | node {levels : Nat} {name : Name} {items : List Item} (nonzero : 0 ∉ name)
      (distinct : ((props items).map (·.name)).Nodup)
      (children : ∀ it ∈ items, WellFormed strings levels it) :
      WellFormed strings (levels + 1) (.node name items)

/-! ## Reading item by item -/

/-- What is known of the values.  The clock is not known behind a
`timebase-frequency` that has no whole word. -/
@[ext] structure Facts where
  maxPfn : UInt64
  clockFreq : Option UInt32
  virtio : List UInt64

/-- The first word of a `timebase-frequency`. -/
def clockOf (value : List UInt8) : Option UInt32 :=
  if 4 ≤ value.length then some (UInt32.ofNat (bigEndian (value.take 4))) else none

/-- A property of a node `/n`. -/
def Facts.atDepth1 (n : Name) (p : Property) (a : Facts) : Facts where
  maxPfn := if ascii "memory@" <+: n ∧ p.name = ascii "reg" then lastPfn p.value else a.maxPfn
  clockFreq :=
    if n = ascii "cpus" ∧ p.name = ascii "timebase-frequency" then clockOf p.value else a.clockFreq
  virtio := a.virtio

/-- A property of a node `/n/n'`. -/
def Facts.atDepth2 (n n' : Name) (p : Property) (a : Facts) : Facts :=
  if n = ascii "soc" ∧ ascii "virtio_mmio@" <+: n' ∧ p.name = ascii "reg" then
    { a with virtio := a.virtio ++ [address p.value] }
  else a

/-- A property of the node at a path, whose first element is the root. -/
def Facts.property (path : List Name) (p : Property) (a : Facts) : Facts :=
  match path with
  | [_, n] => a.atDepth1 n p
  | [_, n, n'] => a.atDepth2 n n' p
  | _ => a

mutual

def Item.facts (path : List Name) : Item → Facts → Facts
  | .nop, a => a
  | .prop p, a => a.property path p
  | .node name items, a => factsAll (path ++ [name]) items a

def factsAll (path : List Name) : List Item → Facts → Facts
  | [], a => a
  | it :: items, a => factsAll path items (it.facts path a)

end

mutual

/-- Addresses are only added. -/
theorem Item.virtio_le (path : List Name) : ∀ (it : Item) (a : Facts),
    a.virtio.length ≤ (it.facts path a).virtio.length
  | .nop, _ => Nat.le_refl _
  | .prop p, a => by
      rw [Item.facts]
      unfold Facts.property
      split
      · exact Nat.le_refl _
      · unfold Facts.atDepth2
        split
        · simp
        · exact Nat.le_refl _
      · exact Nat.le_refl _
  | .node name items, a => virtioAll_le (path ++ [name]) items a

theorem virtioAll_le (path : List Name) : ∀ (items : List Item) (a : Facts),
    a.virtio.length ≤ (factsAll path items a).virtio.length
  | [], _ => Nat.le_refl _
  | it :: items, a => Nat.le_trans (it.virtio_le path a) (virtioAll_le path items _)

end

mutual

/-- Below the third level there is nothing to be found. -/
theorem Item.facts_deep {path : List Name} (h : 4 ≤ path.length) : ∀ (it : Item) (a : Facts),
    it.facts path a = a
  | .nop, _ => rfl
  | .prop p, a => by
      rw [Item.facts]
      unfold Facts.property
      split
      · simp at h
      · simp at h
      · rfl
  | .node name items, a => factsAll_deep (by simp; omega) items a

theorem factsAll_deep {path : List Name} (h : 4 ≤ path.length) : ∀ (items : List Item) (a : Facts),
    factsAll path items a = a
  | [], _ => rfl
  | it :: items, a => by rw [factsAll, it.facts_deep h, factsAll_deep h]

end

/-! ## The whole tree -/

/-- The last value of a list, if there is one. -/
def overwrite {α β : Type} (f : α → β) (x : β) (l : List α) : β := l.foldl (fun _ v => f v) x

theorem overwrite_append {α β : Type} (f : α → β) (x : β) (l l' : List α) :
    overwrite f x (l ++ l') = overwrite f (overwrite f x l) l' := List.foldl_append

theorem overwrite_eq {α β : Type} (f : α → β) (x : β) (l : List α) :
    overwrite f x l = (l.getLast?.map f).getD x := by
  induction l generalizing x with
  | nil => rfl
  | cons v l ih =>
      rw [show overwrite f x (v :: l) = overwrite f (f v) l from rfl, ih, List.getLast?_cons]
      cases l.getLast? <;> rfl

section Values

variable {items : List Item} {p : Property} {name : Name}

theorem valueOf_prop : valueOf name (.prop p :: items) =
    if p.name = name then some p.value else valueOf name items := by
  rw [valueOf, props, List.find?_cons]
  by_cases hn : p.name = name
  · simp [hn]
  · simp [hn, valueOf]

/-- A property has no second value in its node. -/
theorem valueOf_eq_none (h : ((props (.prop p :: items)).map (·.name)).Nodup) :
    valueOf p.name items = none := by
  rw [props, List.map_cons, List.nodup_cons] at h
  rw [valueOf, Option.map_eq_none_iff, List.find?_eq_none]
  intro q hq he
  exact h.1 (List.mem_map.mpr ⟨q, hq, of_decide_eq_true he⟩)

/-- The value of a property of interest, in a node of interest. -/
def valueIf (c : Prop) [Decidable c] (name : Name) (items : List Item) : List (List UInt8) :=
  if c then (valueOf name items).toList else []

/-- A property is the last one of its name in its node. -/
theorem overwrite_prop {β : Type} {c : Prop} [Decidable c] (f : List UInt8 → β) (x : β)
    (h : ((props (.prop p :: items)).map (·.name)).Nodup) :
    overwrite f (if c ∧ p.name = name then f p.value else x) (valueIf c name items) =
      overwrite f x (valueIf c name (.prop p :: items)) := by
  by_cases hc : c
  · simp only [valueIf, hc, true_and, if_true]
    rw [valueOf_prop]
    by_cases hn : p.name = name
    · rw [if_pos hn, if_pos hn, ← hn, valueOf_eq_none h]
      rfl
    · rw [if_neg hn, if_neg hn]
  · simp [valueIf, hc]

end Values

/-- The items of a node `/n/n'`. -/
theorem factsAll_depth2 {r n n' : Name} {items : List Item}
    (h : ((props items).map (·.name)).Nodup) (a : Facts) :
    factsAll [r, n, n'] items a =
      { a with
        virtio := a.virtio ++
          (valueIf (n = ascii "soc" ∧ ascii "virtio_mmio@" <+: n') (ascii "reg") items).map address } := by
  induction items generalizing a with
  | nil => simp [factsAll, valueIf, valueOf, props]
  | cons it items ih =>
      rw [factsAll]
      cases it with
      | nop => exact ih h a
      | node name items' =>
          have hdeep : 4 ≤ ([r, n, n'] ++ [name]).length := Nat.le_refl 4
          rw [Item.facts, factsAll_deep hdeep]
          exact ih h a
      | prop p =>
          have hnone := valueOf_eq_none h
          rw [ih ((List.nodup_cons.mp h).2), Item.facts, Facts.property, Facts.atDepth2]
          by_cases hc : n = ascii "soc" ∧ ascii "virtio_mmio@" <+: n'
          · simp only [valueIf, hc, true_and, and_self, if_true, valueOf_prop]
            by_cases hreg : p.name = ascii "reg"
            · rw [if_pos hreg, if_pos hreg, ← hreg, hnone]
              simp
            · rw [if_neg hreg, if_neg hreg]
          · rw [if_neg fun he => hc ⟨he.1, he.2.1⟩]
            simp only [valueIf, if_neg hc]

/-- The `reg` properties of the nodes `/n/virtio_mmio@*`. -/
def virtioRegsIn (n : Name) (items : List Item) : List (List UInt8) :=
  (if n = ascii "soc" then (nodes items).filter fun n => ascii "virtio_mmio@" <+: n.1
    else []).filterMap fun n => valueOf (ascii "reg") n.2

theorem virtioRegsIn_node {n n' : Name} {items items' : List Item} :
    virtioRegsIn n (.node n' items' :: items) =
      valueIf (n = ascii "soc" ∧ ascii "virtio_mmio@" <+: n') (ascii "reg") items' ++
        virtioRegsIn n items := by
  by_cases hn : n = ascii "soc"
  · by_cases hv : ascii "virtio_mmio@" <+: n'
    · simp only [virtioRegsIn, valueIf, hn, hv, if_true, and_self, nodes, List.filter_cons, decide_true,
        List.filterMap_cons]
      cases valueOf (ascii "reg") items' <;> rfl
    · simp [virtioRegsIn, valueIf, hn, hv, nodes]
  · simp [virtioRegsIn, valueIf, hn]

/-- The items of a node `/n`. -/
theorem factsAll_depth1 {strings : Nat → UInt8} {levels : Nat} {r n : Name} {items : List Item}
    (h : ((props items).map (·.name)).Nodup)
    (hitems : ∀ it ∈ items, it.WellFormed strings levels) (a : Facts) :
    factsAll [r, n] items a =
      { maxPfn := overwrite lastPfn a.maxPfn
          (valueIf (ascii "memory@" <+: n) (ascii "reg") items)
        clockFreq := overwrite clockOf a.clockFreq
          (valueIf (n = ascii "cpus") (ascii "timebase-frequency") items)
        virtio := a.virtio ++ (virtioRegsIn n items).map address } := by
  induction items generalizing a with
  | nil => simp [factsAll, valueIf, valueOf, props, overwrite, virtioRegsIn, nodes]
  | cons it items ih =>
      have hrest : ∀ it ∈ items, it.WellFormed strings levels :=
        fun it hit => hitems it (List.mem_cons_of_mem _ hit)
      rw [factsAll]
      cases it with
      | nop => exact ih h hrest a
      | node n' items' =>
          cases hitems _ List.mem_cons_self with
          | node _ hdistinct _ =>
              rw [ih h hrest, Item.facts, List.cons_append, List.cons_append, List.nil_append,
                factsAll_depth2 hdistinct, virtioRegsIn_node]
              ext1
              · rfl
              · rfl
              · simp
      | prop p =>
          rw [ih ((List.nodup_cons.mp h).2) hrest, Item.facts, Facts.property]
          ext1
          · exact overwrite_prop lastPfn a.maxPfn h
          · exact overwrite_prop clockOf a.clockFreq h
          · rfl

theorem filterMap_node {β : Type} (f : Name × List Item → Option β) {n : Name}
    {items items' : List Item} :
    (nodes (.node n items' :: items)).filterMap f =
      (f (n, items')).toList ++ (nodes items).filterMap f := by
  rw [nodes, List.filterMap_cons]
  cases f (n, items') <;> rfl

theorem valueIf_eq {c : Prop} [Decidable c] {name : Name} {items : List Item} :
    valueIf c name items = (if c then valueOf name items else none).toList := by
  rw [valueIf]
  split <;> rfl

/-- What the parser finds below the root is what the tree has there. -/
theorem facts_root {strings : Nat → UInt8} {levels : Nat} {r : Name} {items : List Item}
    (hitems : ∀ it ∈ items, it.WellFormed strings levels) (a : Facts) :
    factsAll [r] items a =
      { maxPfn := overwrite lastPfn a.maxPfn (memoryRegs items)
        clockFreq := overwrite clockOf a.clockFreq (timebases items)
        virtio := a.virtio ++ (virtioRegs items).map address } := by
  induction items generalizing a with
  | nil => simp [factsAll, overwrite, memoryRegs, timebases, virtioRegs, virtioNodes, nodes]
  | cons it items ih =>
      have hrest : ∀ it ∈ items, it.WellFormed strings levels :=
        fun it hit => hitems it (List.mem_cons_of_mem _ hit)
      rw [factsAll]
      cases it with
      | nop => exact ih hrest a
      | prop p => exact ih hrest a
      | node n items' =>
          cases hitems _ List.mem_cons_self with
          | node _ hdistinct hchildren =>
              rw [ih hrest, Item.facts, List.cons_append, List.nil_append,
                factsAll_depth1 hdistinct hchildren, valueIf_eq, valueIf_eq]
              ext1
              · show overwrite lastPfn (overwrite lastPfn a.maxPfn _) (memoryRegs items) = _
                rw [← overwrite_append, memoryRegs, memoryRegs, filterMap_node]
              · show overwrite clockOf (overwrite clockOf a.clockFreq _) (timebases items) = _
                rw [← overwrite_append, timebases, timebases, filterMap_node]
              · show a.virtio ++ _ ++ _ = a.virtio ++ _
                rw [List.append_assoc, ← List.map_append, virtioRegs, virtioRegs, virtioNodes,
                  virtioNodes, nodes, List.flatMap_cons, List.filterMap_append]
                rfl

end Fdt
