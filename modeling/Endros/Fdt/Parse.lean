import Endros.Lib.Loop
import Endros.Lib.Word
import Endros.Mem
import Mathlib.Algebra.Group.Int.Defs
import Mathlib.Algebra.GroupWithZero.Nat
import Mathlib.Logic.Function.Basic

/-!
# `parse_dtb`

The device tree is a sequence of 32-bit words in big-endian order.  `parse_dtb`
reads them one by one, with a state that says what the next word is.  `indent` is
the number of nodes that are open, and `level_names` points to their names.

A node has its name behind its token, up to the word with the terminating zero.  A
property has its length, the offset of its name in the block of strings, and its
value.  The test for the properties of interest is made at the offset, and it reads
the value from the words that follow.

Pointers are addresses in the memory `bytes`, which starts at the header.  The body
of the loop returns the next state, or stops: with a value that is returned, or
because it writes behind the end of an array.
-/

namespace Fdt

open Lib Mem

/-! ## Words -/

def ntohl (fdt : UInt32) : UInt32 :=
  (fdt >>> 24) ||| (((fdt >>> 16) &&& 0xff) <<< 8) ||| (((fdt >>> 8) &&& 0xff) <<< 16) |||
    ((fdt &&& 0xff) <<< 24)

def ntohll (fdt : UInt64) : UInt64 :=
  (fdt >>> 56) ||| (((fdt >>> 48) &&& 0xff) <<< 8) ||| (((fdt >>> 40) &&& 0xff) <<< 16) |||
    (((fdt >>> 32) &&& 0xff) <<< 24) ||| (((fdt >>> 24) &&& 0xff) <<< 32) |||
    (((fdt >>> 16) &&& 0xff) <<< 40) ||| (((fdt >>> 8) &&& 0xff) <<< 48) ||| ((fdt &&& 0xff) <<< 56)

/-- `FDT_BEGIN_NODE`. -/
def fdtBeginNode : UInt32 := 1

/-- `FDT_END_NODE`. -/
def fdtEndNode : UInt32 := 2

/-- `FDT_PROP`. -/
def fdtProp : UInt32 := 3

/-- `FDT_NOP`. -/
def fdtNop : UInt32 := 4

/-- `FDT_END`. -/
def fdtEnd : UInt32 := 9

/-! ## Strings -/

/-- The bytes of a string literal, without the zero behind them. -/
def ascii (s : String) : List UInt8 := s.toList.map fun c => UInt8.ofNat c.toNat

/-- `strcmp` with a literal. -/
def strcmp : (Nat → UInt8) → List UInt8 → Int
  | s₁, [] => (s₁ 0).toNat
  | s₁, c :: s₂ =>
      if s₁ 0 = 0 then 0 - (c.toNat : Int)
      else if s₁ 0 ≠ c then ((s₁ 0).toNat : Int) - c.toNat
      else strcmp (fun k => s₁ (k + 1)) s₂

/-- `strncmp` with a literal. -/
def strncmp : (Nat → UInt8) → List UInt8 → Nat → Int
  | _, _, 0 => 0
  | s₁, [], _ + 1 => (s₁ 0).toNat
  | s₁, c :: s₂, n + 1 =>
      if s₁ 0 = 0 then 0 - (c.toNat : Int)
      else if s₁ 0 ≠ c then ((s₁ 0).toNat : Int) - c.toNat
      else strncmp (fun k => s₁ (k + 1)) s₂ n

/-! ## The machine -/

/-- The memory from the header on. -/
abbrev Bytes := Nat → UInt8

/-- A field of the header. -/
def header (bytes : Bytes) (off : Nat) : Nat := (ntohl (le32 bytes off)).toNat

/-- `fdt_structs`. -/
def fdtStructs (bytes : Bytes) : Nat := header bytes 8

/-- `name_block`. -/
def nameBlock (bytes : Bytes) : Nat := header bytes 12

/-- `dtb->size_dt_struct`. -/
def sizeDtStruct (bytes : Bytes) : Nat := header bytes 36

/-- `ntohl(fdt_structs[i])`. -/
def word (bytes : Bytes) (i : Nat) : UInt32 := ntohl (le32 bytes (fdtStructs bytes + 4 * i))

/-- `ntohll(*(fdt64_t *)(fdt_structs + i))`. -/
def word64 (bytes : Bytes) (i : Nat) : UInt64 := ntohll (le64 bytes (fdtStructs bytes + 4 * i))

/-- `MAX_VIRTIO_MMIO`. -/
def maxVirtioMmio : Nat := 64

/-- The globals that `parse_dtb` sets.  `virtioMmioHeaders` are the first
`num_virtio_mmio` elements of the array. -/
structure Globals where
  maxPfn : UInt64
  clockFreq : UInt32
  nCPU : UInt64
  virtioMmioHeaders : List UInt64
deriving DecidableEq, Repr

inductive PdaState where
  | initial | nodename | nodeprop | proplen | propoff | propval
deriving DecidableEq, Repr

structure Parser where
  globals : Globals
  state : PdaState
  indent : UInt32
  propL : Int
  levelNames : Nat → Nat

inductive Stop where
  | ret (value : Int) (globals : Globals)
  | fault

/-- A value as an `i32`. -/
def toI32 (x : UInt32) : Int := if x.toNat < 2 ^ 31 then x.toNat else (x.toNat : Int) - 2 ^ 32

/-- The difference of two values as an `i32`. -/
def subI32 (x y : Int) : Int := if x - y < -2 ^ 31 then x - y + 2 ^ 32 else x - y

/-- A node is opened. -/
def beginNode (bytes : Bytes) (i : Nat) (s : Parser) : Except Stop Parser :=
  if s.indent < 8 then
    .ok { s with
      state := .nodename
      levelNames := Function.update s.levelNames s.indent.toNat (fdtStructs bytes + 4 * (i + 1))
      indent := s.indent + 1 }
  else .error .fault

section Tests

variable (bytes : Bytes) (i : Nat) (s : Parser) (propName : Nat → UInt8) (g : Globals)

/-- `level_names[j]`. -/
def levelName (j : Nat) : Nat → UInt8 := fun k => bytes (s.levelNames j + k)

def testMemory : Globals :=
  if s.indent = 2 ∧ strncmp (levelName bytes s 1) (ascii "memory@") 7 = 0 ∧
      strcmp propName (ascii "reg") = 0 then
    let start := word64 bytes (i + 1)
    let size := word64 bytes (i + 3)
    { g with maxPfn := UInt64.ofNat (addr2Page (start + size).toNat) }
  else g

def testCpu : Globals :=
  if s.indent > 2 ∧ strcmp (levelName bytes s 1) (ascii "cpus") = 0 ∧
      strcmp (levelName bytes s 2) (ascii "cpu-map") = 0 ∧ strcmp propName (ascii "cpu") = 0 then
    { g with nCPU := g.nCPU + 1 }
  else g

def testClock : Globals :=
  if s.indent = 2 ∧ strcmp (levelName bytes s 1) (ascii "cpus") = 0 ∧
      strcmp propName (ascii "timebase-frequency") = 0 then
    { g with clockFreq := word bytes (i + 1) }
  else g

def testVirtio : Except Stop Globals :=
  if s.indent = 3 ∧ strcmp (levelName bytes s 1) (ascii "soc") = 0 ∧
      strncmp (levelName bytes s 2) (ascii "virtio_mmio@") 12 = 0 ∧
      strcmp propName (ascii "reg") = 0 then
    if g.virtioMmioHeaders.length < maxVirtioMmio then
      .ok { g with virtioMmioHeaders := g.virtioMmioHeaders ++ [word64 bytes (i + 1)] }
    else .error .fault
  else .ok g

end Tests

/-- The tests for the properties of interest, at the word `i` with the offset of the
name. -/
def testProperty (bytes : Bytes) (i : Nat) (s : Parser) (input : UInt32) : Except Stop Globals :=
  let propName : Nat → UInt8 := fun k => bytes (nameBlock bytes + input.toNat + k)
  let g := testMemory bytes i s propName s.globals
  let g := testCpu bytes s propName g
  let g := testClock bytes i s propName g
  testVirtio bytes i s propName g

/-- The body of the loop, for the word `i`. -/
def body (bytes : Bytes) (i : Nat) (s : Parser) : Except Stop Parser :=
  let input := word bytes i
  match s.state with
  | .initial =>
      if input = fdtNop then .ok s
      else if input = fdtBeginNode then beginNode bytes i s
      else .error (.ret (-1) s.globals)
  | .nodename =>
      -- the bytes in the order they have in memory
      let name := bytes32 (ntohl input)
      if name 0 = 0 ∨ name 1 = 0 ∨ name 2 = 0 ∨ name 3 = 0 then .ok { s with state := .nodeprop }
      else .ok s
  | .nodeprop =>
      if input = fdtNop then .ok s
      else if input = fdtProp then .ok { s with state := .proplen }
      else if input = fdtBeginNode then beginNode bytes i s
      else if input = fdtEndNode then .ok { s with indent := s.indent - 1 }
      else if input = fdtEnd then .error (.ret (if s.indent ≠ 0 then -1 else 0) s.globals)
      else .error (.ret (-1) s.globals)
  | .proplen => .ok { s with propL := toI32 input, state := .propoff }
  | .propoff => do
      let globals ← testProperty bytes i s input
      .ok { s with globals, state := if s.propL ≠ 0 then .propval else .nodeprop }
  | .propval =>
      let propL := subI32 s.propL 4
      .ok { s with propL, state := if propL ≤ 0 then .nodeprop else .propval }

/-- What is returned, with the globals. -/
def result : Except Stop Parser → Option (Int × Globals)
  | .error (.ret value globals) => some (value, globals)
  | .error .fault => none
  | .ok s => some (0, s.globals)

/-- `parse_dtb`.  The array of names is not initialised: `levelNames` is what it
holds. -/
def parseDtb (bytes : Bytes) (levelNames : Nat → Nat) (globals : Globals) :
    Option (Int × Globals) :=
  result (loop (body bytes) (sizeDtStruct bytes / 4) ⟨globals, .initial, 0, 0, levelNames⟩)

/-! ## Reading -/

section Words

variable {f : Nat → UInt8} {a : Nat}

/-- Bits that do not meet are added. -/
theorem or_shift {x y i : Nat} (h : x < 2 ^ i) : x ||| y * 2 ^ i = x + y * 2 ^ i := by
  rw [Nat.or_comm, Nat.mul_comm, ← Nat.two_pow_add_eq_or_of_lt h, Nat.add_comm]

theorem and_byte (x : Nat) : x &&& 255 = x % 2 ^ 8 := Nat.and_two_pow_sub_one_eq_mod x 8

/-- A byte that is moved within a word. -/
theorem byte_shift {x i w : Nat} (h : 8 + i ≤ w) : x % 2 ^ 8 * 2 ^ i % 2 ^ w = x % 2 ^ 8 * 2 ^ i := by
  refine Nat.mod_eq_of_lt (Nat.lt_of_lt_of_le ?_ (Nat.pow_le_pow_right (by decide) h))
  rw [Nat.pow_add]
  exact Nat.mul_lt_mul_of_pos_right (Nat.mod_lt _ (by decide)) (Nat.two_pow_pos i)

theorem ntohl_toNat (x : UInt32) :
    (ntohl x).toNat = x.toNat / 2 ^ 24 + x.toNat / 2 ^ 16 % 2 ^ 8 * 2 ^ 8 +
      x.toNat / 2 ^ 8 % 2 ^ 8 * 2 ^ 16 + x.toNat % 2 ^ 8 * 2 ^ 24 := by
  have hx := x.toNat_lt
  simp only [ntohl, UInt32.toNat_or, UInt32.toNat_shiftLeft, UInt32.toNat_shiftRight,
    UInt32.toNat_and, UInt32.reduceToNat, Nat.reduceMod, Nat.shiftLeft_eq, Nat.shiftRight_eq_div_pow,
    and_byte]
  rw [byte_shift (by omega), byte_shift (by omega), byte_shift (by omega),
    or_shift (i := 8) (by omega), or_shift (i := 16) (by omega), or_shift (i := 24) (by omega)]

theorem ntohll_toNat (x : UInt64) :
    (ntohll x).toNat = x.toNat / 2 ^ 56 + x.toNat / 2 ^ 48 % 2 ^ 8 * 2 ^ 8 +
      x.toNat / 2 ^ 40 % 2 ^ 8 * 2 ^ 16 + x.toNat / 2 ^ 32 % 2 ^ 8 * 2 ^ 24 +
      x.toNat / 2 ^ 24 % 2 ^ 8 * 2 ^ 32 + x.toNat / 2 ^ 16 % 2 ^ 8 * 2 ^ 40 +
      x.toNat / 2 ^ 8 % 2 ^ 8 * 2 ^ 48 + x.toNat % 2 ^ 8 * 2 ^ 56 := by
  have hx := x.toNat_lt
  simp only [ntohll, UInt64.toNat_or, UInt64.toNat_shiftLeft, UInt64.toNat_shiftRight,
    UInt64.toNat_and, UInt64.reduceToNat, Nat.reduceMod, Nat.shiftLeft_eq, Nat.shiftRight_eq_div_pow,
    and_byte]
  rw [byte_shift (by omega), byte_shift (by omega), byte_shift (by omega), byte_shift (by omega),
    byte_shift (by omega), byte_shift (by omega), byte_shift (by omega),
    or_shift (i := 8) (by omega), or_shift (i := 16) (by omega), or_shift (i := 24) (by omega),
    or_shift (i := 32) (by omega), or_shift (i := 40) (by omega), or_shift (i := 48) (by omega),
    or_shift (i := 56) (by omega)]

/-- A word is read with its first byte as the highest one. -/
theorem ntohl_le32 :
    (ntohl (le32 f a)).toNat = (f a).toNat * 2 ^ 24 + (f (a + 1)).toNat * 2 ^ 16 +
      (f (a + 2)).toNat * 2 ^ 8 + (f (a + 3)).toNat := by
  have h₀ := (f a).toNat_lt
  have h₁ := (f (a + 1)).toNat_lt
  have h₂ := (f (a + 2)).toNat_lt
  have h₃ := (f (a + 3)).toNat_lt
  rw [ntohl_toNat, le32_toNat]
  omega

theorem ntohll_le64 :
    (ntohll (le64 f a)).toNat =
      (ntohl (le32 f a)).toNat * 2 ^ 32 + (ntohl (le32 f (a + 4))).toNat := by
  have h₁ := (le32 f a).toNat_lt
  have h₂ := (le32 f (a + 4)).toNat_lt
  have hle : (le64 f a).toNat = (le32 f a).toNat + (le32 f (a + 4)).toNat * 2 ^ 32 := by
    rw [le64, UInt64.toNat_ofNat', Nat.mod_eq_of_lt (by omega)]
  rw [ntohll_toNat, ntohl_toNat, ntohl_toNat, hle]
  generalize (le32 f a).toNat = x at *
  generalize (le32 f (a + 4)).toNat = y at *
  -- the bytes of the upper half, then those of the lower one
  have e₇ : (x + y * 2 ^ 32) / 2 ^ 56 = y / 2 ^ 24 := by omega
  have e₆ : (x + y * 2 ^ 32) / 2 ^ 48 = y / 2 ^ 16 := by omega
  have e₅ : (x + y * 2 ^ 32) / 2 ^ 40 = y / 2 ^ 8 := by omega
  have e₄ : (x + y * 2 ^ 32) / 2 ^ 32 = y := by omega
  have e₃ : (x + y * 2 ^ 32) / 2 ^ 24 % 2 ^ 8 = x / 2 ^ 24 := by omega
  have e₂ : (x + y * 2 ^ 32) / 2 ^ 16 % 2 ^ 8 = x / 2 ^ 16 % 2 ^ 8 := by omega
  have e₁ : (x + y * 2 ^ 32) / 2 ^ 8 % 2 ^ 8 = x / 2 ^ 8 % 2 ^ 8 := by omega
  have e₀ : (x + y * 2 ^ 32) % 2 ^ 8 = x % 2 ^ 8 := by omega
  rw [e₇, e₆, e₅, e₄, e₃, e₂, e₁, e₀]
  omega

theorem ntohl_ntohl (x : UInt32) : ntohl (ntohl x) = x := by
  rw [← le32_bytes32 x]
  generalize bytes32 x = g
  have h₀ := (g 0).toNat_lt
  have h₁ := (g (0 + 1)).toNat_lt
  have h₂ := (g (0 + 2)).toNat_lt
  have h₃ := (g (0 + 3)).toNat_lt
  apply UInt32.toNat_inj.mp
  rw [ntohl_toNat, ntohl_le32, le32_toNat]
  omega

theorem bytes32_le32 {j : Nat} (hj : j < 4) : bytes32 (le32 f a) j = f (a + j) := by
  have h := le32_inj (le32_bytes32 (le32 f a)) hj
  rw [Nat.zero_add] at h
  exact h

end Words

section Strings

/-- The bytes from the pointer on are the string `l` and a zero. -/
def IsString (s : Nat → UInt8) : List UInt8 → Prop
  | [] => s 0 = 0
  | c :: l => s 0 = c ∧ c ≠ 0 ∧ IsString (fun k => s (k + 1)) l

theorem toNat_sub_eq_zero {x y : UInt8} : ((x.toNat : Int) - y.toNat = 0) ↔ x = y := by
  rw [← UInt8.toNat_inj]
  omega

/-- `strcmp` with a literal that has no zero. -/
theorem strcmp_eq_zero {s : Nat → UInt8} {l lit : List UInt8} (h : IsString s l) (hlit : 0 ∉ lit) :
    strcmp s lit = 0 ↔ l = lit := by
  induction lit generalizing s l with
  | nil =>
      cases l with
      | nil => simp [strcmp, show s 0 = 0 from h]
      | cons c l =>
          obtain ⟨hs, hc, -⟩ := h
          have hne : c.toNat ≠ 0 := fun hz => hc (UInt8.toNat_inj.mp hz)
          simp [strcmp, hs, hne]
  | cons b lit ih =>
      have hb : b ≠ 0 := fun hz => hlit (hz ▸ List.mem_cons_self)
      cases l with
      | nil =>
          have hne : b.toNat ≠ 0 := fun hz => hb (UInt8.toNat_inj.mp hz)
          simp [strcmp, show s 0 = 0 from h, hne]
      | cons c l =>
          obtain ⟨hs, hc, hl⟩ := h
          rw [strcmp, hs, if_neg hc]
          by_cases he : c = b
          · rw [if_neg (not_not.mpr he), ih hl fun hz => hlit (List.mem_cons_of_mem _ hz), he]
            simp
          · rw [if_pos he, toNat_sub_eq_zero]
            simp [he]

/-- `strncmp` with all of a literal that has no zero. -/
theorem strncmp_eq_zero {s : Nat → UInt8} {l lit : List UInt8} (h : IsString s l) (hlit : 0 ∉ lit) :
    strncmp s lit lit.length = 0 ↔ lit <+: l := by
  induction lit generalizing s l with
  | nil => simp [strncmp]
  | cons b lit ih =>
      have hb : b ≠ 0 := fun hz => hlit (hz ▸ List.mem_cons_self)
      cases l with
      | nil =>
          have hne : b.toNat ≠ 0 := fun hz => hb (UInt8.toNat_inj.mp hz)
          simp [strncmp, show s 0 = 0 from h, hne]
      | cons c l =>
          obtain ⟨hs, hc, hl⟩ := h
          rw [List.length_cons, strncmp, hs, if_neg hc, List.cons_prefix_cons]
          by_cases he : c = b
          · rw [if_neg (not_not.mpr he), ih hl fun hz => hlit (List.mem_cons_of_mem _ hz)]
            simp [he]
          · rw [if_pos he, toNat_sub_eq_zero]
            simp [he, Ne.symm he]

end Strings

end Fdt
