import Endros.Fdt.Tree

/-!
# `parse_dtb` reads every well-formed tree

`Open` is the state of the parser behind the name of a node, or behind one of its
items: the words that follow are items of the node at a path, the names of the path
can be read through `level_names`, and the globals are the `Facts` of the document
so far.  `Item.runs` says that the words of an item take such a state to such a
state.

A name is read up to the word with its zero (`name_runs`), and a value by its length
(`value_runs`), whatever the two contain.
-/

namespace Fdt

open Lib Mem

/-! ## Bytes in memory -/

/-- The bytes from `a` on. -/
def Holds (bytes : Bytes) (a : Nat) : List UInt8 → Prop
  | [] => True
  | b :: l => bytes a = b ∧ Holds bytes (a + 1) l

section Holds

variable {bytes : Bytes} {a : Nat} {l l' : List UInt8}

theorem holds_append :
    Holds bytes a (l ++ l') ↔ Holds bytes a l ∧ Holds bytes (a + l.length) l' := by
  induction l generalizing a with
  | nil => simp [Holds]
  | cons b l ih =>
      rw [List.cons_append, Holds, Holds, ih, List.length_cons, and_assoc, Nat.add_assoc,
        Nat.add_comm 1 l.length]

theorem Holds.drop {n : Nat} (h : Holds bytes a l) (hn : n ≤ l.length) :
    Holds bytes (a + n) (l.drop n) := by
  rw [← List.take_append_drop n l, holds_append, List.length_take, Nat.min_eq_left hn] at h
  exact h.2

/-- The first word of a value. -/
theorem Holds.word (h : Holds bytes a l) (hl : 4 ≤ l.length) :
    (ntohl (le32 bytes a)).toNat = bigEndian (l.take 4) := by
  match l, hl with
  | b₀ :: b₁ :: b₂ :: b₃ :: l, _ =>
      obtain ⟨h₀, h₁, h₂, h₃, -⟩ := h
      rw [ntohl_le32, h₀, h₁, h₂, h₃]
      simp only [bigEndian, List.take_succ_cons, List.take_zero, List.foldl_cons, List.foldl_nil]
      omega

/-- The first two words of a value. -/
theorem Holds.word64 (h : Holds bytes a l) (hl : 8 ≤ l.length) :
    (ntohll (le64 bytes a)).toNat = bigEndian (l.take 8) := by
  rw [ntohll_le64, h.word (by omega), (h.drop (show 4 ≤ l.length by omega)).word (by simp; omega)]
  match l, hl with
  | b₀ :: b₁ :: b₂ :: b₃ :: b₄ :: b₅ :: b₆ :: b₇ :: l, _ =>
      simp only [bigEndian, List.take_succ_cons, List.take_zero, List.foldl_cons, List.foldl_nil,
        List.drop_succ_cons, List.drop_zero]
      omega

/-- A token is read back. -/
theorem Holds.token {x : UInt32} (h : Holds bytes a (bytesBE x)) : ntohl (le32 bytes a) = x := by
  apply UInt32.toNat_inj.mp
  have hx := x.toNat_lt
  rw [h.word (Nat.le_refl 4)]
  simp only [bytesBE, bigEndian, List.take_succ_cons, List.take_zero, List.foldl_cons, List.foldl_nil,
    bytes32_toNat]
  omega

/-- A name in memory is a string. -/
theorem Holds.isString (h : Holds bytes a (l ++ [0])) (hl : 0 ∉ l) :
    IsString (fun k => bytes (a + k)) l := by
  induction l generalizing a with
  | nil => exact h.1
  | cons b l ih =>
      refine ⟨h.1, fun hz => hl (hz ▸ List.mem_cons_self), ?_⟩
      have hs := ih h.2 fun hz => hl (List.mem_cons_of_mem b hz)
      simpa [Nat.add_assoc, Nat.add_comm 1] using hs

end Holds

/-! ## Words of the structure block -/

/-- The words from the index `i` on. -/
def At (bytes : Bytes) (i : Nat) (l : List UInt8) : Prop := Holds bytes (fdtStructs bytes + 4 * i) l

section Words

variable {bytes : Bytes} {i j : Nat} {l l' : List UInt8} {x : UInt32}

theorem At.split (h : At bytes i (l ++ l')) : At bytes i l := (holds_append.mp h).1

theorem At.rest (h : At bytes i (l ++ l')) (hj : 4 * j = 4 * i + l.length) : At bytes j l' := by
  rw [At, hj, ← Nat.add_assoc]
  exact (holds_append.mp h).2

theorem At.token (h : At bytes i (bytesBE x ++ l)) : word bytes i = x := Holds.token h.split

theorem At.next (h : At bytes i (bytesBE x ++ l)) : At bytes (i + 1) l := h.rest (by rfl)

theorem padded_length : (padded l).length = 4 * ((l.length + 3) / 4) := by
  rw [padded, List.length_append, List.length_replicate]
  omega

theorem padded_cons {b₀ b₁ b₂ b₃ : UInt8} :
    padded (b₀ :: b₁ :: b₂ :: b₃ :: l) = [b₀, b₁, b₂, b₃] ++ padded l := by
  have h : (l.length + 1 + 1 + 1 + 1) % 4 = l.length % 4 := by omega
  simp only [padded, List.length_cons, h, List.cons_append, List.nil_append]

end Words

/-! ## Names and values -/

section Parts

variable {bytes : Bytes} {i : Nat} {s : Parser}

/-- A word of a name ends it if it has a zero. -/
theorem body_nodename (hs : s.state = .nodename) :
    body bytes i s =
      if bytes (fdtStructs bytes + 4 * i) = 0 ∨ bytes (fdtStructs bytes + 4 * i + 1) = 0 ∨
          bytes (fdtStructs bytes + 4 * i + 2) = 0 ∨ bytes (fdtStructs bytes + 4 * i + 3) = 0 then
        .ok { s with state := .nodeprop }
      else .ok s := by
  simp only [body, hs, word, ntohl_ntohl, bytes32_le32 (show 0 < 4 by decide),
    bytes32_le32 (show 1 < 4 by decide), bytes32_le32 (show 2 < 4 by decide),
    bytes32_le32 (show 3 < 4 by decide), Nat.add_zero]

theorem name_ends (hs : s.state = .nodename)
    (h : bytes (fdtStructs bytes + 4 * i) = 0 ∨ bytes (fdtStructs bytes + 4 * i + 1) = 0 ∨
      bytes (fdtStructs bytes + 4 * i + 2) = 0 ∨ bytes (fdtStructs bytes + 4 * i + 3) = 0) :
    Runs (body bytes) i s (i + 1) { s with state := .nodeprop } :=
  .one ((body_nodename hs).trans (if_pos h))

/-- A name, with the zero behind it. -/
theorem name_runs (hs : s.state = .nodename) : ∀ {i : Nat} {name : Name},
    At bytes i (padded (name ++ [0])) → 0 ∉ name →
      ∃ j, 4 * j = 4 * i + (padded (name ++ [0])).length ∧
        Runs (body bytes) i s j { s with state := .nodeprop }
  | i, [], hat, _ => ⟨i + 1, rfl, name_ends hs (.inl hat.1)⟩
  | i, [_], hat, _ => ⟨i + 1, rfl, name_ends hs (.inr (.inl hat.2.1))⟩
  | i, [_, _], hat, _ => ⟨i + 1, rfl, name_ends hs (.inr (.inr (.inl hat.2.2.1)))⟩
  | i, [_, _, _], hat, _ => ⟨i + 1, by simp [padded_length, Nat.mul_add], name_ends hs (.inr (.inr (.inr hat.2.2.2.1)))⟩
  | i, b₀ :: b₁ :: b₂ :: b₃ :: name, hat, hzero => by
      simp only [List.mem_cons, not_or] at hzero
      obtain ⟨hb₀, hb₁, hb₂, hb₃, hzero⟩ := hzero
      rw [List.cons_append, List.cons_append, List.cons_append, List.cons_append, padded_cons] at hat ⊢
      have hrest : At bytes (i + 1) (padded (name ++ [0])) := hat.rest rfl
      obtain ⟨h₀, h₁, h₂, h₃, -⟩ := hat
      have hstays : body bytes i s = .ok s := by
        rw [body_nodename hs, if_neg]
        rintro (h | h | h | h)
        · exact hb₀ (h.symm.trans h₀)
        · exact hb₁ (h.symm.trans h₁)
        · exact hb₂ (h.symm.trans h₂)
        · exact hb₃ (h.symm.trans h₃)
      obtain ⟨j, hj, hruns⟩ := name_runs hs hrest hzero
      exact ⟨j, by rw [hj, List.length_append]; simp; omega, (Runs.one hstays).trans hruns⟩

/-- A value of `n` bytes. -/
theorem value_runs {n : Nat} (hs : s.state = .propval) (hl : s.propL = n) (hn : 0 < n) :
    ∃ l, Runs (body bytes) i s (i + (n + 3) / 4) { s with propL := l, state := .nodeprop } := by
  induction n using Nat.strongRecOn generalizing i s with
  | ind n ih =>
      have hbody : body bytes i s =
          .ok { s with propL := s.propL - 4, state := if s.propL - 4 ≤ 0 then .nodeprop else .propval } := by
        have hsub : subI32 s.propL 4 = s.propL - 4 := if_neg (by omega)
        simp only [body, hs, hsub]
      by_cases h4 : n ≤ 4
      · rw [if_pos (by omega)] at hbody
        rw [show (n + 3) / 4 = 1 by omega]
        exact ⟨_, .one hbody⟩
      · rw [if_neg (by omega)] at hbody
        obtain ⟨l, hruns⟩ := ih (n - 4) (by omega) (i := i + 1)
          (s := { s with propL := s.propL - 4, state := .propval }) rfl (by simp; omega) (by omega)
        rw [show i + 1 + (n - 4 + 3) / 4 = i + (n + 3) / 4 by omega] at hruns
        exact ⟨l, (Runs.one hbody).trans hruns⟩

end Parts

/-! ## The tests -/

/-- The globals are what is known. -/
structure Knows (g : Globals) (a : Facts) : Prop where
  maxPfn : g.maxPfn = a.maxPfn
  clockFreq : ∀ c, a.clockFreq = some c → g.clockFreq = c
  virtio : g.virtioMmioHeaders = a.virtio

/-- The names of a path are those of the open nodes. -/
structure Names (bytes : Bytes) (path : List Name) (s : Parser) : Prop where
  indent : s.indent.toNat = path.length
  names : ∀ j n, path[j]? = some n → IsString (levelName bytes s j) n

/-- What the parser has at the offset of the name of a property. -/
structure AtProperty (bytes : Bytes) (i : Nat) (p : Property) : Prop where
  name : IsString (fun k => bytes (nameBlock bytes + p.nameoff.toNat + k)) p.name
  value : At bytes (i + 1) p.value
  reg : p.name = ascii "reg" → 16 ≤ p.value.length

section Tests

variable {bytes : Bytes} {i : Nat} {s : Parser} {path : List Name} {a : Facts} {p : Property}
  {g : Globals}

theorem Names.indent_eq {n : UInt32} (h : Names bytes path s) :
    s.indent = n ↔ path.length = n.toNat := by
  rw [← UInt32.toNat_inj, h.indent]

/-- The number of CPUs is not one of the facts. -/
theorem Knows.testCpu {propName : Nat → UInt8} (h : Knows g a) :
    Knows (testCpu bytes s propName g) a := by
  rw [Fdt.testCpu]
  split
  · exact ⟨h.maxPfn, h.clockFreq, h.virtio⟩
  · exact h

theorem AtProperty.address (h : AtProperty bytes i p) (hreg : p.name = ascii "reg") :
    word64 bytes (i + 1) = Fdt.address p.value := by
  have hl := h.reg hreg
  rw [Fdt.address, ← Holds.word64 h.value (by omega), UInt64.ofNat_toNat]
  rfl

theorem AtProperty.lastPfn (h : AtProperty bytes i p) (hreg : p.name = ascii "reg") :
    UInt64.ofNat (addr2Page (word64 bytes (i + 1) + word64 bytes (i + 3)).toNat) =
      Fdt.lastPfn p.value := by
  have hl := h.reg hreg
  have hbase : (word64 bytes (i + 1)).toNat = bigEndian (p.value.take 8) :=
    Holds.word64 h.value (by omega)
  have hsize : (word64 bytes (i + 3)).toNat = bigEndian ((p.value.drop 8).take 8) := by
    rw [← Holds.word64 (Holds.drop h.value (show 8 ≤ p.value.length by omega)) (by simp; omega)]
    rfl
  rw [Fdt.lastPfn, UInt64.toNat_add, hbase, hsize]
  rfl

theorem AtProperty.clock (h : AtProperty bytes i p) {c : UInt32} (hc : clockOf p.value = some c) :
    word bytes (i + 1) = c := by
  rw [clockOf] at hc
  split at hc
  next hl =>
    rw [← Holds.word h.value hl, UInt32.ofNat_toNat] at hc
    exact Option.some.inj hc
  next => cases hc

/-- The name of a property in the block of strings. -/
def propName (bytes : Bytes) (p : Property) : Nat → UInt8 :=
  fun k => bytes (nameBlock bytes + p.nameoff.toNat + k)

theorem AtProperty.name_eq (h : AtProperty bytes i p) {lit : List UInt8} (hlit : 0 ∉ lit) :
    strcmp (propName bytes p) lit = 0 ↔ p.name = lit :=
  strcmp_eq_zero h.name hlit

theorem Names.name_eq {j : Nat} {n lit : Name} (h : Names bytes path s) (hj : path[j]? = some n)
    (hlit : 0 ∉ lit) : strcmp (levelName bytes s j) lit = 0 ↔ n = lit :=
  strcmp_eq_zero (h.names j n hj) hlit

theorem Names.name_starts {j k : Nat} {n lit : Name} (h : Names bytes path s)
    (hj : path[j]? = some n) (hlit : 0 ∉ lit) (hk : lit.length = k) :
    strncmp (levelName bytes s j) lit k = 0 ↔ lit <+: n := by
  subst hk
  exact strncmp_eq_zero (h.names j n hj) hlit

theorem Knows.testMemory {r n : Name} (h : Knows g a) (hnames : Names bytes [r, n] s)
    (hp : AtProperty bytes i p) :
    Knows (testMemory bytes i s (propName bytes p) g)
      { a with
        maxPfn :=
          if ascii "memory@" <+: n ∧ p.name = ascii "reg" then Fdt.lastPfn p.value else a.maxPfn } := by
  have hcond : (s.indent = 2 ∧ strncmp (levelName bytes s 1) (ascii "memory@") 7 = 0 ∧
      strcmp (propName bytes p) (ascii "reg") = 0) ↔ ascii "memory@" <+: n ∧ p.name = ascii "reg" := by
    rw [hnames.indent_eq, hnames.name_starts rfl (by decide) (by decide), hp.name_eq (by decide)]
    exact and_iff_right rfl
  rw [Fdt.testMemory]
  simp only [hcond]
  split
  next hc => exact ⟨hp.lastPfn hc.2, h.clockFreq, h.virtio⟩
  next => exact h

theorem Knows.testClock {r n : Name} (h : Knows g a) (hnames : Names bytes [r, n] s)
    (hp : AtProperty bytes i p) :
    Knows (testClock bytes i s (propName bytes p) g)
      { a with
        clockFreq :=
          if n = ascii "cpus" ∧ p.name = ascii "timebase-frequency" then clockOf p.value
          else a.clockFreq } := by
  have hcond : (s.indent = 2 ∧ strcmp (levelName bytes s 1) (ascii "cpus") = 0 ∧
      strcmp (propName bytes p) (ascii "timebase-frequency") = 0) ↔
      n = ascii "cpus" ∧ p.name = ascii "timebase-frequency" := by
    rw [hnames.indent_eq, hnames.name_eq rfl (by decide), hp.name_eq (by decide)]
    exact and_iff_right rfl
  rw [Fdt.testClock]
  simp only [hcond]
  split
  next => exact ⟨h.maxPfn, fun c hc => hp.clock hc, h.virtio⟩
  next => exact h

theorem Knows.testVirtio {r n n' : Name} (h : Knows g a) (hnames : Names bytes [r, n, n'] s)
    (hp : AtProperty bytes i p) (hroom : (a.atDepth2 n n' p).virtio.length ≤ maxVirtioMmio) :
    ∃ g', testVirtio bytes i s (propName bytes p) g = .ok g' ∧ Knows g' (a.atDepth2 n n' p) := by
  have hcond : (s.indent = 3 ∧ strcmp (levelName bytes s 1) (ascii "soc") = 0 ∧
      strncmp (levelName bytes s 2) (ascii "virtio_mmio@") 12 = 0 ∧
      strcmp (propName bytes p) (ascii "reg") = 0) ↔
      n = ascii "soc" ∧ ascii "virtio_mmio@" <+: n' ∧ p.name = ascii "reg" := by
    rw [hnames.indent_eq, hnames.name_eq rfl (by decide), hnames.name_starts rfl (by decide) (by decide),
      hp.name_eq (by decide)]
    exact and_iff_right rfl
  rw [Facts.atDepth2] at hroom ⊢
  rw [Fdt.testVirtio]
  simp only [hcond]
  split
  next hc =>
    rw [if_pos hc, List.length_append, List.length_singleton] at hroom
    rw [if_pos (by rw [h.virtio]; exact hroom)]
    exact ⟨_, rfl, h.maxPfn, h.clockFreq, by rw [h.virtio, hp.address hc.2.2]⟩
  next => exact ⟨g, rfl, h⟩

theorem testMemory_of_ne {name : Nat → UInt8} (h : s.indent ≠ 2) :
    testMemory bytes i s name g = g := if_neg fun hc => h hc.1

theorem testClock_of_ne {name : Nat → UInt8} (h : s.indent ≠ 2) :
    testClock bytes i s name g = g := if_neg fun hc => h hc.1

theorem testVirtio_of_ne {name : Nat → UInt8} (h : s.indent ≠ 3) :
    testVirtio bytes i s name g = .ok g := if_neg fun hc => h hc.1

/-- A property of the node at a path. -/
theorem testProperty_knows (hnames : Names bytes path s) (hp : AtProperty bytes i p)
    (h : Knows s.globals a) (hroom : (a.property path p).virtio.length ≤ maxVirtioMmio) :
    ∃ g, testProperty bytes i s p.nameoff = .ok g ∧ Knows g (a.property path p) := by
  show ∃ g, testVirtio bytes i s (propName bytes p) (testClock bytes i s (propName bytes p)
    (Fdt.testCpu bytes s (propName bytes p)
      (testMemory bytes i s (propName bytes p) s.globals))) = .ok g ∧ _
  match path, hnames, hroom with
  | [_, n], hnames, _ =>
      have h3 : s.indent ≠ 3 := fun he => absurd (hnames.indent_eq.mp he) (by simp)
      rw [testVirtio_of_ne h3]
      exact ⟨_, rfl, (h.testMemory hnames hp).testCpu.testClock hnames hp⟩
  | [_, n, n'], hnames, hroom =>
      have h2 : s.indent ≠ 2 := fun he => absurd (hnames.indent_eq.mp he) (by simp)
      rw [testMemory_of_ne h2, testClock_of_ne h2]
      exact h.testCpu.testVirtio hnames hp hroom
  | [], hnames, _ | [_], hnames, _ | _ :: _ :: _ :: _ :: _, hnames, _ =>
      have h2 : s.indent ≠ 2 := fun he => absurd (hnames.indent_eq.mp he) (by simp)
      have h3 : s.indent ≠ 3 := fun he => absurd (hnames.indent_eq.mp he) (by simp)
      rw [testMemory_of_ne h2, testClock_of_ne h2, testVirtio_of_ne h3]
      exact ⟨_, rfl, h.testCpu⟩

end Tests

/-! ## Items -/

/-- The parser in the node at a path. -/
structure Open (bytes : Bytes) (path : List Name) (a : Facts) (s : Parser) : Prop where
  state : s.state = .nodeprop
  names : Names bytes path s
  knows : Knows s.globals a

section Items

variable {bytes : Bytes} {i : Nat} {s : Parser} {path : List Name} {a : Facts}

/-- A NOP token in front of the root, within a node or behind the root. -/
theorem body_nop (hs : s.state = .initial ∨ s.state = .nodeprop) (hat : At bytes i Item.nop.flatten) :
    body bytes i s = .ok s := by
  have hword : word bytes i = fdtNop := Holds.token hat
  rcases hs with hs | hs <;> simp only [body, hs, hword, if_true]

theorem nops_runs (hs : s.state = .initial ∨ s.state = .nodeprop) {n : Nat}
    (hat : At bytes i (flattenAll (List.replicate n .nop))) :
    ∃ j, 4 * j = 4 * i + (flattenAll (List.replicate n .nop)).length ∧ Runs (body bytes) i s j s := by
  induction n generalizing i with
  | zero => exact ⟨i, rfl, .refl⟩
  | succ n ih =>
      rw [List.replicate_succ, flattenAll] at hat ⊢
      obtain ⟨j, hj, hruns⟩ := ih (At.next hat)
      refine ⟨j, ?_, (Runs.one (body_nop hs hat.split)).trans hruns⟩
      rw [List.length_append, hj, Nat.mul_add, Nat.add_assoc]
      rfl

theorem toI32_ofNat {n : Nat} (h : n < 2 ^ 31) : toI32 (UInt32.ofNat n) = n := by
  have hn : (UInt32.ofNat n).toNat = n := UInt32.toNat_ofNat_of_lt' (Nat.lt_trans h (by decide))
  rw [toI32, hn, if_pos h]

/-- The words in front of a value. -/
theorem propHeader_runs {p : Property} {g : Globals} {l : List UInt8} (hs : s.state = .nodeprop)
    (hat : At bytes i (bytesBE fdtProp ++ (bytesBE (UInt32.ofNat p.value.length) ++
      (bytesBE p.nameoff ++ l)))) (hlen : p.value.length < 2 ^ 31)
    (htest : testProperty bytes (i + 2) { s with propL := p.value.length, state := .propoff }
      p.nameoff = .ok g) :
    Runs (body bytes) i s (i + 3)
      { s with
        propL := p.value.length
        globals := g
        state := if p.value.length ≠ 0 then .propval else .nodeprop } := by
  have h₁ : body bytes i s = .ok { s with state := .proplen } := by
    simp only [body, hs, hat.token]
    rfl
  have h₂ : body bytes (i + 1) { s with state := .proplen } =
      .ok { s with propL := p.value.length, state := .propoff } := by
    simp only [body, hat.next.token, toI32_ofNat hlen]
  refine ((Runs.one h₁).trans (.one h₂)).trans (.one ?_)
  simp only [body, hat.next.next.token, htest, ok_bind, Int.natCast_ne_zero]

/-- A property of the open node. -/
theorem prop_runs {p : Property} (hopen : Open bytes path a s)
    (hat : At bytes i (Item.prop p).flatten)
    (hname : IsString (fun k => bytes (nameBlock bytes + (p.nameoff.toNat + k))) p.name)
    (hlen : p.value.length < 2 ^ 31) (hreg : p.name = ascii "reg" → 16 ≤ p.value.length)
    (hroom : (a.property path p).virtio.length ≤ maxVirtioMmio) :
    ∃ j s', 4 * j = 4 * i + (Item.prop p).flatten.length ∧ Runs (body bytes) i s j s' ∧
      Open bytes path (a.property path p) s' := by
  rw [Item.flatten] at hat ⊢
  have hprop : AtProperty bytes (i + 2) p :=
    { name := by simpa only [Nat.add_assoc] using hname
      value := hat.next.next.next.split
      reg := hreg }
  obtain ⟨g, htest, hknows⟩ := testProperty_knows
    (s := { s with propL := p.value.length, state := .propoff })
    ⟨hopen.names.indent, hopen.names.names⟩ hprop hopen.knows hroom
  have hruns := propHeader_runs hopen.state hat hlen htest
  have hsize : (bytesBE fdtProp ++ (bytesBE (UInt32.ofNat p.value.length) ++
      (bytesBE p.nameoff ++ padded p.value))).length = 12 + 4 * ((p.value.length + 3) / 4) := by
    simp only [List.length_append, padded_length, bytesBE, List.length_cons, List.length_nil]
    omega
  rw [hsize]
  by_cases hzero : p.value.length = 0
  · rw [if_neg (not_not.mpr hzero)] at hruns
    exact ⟨i + 3, _, by omega, hruns, rfl, ⟨hopen.names.indent, hopen.names.names⟩, hknows⟩
  · rw [if_pos hzero] at hruns
    obtain ⟨l, hvalue⟩ := @value_runs bytes (i + 3)
      { s with propL := p.value.length, globals := g, state := .propval } _ rfl rfl
      (Nat.pos_of_ne_zero hzero)
    exact ⟨i + 3 + (p.value.length + 3) / 4, _, by omega, hruns.trans hvalue, rfl,
      ⟨hopen.names.indent, hopen.names.names⟩, hknows⟩

/-- The token of a node and its name. -/
theorem begin_runs {name : Name} {l : List UInt8} (hbody : body bytes i s = beginNode bytes i s)
    (hnames : Names bytes path s) (hknows : Knows s.globals a) (hdepth : path.length < 8)
    (hzero : 0 ∉ name) (hat : At bytes i (bytesBE fdtBeginNode ++ (padded (name ++ [0]) ++ l))) :
    ∃ j s', 4 * j = 4 * i + 4 + (padded (name ++ [0])).length ∧ Runs (body bytes) i s j s' ∧
      Open bytes (path ++ [name]) a s' := by
  have hindent := hnames.indent
  have hlt : s.indent < 8 := by
    rw [UInt32.lt_iff_toNat_lt, hindent]
    exact hdepth
  rw [beginNode, if_pos hlt] at hbody
  obtain ⟨j, hj, hruns⟩ := @name_runs bytes
    { s with
      state := .nodename
      levelNames := Function.update s.levelNames s.indent.toNat (fdtStructs bytes + 4 * (i + 1))
      indent := s.indent + 1 } rfl _ _ hat.next.split hzero
  refine ⟨j, _, by omega, (Runs.one hbody).trans hruns, rfl, ⟨?_, ?_⟩, hknows⟩
  · show (s.indent + 1).toNat = _
    rw [UInt32.toNat_add, hindent, List.length_append]
    exact Nat.mod_eq_of_lt (Nat.lt_trans (Nat.succ_lt_succ hdepth) (by decide))
  · intro k n hk
    rw [List.getElem?_append] at hk
    split at hk
    next hlow =>
      have hne : k ≠ s.indent.toNat := by omega
      have hstring := hnames.names k n hk
      unfold levelName at hstring ⊢
      simpa only [Function.update_of_ne hne] using hstring
    next hlow =>
      obtain ⟨hk0, rfl⟩ : k - path.length = 0 ∧ name = n := by
        cases hd : k - path.length with
        | zero => rw [hd] at hk; exact ⟨rfl, Option.some.inj hk⟩
        | succ d => rw [hd] at hk; cases hk
      have he : k = s.indent.toNat := by omega
      subst he
      unfold levelName
      simp only [Function.update_self]
      exact Holds.isString (At.split hat.next.split) hzero

/-- The end of a node. -/
theorem end_runs {name : Name} (h : Open bytes (path ++ [name]) a s)
    (hat : word bytes i = fdtEndNode) :
    ∃ s', Runs (body bytes) i s (i + 1) s' ∧ Open bytes path a s' := by
  have hbody : body bytes i s = .ok { s with indent := s.indent - 1 } := by
    simp only [body, h.state, hat]
    rfl
  refine ⟨_, .one hbody, h.state, ⟨?_, ?_⟩, h.knows⟩
  · have hindent := h.names.indent
    rw [List.length_append, List.length_singleton] at hindent
    show (s.indent - 1).toNat = _
    rw [UInt32.toNat_sub_of_le _ _ (by rw [UInt32.le_iff_toNat_le, hindent]; exact Nat.le_add_left 1 _),
      hindent]
    rfl
  · intro k n hk
    have hlt : k < path.length := (List.getElem?_eq_some_iff.mp hk).1
    exact h.names.names k n (by rw [List.getElem?_append_left hlt]; exact hk)

end Items

mutual

/-- An item of the open node. -/
theorem Item.runs {bytes : Bytes} {path : List Name} : ∀ {levels : Nat} {it : Item} {i : Nat}
    {s : Parser} {a : Facts}, it.WellFormed (fun k => bytes (nameBlock bytes + k)) levels →
    path.length + levels ≤ 8 → At bytes i it.flatten → Open bytes path a s →
    (it.facts path a).virtio.length ≤ maxVirtioMmio →
    ∃ j s', 4 * j = 4 * i + it.flatten.length ∧ Runs (body bytes) i s j s' ∧
      Open bytes path (it.facts path a) s'
  | _, .nop, i, s, a, _, _, hat, hopen, _ =>
      ⟨i + 1, s, rfl, .one (body_nop (.inr hopen.state) hat), hopen⟩
  | _, .prop p, i, s, a, .prop hname hlen hreg, _, hat, hopen, hroom =>
      prop_runs hopen hat hname hlen hreg hroom
  | _, .node name items, i, s, a, .node hzero _ hitems, hdepth, hat, hopen, hroom => by
      rw [Item.flatten] at hat ⊢
      have hbody : body bytes i s = beginNode bytes i s := by
        simp only [body, hopen.state, hat.token]
        rfl
      obtain ⟨j₁, s₁, hj₁, hruns₁, hopen₁⟩ :=
        begin_runs hbody hopen.names hopen.knows (by omega) hzero hat
      have hat₁ := At.rest hat.next (j := j₁) (by omega)
      obtain ⟨j₂, s₂, hj₂, hruns₂, hopen₂⟩ :=
        itemsRuns hitems (by simp; omega) hat₁.split hopen₁ hroom
      obtain ⟨s₃, hruns₃, hopen₃⟩ := end_runs hopen₂ (Holds.token (hat₁.rest hj₂))
      refine ⟨j₂ + 1, s₃, ?_, (hruns₁.trans hruns₂).trans hruns₃, hopen₃⟩
      simp only [List.length_append, bytesBE, List.length_cons, List.length_nil]
      omega

theorem itemsRuns {bytes : Bytes} {path : List Name} {levels : Nat} : ∀ {items : List Item} {i : Nat}
    {s : Parser} {a : Facts},
    (∀ it ∈ items, it.WellFormed (fun k => bytes (nameBlock bytes + k)) levels) →
    path.length + levels ≤ 8 → At bytes i (flattenAll items) → Open bytes path a s →
    (factsAll path items a).virtio.length ≤ maxVirtioMmio →
    ∃ j s', 4 * j = 4 * i + (flattenAll items).length ∧ Runs (body bytes) i s j s' ∧
      Open bytes path (factsAll path items a) s'
  | [], i, s, a, _, _, _, hopen, _ => ⟨i, s, rfl, .refl, hopen⟩
  | it :: items, i, s, a, hitems, hdepth, hat, hopen, hroom => by
      rw [flattenAll] at hat ⊢
      obtain ⟨j₁, s₁, hj₁, hruns₁, hopen₁⟩ := Item.runs (hitems it List.mem_cons_self) hdepth
        hat.split hopen (Nat.le_trans (virtioAll_le path items _) hroom)
      obtain ⟨j₂, s₂, hj₂, hruns₂, hopen₂⟩ :=
        itemsRuns (fun it hit => hitems it (List.mem_cons_of_mem _ hit)) hdepth (hat.rest hj₁)
          hopen₁ hroom
      exact ⟨j₂, s₂, by rw [hj₂, hj₁, List.length_append, Nat.add_assoc], hruns₁.trans hruns₂, hopen₂⟩

end

/-! ## The whole document -/

/-- A tree, with `before` and `after` NOP tokens around its root, in the memory from
the header on. -/
structure Flattened (bytes : Bytes) (before after : Nat) (root : Item) : Prop where
  structs : Holds bytes (fdtStructs bytes) (structBlock before after root)
  size : sizeDtStruct bytes = (structBlock before after root).length
  wellFormed : root.WellFormed (fun k => bytes (nameBlock bytes + k)) 8

section Document

variable {bytes : Bytes} {before after : Nat} {name : Name} {items : List Item}

/-- The token behind the root. -/
theorem body_end {i : Nat} {s : Parser} {a : Facts} (h : Open bytes [] a s)
    (hat : At bytes i (bytesBE fdtEnd)) : body bytes i s = .error (.ret 0 s.globals) := by
  have hword : word bytes i = fdtEnd := Holds.token hat
  have hindent : s.indent = 0 := h.names.indent_eq.mpr rfl
  simp only [body, h.state, hword, hindent]
  rfl

/-- The parser reads the root and stops behind it. -/
theorem parseDtb_facts (h : Flattened bytes before after (.node name items)) (a : Facts)
    (levelNames : Nat → Nat) (g : Globals) (hknows : Knows g a)
    (hroom : (factsAll [name] items a).virtio.length ≤ maxVirtioMmio) :
    ∃ g', parseDtb bytes levelNames g = some (0, g') ∧ Knows g' (factsAll [name] items a) := by
  have hat : At bytes 0 (structBlock before after (.node name items)) := by
    rw [At, Nat.mul_zero, Nat.add_zero]
    exact h.structs
  rw [structBlock] at hat
  have hnames : Names bytes [] ⟨g, .initial, 0, 0, levelNames⟩ := ⟨rfl, nofun⟩
  cases h.wellFormed with
  | node hzero _ hitems =>
      obtain ⟨j₀, hj₀, hruns₀⟩ :=
        nops_runs (s := ⟨g, .initial, 0, 0, levelNames⟩) (.inl rfl) hat.split
      have hroot := (hat.rest hj₀).split
      rw [Item.flatten] at hroot
      have hbody : body bytes j₀ ⟨g, .initial, 0, 0, levelNames⟩ =
          beginNode bytes j₀ ⟨g, .initial, 0, 0, levelNames⟩ := by
        simp only [body, hroot.token]
        rfl
      obtain ⟨j₁, s₁, hj₁, hruns₁, hopen₁⟩ :=
        begin_runs hbody hnames hknows (by decide) hzero hroot
      have hat₁ := At.rest hroot.next (j := j₁) (by omega)
      obtain ⟨j₂, s₂, hj₂, hruns₂, hopen₂⟩ :=
        itemsRuns hitems (by simp) hat₁.split hopen₁ hroom
      obtain ⟨s₃, hruns₃, hopen₃⟩ := end_runs hopen₂ (Holds.token (hat₁.rest hj₂))
      have hlen : (Item.node name items).flatten.length =
          8 + (padded (name ++ [0])).length + (flattenAll items).length := by
        rw [Item.flatten]
        simp only [List.length_append, bytesBE, List.length_cons, List.length_nil]
        omega
      have hat₃ := At.rest (hat.rest hj₀) (j := j₂ + 1) (by omega)
      obtain ⟨j₄, hj₄, hruns₄⟩ := nops_runs (.inr hopen₃.state) hat₃.split
      have hruns := (((hruns₀.trans hruns₁).trans hruns₂).trans hruns₃).trans hruns₄
      have hlast : j₄ < sizeDtStruct bytes / 4 := by
        have hsize := h.size
        simp only [structBlock, List.length_append, bytesBE, List.length_cons, List.length_nil] at hsize
        omega
      refine ⟨s₃.globals, ?_, hopen₃.knows⟩
      rw [parseDtb, hruns.loop_error (body_end hopen₃ (hat₃.rest hj₄)) hlast, result]

theorem virtioRegs_length : (virtioRegs items).length ≤ (virtioNodes items).length :=
  List.length_filterMap_le _ _

/-- `parse_dtb` returns 0 for every tree, and has the facts of the tree. -/
theorem parseDtb_correct (h : Flattened bytes before after (.node name items))
    (hvirtio : (virtioNodes items).length ≤ maxVirtioMmio) (levelNames : Nat → Nat) (g : Globals)
    (hg : g.virtioMmioHeaders = []) :
    ∃ g', parseDtb bytes levelNames g = some (0, g') ∧
      g'.maxPfn = ((memoryRegs items).getLast?.map lastPfn).getD g.maxPfn ∧
      (timebases items = [] → g'.clockFreq = g.clockFreq) ∧
      (∀ value, (timebases items).getLast? = some value → 4 ≤ value.length →
        g'.clockFreq = UInt32.ofNat (bigEndian (value.take 4))) ∧
      g'.virtioMmioHeaders = (virtioRegs items).map address := by
  have hitems : ∀ it ∈ items, it.WellFormed (fun k => bytes (nameBlock bytes + k)) 7 := by
    cases h.wellFormed with
    | node _ _ hitems => exact hitems
  have hfacts := facts_root hitems (r := name) ⟨g.maxPfn, some g.clockFreq, []⟩
  obtain ⟨g', hparse, hknows⟩ := parseDtb_facts h ⟨g.maxPfn, some g.clockFreq, []⟩ levelNames g
    ⟨rfl, fun c hc => Option.some.inj hc, hg⟩ (by
      rw [hfacts]
      simp only [List.nil_append, List.length_map]
      exact Nat.le_trans virtioRegs_length hvirtio)
  rw [hfacts] at hknows
  refine ⟨g', hparse, ?_, ?_, ?_, hknows.virtio⟩
  · rw [hknows.maxPfn, overwrite_eq]
  · intro hnone
    exact hknows.clockFreq g.clockFreq (by rw [hnone]; rfl)
  · intro value hvalue hlen
    refine hknows.clockFreq _ ?_
    show overwrite clockOf (some g.clockFreq) (timebases items) = _
    rw [overwrite_eq, hvalue]
    exact if_pos hlen

end Document

/-- A board with some memory, a clock and one device. -/
def boardItems : List Item :=
  [.node (ascii "memory@80000000")
      [.prop ⟨ascii "reg", 0, [0, 0, 0, 0, 128, 0, 0, 0, 0, 0, 0, 0, 8, 0, 0, 0]⟩],
    .nop,
    .node (ascii "cpus") [.prop ⟨ascii "timebase-frequency", 4, [0, 152, 150, 128]⟩],
    .node (ascii "soc")
      [.node (ascii "virtio_mmio@10001000")
        [.prop ⟨ascii "reg", 0, [0, 0, 0, 0, 16, 0, 16, 0, 0, 0, 0, 0, 0, 0, 16, 0]⟩]]]

/-- The header, the structure block and the block of strings. -/
def boardDtb : List UInt8 :=
  let structs := structBlock 1 1 (.node [] boardItems)
  let strings := ascii "reg" ++ [0] ++ ascii "timebase-frequency" ++ [0]
  List.replicate 8 0 ++ bytesBE 40 ++ bytesBE (UInt32.ofNat (40 + structs.length)) ++
    List.replicate 20 0 ++ bytesBE (UInt32.ofNat structs.length) ++ structs ++ strings

def boardBytes : Bytes := fun k => boardDtb.getD k 0

instance (bytes : Bytes) : ∀ (a : Nat) (l : List UInt8), Decidable (Holds bytes a l)
  | _, [] => .isTrue trivial
  | a, b :: l =>
      have := instDecidableHolds bytes (a + 1) l
      inferInstanceAs (Decidable (bytes a = b ∧ Holds bytes (a + 1) l))

instance : ∀ (s : Nat → UInt8) (l : List UInt8), Decidable (IsString s l)
  | s, [] => inferInstanceAs (Decidable (s 0 = 0))
  | s, c :: l =>
      have := instDecidableIsString (fun k => s (k + 1)) l
      inferInstanceAs (Decidable (s 0 = c ∧ c ≠ 0 ∧ IsString (fun k => s (k + 1)) l))

theorem board_flattened : Flattened boardBytes 1 1 (.node [] boardItems) where
  structs := by decide +kernel
  size := by decide +kernel
  wellFormed := by
    have hname : IsString (fun k => boardBytes (nameBlock boardBytes + ((0 : UInt32).toNat + k)))
        (ascii "reg") := by decide +kernel
    have hreg : ∀ {value : List UInt8} {levels : Nat}, value.length = 16 →
        Item.WellFormed (fun k => boardBytes (nameBlock boardBytes + k)) levels
          (.prop ⟨ascii "reg", 0, value⟩) :=
      fun hlen => .prop hname (by rw [hlen]; decide) fun _ => Nat.le_of_eq hlen.symm
    refine .node (by decide) (by decide) ?_
    simp only [boardItems, List.forall_mem_cons, List.not_mem_nil, false_implies, implies_true, and_true]
    refine ⟨.node (by decide) (by decide) ?_, .nop, .node (by decide) (by decide) ?_,
      .node (by decide) (by decide) ?_⟩
    · simp only [List.forall_mem_cons, List.not_mem_nil, false_implies, implies_true, and_true]
      exact hreg rfl
    · simp only [List.forall_mem_cons, List.not_mem_nil, false_implies, implies_true, and_true]
      exact .prop (by decide +kernel) (by decide) (fun h => absurd h (by decide))
    · simp only [List.forall_mem_cons, List.not_mem_nil, false_implies, implies_true, and_true]
      refine .node (by decide) (by decide) ?_
      simp only [List.forall_mem_cons, List.not_mem_nil, false_implies, implies_true, and_true]
      exact hreg rfl

theorem parseDtb_correct_board :
    ∃ g, parseDtb boardBytes (fun _ => 0) ⟨0, 0, 0, []⟩ = some (0, g) ∧ g.maxPfn = 0x88000 ∧
      g.clockFreq = 10000000 ∧ g.virtioMmioHeaders = [0x10001000] := by
  obtain ⟨g, hparse, hpfn, -, hclock, hvirtio⟩ :=
    parseDtb_correct board_flattened (by decide) (fun _ => 0) ⟨0, 0, 0, []⟩ rfl
  exact ⟨g, hparse, hpfn.trans (by decide), hclock [0, 152, 150, 128] (by decide) (by decide),
    hvirtio.trans (by decide)⟩

end Fdt
