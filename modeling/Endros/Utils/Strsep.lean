import Endros.Fs.Path
import Endros.Lib.Cut
import Endros.Lib.Patch

/-!
# `strsep`

The shell cuts its line with `strsep`.  A call looks for the delimiter, overwrites it with
zeros, and leaves the place behind it for the next call.  The scan tests the byte behind
the place where the delimiter would end, and it stops when this byte is the terminating
zero.  So a delimiter at the very end of the string is not found.  If what is left is
shorter than the delimiter, the tested byte is already behind the terminating zero.

Strings are read from a `Region`, that ends with the terminating zero.  A read behind it
makes the call `none`.  The calls cut the string as they should exactly if the last piece
is not shorter than the delimiter (`strsep_cuts`).
-/

namespace Utils

open Lib
open Fs (Chr)

/-- The bytes of a string.  The last of them is the terminating zero. -/
structure Region where
  byte : Nat → UInt8
  last : Nat

namespace Region

variable (r : Region)

def read (a : Nat) : Option UInt8 := if a ≤ r.last then some (r.byte a) else none

/-- A string that has been stored. -/
def ofText (text : List Chr) : Region := ⟨fun k => ((text[k]?).map Subtype.val).getD 0, text.length⟩

theorem byte_ofText (text : List Chr) (k : Nat) :
    (ofText text).byte k = ((text[k]?).map Subtype.val).getD 0 := rfl

end Region

/-! ## The functions -/

/-- The loop of `strlen`.  When it takes more steps than the region has bytes, it reads
behind them. -/
def strlenLoop (r : Region) : Nat → Nat → Option Nat
  | 0, _ => none
  | fuel + 1, ans => do
      let c ← r.read ans
      if c ≠ 0 then strlenLoop r fuel (ans + 1) else some ans

def strlen (r : Region) : Option Nat := strlenLoop r (r.last + 1) 0

/-- `strncmp` of what is at `s1` and at `s2`, where `size - i` is the first number. -/
def strncmp (r₁ r₂ : Region) : Nat → Nat → Nat → Option Int
  | 0, _, _ => some 0
  | n + 1, s1, s2 => do
      let c₁ ← r₁.read s1
      let c₂ ← r₂.read s2
      if c₁ ≠ 0 ∧ c₂ ≠ 0 then
        if c₁ ≠ c₂ then some ((c₁.toNat : Int) - c₂.toNat) else strncmp r₁ r₂ n (s1 + 1) (s2 + 1)
      else some ((c₁.toNat : Int) - c₂.toNat)

/-- The loop of `strsep`, with the place of the delimiter. -/
def strsepLoop (r delim : Region) (len : Nat) : Nat → Nat → Option (Option Nat)
  | 0, _ => none
  | fuel + 1, ptr => do
      let c ← r.read (ptr + len)
      if c ≠ 0 then
        let cmp ← strncmp r delim len ptr 0
        if cmp ≠ 0 then strsepLoop r delim len fuel (ptr + 1) else some (some ptr)
      else some none

/-- The number of bytes that are set to zero.  The counter is an `int`, which is compared as a
`u64`. -/
def zeroed (len : Nat) : Nat := min len (2 ^ 31)

/-- The delimiter is set to zero. -/
def Region.zero (r : Region) (ptr len : Nat) : Region := ⟨patch r.byte ptr (zeroed len) fun _ => 0, r.last⟩

theorem Region.byte_zero (r : Region) (ptr len k : Nat) :
    (r.zero ptr len).byte k = patch r.byte ptr (zeroed len) (fun _ => 0) k := rfl

/-- `strsep` returns the token, and leaves the new value of `*stringp`. -/
def strsep (r delim : Region) (stringp : Nat) : Option (Nat × Option Nat × Region) := do
  let len ← strlen delim
  match ← strsepLoop r delim len (r.last + 1) stringp with
  | some ptr => some (stringp, some (ptr + len), r.zero ptr len)
  | none => some (stringp, none, r)

/-- Calls of `strsep` until `*stringp` is null, with their tokens. -/
def tokens (delim : Region) : Nat → Option Nat → Region → Option (List Nat × Region)
  | _, none, r => some ([], r)
  | 0, some _, _ => none
  | fuel + 1, some p, r => do
      let (tok, p, r) ← strsep r delim p
      let (toks, r) ← tokens delim fuel p r
      some (tok :: toks, r)

/-! ## Strings in memory -/

section Text

variable {r r₁ r₂ delim : Region} {p q n : Nat} {c : Chr} {d t : List Chr}

/-- The string at `p`. -/
structure TextAt (r : Region) (p : Nat) (t : List Chr) : Prop where
  byte : ∀ k b, t[k]? = some b → r.byte (p + k) = b.val
  zero : r.byte (p + t.length) = 0

/-- The string at `p` goes to the end of the region. -/
structure Rest (r : Region) (p : Nat) (t : List Chr) : Prop extends TextAt r p t where
  last : p + t.length = r.last

theorem rest_ofText (t : List Chr) : Rest (.ofText t) 0 t where
  byte k b hb := by rw [Nat.zero_add, Region.byte_ofText, hb, Option.map_some, Option.getD_some]
  zero := by
    rw [Nat.zero_add, Region.byte_ofText, List.getElem?_eq_none (Nat.le_refl _), Option.map_none,
      Option.getD_none]
  last := Nat.zero_add _

theorem Rest.tail (h : Rest r p (c :: t)) : Rest r (p + 1) t where
  byte k b hb := by rw [Nat.add_assoc, Nat.add_comm 1 k]; exact h.byte (k + 1) b hb
  zero := by rw [Nat.add_assoc, Nat.add_comm 1 t.length]; exact h.zero
  last := by rw [Nat.add_assoc, Nat.add_comm 1 t.length]; exact h.last

theorem Rest.append {a : List Chr} (h : Rest r p (a ++ t)) : Rest r (p + a.length) t := by
  induction a generalizing p with
  | nil => exact h
  | cons c a ih =>
      have htail := ih h.tail
      rwa [Nat.add_right_comm] at htail

theorem Rest.read (h : Rest r p t) {k : Nat} {b : Chr} (hb : t[k]? = some b) :
    r.read (p + k) = some b.val := by
  obtain ⟨hk, -⟩ := List.getElem?_eq_some_iff.mp hb
  have hlast := h.last
  rw [Region.read, if_pos (by omega), h.byte k b hb]

theorem Rest.read_end (h : Rest r p t) : r.read (p + t.length) = some 0 := by
  rw [Region.read, if_pos (Nat.le_of_eq h.last), h.zero]

theorem Rest.read_behind (h : Rest r p t) (hn : t.length < n) : r.read (p + n) = none := by
  have hlast := h.last
  exact if_neg (by omega)

/-! ## What the functions compute -/

theorem strlenLoop_eq (h : Rest r p t) (hn : t.length < n) : strlenLoop r n p = some (p + t.length) := by
  induction t generalizing p n with
  | nil =>
      obtain ⟨n, rfl⟩ := Nat.exists_eq_add_one_of_ne_zero (Nat.ne_of_gt hn)
      rw [strlenLoop, show r.read p = some 0 from h.read_end]
      rfl
  | cons c t ih =>
      obtain ⟨n, rfl⟩ := Nat.exists_eq_add_one_of_ne_zero (Nat.ne_of_gt (Nat.zero_lt_of_lt hn))
      rw [strlenLoop, show r.read p = some c.val from h.read (k := 0) rfl]
      have hrest := ih h.tail (Nat.lt_of_succ_lt_succ hn)
      rw [Nat.add_assoc, Nat.add_comm 1] at hrest
      exact (if_pos c.property).trans hrest

theorem strlen_eq (h : Rest r 0 t) : strlen r = some t.length := by
  have hlast := h.last
  rw [strlen, strlenLoop_eq h (by omega), Nat.zero_add]

theorem toNat_sub_ne_zero {x y : UInt8} (h : x ≠ y) : (x.toNat : Int) - y.toNat ≠ 0 := by
  have hne : x.toNat ≠ y.toNat := fun heq => h (UInt8.toNat_inj.mp heq)
  omega

/-- `strncmp` with all of a string tells if it is a prefix. -/
theorem strncmp_eq (h : Rest r₁ p t) (hd : Rest r₂ q d) :
    ∃ c, strncmp r₁ r₂ d.length p q = some c ∧ (c = 0 ↔ d <+: t) := by
  induction d generalizing p q t with
  | nil => exact ⟨0, rfl, iff_of_true rfl (List.nil_prefix)⟩
  | cons b d ih =>
      have hread₂ : r₂.read q = some b.val := hd.read (k := 0) rfl
      rw [List.length_cons, strncmp, hread₂]
      cases t with
      | nil =>
          rw [show r₁.read p = some 0 from h.read_end]
          have hzero : ¬ ((0 : UInt8) ≠ 0 ∧ b.val ≠ 0) := fun hc => hc.1 rfl
          refine ⟨((0 : UInt8).toNat : Int) - b.val.toNat, ?_,
            iff_of_false (toNat_sub_ne_zero b.property.symm) fun hpre => ?_⟩
          · dsimp only [bind, Option.bind]
            exact if_neg hzero
          · exact List.cons_ne_nil _ _ (List.prefix_nil.mp hpre)
      | cons c t =>
          rw [show r₁.read p = some c.val from h.read (k := 0) rfl]
          by_cases hcb : c = b
          · subst hcb
            obtain ⟨x, hx, hiff⟩ := ih h.tail hd.tail
            refine ⟨x, ?_, hiff.trans ((List.prefix_cons_inj c).symm)⟩
            exact (if_pos ⟨c.property, c.property⟩).trans ((if_neg fun hne => hne rfl).trans hx)
          · have hne : c.val ≠ b.val := fun heq => hcb (Subtype.ext heq)
            refine ⟨_, (if_pos ⟨c.property, b.property⟩).trans (if_pos hne),
              iff_of_false (toNat_sub_ne_zero hne) fun hpre => ?_⟩
            exact hcb (List.cons_prefix_cons.mp hpre).1.symm

/-- What the loop of `strsep` finds: the first delimiter that has something behind it. -/
inductive Found (d t : List Chr) : Option Nat → Prop where
  | none : (∀ j, j + d.length < t.length → ¬ d <+: t.drop j) → Found d t none
  | some {j : Nat} : j + d.length < t.length → d <+: t.drop j → NotBefore d t j → Found d t (some j)

theorem strsepLoop_eq (h : Rest r p t) (hd : Rest delim 0 d) (hlen : d.length ≤ t.length)
    (hn : t.length < n + d.length) :
    ∃ o, Found d t o ∧ strsepLoop r delim d.length n p = some (o.map (p + ·)) := by
  induction n generalizing p t with
  | zero => omega
  | succ n ih =>
      rw [strsepLoop]
      rcases Nat.lt_or_eq_of_le hlen with hlt | heq
      · -- the scan goes on
        obtain ⟨c, hc⟩ : ∃ c, t[d.length]? = some c := ⟨_, List.getElem?_eq_getElem hlt⟩
        obtain ⟨x, hx, hiff⟩ := strncmp_eq h hd
        rw [h.read hc]
        by_cases hx0 : x = 0
        · refine ⟨some 0, .some (by omega) (hiff.mp hx0) fun i hi => absurd hi (Nat.not_lt_zero i), ?_⟩
          refine (if_pos c.property).trans ?_
          rw [hx]
          exact if_neg fun hne => hne hx0
        · cases t with
          | nil => exact absurd hlt (Nat.not_lt_zero _)
          | cons b t =>
              rw [List.length_cons] at hlt hn
              obtain ⟨o, ho, heq⟩ := ih h.tail (Nat.le_of_lt_succ hlt) (by omega)
              refine ⟨o.map (· + 1), ?_, ?_⟩
              · cases ho with
                | none hno =>
                    refine .none fun j hj => ?_
                    cases j with
                    | zero => exact fun hpre => hx0 (hiff.mpr hpre)
                    | succ j =>
                        rw [List.length_cons] at hj
                        exact hno j (by omega)
                | @some j hj hpre hbefore =>
                    have hj' : j + 1 + d.length < (b :: t).length := by
                      rw [List.length_cons]
                      omega
                    refine .some hj' hpre fun i hi => ?_
                    cases i with
                    | zero => exact fun hpre => hx0 (hiff.mpr hpre)
                    | succ i => exact hbefore i (Nat.lt_of_succ_lt_succ hi)
              · refine (if_pos c.property).trans ?_
                rw [hx]
                refine (if_pos hx0).trans ?_
                rw [heq, Option.map_map]
                refine congrArg (fun f => some (Option.map f o)) ?_
                funext j
                exact Nat.add_right_comm p 1 j
      · rw [heq, h.read_end]
        exact ⟨none, .none fun j hj => by omega, rfl⟩

/-- What is left is shorter than the delimiter. -/
theorem strsep_short (h : Rest r p t) (hd : Rest delim 0 d) (hlen : t.length < d.length) :
    strsep r delim p = none := by
  rw [strsep, strlen_eq hd]
  dsimp only [bind, Option.bind]
  rw [strsepLoop, h.read_behind hlen]
  rfl

theorem strsep_eq (h : Rest r p t) (hd : Rest delim 0 d) (hlen : d.length ≤ t.length) :
    (Found d t none ∧ strsep r delim p = some (p, none, r)) ∨
    ∃ j, Found d t (some j) ∧
      strsep r delim p = some (p, some (p + j + d.length), r.zero (p + j) d.length) := by
  have hlast := h.last
  obtain ⟨o, ho, heq⟩ := strsepLoop_eq (n := r.last + 1) h hd hlen (by omega)
  rw [strsep, strlen_eq hd]
  dsimp only [bind, Option.bind]
  rw [heq]
  cases o with
  | none => exact .inl ⟨ho, rfl⟩
  | some j => exact .inr ⟨j, ho, rfl⟩

end Text

/-! ## The pieces -/

section Pieces

variable {r r' delim : Region} {p fuel : Nat} {a d t : List Chr} {toks : List Nat} {ps : List (List Chr)}

/-- What is found if there is something behind the first delimiter. -/
theorem Found.eq_length {o : Option Nat} (h : Found d (a ++ (d ++ t)) o)
    (hbefore : NotBefore d (a ++ (d ++ t)) a.length) (ht : t ≠ []) : o = Option.some a.length := by
  have hpos := List.length_pos_of_ne_nil ht
  have hlen : a.length + d.length < (a ++ (d ++ t)).length := by
    rw [List.length_append, List.length_append]
    omega
  cases h with
  | none hno => exact absurd (prefix_drop_append a d t) (hno _ hlen)
  | @some j hj hpre hbefore' =>
      rcases Nat.lt_trichotomy j a.length with hlt | heq | hgt
      · exact absurd hpre (hbefore j hlt)
      · rw [heq]
      · exact absurd (prefix_drop_append a d t) (hbefore' _ hgt)

/-- Nothing is found if the first delimiter is at the end. -/
theorem Found.eq_none {o : Option Nat} (h : Found d (a ++ (d ++ [])) o)
    (hbefore : NotBefore d (a ++ (d ++ [])) a.length) : o = Option.none := by
  cases h with
  | none _ => rfl
  | some hj hpre _ =>
      rw [List.append_nil, List.length_append] at hj
      exact absurd hpre (hbefore _ (Nat.lt_of_add_lt_add_right hj))

/-- A call that finds the first delimiter. -/
theorem strsep_next (h : Rest r p (a ++ (d ++ t))) (hd : Rest delim 0 d)
    (hbefore : NotBefore d (a ++ (d ++ t)) a.length) (ht : t ≠ []) :
    strsep r delim p = some (p, some (p + a.length + d.length), r.zero (p + a.length) d.length) := by
  have hlen : d.length ≤ (a ++ (d ++ t)).length := by
    rw [List.length_append, List.length_append]
    omega
  rcases strsep_eq h hd hlen with ⟨hfound, -⟩ | ⟨j, hfound, hsep⟩
  · cases hfound.eq_length hbefore ht
  · cases hfound.eq_length hbefore ht
    exact hsep

/-- A delimiter at the end is not found. -/
theorem strsep_end (h : Rest r p (a ++ (d ++ []))) (hd : Rest delim 0 d)
    (hbefore : NotBefore d (a ++ (d ++ [])) a.length) : strsep r delim p = some (p, none, r) := by
  have hlen : d.length ≤ (a ++ (d ++ [])).length := by
    rw [List.length_append, List.length_append]
    omega
  rcases strsep_eq h hd hlen with ⟨-, hsep⟩ | ⟨j, hfound, -⟩
  · exact hsep
  · cases hfound.eq_none hbefore

/-- The last call. -/
theorem strsep_last (h : Rest r p t) (hd : Rest delim 0 d) (hno : ¬ d <:+: t) (hlen : d.length ≤ t.length) :
    strsep r delim p = some (p, none, r) := by
  rcases strsep_eq h hd hlen with ⟨-, hsep⟩ | ⟨j, hfound, -⟩
  · exact hsep
  · cases hfound with
    | some hj hpre _ => exact absurd (infix_iff_drop.mpr ⟨j, by omega, hpre⟩) hno

/-- The rest of the string is not changed by a call. -/
theorem Rest.cut (h : Rest r p (a ++ (d ++ t))) :
    Rest (r.zero (p + a.length) d.length) (p + a.length + d.length) t := by
  have hrest := h.append.append
  have hsame : ∀ k, (r.zero (p + a.length) d.length).byte (p + a.length + d.length + k) =
      r.byte (p + a.length + d.length + k) := fun k => by
    rw [Region.byte_zero]
    refine patch_of_ge ?_
    have hle : zeroed d.length ≤ d.length := Nat.min_le_left _ _
    omega
  exact ⟨⟨fun k b hb => (hsame k).trans (hrest.byte k b hb), (hsame _).trans hrest.zero⟩, hrest.last⟩

theorem tokens_succ {tok : Nat} {next : Option Nat} (h : strsep r delim p = some (tok, next, r')) :
    tokens delim (fuel + 1) (some p) r =
      (tokens delim fuel next r').bind fun x => some (tok :: x.1, x.2) := by
  rw [tokens, h]
  rfl

/-- The calls give the pieces: they come to an end, and their tokens are the pieces in the memory
that is left. -/
def Yields (delim r : Region) (p : Nat) (ps : List (List Chr)) : Prop :=
  ∃ fuel toks r', tokens delim fuel (some p) r = some (toks, r') ∧ List.Forall₂ (TextAt r') toks ps

/-- If the last piece is long enough, the calls give all pieces. -/
theorem tokens_of_cut {q : List Chr} (hd : Rest delim 0 d) (hne : d ≠ []) (h : Cut d t ps) (hr : Rest r p t)
    (hq : ps.getLast? = some q) (hlen : d.length ≤ q.length) :
    ∃ fuel toks r', tokens delim fuel (some p) r = some (toks, r') ∧ List.Forall₂ (TextAt r') toks ps ∧
      ∀ k, k < p → r'.byte k = r.byte k := by
  have hpos := List.length_pos_of_ne_nil hne
  induction h generalizing r p with
  | last hno =>
      cases hq
      refine ⟨1, [p], r, ?_, .cons hr.toTextAt .nil, fun _ _ => rfl⟩
      rw [tokens_succ (strsep_last hr hd hno hlen)]
      rfl
  | @next a t ps hbefore ht ih =>
      rw [ht.getLast?_cons] at hq
      have hnil : t ≠ [] := List.ne_nil_of_length_pos (by
        have := (ht.suffix hq).length_le
        omega)
      have hzero : 0 < zeroed d.length := Nat.lt_min.mpr ⟨hpos, by decide⟩
      obtain ⟨fuel, toks, r', htoks, hall, hframe⟩ := ih hr.cut hq
      refine ⟨fuel + 1, p :: toks, r', ?_, .cons ⟨fun k b hb => ?_, ?_⟩ hall, fun k hk => ?_⟩
      · rw [tokens_succ (strsep_next hr hd hbefore hnil), htoks]
        rfl
      · obtain ⟨hk, -⟩ := List.getElem?_eq_some_iff.mp hb
        rw [hframe _ (by omega), Region.byte_zero, patch_of_lt (by omega)]
        exact hr.byte k b (by rw [List.getElem?_append_left hk, hb])
      · rw [hframe _ (by omega), Region.byte_zero, patch_of_mem (Nat.le_refl _) (by omega)]
      · rw [hframe _ (by omega), Region.byte_zero, patch_of_lt (by omega)]

/-- If the last piece is too short, a call reads behind the string, or the last delimiter is not
found. -/
theorem not_yields_of_cut {q : List Chr} (hd : Rest delim 0 d) (h : Cut d t ps) (hr : Rest r p t)
    (hq : ps.getLast? = some q) (hlen : q.length < d.length) : ¬ Yields delim r p ps := by
  rintro ⟨fuel, toks, r', htoks, hall⟩
  induction h generalizing r p fuel toks with
  | last hno =>
      cases hq
      cases fuel with
      | zero => cases htoks
      | succ fuel =>
          rw [tokens, strsep_short hr hd hlen] at htoks
          cases htoks
  | @next a t ps hbefore ht ih =>
      rw [ht.getLast?_cons] at hq
      cases fuel with
      | zero => cases htoks
      | succ fuel =>
          by_cases hnil : t = []
          · subst hnil
            rw [tokens_succ (strsep_end hr hd hbefore), tokens] at htoks
            cases htoks
            cases hall with
            | cons _ hps => exact ht.ne_nil (List.forall₂_nil_left_iff.mp hps)
          · rw [tokens_succ (strsep_next hr hd hbefore hnil)] at htoks
            obtain ⟨⟨toks, r₁⟩, htoks', heq⟩ := Option.bind_eq_some_iff.mp htoks
            cases heq
            cases hall with
            | cons _ hps => exact ih hr.cut hq fuel toks htoks' hps

/-- There is one way to cut a string at the leftmost delimiters.  The calls of `strsep` give its
pieces exactly if the last piece is not shorter than the delimiter. -/
theorem strsep_cuts (s d : List Chr) (hd : d ≠ []) :
    ∃ pieces last, (∀ ps, Cut d s ps ↔ ps = pieces) ∧ pieces.getLast? = some last ∧
      d.intercalate pieces = s ∧ (∀ p ∈ pieces, ¬ d <:+: p) ∧
      (Yields (.ofText d) (.ofText s) 0 pieces ↔ d.length ≤ last.length) := by
  obtain ⟨ps, hcut⟩ := exists_cut hd s
  obtain ⟨q, hq⟩ : ∃ q, ps.getLast? = some q := ⟨_, List.getLast?_eq_some_getLast hcut.ne_nil⟩
  refine ⟨ps, q, fun qs => ⟨fun h => h.unique hcut, fun h => h ▸ hcut⟩, hq, hcut.join,
    hcut.not_infix hd, ?_⟩
  constructor
  · intro hyields
    by_contra hlt
    exact not_yields_of_cut (rest_ofText d) hcut (rest_ofText s) hq (Nat.lt_of_not_le hlt) hyields
  · intro hlen
    obtain ⟨fuel, toks, r', htoks, hall, -⟩ :=
      tokens_of_cut (rest_ofText d) hd hcut (rest_ofText s) hq hlen
    exact ⟨fuel, toks, r', htoks, hall⟩

theorem strsep_cuts_words :
    Yields (.ofText (Fs.literal " ")) (.ofText (Fs.literal "ls a")) 0 [Fs.literal "ls", Fs.literal "a"] := by
  obtain ⟨pieces, last, hcut, hlast, -, -, hiff⟩ :=
    strsep_cuts (Fs.literal "ls a") (Fs.literal " ") (by decide)
  have hwords : Cut (Fs.literal " ") (Fs.literal "ls a") [Fs.literal "ls", Fs.literal "a"] :=
    .next (a := Fs.literal "ls") (t := Fs.literal "a")
      (show ∀ i, i < 2 → ¬ Fs.literal " " <+: (Fs.literal "ls a").drop i by decide) (.last (by decide))
  cases (hcut _).mp hwords
  cases hlast
  exact hiff.mpr (by decide)

/-- A blank at the end of the line is not cut off. -/
theorem strsep_blank_end : Cut (Fs.literal " ") (Fs.literal "a ") [Fs.literal "a", []] ∧
    ¬ Yields (.ofText (Fs.literal " ")) (.ofText (Fs.literal "a ")) 0 [Fs.literal "a", []] := by
  have hcut : Cut (Fs.literal " ") (Fs.literal "a ") [Fs.literal "a", []] :=
    .next (a := Fs.literal "a") (t := [])
      (show ∀ i, i < 1 → ¬ Fs.literal " " <+: (Fs.literal "a ").drop i by decide) (.last (by decide))
  exact ⟨hcut, not_yields_of_cut (rest_ofText _) hcut (rest_ofText _) rfl (by decide)⟩

end Pieces

end Utils
