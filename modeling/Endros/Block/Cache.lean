import Mathlib.Data.List.Perm.Subperm
import Endros.Lib.Chain
import Endros.Block.Device

/-!
# The list of buffers

`Listed` is the invariant of the linked list: it visits every slot below
`cache_size` once, no two buffers have the same label, and each buffer has the
page `dmalloc` gave it.  `Got` says what `get_block_buffer` does while the cache
has room: the buffer of the block is the head, and apart from the links nothing
has changed but for one new invalid buffer.
-/

namespace Block

open Lib Mem

/-- The links of the buffers. -/
def BufferedBlockDevice.next (d : BufferedBlockDevice) (i : Nat) : Option Nat :=
  (d.bufferList i).next

structure Listed (H : Host) (d : BufferedBlockDevice) (l : List Nat) : Prop where
  chain : Chain d.next d.bufferHead l
  nodup : l.Nodup
  mem_iff : ∀ i, i ∈ l ↔ i < d.cacheSize
  size_le : d.cacheSize ≤ cacheBlocks
  label_inj : ∀ i j, i < d.cacheSize → j < d.cacheSize →
    (d.bufferList i).blockId = (d.bufferList j).blockId → i = j
  vpn_eq : ∀ i, i < d.cacheSize → (d.bufferList i).vpn = H.vpn i

theorem Listed.length_le {H : Host} {d : BufferedBlockDevice} {l : List Nat} (h : Listed H d l) :
    l.length ≤ cacheBlocks := by
  have hsub : l ⊆ List.range d.cacheSize := fun i hi => List.mem_range.mpr ((h.mem_iff i).mp hi)
  have hle := (List.subperm_of_subset h.nodup hsub).length_le
  rw [List.length_range] at hle
  exact Nat.le_trans hle h.size_le

theorem listed_start (H : Host) (disk : Nat → UInt8) (mem : Nat → Nat → UInt8) :
    Listed H (start disk mem).dev [] where
  chain := rfl
  nodup := List.nodup_nil
  mem_iff := fun i => by simp [start]
  size_le := Nat.zero_le _
  label_inj := fun i j hi => absurd hi (Nat.not_lt_zero i)
  vpn_eq := fun i hi => absurd hi (Nat.not_lt_zero i)

/-! ## The search -/

/-- The search finds the buffer with the label, and the one before it in the
list, or the last two buffers of the list. -/
theorem find_spec {bufs : Nat → BlockBuffer} {b : Nat} : ∀ {l : List Nat} {fuel : Nat}
    (prev : Option Nat) {ptr : Option Nat}, Chain (fun i => (bufs i).next) ptr l → l.length < fuel →
    ((∀ i ∈ l, (bufs i).blockId ≠ b) ∧
      find bufs b fuel prev ptr = some (.miss (l.dropLast.getLast?.or prev) l.getLast?)) ∨
    ∃ l₁ i l₂, l = l₁ ++ i :: l₂ ∧ (bufs i).blockId = b ∧
      find bufs b fuel prev ptr = some (.hit (l₁.getLast?.or prev) i)
  | [], fuel + 1, prev, ptr, hc, _ => by
      obtain rfl : ptr = none := hc
      exact Or.inl ⟨by simp, rfl⟩
  | [i], fuel + 1, prev, ptr, hc, _ => by
      obtain ⟨rfl, hn⟩ : ptr = some i ∧ (bufs i).next = none := hc
      rw [find]
      by_cases hb : (bufs i).blockId = b
      · exact Or.inr ⟨[], i, [], rfl, hb, by rw [if_pos hb]; rfl⟩
      · rw [if_neg hb, hn]
        exact Or.inl ⟨by simpa using hb, rfl⟩
  | i :: j :: l, fuel + 1, prev, ptr, hc, hlen => by
      obtain ⟨rfl, hn, hc'⟩ : ptr = some i ∧ (bufs i).next = some j ∧ _ := hc
      rw [find]
      by_cases hb : (bufs i).blockId = b
      · exact Or.inr ⟨[], i, j :: l, rfl, hb, by rw [if_pos hb]; rfl⟩
      · rw [if_neg hb, hn]
        have hlen' : (j :: l).length < fuel := by
          simp only [List.length_cons] at hlen ⊢
          omega
        have hcons : ∀ l : List Nat, (i :: l).getLast?.or prev = l.getLast?.or (some i) := by
          intro l
          rw [List.getLast?_cons]
          cases l.getLast? <;> rfl
        have hchain : Chain (fun i => (bufs i).next) (some j) (j :: l) := ⟨rfl, hc'⟩
        rcases find_spec (some i) hchain hlen' with
          ⟨hne, hf⟩ | ⟨l₁, k, l₂, hl, hk, hf⟩
        · refine Or.inl ⟨by simpa [hb] using hne, ?_⟩
          rw [List.dropLast_cons_cons, hcons, List.getLast?_cons_cons]
          exact hf
        · refine Or.inr ⟨i :: l₁, k, l₂, by rw [hl]; rfl, hk, ?_⟩
          rw [hcons]
          exact hf

/-! ## `get_block_buffer` -/

/-- What `get_block_buffer` does to the buffers if nothing is evicted. -/
structure Got (H : Host) (s : State) (b : Nat) (s' : State) (i : Nat) : Prop where
  listed : ∃ l, Listed H s'.dev (i :: l)
  label : (s'.buf i).blockId = b
  mem : s'.mem = s.mem
  disk : s'.disk = s.disk
  reads : s'.reads = s.reads
  same : ∀ j, j < s.dev.cacheSize → s'.buf j = { s.buf j with next := (s'.buf j).next }
  size : (i < s.dev.cacheSize ∧ s'.dev.cacheSize = s.dev.cacheSize) ∨
    (i = s.dev.cacheSize ∧ s'.dev.cacheSize = s.dev.cacheSize + 1 ∧
      (s'.buf i).valid = false ∧ (s'.buf i).dirty = false ∧
      ∀ j, j < s.dev.cacheSize → (s.buf j).blockId ≠ b)

theorem Got.lt {H : Host} {s s' : State} {b i : Nat} (h : Got H s b s' i) :
    i < s'.dev.cacheSize := by
  rcases h.size with ⟨hi, he⟩ | ⟨hi, he, -⟩ <;> omega

/-- The invariant reads the links, the labels and the pages. -/
theorem Listed.congr {H : Host} {d d' : BufferedBlockDevice} {l l' : List Nat}
    (h : Listed H d l) (hsize : d'.cacheSize = d.cacheSize)
    (hlabel : ∀ j, (d'.bufferList j).blockId = (d.bufferList j).blockId)
    (hvpn : ∀ j, (d'.bufferList j).vpn = (d.bufferList j).vpn)
    (hperm : l'.Perm l) (hc : Chain d'.next d'.bufferHead l') : Listed H d' l' := by
  refine ⟨hc, hperm.nodup_iff.mpr h.nodup, ?_, ?_, ?_, ?_⟩
  · intro i
    rw [hperm.mem_iff, hsize]
    exact h.mem_iff i
  · rw [hsize]; exact h.size_le
  · intro i j hi hj he
    rw [hsize] at hi hj
    rw [hlabel i, hlabel j] at he
    exact h.label_inj i j hi hj he
  · intro i hi
    rw [hsize] at hi
    rw [hvpn i]
    exact h.vpn_eq i hi

/-- `touch` changes nothing but links. -/
theorem touch_same {H : Host} {s : State} {l₁ l₂ : List Nat} {i p : Nat}
    (h : Listed H s.dev (l₁ ++ p :: i :: l₂)) (j : Nat) :
    (touch s (some p) i).dev.bufferList j =
      { s.dev.bufferList j with next := ((touch s (some p) i).dev.bufferList j).next } := by
  have hpi : p ≠ i := by
    have := (List.nodup_append.mp h.nodup).2.1
    rintro rfl
    simp at this
  by_cases hj : j = i
  · subst hj
    simp [touch, State.modify, State.setHead, Ne.symm hpi]
  · by_cases hjp : j = p
    · subst hjp
      simp [touch, State.modify, State.setHead, hj]
    · simp [touch, State.modify, State.setHead, hj, hjp]

/-- A hit behind the head: unlinked and pushed to the front. -/
theorem touch_listed {H : Host} {s : State} {l₁ l₂ : List Nat} {i p : Nat}
    (h : Listed H s.dev (l₁ ++ p :: i :: l₂)) :
    Listed H (touch s (some p) i).dev (i :: (l₁ ++ p :: l₂)) := by
  have hnd := h.nodup
  have hperm : (l₁ ++ p :: i :: l₂).Perm (i :: (l₁ ++ p :: l₂)) := by
    have hmid : ((l₁ ++ [p]) ++ i :: l₂).Perm (i :: ((l₁ ++ [p]) ++ l₂)) := List.perm_middle
    simpa using hmid
  have hni : i ∉ l₁ ++ p :: l₂ := (List.nodup_cons.mp (hperm.nodup_iff.mp hnd)).1
  refine h.congr rfl (fun j => by rw [touch_same h]) (fun j => by rw [touch_same h]) ?_ ?_
  · exact hperm.symm
  · have hun := (h.chain.unlink hnd rfl).push hni
    refine hun.congr fun j _ => ?_
    by_cases hj : j = i
    · subst hj
      simp [touch, State.modify, State.setHead, BufferedBlockDevice.next]
    · by_cases hjp : j = p
      · subst hjp
        simp [touch, State.modify, State.setHead, hj, BufferedBlockDevice.next, State.buf]
      · simp [touch, State.modify, State.setHead, hj, hjp, BufferedBlockDevice.next]

theorem addBuffer_listed {H : Host} {s : State} {l : List Nat} {b : Nat} (h : Listed H s.dev l)
    (hlt : s.dev.cacheSize < cacheBlocks)
    (hb : ∀ j, j < s.dev.cacheSize → (s.buf j).blockId ≠ b) :
    Listed H (addBuffer H s b).dev (s.dev.cacheSize :: l) := by
  have hn : s.dev.cacheSize ∉ l := fun hm => Nat.lt_irrefl _ ((h.mem_iff _).mp hm)
  refine ⟨?_, List.nodup_cons.mpr ⟨hn, h.nodup⟩, ?_, ?_, ?_, ?_⟩
  · refine (h.chain.push hn).congr fun j _ => ?_
    by_cases hj : j = s.dev.cacheSize
    · subst hj
      simp [addBuffer, BufferedBlockDevice.next]
    · simp [addBuffer, BufferedBlockDevice.next, hj]
  · intro i
    rw [List.mem_cons, h.mem_iff]
    show _ ↔ i < s.dev.cacheSize + 1
    omega
  · exact hlt
  · intro i j hi hj he
    have hi' : i < s.dev.cacheSize + 1 := hi
    have hj' : j < s.dev.cacheSize + 1 := hj
    by_cases hic : i = s.dev.cacheSize
    · by_cases hjc : j = s.dev.cacheSize
      · rw [hic, hjc]
      · have := hb j (by omega)
        simp [addBuffer, hic, hjc] at he
        exact absurd he.symm this
    · by_cases hjc : j = s.dev.cacheSize
      · have := hb i (by omega)
        simp [addBuffer, hic, hjc] at he
        exact absurd he this
      · simp [addBuffer, hic, hjc] at he
        exact h.label_inj i j (by omega) (by omega) he
  · intro i hi
    have hi' : i < s.dev.cacheSize + 1 := hi
    by_cases hic : i = s.dev.cacheSize
    · subst hic
      simp [addBuffer]
    · simp only [addBuffer, Function.update_of_ne hic]
      exact h.vpn_eq i (by omega)

/-- `get_block_buffer` on a block that is cached, or with room left. -/
theorem getBlockBuffer_spec {H : Host} {s : State} {l : List Nat} {b : Nat}
    (h : Listed H s.dev l)
    (hroom : (∃ i, i < s.dev.cacheSize ∧ (s.buf i).blockId = b) ∨ s.dev.cacheSize < cacheBlocks) :
    ∃ s' i, getBlockBuffer H s b = some (s', i) ∧ Got H s b s' i := by
  have hlen : l.length < cacheBlocks + 1 := Nat.lt_succ_of_le h.length_le
  rw [getBlockBuffer]
  rcases find_spec (b := b) none h.chain hlen with ⟨hne, hf⟩ | ⟨l₁, i, l₂, hl, hb, hf⟩
  · have hnot : ∀ j, j < s.dev.cacheSize → (s.buf j).blockId ≠ b := fun j hj =>
      hne j ((h.mem_iff j).mpr hj)
    have hlt : s.dev.cacheSize < cacheBlocks := by
      rcases hroom with ⟨i, hi, hib⟩ | hlt
      · exact absurd hib (hnot i hi)
      · exact hlt
    rw [hf]
    refine ⟨_, _, if_pos hlt, ⟨l, addBuffer_listed h hlt hnot⟩, ?_, rfl, rfl, rfl, ?_,
      Or.inr ⟨rfl, rfl, ?_, ?_, hnot⟩⟩
    · simp [addBuffer, State.buf]
    · intro j hj
      have hne : j ≠ s.dev.cacheSize := Nat.ne_of_lt hj
      simp [addBuffer, State.buf, hne]
    · simp [addBuffer, State.buf]
    · simp [addBuffer, State.buf]
  · rw [hf]
    have hi : i < s.dev.cacheSize := (h.mem_iff i).mp (by rw [hl]; simp)
    rcases List.eq_nil_or_concat l₁ with rfl | ⟨l₀, p, rfl⟩
    · exact ⟨s, i, rfl, ⟨l₂, by simpa [hl] using h⟩, hb, rfl, rfl, rfl, fun j _ => rfl,
        Or.inl ⟨hi, rfl⟩⟩
    · have hlist : Listed H s.dev (l₀ ++ p :: i :: l₂) := by simpa [hl] using h
      have ht := touch_listed hlist
      refine ⟨touch s (some p) i, i, by simp, ⟨_, ht⟩, ?_, rfl, rfl, rfl, ?_, Or.inl ⟨hi, rfl⟩⟩
      · rw [State.buf, touch_same hlist]
        exact hb
      · intro j _
        exact touch_same hlist j

end Block
