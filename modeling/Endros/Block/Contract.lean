import Endros.Lib.Run
import Endros.Block.Faults

/-!
# The contract of `get_block_buffer`

`Placed` is what a caller expects of the list.  The buffer of the block is its
head, and all other blocks stay where they are, except for the one at the end of
a full list, which is written back if it is dirty.  `Contract` adds that a valid
buffer holds the current content of its block, which is what the calls so far
have written (`flatAfter`).

The list is well formed in every state that calls lead to, with any failures of
the device (`run_listed`).  On a hit, and while there is room, the list is as
expected.  On a miss in a full cache the last buffer is returned with its old
label and its old flags.  The content is lost along the way as well: by an
eviction, by a whole block written with `write_bytes` to a buffer that is not
valid, and by a read that fails, which `read_buffered_block` does not look at.
`Call.Served` excludes these.
-/

namespace Block

open Lib Mem

/-! ## The end of a full list -/

/-- Write a buffer back if it is valid and dirty. -/
def writeBack (s : State) (i : Nat) : State :=
  if (s.buf i).valid ∧ (s.buf i).dirty then writeBlock s i else s

section Evict

variable {H : Host} {s : State} {l : List Nat} {b i p : Nat}

@[simp] theorem writeBack_dev (s : State) (i : Nat) : (writeBack s i).dev = s.dev := by
  rw [writeBack]
  split <;> rfl

@[simp] theorem writeBack_mem (s : State) (i : Nat) : (writeBack s i).mem = s.mem := by
  rw [writeBack]
  split <;> rfl

/-- The last buffer is linked as on a hit. -/
theorem evict_eq_touch (hne : p ≠ i) (hlast : (s.buf i).next = none) :
    evict s p i = touch (writeBack s i) (some p) i := by
  have hbuf : (writeBack s i).buf i = s.buf i := congrArg (·.bufferList i) (writeBack_dev s i)
  have hnext : ((writeBack s i).buf i).next = none := by rw [hbuf, hlast]
  rw [evict, ← writeBack, touch, hnext]
  generalize writeBack s i = t
  simp only [State.modify, State.setHead, State.mk.injEq, BufferedBlockDevice.mk.injEq, true_and,
    and_true]
  rw [Function.update_of_ne hne, Function.update_of_ne hne.symm, Function.update_comm hne]

theorem Listed.length_eq (h : Listed H s.dev l) : l.length = s.dev.cacheSize := by
  have hperm : l.Perm (List.range s.dev.cacheSize) := by
    refine (List.perm_ext_iff_of_nodup h.nodup List.nodup_range).mpr fun i => ?_
    rw [h.mem_iff, List.mem_range]
  rw [hperm.length_eq, List.length_range]

/-- The last two buffers of a full list. -/
theorem Listed.last_two (h : Listed H s.dev l) (hfull : cacheBlocks ≤ s.dev.cacheSize) :
    ∃ l₀ p i, l = l₀ ++ [p, i] := by
  have hlen : 64 ≤ l.length := by
    rw [h.length_eq]
    exact hfull
  rcases List.eq_nil_or_concat l with rfl | ⟨l₁, i, rfl⟩
  · simp at hlen
  rcases List.eq_nil_or_concat l₁ with rfl | ⟨l₀, p, rfl⟩
  · simp at hlen
  · exact ⟨l₀, p, i, by simp⟩

theorem Listed.last_ne {l₀ : List Nat} (h : Listed H s.dev (l₀ ++ [p, i])) : p ≠ i := by
  have hnd := (List.nodup_append.mp h.nodup).2.1
  rintro rfl
  simp at hnd

/-- The last buffer has no successor. -/
theorem Listed.last_next {l₀ : List Nat} (h : Listed H s.dev (l₀ ++ [p, i])) :
    (s.buf i).next = none := by
  have hc : Chain s.dev.next s.dev.bufferHead ((l₀ ++ [p]) ++ i :: []) := by simpa using h.chain
  exact hc.of_append

/-- What `get_block_buffer` does on a miss in a full cache. -/
theorem getBlockBuffer_full (h : Listed H s.dev l) (hfull : cacheBlocks ≤ s.dev.cacheSize)
    (hmiss : ∀ j, j < s.dev.cacheSize → (s.buf j).blockId ≠ b) :
    ∃ l₀ p i, l = l₀ ++ [p, i] ∧
      getBlockBuffer H s b = some (touch (writeBack s i) (some p) i, i) := by
  obtain ⟨l₀, p, i, rfl⟩ := h.last_two hfull
  refine ⟨l₀, p, i, rfl, ?_⟩
  have hlen : (l₀ ++ [p, i]).length < cacheBlocks + 1 := Nat.lt_succ_of_le h.length_le
  rw [getBlockBuffer]
  rcases find_spec (b := b) none h.chain hlen with ⟨-, hf⟩ | ⟨l₁, j, l₂, hl, hb, -⟩
  · have hlast : (l₀ ++ [p, i]).getLast? = some i := by simp
    have hprev : (l₀ ++ [p, i]).dropLast.getLast? = some p := by simp
    rw [hf, hlast, hprev]
    show (if s.dev.cacheSize < cacheBlocks then _ else some (evict s p i, i)) = _
    rw [if_neg (Nat.not_lt_of_le hfull), evict_eq_touch h.last_ne h.last_next]
  · exact absurd hb (hmiss j ((h.mem_iff j).mp (by rw [hl]; simp)))

/-- The victim becomes the head, and nothing but links has changed. -/
theorem evicted_listed {l₀ : List Nat} (h : Listed H s.dev (l₀ ++ [p, i])) :
    Listed H (touch (writeBack s i) (some p) i).dev (i :: (l₀ ++ [p])) ∧
      ∀ j, (touch (writeBack s i) (some p) i).buf j =
        { s.buf j with next := ((touch (writeBack s i) (some p) i).buf j).next } := by
  have h' : Listed H (writeBack s i).dev (l₀ ++ p :: i :: []) := by
    rw [writeBack_dev]
    exact h
  refine ⟨touch_listed h', fun j => ?_⟩
  have hsame := touch_same h' j
  rwa [writeBack_dev] at hsame

/-- `get_block_buffer` returns the head of a list that is well formed again. -/
theorem getBlockBuffer_listed (h : Listed H s.dev l) (b : Nat) :
    ∃ s' i l', getBlockBuffer H s b = some (s', i) ∧ Listed H s'.dev (i :: l') := by
  by_cases hroom : (∃ i, i < s.dev.cacheSize ∧ (s.buf i).blockId = b) ∨ s.dev.cacheSize < cacheBlocks
  · obtain ⟨s', i, hget, hgot⟩ := getBlockBuffer_spec h hroom
    obtain ⟨l', hl'⟩ := hgot.listed
    exact ⟨s', i, l', hget, hl'⟩
  · obtain ⟨hmiss, hfull⟩ := not_or.mp hroom
    obtain ⟨l₀, p, i, rfl, hget⟩ := getBlockBuffer_full (b := b) h (Nat.le_of_not_lt hfull)
      fun j hj he => hmiss ⟨j, hj, he⟩
    exact ⟨_, i, _, hget, (evicted_listed h).1⟩

end Evict

/-! ## States that calls lead to -/

/-- `read_buffered_block`, with the block it copies. -/
def readBufferedBlock (H : Host) (s : State) (blockId : Nat) : Option (State × (Nat → UInt8)) :=
  (getBlockBuffer H s blockId).map fun (s, i) =>
    let s :=
      if (s.buf i).valid = false then
        (readBlock H s i blockId).1.modify i fun b => { b with valid := true }
      else s
    (s, s.page i)

def writeBufferedBlock (H : Host) (s : State) (blockId : Nat) (buf : Nat → UInt8) : Option State :=
  (getBlockBuffer H s blockId).map fun (s, i) =>
    let s := s.modify i fun b => { b with valid := true, dirty := true }
    s.setPage i (patch (s.page i) 0 pageSize buf)

/-- The calls on a `BufferedBlockDevice`. -/
inductive Call where
  | get (blockId : Nat)
  | readBytes (off size : Nat) (buffer : Nat → UInt8)
  | writeBytes (off size : Nat) (buffer : Nat → UInt8)
  | readBuffered (blockId : Nat)
  | writeBuffered (blockId : Nat) (buf : Nat → UInt8)
  | sync

def Call.run (H : Host) (s : State) : Call → Option State
  | .get blockId => (getBlockBuffer H s blockId).map (·.1)
  | .readBytes off size buffer => (Block.readBytes H s off buffer size).map (·.1)
  | .writeBytes off size buffer => Block.writeBytes H s off buffer size
  | .readBuffered blockId => (readBufferedBlock H s blockId).map (·.1)
  | .writeBuffered blockId buf => writeBufferedBlock H s blockId buf
  | .sync => syncFilesystem s

/-- The list of buffers is well formed. -/
def WellListed (H : Host) (s : State) : Prop := ∃ l, Listed H s.dev l

namespace WellListed

variable {H : Host} {s s' : State}

theorem congr (h : WellListed H s) (hdev : s'.dev = s.dev) : WellListed H s' := by
  rw [WellListed, hdev]
  exact h

/-- Only flags of a buffer change. -/
theorem modify (h : WellListed H s) {i : Nat} {f : BlockBuffer → BlockBuffer}
    (hf : ∀ b, (f b).blockId = b.blockId ∧ (f b).vpn = b.vpn ∧ (f b).next = b.next) :
    WellListed H (s.modify i f) := by
  obtain ⟨l, hl⟩ := h
  exact ⟨l, hl.modify hf⟩

theorem readBlock (h : WellListed H s) (i b : Nat) : WellListed H (Block.readBlock H s i b).1 := by
  rw [Block.readBlock]
  split <;> exact h.congr rfl

theorem load (h : WellListed H s) (i b : Nat) : WellListed H (Block.load H s i b) := by
  rw [Block.load]
  split
  · exact (h.readBlock i b).modify fun _ => ⟨rfl, rfl, rfl⟩
  · exact h.readBlock i b

theorem transfer (h : WellListed H s) (i b : Nat) (buffer : Nat → UInt8) (pos po tp : Nat)
    (write : Bool) : WellListed H (Block.transfer H s i b buffer pos po tp write).1 := by
  rw [Block.transfer]
  split
  · refine WellListed.congr (WellListed.modify (f := fun b => { b with dirty := true }) ?_
      fun _ => ⟨rfl, rfl, rfl⟩) rfl
    split
    · exact h.load i b
    · exact h
  · dsimp only
    split
    · exact h.load i b
    · exact h

theorem get (h : WellListed H s) {b i : Nat} (hs : getBlockBuffer H s b = some (s', i)) :
    WellListed H s' := by
  obtain ⟨l, hl⟩ := h
  obtain ⟨s₁, i₁, l', hget, hl'⟩ := getBlockBuffer_listed hl b
  rw [hget] at hs
  cases hs
  exact ⟨_, hl'⟩

theorem translate (write : Bool) {n : Nat} {b : Nat} {buffer out : Nat → UInt8} {pos po pageMax : Nat}
    (h : WellListed H s) (hs : Block.translate H write n s b buffer pos po pageMax = some (s', out)) :
    WellListed H s' := by
  induction n generalizing s b buffer pos po pageMax with
  | zero =>
      cases hs
      exact h
  | succ n ih =>
      rw [Block.translate] at hs
      generalize (if pageMax > pageSize then pageSize else pageMax) = tempPage at hs
      generalize (if pageMax > pageSize then pageMax - pageSize else pageMax) = rest at hs
      dsimp only at hs
      split at hs
      · cases hs
      · rename_i s₁ i hget
        split at hs
        · cases hs
        · exact ih ((h.get hget).transfer ..) hs

theorem flush {fuel : Nat} {ptr : Option Nat} (h : WellListed H s)
    (hs : Block.flush fuel s ptr = some s') : WellListed H s' := by
  induction fuel generalizing s ptr with
  | zero =>
      cases ptr with
      | none =>
          rw [Block.flush] at hs
          cases hs
          exact h
      | some i => cases hs
  | succ fuel ih =>
      cases ptr with
      | none =>
          rw [Block.flush] at hs
          cases hs
          exact h
      | some i =>
          rw [Block.flush] at hs
          refine ih ?_ hs
          split <;> exact h.congr rfl

/-- Every call keeps the list well formed. -/
theorem run (h : WellListed H s) {c : Call} (hs : c.run H s = some s') : WellListed H s' := by
  cases c with
  | get b =>
      obtain ⟨⟨s₁, i⟩, hget, rfl⟩ := Option.map_eq_some_iff.mp hs
      exact h.get hget
  | readBytes off size buffer =>
      obtain ⟨⟨s₁, out⟩, htr, rfl⟩ := Option.map_eq_some_iff.mp hs
      exact h.translate false htr
  | writeBytes off size buffer =>
      obtain ⟨⟨s₁, out⟩, htr, rfl⟩ := Option.map_eq_some_iff.mp hs
      exact h.translate true htr
  | readBuffered b =>
      obtain ⟨r, hr, rfl⟩ := Option.map_eq_some_iff.mp hs
      obtain ⟨⟨s₁, i⟩, hget, rfl⟩ := Option.map_eq_some_iff.mp hr
      dsimp only
      split
      · exact ((h.get hget).readBlock i b).modify fun _ => ⟨rfl, rfl, rfl⟩
      · exact h.get hget
  | writeBuffered b buf =>
      obtain ⟨⟨s₁, i⟩, hget, rfl⟩ := Option.map_eq_some_iff.mp hs
      exact WellListed.congr ((h.get hget).modify (i := i)
        (f := fun b => { b with valid := true, dirty := true }) fun _ => ⟨rfl, rfl, rfl⟩) rfl
  | sync => exact h.flush hs

end WellListed

/-- After any calls, whatever the device has failed to read. -/
theorem run_listed {H : Host} {disk : Nat → UInt8} {mem : Nat → Nat → UInt8}
    {r : List (Call × State)}
    (hr : IsRun (fun s (c : Call) s' => c.run H s = some s') (start disk mem) r) :
    WellListed H (finalState (start disk mem) r) :=
  (hr.invariant (I := WellListed H) (fun _ _ _ h hs => h.run hs)
    ⟨[], listed_start H disk mem⟩).final

/-- The block is cached, or there is a slot for it. -/
def Room (s : State) (b : Nat) : Prop :=
  (∃ i, i < s.dev.cacheSize ∧ (s.buf i).blockId = b) ∨ s.dev.cacheSize < cacheBlocks

/-! ## What the calls have written -/

namespace Call

/-- The flat disk after a call. -/
def flat (f : Nat → UInt8) : Call → Nat → UInt8
  | writeBytes off size buffer => patch f off size buffer
  | writeBuffered blockId buf => patch f (blockId * pageSize) pageSize buf
  | _ => f

/-- The call needs no eviction, what it writes is kept, and a failing read does
not go unnoticed. -/
def Served (H : Host) (s : State) : Call → Prop
  | get blockId => Room s blockId
  | readBytes off size buffer => Fits s (.read off size buffer)
  | writeBytes off size buffer => Fits s (.write off size buffer) ∧
      ∀ j, j < size → (Op.write off size buffer).Kept H s (addr2Page (off + j))
  | readBuffered blockId => Room s blockId ∧ (Cached s blockId ∨ H.fault s.reads = none)
  | writeBuffered blockId _ => Room s blockId
  | sync => True

end Call

/-- The flat disk after the calls of a run. -/
def flatAfter (f : Nat → UInt8) : List (Call × State) → Nat → UInt8
  | [] => f
  | (c, _) :: r => flatAfter (c.flat f) r

section Served

variable {H : Host} {s s' : State} {f : Nat → UInt8} {b i : Nat}

/-- A get on a block with room. -/
theorem Holds.got (h : Holds H s f) (hroom : Room s b) (hs : getBlockBuffer H s b = some (s', i)) :
    Got H s b s' i := by
  obtain ⟨l, hl⟩ := h.listed
  obtain ⟨s₁, i₁, hget, hg⟩ := getBlockBuffer_spec hl hroom
  rw [hget] at hs
  cases hs
  exact hg

theorem Holds.writeBytes (h : Holds H s f) {off size : Nat} {buffer : Nat → UInt8}
    (hc : (Call.writeBytes off size buffer).Served H s)
    (hs : Block.writeBytes H s off buffer size = some s') : Holds H s' (patch f off size buffer) := by
  obtain ⟨s₁, hrun, hu⟩ := writeBytes_faulty h hc.1
  rw [hrun] at hs
  cases hs
  have hall : stored H s off size buffer f (off + size) = patch f off size buffer := by
    funext a
    rw [stored, patch]
    refine if_congr ⟨fun ha => ⟨ha.1, ha.2.1⟩, fun ha => ⟨ha.1, ha.2, ?_⟩⟩ rfl rfl
    have hk := hc.2 (a - off) (by omega)
    rwa [Nat.add_sub_cancel' ha.1] at hk
  rw [← hall]
  exact hu.holds

theorem Holds.readBuffered (h : Holds H s f) (hc : (Call.readBuffered b).Served H s)
    (hs : (Call.readBuffered b).run H s = some s') : Holds H s' f := by
  obtain ⟨r, hr, rfl⟩ := Option.map_eq_some_iff.mp hs
  obtain ⟨⟨s₁, i⟩, hget, rfl⟩ := Option.map_eq_some_iff.mp hr
  have hg := h.got hc.1 hget
  dsimp only
  split
  · rename_i hv
    have hnot : ¬ Cached s b := by
      rw [← hg.valid_iff, hv]
      simp
    have hok : H.fault s₁.reads = none := by
      rw [hg.reads]
      exact hc.2.resolve_left hnot
    have hload : load H s₁ i b =
        (Block.readBlock H s₁ i b).1.modify i fun b => { b with valid := true } := by
      rw [load, Block.readBlock, hok]
      rfl
    rw [← hload, load_eq_edit hv, hok, hg.reads]
    have hm : Moved H s b (s₁.edit i true (s₁.buf i).dirty (patch (s₁.page i) 0 pageSize
        fun j => s₁.disk (b * pageSize + j)) (s.reads + 1)) f true 1 := by
      refine hg.moved_edit h (fun _ j hj => ?_) (fun hv => by cases hv) fun _ _ _ _ => rfl
      rw [patch_of_mem (Nat.zero_le j) (by omega), hg.disk]
      exact h.disk b hnot j hj
    exact hm.holds
  · exact hg.holds h

/-- A whole block is written, and another one is read. -/
theorem patch_whole_other {f data : Nat → UInt8} {c j : Nat} (hc : c ≠ b) (hj : j < pageSize) :
    patch f (b * pageSize) pageSize data (c * pageSize + j) = f (c * pageSize + j) := by
  have h : patch f (b * pageSize + 0) pageSize data (c * pageSize + j) = f (c * pageSize + j) :=
    patch_other hc hj (Nat.le_of_eq (Nat.zero_add _))
  rwa [Nat.add_zero] at h

theorem Holds.writeBuffered (h : Holds H s f) {buf : Nat → UInt8} (hroom : Room s b)
    (hs : writeBufferedBlock H s b buf = some s') :
    Holds H s' (patch f (b * pageSize) pageSize buf) := by
  obtain ⟨⟨s₁, i⟩, hget, rfl⟩ := Option.map_eq_some_iff.mp hs
  have hg := h.got hroom hget
  have hm : Moved H s b (s₁.edit i true true
      (patch ((s₁.modify i fun b => { b with valid := true, dirty := true }).page i) 0 pageSize buf)
      (s.reads + 0)) (patch f (b * pageSize) pageSize buf) true 0 := by
    refine hg.moved_edit h (fun _ j hj => ?_) nofun fun c hc j hj => patch_whole_other hc hj
    rw [patch_of_mem (Nat.zero_le j) (by omega), patch_add hj, Nat.sub_zero]
  exact ⟨hm.holds.listed, hm.holds.page, hm.holds.disk⟩

/-- Writing a valid buffer back changes nothing that the cache stands for. -/
theorem Holds.writeBlock (h : Holds H s f) (hi : i < s.dev.cacheSize) (hv : (s.buf i).valid = true) :
    Holds H (Block.writeBlock s i) f := by
  refine ⟨h.listed, h.page, fun b hb j hj => ?_⟩
  have hne : b ≠ (s.buf i).blockId := fun he => hb ⟨i, hi, he.symm, hv⟩
  show patch s.disk _ pageSize (s.page i) _ = _
  rw [sector_eq, patch_whole_other hne hj]
  exact h.disk b hb j hj

theorem Holds.flush {l : List Nat} {fuel : Nat} {ptr : Option Nat} (h : Holds H s f)
    (hc : Chain s.dev.next ptr l) (hl : ∀ i ∈ l, i < s.dev.cacheSize)
    (hs : Block.flush fuel s ptr = some s') : Holds H s' f := by
  induction l generalizing fuel s ptr with
  | nil =>
      obtain rfl : ptr = none := hc
      rw [Block.flush] at hs
      cases hs
      exact h
  | cons i l ih =>
      obtain ⟨rfl, hc⟩ := hc
      cases fuel with
      | zero => cases hs
      | succ fuel =>
          have hl' := fun j hj => hl j (List.mem_cons_of_mem _ hj)
          rw [Block.flush] at hs
          split at hs
          · rename_i hd
            exact ih (h.writeBlock (hl i (List.mem_cons_self ..)) hd.1) hc hl' hs
          · exact ih h hc hl' hs

/-- A call that is served does to the cache what it does to the flat disk. -/
theorem Holds.run (h : Holds H s f) {c : Call} (hc : c.Served H s) (hs : c.run H s = some s') :
    Holds H s' (c.flat f) := by
  cases c with
  | get b =>
      obtain ⟨⟨s₁, i⟩, hget, rfl⟩ := Option.map_eq_some_iff.mp hs
      exact (h.got hc hget).holds h
  | readBytes off size buffer =>
      obtain ⟨⟨s₁, out⟩, hread, rfl⟩ := Option.map_eq_some_iff.mp hs
      obtain ⟨s₂, hrun, hu⟩ := readBytes_faulty h hc
      rw [hrun] at hread
      cases hread
      exact hu.holds
  | writeBytes off size buffer => exact h.writeBytes hc hs
  | readBuffered b => exact h.readBuffered hc hs
  | writeBuffered b buf => exact h.writeBuffered hc hs
  | sync =>
      obtain ⟨l, hl⟩ := h.listed
      exact h.flush hl.chain (fun i hi => (hl.mem_iff i).mp hi) hs

theorem holds_start (H : Host) (disk : Nat → UInt8) (mem : Nat → Nat → UInt8) :
    Holds H (start disk mem) disk := (coherent_start H disk mem).holds

theorem run_holds {r : List (Call × State)} (h : Holds H s f)
    (hr : IsRun (fun s (c : Call) s' => c.run H s = some s') s r)
    (hc : EveryStep (fun s (c : Call) _ => c.Served H s) s r) :
    Holds H (finalState s r) (flatAfter f r) := by
  induction r generalizing s f with
  | nil => exact h
  | cons e r ih => exact ih (h.run hc.1 hr.1) hr.2 hc.2

end Served

/-! ## The contract -/

/-- The buffer at the end of a full list, which `get_block_buffer` evicts for a block
that is not cached. -/
structure Victim (s : State) (b v : Nat) : Prop where
  full : s.dev.cacheSize = cacheBlocks
  miss : ∀ j, j < s.dev.cacheSize → (s.buf j).blockId ≠ b
  lt : v < s.dev.cacheSize
  last : (s.buf v).next = none

/-- The buffer `i` is returned for the block `b`. -/
structure Placed (s : State) (b : Nat) (s' : State) (i : Nat) : Prop where
  head : s'.dev.bufferHead = some i
  label : (s'.buf i).blockId = b
  others : ∀ j, j < s.dev.cacheSize → (s.buf j).blockId ≠ b → ¬ Victim s b j →
    s'.buf j = { s.buf j with next := (s'.buf j).next } ∧ s'.page j = s.page j
  written : ∀ v, Victim s b v → (s.buf v).dirty = true → ∀ j, j < pageSize →
    s'.disk ((s.buf v).blockId * pageSize + j) = s.page v j

/-- And it holds the block of the flat disk if it is valid. -/
structure Contract (f : Nat → UInt8) (s : State) (b : Nat) (s' : State) (i : Nat) : Prop
    extends Placed s b s' i where
  valid : (s'.buf i).valid = true → ∀ j, j < pageSize → s'.page i j = f (b * pageSize + j)

section Contract

variable {H : Host} {s s' : State} {l : List Nat} {b i : Nat}

theorem Got.placed (hroom : Room s b) (hg : Got H s b s' i) : Placed s b s' i := by
  obtain ⟨l', hl'⟩ := hg.listed
  have hvictim : ∀ v, ¬ Victim s b v := by
    rintro v hv
    rcases hroom with ⟨j, hj, he⟩ | hlt
    · exact hv.miss j hj he
    · exact Nat.lt_irrefl _ (hv.full ▸ hlt)
  refine ⟨hl'.chain.head_eq, hg.label, fun j hj _ _ => ⟨hg.same j hj, ?_⟩,
    fun v hv => absurd hv (hvictim v)⟩
  rw [State.page, State.page, hg.mem, hg.same j hj]

theorem Got.contract {f : Nat → UInt8} (h : Holds H s f) (hroom : Room s b) (hg : Got H s b s' i) :
    Contract f s b s' i where
  toPlaced := hg.placed hroom
  valid := fun hv j hj => by
    rw [(hg.holds h).page i hg.lt hv j hj, hg.label]

end Contract

/-- The contract of `get_block_buffer`, in every state that calls lead to.  A
buffer is returned, and the list is as expected exactly if the block is cached or
there is a slot left for it.  If all the calls before were served, the buffer also
holds the current content of the block if it is valid. -/
theorem getBlockBuffer_contract_iff (H : Host) (disk : Nat → UInt8) (mem : Nat → Nat → UInt8)
    (r : List (Call × State))
    (hr : IsRun (fun s (c : Call) s' => c.run H s = some s') (start disk mem) r) (b : Nat) :
    ∃ s' i, getBlockBuffer H (finalState (start disk mem) r) b = some (s', i) ∧
      (Placed (finalState (start disk mem) r) b s' i ↔ Room (finalState (start disk mem) r) b) ∧
      (EveryStep (fun s (c : Call) _ => c.Served H s) (start disk mem) r →
        (Contract (flatAfter disk r) (finalState (start disk mem) r) b s' i ↔
          Room (finalState (start disk mem) r) b)) := by
  obtain ⟨l, hl⟩ := run_listed hr
  have hholds := run_holds (holds_start H disk mem) hr
  generalize finalState (start disk mem) r = s at hl hholds ⊢
  by_cases hroom : Room s b
  · obtain ⟨s', i, hget, hgot⟩ := getBlockBuffer_spec hl hroom
    refine ⟨s', i, hget, ⟨fun _ => hroom, fun _ => hgot.placed hroom⟩, fun hc => ?_⟩
    exact ⟨fun _ => hroom, fun _ => hgot.contract (hholds hc) hroom⟩
  · obtain ⟨hmiss, hfull⟩ := not_or.mp hroom
    obtain ⟨l₀, p, i, rfl, hget⟩ := getBlockBuffer_full (b := b) hl (Nat.le_of_not_lt hfull)
      fun j hj he => hmiss ⟨j, hj, he⟩
    have hnot : ¬ Placed s b (touch (writeBack s i) (some p) i) i := by
      intro hp
      have hlabel := hp.label
      rw [(evicted_listed hl).2 i] at hlabel
      exact hmiss ⟨i, (hl.mem_iff i).mp (by simp), hlabel⟩
    refine ⟨_, i, hget, ⟨fun hp => absurd hp hnot, fun h => absurd h hroom⟩, fun _ => ?_⟩
    exact ⟨fun hc => absurd hc.toPlaced hnot, fun h => absurd h hroom⟩

/-- The state after `get_block_buffer` on block `3` of an empty cache. -/
def oneBuffer : State := addBuffer plainHost (start (fun _ => 0) fun _ _ => 0) 3

theorem getBlockBuffer_contract_again :
    ∃ s' i, getBlockBuffer plainHost oneBuffer 3 = some (s', i) ∧
      Contract (fun _ => 0) oneBuffer 3 s' i := by
  obtain ⟨s', i, hget, -, hc⟩ := getBlockBuffer_contract_iff plainHost (fun _ => 0) (fun _ _ => 0)
    [(.get 3, oneBuffer)] ⟨rfl, trivial⟩ 3
  exact ⟨s', i, hget, (hc ⟨Or.inr (by decide), trivial⟩).mpr (Or.inr (by decide))⟩

/-- The blocks `0` to `63` fill the cache.  The buffer returned for block `64` is
that of block `0`, and is still labelled so. -/
theorem evicted_keeps_label :
    (((runOf (fun s (c : Call) => c.run plainHost s) (start (fun _ => 0) fun _ _ => 0)
          ((List.range 64).map .get)).bind fun r =>
        getBlockBuffer plainHost (finalState (start (fun _ => 0) fun _ _ => 0) r) 64).map
      fun q => (q.1.buf q.2).blockId) = some 0 := by
  decide

end Block
