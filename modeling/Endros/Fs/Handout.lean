import Endros.Fs.Undo
import Endros.Lib.Run

/-!
# The data bitmap as a set

Over a run of `allocate_block` and `free_block` the data bitmap is a set of blocks.  Each
call does what the operation of a set does (`SetStep`): an allocation adds the smallest
block that is missing, a free takes its block out, and a call that returns `-1` changes
nothing.

What follows for whole runs needs only this.  A block that was handed out is in the set
until it is freed (`kept_until_freed`), so it is not handed out again before.
-/

namespace Fs

open Lib Mem

/-! ## Calls -/

/-- A call with its argument.  `junk` is what `buf` holds before the read. -/
inductive BitmapCall where
  | allocate
  | free (id : UInt32) (junk : UInt8)

/-- The disk after the call, and what it returns. -/
def BitmapCall.run (fs : Filesystem) (d : Disk) : BitmapCall → Disk × Int
  | .allocate =>
      match allocateBlock fs d with
      | none => (d, -1)
      | some (b, d') => (d', b)
  | .free id junk => freeBlock fs d junk id.toNat

/-- A step of a run is a call and its result. -/
def BitmapStep (fs : Filesystem) (d : Disk) (e : BitmapCall × Int) (d' : Disk) : Prop :=
  e.1.run fs d = (d', e.2)

/-- The run of a sequence of calls. -/
def runCalls (fs : Filesystem) : Disk → List BitmapCall → List ((BitmapCall × Int) × Disk)
  | _, [] => []
  | d, c :: cs => ((c, (c.run fs d).2), (c.run fs d).1) :: runCalls fs (c.run fs d).1 cs

theorem isRun_runCalls (fs : Filesystem) (d : Disk) (cs : List BitmapCall) :
    IsRun (BitmapStep fs) d (runCalls fs d cs) := by
  induction cs generalizing d with
  | nil => trivial
  | cons c cs ih => exact ⟨rfl, ih _⟩

/-! ## What a call does to the set -/

/-- The bit of `b` has become `v`, and nothing else has changed. -/
structure OnlyBit (fs : Filesystem) (d : Disk) (b : Nat) (v : Bool) (d' : Disk) : Prop where
  size : d'.size = d.size
  bytes : ∀ a, a ≠ bitmapByte fs b → d'.bytes a = d.bytes a
  marked : ∀ c, marked fs d' c = if c = b then v else marked fs d c

/-- The operations of a set. -/
def SetStep (fs : Filesystem) (d : Disk) : BitmapCall × Int → Disk → Prop
  | (.allocate, ret), d' =>
      (∃ b : Nat, ret = b ∧ b < 8 * fs.bitmapBytes ∧ marked fs d b = false ∧
        (∀ c, c < b → marked fs d c = true) ∧ OnlyBit fs d b true d') ∨
      (ret = -1 ∧ d' = d ∧ ∀ c, c < 8 * fs.bitmapBytes → marked fs d c = true)
  | (.free id _, ret), d' =>
      if marked fs d id.toNat then ret = 0 ∧ OnlyBit fs d id.toNat false d' else ret = -1 ∧ d' = d

/-- A freed block is one of the file system. -/
def BitmapCall.InRange (fs : Filesystem) : BitmapCall → Prop
  | .allocate => True
  | .free id _ => id < fs.sizeBlocks

/-- The metadata is on the disk. -/
structure Mounted (fs : Filesystem) (d : Disk) : Prop where
  metadata : fs.dataStart * pageSize ≤ d.size
  size : d.size < 2 ^ 64

theorem Disk.eq_of_bytes {d d' : Disk} (hsize : d.size = d'.size) (hbytes : ∀ a, d.bytes a = d'.bytes a) :
    d = d' := by
  cases d
  cases d'
  cases hsize
  cases funext hbytes
  rfl

section Step

variable {fs : Filesystem} {d d' : Disk} {b : Nat} {e : BitmapCall × Int}

theorem Mounted.bitmapByte_lt (h : Mounted fs d) (hb : b < 8 * fs.bitmapBytes) :
    bitmapByte fs b < d.size := by
  have hlt := (Fs.bitmapByte_lt hb).2
  have hle : fs.inodeTableOffset * pageSize ≤ fs.dataStart * pageSize := by
    refine Nat.mul_le_mul_right _ ?_
    rw [fs.inodeTableOffset_eq, Filesystem.dataStart]
    exact Nat.le_add_right _ _
  exact Nat.lt_of_lt_of_le hlt (Nat.le_trans hle h.metadata)

theorem Allocated.onlyBit (h : Allocated fs d b d') : OnlyBit fs d b true d' := by
  refine ⟨h.size, h.bytes, fun c => ?_⟩
  rw [h.marked]
  by_cases hc : c = b
  · rw [if_pos hc, hc, decide_eq_true rfl, Bool.true_or]
  · rw [if_neg hc, decide_eq_false (Ne.symm hc), Bool.false_or]

theorem Freed.onlyBit (h : Freed fs d b d') : OnlyBit fs d b false d' := by
  refine ⟨h.size, h.bytes, fun c => ?_⟩
  rw [h.marked]
  by_cases hc : c = b
  · rw [if_pos hc, hc, decide_eq_true rfl, Bool.not_true, Bool.and_false]
  · rw [if_neg hc, decide_eq_false (Ne.symm hc), Bool.not_false, Bool.and_true]

/-- `free_block` of a block whose bit is on the disk. -/
theorem freeBlock_eq (hb : bitmapByte fs b < d.size) (h64 : d.size < 2 ^ 64) (junk : UInt8) :
    freeBlock fs d junk b = if marked fs d b then
      (d.setByte (bitmapByte fs b) (bitmapClear (d.bytes (bitmapByte fs b)) b), 0) else (d, -1) := by
  have hread : wrappedRead d (bitmapByte fs b) 1 (fun _ => junk) 0 0 = d.bytes (bitmapByte fs b) :=
    wrappedRead_byte hb h64
  show (if bitmapGet (wrappedRead d (bitmapByte fs b) 1 (fun _ => junk) 0 0) b = true then
    (wrappedWrite d (bitmapByte fs b) 1 (fun _ => bitmapClear
      (wrappedRead d (bitmapByte fs b) 1 (fun _ => junk) 0 0) b) 0, (0 : Int)) else (d, -1)) = _
  rw [hread, wrappedWrite_of_le hb h64]
  rfl

/-- Each call is an operation of the set. -/
theorem setStep_of_step (h : Mounted fs d) (hids : e.1.InRange fs) (hs : BitmapStep fs d e d') :
    SetStep fs d e d' := by
  obtain ⟨c, ret⟩ := e
  cases c with
  | allocate =>
      have hc := allocateBlock_cases fs d
      rw [BitmapStep, BitmapCall.run] at hs
      cases ha : allocateBlock fs d with
      | none =>
          rw [ha] at hc hs
          cases hs
          exact .inr ⟨rfl, rfl, hc⟩
      | some r =>
          obtain ⟨b, d₁⟩ := r
          rw [ha] at hc hs
          cases hs
          exact .inl ⟨b, rfl, hc.lt, hc.free, hc.least, hc.onlyBit⟩
  | free id junk =>
      have hid : id.toNat < 8 * fs.bitmapBytes :=
        Nat.lt_of_lt_of_le (UInt32.lt_iff_toNat_lt.mp hids) fs.le_bitmapBytes
      have hb := h.bitmapByte_lt hid
      have hs : freeBlock fs d junk id.toNat = (d', ret) := hs
      have hfreed : marked fs d id.toNat = true → Freed fs d id.toNat (freeBlock fs d junk id.toNat).1 :=
        fun hm => freeBlock_freed hb h.size hm junk
      rw [hs] at hfreed
      rw [freeBlock_eq hb h.size] at hs
      rw [SetStep]
      split at hs
      · rename_i hm
        rw [if_pos hm]
        exact ⟨(congrArg Prod.snd hs).symm, (hfreed hm).onlyBit⟩
      · rename_i hm
        rw [if_neg hm]
        cases hs
        exact ⟨rfl, rfl⟩

theorem SetStep.size (h : SetStep fs d e d') : d'.size = d.size := by
  obtain ⟨c, ret⟩ := e
  cases c with
  | allocate =>
      rcases h with ⟨b, -, -, -, -, honly⟩ | ⟨-, rfl, -⟩
      · exact honly.size
      · rfl
  | free id junk =>
      rw [SetStep] at h
      split at h
      · exact h.2.size
      · rw [h.2]

theorem mounted_step (h : Mounted fs d) (hs : BitmapStep fs d e d') (hids : e.1.InRange fs) :
    Mounted fs d' := by
  have hsize := (setStep_of_step h hids hs).size
  exact ⟨hsize ▸ h.metadata, hsize ▸ h.size⟩

theorem allocateBlock_of_step (hs : BitmapStep fs d (.allocate, (b : Int)) d') :
    allocateBlock fs d = some (b, d') := by
  rw [BitmapStep, BitmapCall.run] at hs
  cases ha : allocateBlock fs d with
  | none =>
      rw [ha] at hs
      cases congrArg Prod.snd hs
  | some p =>
      obtain ⟨b', d₁⟩ := p
      rw [ha] at hs
      cases hs
      rfl

/-- A block of the set stays in it, unless the step is its free. -/
theorem SetStep.kept (h : SetStep fs d e d') (hm : marked fs d b = true)
    (hno : ∀ id junk, e = (.free id junk, 0) → id.toNat ≠ b) : marked fs d' b = true := by
  obtain ⟨c, ret⟩ := e
  cases c with
  | allocate =>
      rcases h with ⟨b', -, -, -, -, honly⟩ | ⟨-, rfl, -⟩
      · rw [honly.marked]
        split
        · rfl
        · exact hm
      · exact hm
  | free id junk =>
      rw [SetStep] at h
      split at h
      · obtain ⟨rfl, honly⟩ := h
        rw [honly.marked, if_neg (hno id junk rfl).symm]
        exact hm
      · rwa [h.2]

/-- An allocation that is undone at once leaves nothing behind. -/
theorem freeBlock_allocated (h : Mounted fs d) (ha : allocateBlock fs d = some (b, d')) (junk : UInt8) :
    freeBlock fs d' junk b = (d, 0) := by
  have hc := allocateBlock_cases fs d
  rw [ha] at hc
  have hb : bitmapByte fs b < d'.size := hc.size.symm ▸ h.bitmapByte_lt hc.lt
  have hm : marked fs d' b = true := by
    rw [hc.onlyBit.marked, if_pos rfl]
  have hfreed := freeBlock_freed hb (hc.size.symm ▸ h.size) hm junk
  have heq := freeBlock_eq hb (hc.size.symm ▸ h.size) junk
  rw [if_pos hm] at heq
  rw [heq] at hfreed ⊢
  refine Prod.ext (Disk.eq_of_bytes (hfreed.size.trans hc.size) fun a => ?_) rfl
  by_cases hab : a = bitmapByte fs b
  · -- the byte of the block has the same bits
    refine byte_ext fun x hx => ?_
    have hbyte : bitmapByte fs (b / 8 * 8 + x) = a := by
      rw [hab, bitmapByte, bitmapByte]
      omega
    have hbits : ∀ v : UInt8, bitmapGet v (b / 8 * 8 + x) = bitmapGet v x := fun v => by
      rw [bitmapGet, bitmapGet, Nat.mul_add_mod']
    have hmarked : marked fs (d'.setByte (bitmapByte fs b) (bitmapClear (d'.bytes (bitmapByte fs b)) b))
        (b / 8 * 8 + x) = marked fs d (b / 8 * 8 + x) := by
      rw [hfreed.onlyBit.marked, hc.onlyBit.marked]
      split
      · rename_i heq
        rw [heq, hc.free]
      · rfl
    rw [marked, marked, hbyte, hbits, hbits] at hmarked
    exact hmarked
  · exact (hfreed.bytes a hab).trans (hc.bytes a hab)

end Step

/-! ## Runs -/

section Runs

variable {fs : Filesystem} {d : Disk} {b : Nat} {r r' : List ((BitmapCall × Int) × Disk)}

theorem runCalls_inRange {cs : List BitmapCall} (d : Disk) (h : ∀ c ∈ cs, c.InRange fs) :
    EveryStep (fun _ e _ => e.1.InRange fs) d (runCalls fs d cs) := by
  induction cs generalizing d with
  | nil => trivial
  | cons c cs ih => exact ⟨h c List.mem_cons_self, ih _ fun c' hc => h c' (List.mem_cons_of_mem _ hc)⟩

/-- Along a run without a free of the block, it stays in the set. -/
theorem kept_until_freed (h : EveryStep (SetStep fs) d r) (hm : marked fs d b = true)
    (hno : ∀ s ∈ r, ∀ id junk, s.1 = (.free id junk, 0) → id.toNat ≠ b) :
    marked fs (finalState d r) b = true := by
  induction r generalizing d with
  | nil => exact hm
  | cons s r ih =>
      obtain ⟨e, d'⟩ := s
      exact ih h.2 (h.1.kept hm (hno _ List.mem_cons_self)) fun s hs => hno s (List.mem_cons_of_mem _ hs)

/-- Between two allocations of a block there is its free. -/
theorem freed_between {d₁ d₂ : Disk} {r'' : List ((BitmapCall × Int) × Disk)}
    (h : EveryStep (SetStep fs) d (r ++ ((.allocate, (b : Int)), d₁) :: (r' ++
      ((.allocate, (b : Int)), d₂) :: r''))) :
    ∃ s ∈ r', ∃ id junk, s.1 = (.free id junk, 0) ∧ id.toNat = b := by
  obtain ⟨hfirst, hrest⟩ := h.drop
  have hsecond := hrest.drop.1
  have hin : marked fs d₁ b = true := by
    rcases hfirst with ⟨b', hb, -, -, -, honly⟩ | ⟨hb, -, -⟩
    · rw [honly.marked, if_pos (Int.ofNat.inj hb)]
    · cases hb
  have hout : marked fs (finalState d₁ r') b = false := by
    rcases hsecond with ⟨b', hb, -, hfree, -⟩ | ⟨hb, -, -⟩
    · rwa [Int.ofNat.inj hb]
    · cases hb
  by_contra hno
  have hkept := kept_until_freed (EveryStep.take hrest) hin fun s hs id junk he hid =>
    hno ⟨s, hs, id, junk, he, hid⟩
  rw [hout] at hkept
  cases hkept

end Runs

/-- Over every run of calls the data bitmap is a set: each call is an operation of the set, no
block is handed out twice without a free in between, and a free right behind the
allocation restores the disk. -/
theorem bitmap_is_set {fs : Filesystem} {d : Disk} (cs : List BitmapCall)
    (hmeta : fs.dataStart * pageSize ≤ d.size) (h64 : d.size < 2 ^ 64) (hids : ∀ c ∈ cs, c.InRange fs) :
    EveryStep (SetStep fs) d (runCalls fs d cs) ∧
    (∀ (b : Nat) r₁ r₂ r₃ d₁ d₂, runCalls fs d cs = r₁ ++ ((.allocate, (b : Int)), d₁) :: (r₂ ++
      ((.allocate, (b : Int)), d₂) :: r₃) →
      ∃ s ∈ r₂, ∃ id junk, s.1 = (.free id junk, 0) ∧ id.toNat = b) ∧
    EveryStep (fun d e d' => ∀ b : Nat, e = (.allocate, (b : Int)) → ∀ junk,
      freeBlock fs d' junk b = (d, 0)) d (runCalls fs d cs) := by
  have hin := runCalls_inRange d hids
  have hset : EveryStep (SetStep fs) d (runCalls fs d cs) :=
    IsRun.everyStep (I := Mounted fs) (fun _ _ _ h hs hc => mounted_step h hs hc)
      (fun _ _ _ h hs hc => setStep_of_step h hc hs) (isRun_runCalls fs d cs) ⟨hmeta, h64⟩ hin
  refine ⟨hset, fun b r₁ r₂ r₃ d₁ d₂ he => ?_, ?_⟩
  · rw [he] at hset
    exact freed_between hset
  · refine IsRun.everyStep (I := Mounted fs) (fun _ _ _ h hs hc => mounted_step h hs hc)
      (fun d e d' h hs hc b he junk => ?_) (isRun_runCalls fs d cs) ⟨hmeta, h64⟩ hin
    subst he
    exact freeBlock_allocated h (allocateBlock_of_step hs) junk

/-- Two blocks are taken, and the first one is given back. -/
theorem bitmap_is_set_sample :
    EveryStep (SetStep sampleFs) emptyDisk (runCalls sampleFs emptyDisk [.allocate, .allocate, .free 4 0]) ∧
      (runCalls sampleFs emptyDisk [.allocate, .allocate, .free 4 0]).map (·.1.2) = [4, 5, 0] := by
  have hids : ∀ c ∈ [BitmapCall.allocate, .allocate, .free 4 0], c.InRange sampleFs := by
    simp only [List.forall_mem_cons]
    exact ⟨trivial, trivial, (by decide : (4 : UInt32) < 2048), fun _ h => absurd h List.not_mem_nil⟩
  exact ⟨(bitmap_is_set _ (by decide) (by decide) hids).1, by decide +kernel⟩

end Fs
