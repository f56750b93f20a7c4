import Mathlib.Algebra.Group.Int.Defs
import Mathlib.Algebra.GroupWithZero.Nat
import Mathlib.Logic.Function.Basic

/-!
# The split virtqueue of the driver

`VirtIOQueue` is the driver's queue together with the three rings it shares
with the device: the descriptor table, the available ring and the used ring.
The fields have the widths of the source.  In particular `lastUsedIdx` and
`availIdx` have 32 bits, while the indices inside the rings have 16.

A descriptor list that `addQueue` allocates for an indirect request lives in a
page of its own.  `listMem` holds these pages by frame.  The page that
`dmalloc` returns is an argument of `addQueue`.

`addQueue` returns `none` where the source panics, and `some (none, q)` where
it returns `-1`.
-/

namespace Virtio

/-- `VIRTIO_NUM_DESC`. -/
def numDesc : Nat := 16

/-- `VRING_DESC_F_NEXT`. -/
def descFNext : UInt16 := 1

/-- `VRING_DESC_F_WRITE`. -/
def descFWrite : UInt16 := 2

/-- `VRING_DESC_F_INDIRECT`. -/
def descFIndirect : UInt16 := 4

/-- `PAGE_2_ADDR` on a frame number. -/
def pageAddr (pfn : UInt64) : UInt64 := pfn * 4096

structure VirtQueueDesc where
  addr : UInt64
  len : UInt32
  flags : UInt16
  next : UInt16
deriving DecidableEq, Repr, Inhabited

structure VirtQueueAvail where
  flags : UInt16
  idx : UInt16
  ring : Nat → UInt16

/-- `struct used_elm`. -/
structure UsedElem where
  id : UInt32
  len : UInt32
deriving DecidableEq, Repr, Inhabited

structure VirtQueueUsed where
  flags : UInt16
  idx : UInt16
  ring : Nat → UsedElem

structure VirtIOQueue where
  numUsed : UInt16
  freeHead : UInt16
  desc : UInt16 → VirtQueueDesc
  avail : VirtQueueAvail
  used : VirtQueueUsed
  descShadow : UInt16 → VirtQueueDesc
  availIdx : UInt32
  lastUsedIdx : UInt32
  indirect : Bool
  /-- The kernel page of the list of each indirect head, `none` for `NULL`. -/
  indirectLists : UInt16 → Option Nat
  indirectPfns : UInt16 → UInt64
  /-- The descriptor lists the driver has written, by frame. -/
  listMem : UInt64 → Nat → VirtQueueDesc

/-- A buffer handed to `add_queue`: a frame and a length. -/
abbrev Frame := UInt64 × UInt32

/-! ## `init_queue` -/

/-- The link `init_queue` writes into entry `i`: every entry but the last
points to the next one. -/
def linkedDesc (i : UInt16) : VirtQueueDesc :=
  { addr := 0, len := 0, flags := 0, next := if i.toNat < numDesc - 1 then i + 1 else 0 }

/-- The queue `init_queue` leaves.  Its pages come zeroed from `dmalloc`. -/
def initQueue (indirect : Bool) : VirtIOQueue :=
  { numUsed := 0
    freeHead := 0
    desc := linkedDesc
    avail := { flags := 0, idx := 0, ring := fun _ => 0 }
    used := { flags := 0, idx := 0, ring := fun _ => ⟨0, 0⟩ }
    descShadow := linkedDesc
    availIdx := 0
    lastUsedIdx := 0
    indirect := indirect
    indirectLists := fun _ => none
    indirectPfns := fun _ => 0
    listMem := fun _ _ => ⟨0, 0, 0, 0⟩ }

/-! ## `add_queue` -/

/-- `needed`, an `u8`. -/
def needed (inputs outputs : List Frame) : Nat := (inputs.length + outputs.length) % 256

/-- The flags of output `i` of `n`: every output but the last is chained. -/
def outputFlags (i n : Nat) : UInt16 :=
  if i ≠ n - 1 then descFWrite ||| descFNext else descFWrite

/-- One turn of the loops of the direct branch.  The head of the free list
takes the buffer, is copied to the shared table and leaves the free list. -/
def pushDesc (q : VirtIOQueue) (addr : UInt64) (len : UInt32) (flags : UInt16) : VirtIOQueue :=
  let last := q.freeHead
  let d : VirtQueueDesc := { addr, len, flags, next := (q.descShadow last).next }
  { q with
    descShadow := Function.update q.descShadow last d
    freeHead := d.next
    desc := Function.update q.desc last d
    numUsed := q.numUsed + 1 }

def addInputs : VirtIOQueue → List Frame → VirtIOQueue
  | q, [] => q
  | q, (pfn, len) :: fs => addInputs (pushDesc q pfn len descFNext) fs

/-- The outputs from number `i` of `n` on. -/
def addOutputs (n : Nat) : Nat → VirtIOQueue → List Frame → VirtIOQueue
  | _, q, [] => q
  | i, q, (pfn, len) :: fs => addOutputs n (i + 1) (pushDesc q pfn len (outputFlags i n)) fs

/-- The descriptor list of an indirect request, as far as it is written. -/
def indirectList (old : Nat → VirtQueueDesc) (inputs outputs : List Frame) :
    Nat → VirtQueueDesc := fun k =>
  match inputs[k]? with
  | some (pfn, len) =>
      { addr := pageAddr pfn, len, flags := descFNext, next := UInt16.ofNat (k + 1) }
  | none =>
      match outputs[k - inputs.length]? with
      | some (pfn, len) =>
          { addr := pageAddr pfn, len,
            flags := outputFlags (k - inputs.length) outputs.length,
            next := UInt16.ofNat (k + 1) }
      | none => old k

/-- The indirect branch.  `page` is the kernel page and the frame that
`dmalloc` returns. -/
def addIndirect (q : VirtIOQueue) (inputs outputs : List Frame) (page : Nat × UInt64) :
    Option VirtIOQueue :=
  let head := q.freeHead
  match q.indirectLists head with
  | some _ => none
  | none =>
      let d : VirtQueueDesc :=
        { addr := pageAddr page.2
          len := UInt32.ofNat (16 * needed inputs outputs)
          flags := descFIndirect
          next := (q.descShadow head).next }
      some { q with
        listMem := Function.update q.listMem page.2
          (indirectList (q.listMem page.2) inputs outputs)
        indirectLists := Function.update q.indirectLists head (some page.1)
        indirectPfns := Function.update q.indirectPfns head page.2
        descShadow := Function.update q.descShadow head d
        freeHead := d.next
        desc := Function.update q.desc head d
        numUsed := q.numUsed + 1 }

/-- The end of `add_queue`: the head goes into the available ring. -/
def publish (q : VirtIOQueue) (head : UInt16) : VirtIOQueue :=
  { q with
    availIdx := q.availIdx + 1
    avail := { q.avail with
      ring := Function.update q.avail.ring (q.availIdx.toNat % numDesc) head
      idx := (q.availIdx + 1).toUInt16 } }

/-- The guard of `add_queue`. -/
def addRefused (q : VirtIOQueue) (inputs outputs : List Frame) : Bool :=
  numDesc ≤ q.numUsed.toNat ∨ numDesc < needed inputs outputs ∨
    (q.indirect = false ∧ numDesc < q.numUsed.toNat + needed inputs outputs)

/-- `add_queue`.  The result is the head, or `none` for `-1`. -/
def addQueue (q : VirtIOQueue) (inputs outputs : List Frame) (page : Nat × UInt64) :
    Option (Option UInt16 × VirtIOQueue) :=
  if addRefused q inputs outputs then some (none, q)
  else
    let head := q.freeHead
    if q.indirect ∧ 1 < needed inputs outputs then
      if 4096 < needed inputs outputs * 16 then none
      else
        match addIndirect q inputs outputs page with
        | none => none
        | some q' => some (some head, publish q' head)
    else
      some (some head, publish (addOutputs outputs.length 0 (addInputs q inputs) outputs) head)

/-! ## `recycle_descriptors` -/

/-- The `while (1)` of the direct branch.  The free list `orig` is put behind
the last descriptor of the chain.  A chain that does not end runs out of fuel. -/
def recycleChain (orig : UInt16) : Nat → VirtIOQueue → UInt16 → Option VirtIOQueue
  | 0, _, _ => none
  | fuel + 1, q, next =>
      let d := { q.descShadow next with addr := 0, len := 0 }
      let numUsed := q.numUsed - 1
      if d.flags &&& descFNext ≠ 0 then
        recycleChain orig fuel
          { q with
            descShadow := Function.update q.descShadow next d
            desc := Function.update q.desc next d
            numUsed }
          d.next
      else
        some { q with
          descShadow := Function.update q.descShadow next { d with next := orig }
          numUsed }

/-- `recycle_descriptors`.  A chain visits each of the `numDesc` descriptors at
most once, so that is the fuel. -/
def recycleDescriptors (q : VirtIOQueue) (head : UInt16) : Option VirtIOQueue :=
  let orig := q.freeHead
  let d := q.descShadow head
  if d.flags &&& descFIndirect ≠ 0 then
    some { q with
      freeHead := head
      descShadow := Function.update q.descShadow head { d with addr := 0, len := 0, next := orig }
      numUsed := q.numUsed - 1
      indirectLists := Function.update q.indirectLists head none }
  else
    recycleChain orig numDesc { q with freeHead := head } head

/-! ## What the operations leave alone -/

theorem addInputs_used : ∀ (fs : List Frame) (q : VirtIOQueue),
    (addInputs q fs).used = q.used ∧ (addInputs q fs).lastUsedIdx = q.lastUsedIdx
  | [], _ => ⟨rfl, rfl⟩
  | (_, _) :: fs, _ => addInputs_used fs _

theorem addOutputs_used (n : Nat) : ∀ (fs : List Frame) (i : Nat) (q : VirtIOQueue),
    (addOutputs n i q fs).used = q.used ∧ (addOutputs n i q fs).lastUsedIdx = q.lastUsedIdx
  | [], _, _ => ⟨rfl, rfl⟩
  | (_, _) :: fs, i, _ => addOutputs_used n fs (i + 1) _

theorem addIndirect_used {q q' : VirtIOQueue} {ins outs : List Frame} {page : Nat × UInt64}
    (h : addIndirect q ins outs page = some q') :
    q'.used = q.used ∧ q'.lastUsedIdx = q.lastUsedIdx := by
  unfold addIndirect at h
  dsimp only at h
  split at h
  · cases h
  · cases h
    exact ⟨rfl, rfl⟩

/-- `add_queue` does not touch the used ring nor the driver's place in it. -/
theorem addQueue_used {q q' : VirtIOQueue} {ins outs : List Frame} {page : Nat × UInt64}
    {r : Option UInt16} (h : addQueue q ins outs page = some (r, q')) :
    q'.used = q.used ∧ q'.lastUsedIdx = q.lastUsedIdx := by
  unfold addQueue at h
  split at h
  · cases h
    exact ⟨rfl, rfl⟩
  · dsimp only at h
    split at h
    · split at h
      · cases h
      · cases hi : addIndirect q ins outs page with
        | none => rw [hi] at h; cases h
        | some q1 =>
            rw [hi] at h
            cases h
            have hq1 := addIndirect_used hi
            exact ⟨hq1.1, hq1.2⟩
    · cases h
      have hin := addInputs_used ins q
      have hout := addOutputs_used outs.length outs 0 (addInputs q ins)
      exact ⟨hout.1.trans hin.1, hout.2.trans hin.2⟩

theorem recycleChain_used (orig : UInt16) : ∀ (fuel : Nat) {q q' : VirtIOQueue} {next : UInt16},
    recycleChain orig fuel q next = some q' →
      q'.used = q.used ∧ q'.lastUsedIdx = q.lastUsedIdx
  | 0, _, _, _, h => by cases h
  | fuel + 1, q, q', next, h => by
      rw [recycleChain] at h
      dsimp only at h
      split at h
      · have ih := recycleChain_used orig fuel h
        exact ⟨ih.1, ih.2⟩
      · cases h
        exact ⟨rfl, rfl⟩

theorem recycleDescriptors_used {q q' : VirtIOQueue} {head : UInt16}
    (h : recycleDescriptors q head = some q') :
    q'.used = q.used ∧ q'.lastUsedIdx = q.lastUsedIdx := by
  unfold recycleDescriptors at h
  dsimp only at h
  split at h
  · cases h
    exact ⟨rfl, rfl⟩
  · have hc := recycleChain_used _ numDesc h
    exact ⟨hc.1, hc.2⟩

end Virtio
