import Endros.Lib.Chain
import Endros.Lib.Run
import Endros.Virtio.Queue

/-!
# The descriptors of a queue

The 16 descriptors are free or belong to an outstanding chain.  The free list
starts at `free_head` and has `16 - num_used` descriptors.  It has no end mark:
the link of its last descriptor means nothing.  The chain of a head goes on as
long as `VRING_DESC_F_NEXT` is set.  Both use the same field `next`.

`add_queue` takes descriptors from the front of the free list and gives them
flags but leaves their links (`Pushed`).  `recycle_descriptors` puts a chain in
front of the free list and changes the link of its last descriptor only
(`Recycled`).  So the lists stay apart over any order of requests and
completions (`run_sound`).
-/

namespace Virtio

open Lib

abbrev Table := UInt16 → VirtQueueDesc

/-- The numbers of the descriptors. -/
def numbers : List UInt16 := (List.range numDesc).map UInt16.ofNat

/-- The descriptors along the links from `free_head`. -/
def freeList (q : VirtIOQueue) : List UInt16 :=
  List.iterate (fun i => (q.descShadow i).next) q.freeHead (numDesc - q.numUsed.toNat)

/-- The chain from a descriptor along `VRING_DESC_F_NEXT`, for at most `n`
descriptors. -/
def chainFrom (t : Table) : Nat → UInt16 → List UInt16
  | 0, _ => []
  | n + 1, i => i :: if (t i).flags &&& descFNext ≠ 0 then chainFrom t n (t i).next else []

/-- The chain of a head. -/
def chain (q : VirtIOQueue) (head : UInt16) : List UInt16 := chainFrom q.descShadow numDesc head

/-- A chain that ends: all descriptors but the last have `VRING_DESC_F_NEXT` and
point to the one behind. -/
def Linked (t : Table) : List UInt16 → Prop
  | [] => False
  | [i] => (t i).flags &&& descFNext = 0
  | i :: j :: l => (t i).flags &&& descFNext ≠ 0 ∧ (t i).next = j ∧ Linked t (j :: l)

theorem Linked.chainFrom_eq {t : Table} : ∀ {l : List UInt16} {i : UInt16} {n : Nat},
    Linked t (i :: l) → l.length < n → chainFrom t n i = i :: l
  | [], i, n + 1, h, _ => by
      have hlast : (t i).flags &&& descFNext = 0 := h
      rw [chainFrom, if_neg (fun hne => hne hlast)]
  | j :: l, i, n + 1, h, hn => by
      obtain ⟨hflag, hnext, hl⟩ := h
      rw [chainFrom, if_pos hflag, hnext, chainFrom_eq hl (Nat.lt_of_succ_lt_succ hn)]

theorem Linked.congr {t t' : Table} : ∀ {l : List UInt16}, Linked t l → (∀ i ∈ l, t' i = t i) →
    Linked t' l
  | [_], h, heq => by
      rw [Linked, heq _ (List.mem_cons_self ..)]
      exact h
  | _ :: _ :: _, h, heq => by
      rw [Linked, heq _ (List.mem_cons_self ..)]
      exact ⟨h.1, h.2.1, congr h.2.2 fun i hi => heq i (List.mem_cons_of_mem _ hi)⟩

theorem chainFrom_congr {t t' : Table} : ∀ (n : Nat) (i : UInt16),
    (∀ j ∈ chainFrom t n i, t' j = t j) → chainFrom t' n i = chainFrom t n i
  | 0, _, _ => rfl
  | n + 1, i, h => by
      have hi := h i (List.mem_cons_self ..)
      rw [chainFrom, chainFrom, hi]
      split
      · rename_i hflag
        rw [chainFrom_congr n _ fun j hj => h j ?_]
        rw [chainFrom, if_pos hflag]
        exact List.mem_cons_of_mem _ hj
      · rfl

theorem chainFrom_length_le (t : Table) : ∀ (n : Nat) (i : UInt16), (chainFrom t n i).length ≤ n
  | 0, _ => Nat.le_refl _
  | n + 1, i => by
      rw [chainFrom, List.length_cons]
      split
      · exact Nat.succ_le_succ (chainFrom_length_le t n _)
      · exact Nat.succ_le_succ (Nat.zero_le _)

theorem mem_chain (q : VirtIOQueue) (h : UInt16) : h ∈ chain q h := List.mem_cons_self ..

/-! ## Taking descriptors -/

/-- What `add_queue` writes into a descriptor: address, length and flags. -/
abbrev Buffer := UInt64 × UInt32 × UInt16

def VirtQueueDesc.buffer (d : VirtQueueDesc) : Buffer := (d.addr, d.len, d.flags)

/-- The buffers of the outputs from number `i` of `n` on, in a direct request. -/
def outputBuffers (n : Nat) : Nat → List Frame → List Buffer
  | _, [] => []
  | i, (pfn, len) :: fs => (pfn, len, outputFlags i n) :: outputBuffers n (i + 1) fs

/-- The buffers of a direct request. -/
def directBuffers (inputs outputs : List Frame) : List Buffer :=
  inputs.map (fun f => (f.1, f.2, descFNext)) ++ outputBuffers outputs.length 0 outputs

/-- The loops of the direct branch. -/
def pushAll : VirtIOQueue → List Buffer → VirtIOQueue
  | q, [] => q
  | q, b :: bs => pushAll (pushDesc q b.1 b.2.1 b.2.2) bs

theorem pushAll_append : ∀ (bs bs' : List Buffer) (q : VirtIOQueue),
    pushAll q (bs ++ bs') = pushAll (pushAll q bs) bs'
  | [], _, _ => rfl
  | _ :: bs, bs', _ => pushAll_append bs bs' _

theorem addInputs_eq : ∀ (fs : List Frame) (q : VirtIOQueue),
    addInputs q fs = pushAll q (fs.map fun f => (f.1, f.2, descFNext))
  | [], _ => rfl
  | _ :: fs, _ => addInputs_eq fs _

theorem addOutputs_eq (n : Nat) : ∀ (fs : List Frame) (i : Nat) (q : VirtIOQueue),
    addOutputs n i q fs = pushAll q (outputBuffers n i fs)
  | [], _, _ => rfl
  | _ :: fs, i, _ => addOutputs_eq n fs (i + 1) _

theorem addDirect_eq (q : VirtIOQueue) (inputs outputs : List Frame) :
    addOutputs outputs.length 0 (addInputs q inputs) outputs =
      pushAll q (directBuffers inputs outputs) := by
  rw [addInputs_eq, addOutputs_eq, ← pushAll_append, directBuffers]

theorem outputBuffers_length (n : Nat) : ∀ (fs : List Frame) (i : Nat),
    (outputBuffers n i fs).length = fs.length
  | [], _ => rfl
  | _ :: fs, i => congrArg (· + 1) (outputBuffers_length n fs (i + 1))

theorem directBuffers_length (inputs outputs : List Frame) :
    (directBuffers inputs outputs).length = inputs.length + outputs.length := by
  rw [directBuffers, List.length_append, List.length_map, outputBuffers_length]

/-- The descriptors `l` have taken the buffers `bs`, in the shared table as well.
No link has changed. -/
structure Pushed (q q' : VirtIOQueue) (l : List UInt16) (bs : List Buffer) : Prop where
  next : ∀ i, (q'.descShadow i).next = (q.descShadow i).next
  others : ∀ i ∉ l, q'.descShadow i = q.descShadow i ∧ q'.desc i = q.desc i
  shared : ∀ i ∈ l, q'.desc i = q'.descShadow i
  filled : l.map (fun i => (q'.descShadow i).buffer) = bs
  numUsed : q'.numUsed = q.numUsed + UInt16.ofNat l.length

theorem pushDesc_next (q : VirtIOQueue) (a : UInt64) (n : UInt32) (f : UInt16) (i : UInt16) :
    ((pushDesc q a n f).descShadow i).next = (q.descShadow i).next := by
  by_cases hi : i = q.freeHead
  · subst hi
    simp only [pushDesc, Function.update_self]
  · simp only [pushDesc, Function.update_of_ne hi]

theorem pushDesc_others {q : VirtIOQueue} (a : UInt64) (n : UInt32) (f : UInt16) {i : UInt16}
    (hi : i ≠ q.freeHead) : (pushDesc q a n f).descShadow i = q.descShadow i ∧
      (pushDesc q a n f).desc i = q.desc i :=
  ⟨Function.update_of_ne hi .., Function.update_of_ne hi ..⟩

theorem pushDesc_self (q : VirtIOQueue) (a : UInt64) (n : UInt32) (f : UInt16) :
    (pushDesc q a n f).desc q.freeHead = (pushDesc q a n f).descShadow q.freeHead ∧
      ((pushDesc q a n f).descShadow q.freeHead).buffer = (a, n, f) := by
  simp only [pushDesc, Function.update_self, VirtQueueDesc.buffer, and_self]

theorem pushAll_pushed : ∀ {l : List UInt16} {bs : List Buffer} {q : VirtIOQueue} {e : UInt16},
    Segment (fun i => (q.descShadow i).next) q.freeHead l e → l.length = bs.length → l.Nodup →
      Pushed q (pushAll q bs) l bs ∧ (pushAll q bs).freeHead = e
  | [], [], _, _, h, _, _ =>
      ⟨⟨fun _ => rfl, fun _ _ => ⟨rfl, rfl⟩, fun _ hi => absurd hi List.not_mem_nil, rfl,
        (UInt16.add_zero _).symm⟩, h⟩
  | i :: l, b :: bs, q, e, h, hlen, hnodup => by
      obtain ⟨hi, hnd⟩ := List.nodup_cons.mp hnodup
      obtain ⟨hhead, hseg⟩ := h
      subst hhead
      have hseg' : Segment (fun i => ((pushDesc q b.1 b.2.1 b.2.2).descShadow i).next)
          (pushDesc q b.1 b.2.1 b.2.2).freeHead l e :=
        hseg.congr fun j _ => pushDesc_next ..
      obtain ⟨hp, hfree⟩ := pushAll_pushed hseg' (Nat.succ.inj hlen) hnd
      -- the later turns leave the first descriptor alone
      obtain ⟨hshadow, hdesc⟩ := hp.others q.freeHead hi
      obtain ⟨hself, hbuffer⟩ := pushDesc_self q b.1 b.2.1 b.2.2
      rw [pushAll]
      refine ⟨⟨fun j => ?_, fun j hj => ?_, fun j hj => ?_, ?_, ?_⟩, hfree⟩
      · exact (hp.next j).trans (pushDesc_next ..)
      · obtain ⟨h₁, h₂⟩ := hp.others j (List.not_mem_of_not_mem_cons hj)
        obtain ⟨h₃, h₄⟩ := pushDesc_others b.1 b.2.1 b.2.2 (List.ne_of_not_mem_cons hj)
        exact ⟨h₁.trans h₃, h₂.trans h₄⟩
      · rcases List.mem_cons.mp hj with rfl | hj
        · rw [hshadow, hdesc, hself]
        · exact hp.shared j hj
      · rw [List.map_cons, hp.filled, hshadow, hbuffer]
      · rw [hp.numUsed, List.length_cons, Nat.add_comm l.length, UInt16.ofNat_add,
          ← UInt16.add_assoc]
        rfl

theorem pushAll_frame : ∀ (bs : List Buffer) (q : VirtIOQueue),
    (pushAll q bs).indirectLists = q.indirectLists ∧ (pushAll q bs).indirect = q.indirect
  | [], _ => ⟨rfl, rfl⟩
  | _ :: bs, _ => pushAll_frame bs _

/-- The one buffer of an indirect request. -/
def indirectBuffer (inputs outputs : List Frame) (page : Nat × UInt64) : Buffer :=
  (pageAddr page.2, UInt32.ofNat (16 * needed inputs outputs), descFIndirect)

theorem addIndirect_pushed {q : VirtIOQueue} (inputs outputs : List Frame) (page : Nat × UInt64)
    (h : q.indirectLists q.freeHead = none) :
    ∃ q', addIndirect q inputs outputs page = some q' ∧
      Pushed q q' [q.freeHead] [indirectBuffer inputs outputs page] ∧
      q'.freeHead = (q.descShadow q.freeHead).next ∧
      q'.indirectLists = Function.update q.indirectLists q.freeHead (some page.1) ∧
      q'.indirect = q.indirect ∧
      q'.listMem page.2 = indirectList (q.listMem page.2) inputs outputs := by
  rw [addIndirect]
  dsimp only
  rw [h]
  refine ⟨_, rfl, ⟨fun j => ?_, fun j hj => ?_, fun j hj => ?_, ?_, rfl⟩, rfl, rfl, rfl,
    Function.update_self ..⟩
  · by_cases hj : j = q.freeHead
    · dsimp only
      rw [hj, Function.update_self]
    · dsimp only
      rw [Function.update_of_ne hj]
  · have hne := List.ne_of_not_mem_cons hj
    exact ⟨Function.update_of_ne hne .., Function.update_of_ne hne ..⟩
  · rw [List.mem_singleton.mp hj]
    dsimp only
    rw [Function.update_self, Function.update_self]
  · dsimp only [List.map]
    rw [Function.update_self]
    rfl

/-- All buffers but the last have `VRING_DESC_F_NEXT`, and none is indirect. -/
def Terminated : List Buffer → Prop
  | [] => False
  | [b] => b.2.2 &&& descFNext = 0 ∧ b.2.2 &&& descFIndirect = 0
  | b :: b' :: bs =>
      b.2.2 &&& descFNext ≠ 0 ∧ b.2.2 &&& descFIndirect = 0 ∧ Terminated (b' :: bs)

theorem outputBuffers_terminated (n : Nat) : ∀ (fs : List Frame) (i : Nat), fs ≠ [] →
    i + fs.length = n → Terminated (outputBuffers n i fs)
  | [f], i, _, hn => by
      have hlast : ¬ i ≠ n - 1 := by
        rw [List.length_singleton] at hn
        omega
      rw [outputBuffers, outputBuffers, Terminated, outputFlags, if_neg hlast]
      exact ⟨show descFWrite &&& descFNext = 0 by decide,
        show descFWrite &&& descFIndirect = 0 by decide⟩
  | f :: f' :: fs, i, _, hn => by
      have hmid : i ≠ n - 1 := by
        rw [List.length_cons, List.length_cons] at hn
        omega
      have ih := outputBuffers_terminated n (f' :: fs) (i + 1) (List.cons_ne_nil _ _)
        (by rw [List.length_cons] at hn; omega)
      rw [outputBuffers, outputFlags, if_pos hmid]
      exact ⟨show (descFWrite ||| descFNext) &&& descFNext ≠ 0 by decide,
        show (descFWrite ||| descFNext) &&& descFIndirect = 0 by decide, ih⟩

theorem directBuffers_terminated : ∀ (inputs : List Frame) {outputs : List Frame}, outputs ≠ [] →
    Terminated (directBuffers inputs outputs)
  | [], outputs, h => outputBuffers_terminated _ outputs 0 h (Nat.zero_add _)
  | f :: fs, outputs, h => by
      have ih := directBuffers_terminated fs h
      rw [directBuffers, List.map_cons, List.cons_append]
      rw [directBuffers] at ih
      cases hrest : fs.map (fun f => (f.1, f.2, descFNext)) ++ outputBuffers outputs.length 0 outputs with
      | nil => rw [hrest] at ih; exact ih.elim
      | cons b bs =>
          rw [hrest] at ih
          exact ⟨show descFNext &&& descFNext ≠ 0 by decide,
            show descFNext &&& descFIndirect = 0 by decide, ih⟩

/-- A stretch of the links that has taken the buffers of a request is a chain. -/
theorem linked_of_terminated {t : Table} : ∀ {l : List UInt16} {a e : UInt16},
    Segment (fun i => (t i).next) a l e → Terminated (l.map fun i => (t i).buffer) → Linked t l
  | [], _, _, _, h => h
  | [_], _, _, _, h => h.1
  | _ :: _ :: _, _, _, hseg, h =>
      ⟨h.1, hseg.2.1, linked_of_terminated hseg.2 h.2.2⟩

/-! ## Putting a chain back -/

/-- The chain `l` of `head` is in front of the old free list. -/
structure Recycled (q q' : VirtIOQueue) (head : UInt16) (l : List UInt16) : Prop where
  links : Segment (fun i => (q'.descShadow i).next) head l q.freeHead
  others : ∀ i ∉ l, q'.descShadow i = q.descShadow i ∧ q'.desc i = q.desc i
  numUsed : q'.numUsed = q.numUsed - UInt16.ofNat l.length
  freeHead : q'.freeHead = head
  indirect : q'.indirect = q.indirect

theorem recycleChain_spec (orig : UInt16) : ∀ {l : List UInt16} {fuel : Nat} {q : VirtIOQueue}
    {i : UInt16}, Linked q.descShadow (i :: l) → (i :: l).Nodup → l.length < fuel →
      ∃ q', recycleChain orig fuel q i = some q' ∧
        Segment (fun i => (q'.descShadow i).next) i (i :: l) orig ∧
        (∀ j ∉ i :: l, q'.descShadow j = q.descShadow j ∧ q'.desc j = q.desc j) ∧
        q'.numUsed = q.numUsed - UInt16.ofNat (l.length + 1) ∧ q'.freeHead = q.freeHead ∧
        q'.indirect = q.indirect ∧ q'.indirectLists = q.indirectLists
  | [], fuel + 1, q, i, h, _, _ => by
      have hlast : (q.descShadow i).flags &&& descFNext = 0 := h
      rw [recycleChain]
      dsimp only
      rw [if_neg (fun hne => hne hlast)]
      refine ⟨_, rfl, ⟨rfl, ?_⟩, fun j hj => ⟨?_, rfl⟩, rfl, rfl, rfl, rfl⟩
      · dsimp only [Segment]
        rw [Function.update_self]
      · exact Function.update_of_ne (List.ne_of_not_mem_cons hj) ..
  | j :: l, fuel + 1, q, i, h, hnd, hfuel => by
      obtain ⟨hflag, hnext, hl⟩ := h
      obtain ⟨hi, hnd⟩ := List.nodup_cons.mp hnd
      rw [recycleChain]
      dsimp only
      rw [if_pos hflag, hnext]
      have hl' : Linked (Function.update q.descShadow i
          { addr := 0, len := 0, flags := (q.descShadow i).flags, next := j }) (j :: l) :=
        hl.congr fun k hk => Function.update_of_ne (ne_of_mem_of_not_mem hk hi) ..
      obtain ⟨q', hq', hseg, hothers, hused, hframe⟩ := recycleChain_spec orig
        (q := { q with
          descShadow := Function.update q.descShadow i
            { addr := 0, len := 0, flags := (q.descShadow i).flags, next := j }
          desc := Function.update q.desc i
            { addr := 0, len := 0, flags := (q.descShadow i).flags, next := j }
          numUsed := q.numUsed - 1 }) hl' hnd (Nat.lt_of_succ_lt_succ hfuel)
      refine ⟨q', hq', ⟨rfl, ?_⟩, fun k hk => ?_, ?_, hframe⟩
      · have hlink : (q'.descShadow i).next = j := by
          rw [(hothers i hi).1]
          dsimp only
          rw [Function.update_self]
        show Segment _ (q'.descShadow i).next (j :: l) orig
        rw [hlink]
        exact hseg
      · have hne := List.ne_of_not_mem_cons hk
        obtain ⟨h₁, h₂⟩ := hothers k (List.not_mem_of_not_mem_cons hk)
        exact ⟨h₁.trans (Function.update_of_ne hne ..), h₂.trans (Function.update_of_ne hne ..)⟩
      · rw [hused, List.length_cons, UInt16.ofNat_add (l.length + 1) 1]
        grind

/-! ## Requests and completions in any order -/

/-- The queue with the heads of the requests that are not completed. -/
structure Ring where
  q : VirtIOQueue
  heads : List UInt16

inductive Ring.Event where
  | add (inputs outputs : List Frame) (page : Nat × UInt64)
  | recycle (head : UInt16)

/-- The requests that are considered: an output, and at most 16 buffers. -/
def Fits (inputs outputs : List Frame) : Prop :=
  outputs ≠ [] ∧ inputs.length + outputs.length ≤ numDesc

instance (inputs outputs : List Frame) : Decidable (Fits inputs outputs) :=
  inferInstanceAs (Decidable (_ ∧ _))

/-- One call.  `none` where it is not considered or panics. -/
def Ring.step (s : Ring) : Event → Option Ring
  | .add inputs outputs page =>
      if Fits inputs outputs then
        match addQueue s.q inputs outputs page with
        | none => none
        | some (none, q) => some { s with q }
        | some (some head, q) => some ⟨q, head :: s.heads⟩
      else none
  | .recycle head =>
      if head ∈ s.heads then
        (recycleDescriptors s.q head).map fun q => ⟨q, s.heads.erase head⟩
      else none

/-- No descriptor is lost, shared or out of step, and no call panics. -/
structure Ring.Sound (s : Ring) : Prop where
  partition : (freeList s.q ++ s.heads.flatMap (chain s.q)).Perm numbers
  linked : ∀ h ∈ s.heads, Linked s.q.descShadow (chain s.q h)
  published : ∀ h ∈ s.heads, ∀ i ∈ chain s.q h, s.q.desc i = s.q.descShadow i
  noPanic : ∀ inputs outputs page, Fits inputs outputs → addQueue s.q inputs outputs page ≠ none
  returns : ∀ h ∈ s.heads, recycleDescriptors s.q h ≠ none

/-- The invariant, for a queue of the given mode. -/
structure Ring.Inv (mode : Bool) (s : Ring) : Prop where
  mode : s.q.indirect = mode
  numUsed : s.q.numUsed.toNat ≤ numDesc
  partition : (freeList s.q ++ s.heads.flatMap (chain s.q)).Perm numbers
  linked : ∀ h ∈ s.heads, Linked s.q.descShadow (chain s.q h)
  published : ∀ h ∈ s.heads, ∀ i ∈ chain s.q h, s.q.desc i = s.q.descShadow i
  lists : ∀ i, s.q.indirectLists i ≠ none →
    i ∈ s.heads ∧ (s.q.descShadow i).flags &&& descFIndirect ≠ 0
  single : ∀ h ∈ s.heads, (s.q.descShadow h).flags &&& descFIndirect ≠ 0 →
    (s.q.descShadow h).flags &&& descFNext = 0

section Ring

variable {s : Ring} {mode : Bool} {q' : VirtIOQueue} {l rest : List UInt16}

theorem freeList_length (q : VirtIOQueue) : (freeList q).length = numDesc - q.numUsed.toNat :=
  List.length_iterate ..

theorem Ring.Inv.nodup (hi : Ring.Inv mode s) : (freeList s.q ++ s.heads.flatMap (chain s.q)).Nodup :=
  hi.partition.nodup_iff.mpr (by decide)

theorem Ring.Inv.length (hi : Ring.Inv mode s) :
    (freeList s.q).length + (s.heads.flatMap (chain s.q)).length = numDesc := by
  rw [← List.length_append, hi.partition.length_eq]
  rfl

/-- A free descriptor is in no chain. -/
theorem Ring.Inv.notMem_chain (hi : Ring.Inv mode s) {i h : UInt16} (hfree : i ∈ freeList s.q)
    (hh : h ∈ s.heads) : i ∉ chain s.q h := fun hc =>
  (List.nodup_append'.mp hi.nodup).2.2 hfree (List.mem_flatMap.mpr ⟨h, hh, hc⟩)

theorem Ring.Inv.notMem_heads (hi : Ring.Inv mode s) {i : UInt16} (hfree : i ∈ freeList s.q) :
    i ∉ s.heads := fun hh => hi.notMem_chain hfree hh (mem_chain ..)

/-- The first descriptors of the free list become the chain of a new head. -/
theorem Ring.Inv.add (hi : Ring.Inv mode s) {bs : List Buffer} {i e : UInt16}
    (hfree : freeList s.q = (i :: l) ++ rest) (hp : Pushed s.q q' (i :: l) bs)
    (hrest : Segment (fun j => (s.q.descShadow j).next) q'.freeHead rest e)
    (hlinked : Linked q'.descShadow (i :: l)) (hmode : q'.indirect = mode)
    (hlists : ∀ j, q'.indirectLists j ≠ none → s.q.indirectLists j ≠ none ∨
      j = i ∧ (q'.descShadow j).flags &&& descFIndirect ≠ 0)
    (hsingle : (q'.descShadow i).flags &&& descFIndirect ≠ 0 →
      (q'.descShadow i).flags &&& descFNext = 0) :
    Ring.Inv mode ⟨q', i :: s.heads⟩ := by
  have hlen : (freeList s.q).length = (l.length + 1) + rest.length := by
    rw [hfree, List.length_append, List.length_cons]
  have hle := hi.length
  have hused : q'.numUsed.toNat = s.q.numUsed.toNat + (l.length + 1) := by
    have h₁ := freeList_length s.q
    have h16 : numDesc = 16 := rfl
    rw [hp.numUsed, UInt16.toNat_add, UInt16.toNat_ofNat', List.length_cons]
    have := hi.numUsed
    omega
  -- the free list has lost its first descriptors
  have hfree' : freeList q' = rest := by
    have hn : numDesc - q'.numUsed.toNat = rest.length := by
      rw [hused]
      rw [freeList_length] at hlen
      omega
    rw [freeList, hn]
    exact (hrest.congr fun j _ => hp.next j).iterate_eq
  have hchain : chain q' i = i :: l := by
    refine hlinked.chainFrom_eq ?_
    omega
  have hold : ∀ h ∈ s.heads, ∀ j ∈ chain s.q h,
      q'.descShadow j = s.q.descShadow j ∧ q'.desc j = s.q.desc j := by
    intro h hh j hj
    refine hp.others j fun hmem => hi.notMem_chain ?_ hh hj
    rw [hfree]
    exact List.mem_append_left _ hmem
  have hchains : ∀ h ∈ s.heads, chain q' h = chain s.q h := fun h hh =>
    chainFrom_congr _ _ fun j hj => (hold h hh j hj).1
  have hused' : q'.numUsed.toNat ≤ numDesc := by
    have h₁ := freeList_length s.q
    have h₂ := hi.numUsed
    omega
  refine ⟨hmode, hused', ?_, ?_, ?_, ?_, ?_⟩
  · have hflat : s.heads.flatMap (chain q') = s.heads.flatMap (chain s.q) :=
      List.flatMap_congr hchains
    refine List.Perm.trans ?_ hi.partition
    show (freeList q' ++ (i :: s.heads).flatMap (chain q')).Perm _
    rw [List.flatMap_cons, hflat, hchain, hfree', hfree, ← List.append_assoc]
    exact List.perm_append_comm.append_right _
  · rintro h (_ | ⟨_, hh⟩)
    · show Linked q'.descShadow (chain q' i)
      rw [hchain]
      exact hlinked
    · show Linked q'.descShadow (chain q' h)
      rw [hchains h hh]
      exact (hi.linked h hh).congr fun j hj => (hold h hh j hj).1
  · rintro h (_ | ⟨_, hh⟩) j hj
    · change j ∈ chain q' i at hj
      rw [hchain] at hj
      exact hp.shared j hj
    · change j ∈ chain q' h at hj
      rw [hchains h hh] at hj
      obtain ⟨h₁, h₂⟩ := hold h hh j hj
      show q'.desc j = q'.descShadow j
      rw [h₁, h₂]
      exact hi.published h hh j hj
  · intro j hj
    rcases hlists j hj with hold' | ⟨rfl, hflag⟩
    · obtain ⟨hh, hflag⟩ := hi.lists j hold'
      refine ⟨List.mem_cons_of_mem _ hh, ?_⟩
      show (q'.descShadow j).flags &&& descFIndirect ≠ 0
      rw [(hold j hh j (mem_chain ..)).1]
      exact hflag
    · exact ⟨List.mem_cons_self .., hflag⟩
  · rintro h (_ | ⟨_, hh⟩) hflag
    · exact hsingle hflag
    · change (q'.descShadow h).flags &&& descFIndirect ≠ 0 at hflag
      show (q'.descShadow h).flags &&& descFNext = 0
      rw [(hold h hh h (mem_chain ..)).1] at hflag ⊢
      exact hi.single h hh hflag

/-- The chain of a head goes back to the front of the free list. -/
theorem Ring.Inv.recycle (hi : Ring.Inv mode s) {head : UInt16} (hh : head ∈ s.heads)
    (hr : Recycled s.q q' head (chain s.q head))
    (hlists : ∀ j, q'.indirectLists j ≠ none → j ≠ head ∧ s.q.indirectLists j ≠ none) :
    Ring.Inv mode ⟨q', s.heads.erase head⟩ := by
  have hperm := List.perm_cons_erase hh
  have hflat : (s.heads.flatMap (chain s.q)).Perm
      (chain s.q head ++ (s.heads.erase head).flatMap (chain s.q)) := hperm.flatMap_right _
  have hpart : (freeList s.q ++ (chain s.q head ++ (s.heads.erase head).flatMap (chain s.q))).Perm
      numbers := (hflat.append_left _).symm.trans hi.partition
  have hnodup := hpart.nodup_iff.mpr (show numbers.Nodup by decide)
  obtain ⟨-, hnd, hdisj⟩ := List.nodup_append'.mp hnodup
  obtain ⟨-, -, hdisj'⟩ := List.nodup_append'.mp hnd
  have hlen := hpart.length_eq
  rw [List.length_append, List.length_append, freeList_length] at hlen
  have hused : q'.numUsed.toNat = s.q.numUsed.toNat - (chain s.q head).length := by
    have h16 : numbers.length = 16 := by decide
    have hnum : numDesc = 16 := rfl
    have hof : (UInt16.ofNat (chain s.q head).length).toNat = (chain s.q head).length := by
      rw [UInt16.toNat_ofNat']
      omega
    rw [hr.numUsed, UInt16.toNat_sub_of_le _ _ (UInt16.le_iff_toNat_le.mpr (by omega)), hof]
  have hfree : freeList q' = chain s.q head ++ freeList s.q := by
    obtain ⟨e, hseg⟩ := Segment.of_iterate (fun i => (s.q.descShadow i).next)
      (numDesc - s.q.numUsed.toNat) s.q.freeHead
    have hseg' : Segment (fun i => (q'.descShadow i).next) head (chain s.q head ++ freeList s.q) e :=
      hr.links.append (hseg.congr fun j hj => by
        rw [(hr.others j fun hc => hdisj hj (List.mem_append_left _ hc)).1])
    have hn : numDesc - q'.numUsed.toNat = (chain s.q head ++ freeList s.q).length := by
      have h16 : numbers.length = numDesc := rfl
      have := hi.numUsed
      rw [List.length_append, freeList_length, hused]
      omega
    rw [freeList, hn, hr.freeHead]
    exact hseg'.iterate_eq
  have hmem : ∀ h ∈ s.heads.erase head, h ∈ s.heads := fun h => List.mem_of_mem_erase
  have hold : ∀ h ∈ s.heads.erase head, ∀ j ∈ chain s.q h,
      q'.descShadow j = s.q.descShadow j ∧ q'.desc j = s.q.desc j := fun h hh' j hj =>
    hr.others j fun hc => hdisj' hc (List.mem_flatMap.mpr ⟨h, hh', hj⟩)
  have hchains : ∀ h ∈ s.heads.erase head, chain q' h = chain s.q h := fun h hh' =>
    chainFrom_congr _ _ fun j hj => (hold h hh' j hj).1
  have hused' : q'.numUsed.toNat ≤ numDesc := by
    have := hi.numUsed
    omega
  refine ⟨hr.indirect.trans hi.mode, hused', ?_, fun h hh' => ?_, fun h hh' j hj => ?_,
    fun j hj => ?_, fun h hh' hflag => ?_⟩
  · refine List.Perm.trans ?_ hpart
    show (freeList q' ++ (s.heads.erase head).flatMap (chain q')).Perm _
    rw [List.flatMap_congr hchains, hfree, ← List.append_assoc]
    exact List.perm_append_comm.append_right _
  · show Linked q'.descShadow (chain q' h)
    rw [hchains h hh']
    exact (hi.linked h (hmem h hh')).congr fun j hj => (hold h hh' j hj).1
  · change j ∈ chain q' h at hj
    rw [hchains h hh'] at hj
    obtain ⟨h₁, h₂⟩ := hold h hh' j hj
    show q'.desc j = q'.descShadow j
    rw [h₁, h₂]
    exact hi.published h (hmem h hh') j hj
  · obtain ⟨hne, hj⟩ := hlists j hj
    obtain ⟨hj', hflag⟩ := hi.lists j hj
    have herase : j ∈ s.heads.erase head := (List.mem_erase_of_ne hne).mpr hj'
    refine ⟨herase, ?_⟩
    show (q'.descShadow j).flags &&& descFIndirect ≠ 0
    rw [(hold j herase j (mem_chain ..)).1]
    exact hflag
  · change (q'.descShadow h).flags &&& descFIndirect ≠ 0 at hflag
    show (q'.descShadow h).flags &&& descFNext = 0
    rw [(hold h hh' h (mem_chain ..)).1] at hflag ⊢
    exact hi.single h (hmem h hh') hflag

/-! ## The calls -/

theorem needed_eq {inputs outputs : List Frame} (h : Fits inputs outputs) :
    needed inputs outputs = inputs.length + outputs.length := by
  have h16 : numDesc = 16 := rfl
  have := h.2
  rw [needed]
  omega

/-- The free list, split behind its first `n` descriptors. -/
theorem freeList_split (q : VirtIOQueue) {n : Nat} (hn : n ≤ numDesc - q.numUsed.toNat) :
    ∃ l rest b e, freeList q = l ++ rest ∧ l.length = n ∧
      Segment (fun i => (q.descShadow i).next) q.freeHead l b ∧
      Segment (fun i => (q.descShadow i).next) b rest e := by
  obtain ⟨e, hseg⟩ := Segment.of_iterate (fun i => (q.descShadow i).next)
    (numDesc - q.numUsed.toNat) q.freeHead
  change Segment _ _ (freeList q) _ at hseg
  have happ := List.take_append_drop n (freeList q)
  rw [← happ] at hseg
  obtain ⟨b, h₁, h₂⟩ := hseg.split
  refine ⟨_, _, b, e, happ.symm, ?_, h₁, h₂⟩
  rw [List.length_take, freeList_length]
  exact Nat.min_eq_left hn

/-- What a request that is not refused finds: a free descriptor without a list. -/
theorem Ring.Inv.free_head (hi : Ring.Inv mode s) (hlt : s.q.numUsed.toNat < numDesc) :
    s.q.freeHead ∈ freeList s.q ∧ s.q.indirectLists s.q.freeHead = none := by
  have hmem : s.q.freeHead ∈ freeList s.q := by
    obtain ⟨n, hn⟩ : ∃ n, numDesc - s.q.numUsed.toNat = n + 1 :=
      ⟨numDesc - s.q.numUsed.toNat - 1, by omega⟩
    rw [freeList, hn]
    exact List.mem_cons_self ..
  refine ⟨hmem, ?_⟩
  cases hl : s.q.indirectLists s.q.freeHead with
  | none => rfl
  | some page =>
      have hhead := (hi.lists s.q.freeHead (by rw [hl]; exact Option.some_ne_none _)).1
      exact absurd hhead (hi.notMem_heads hmem)

theorem Ring.Inv.publish (hi : Ring.Inv mode s) (head : UInt16) :
    Ring.Inv mode ⟨Virtio.publish s.q head, s.heads⟩ :=
  ⟨hi.mode, hi.numUsed, hi.partition, hi.linked, hi.published, hi.lists, hi.single⟩

/-- The direct branch. -/
theorem Ring.Inv.addDirect (hi : Ring.Inv mode s) {inputs outputs : List Frame}
    (hf : Fits inputs outputs)
    (hroom : inputs.length + outputs.length ≤ numDesc - s.q.numUsed.toNat) :
    ∃ l, Pushed s.q (pushAll s.q (directBuffers inputs outputs)) (s.q.freeHead :: l)
        (directBuffers inputs outputs) ∧
      Linked (pushAll s.q (directBuffers inputs outputs)).descShadow (s.q.freeHead :: l) ∧
      Ring.Inv mode ⟨pushAll s.q (directBuffers inputs outputs), s.q.freeHead :: s.heads⟩ := by
  obtain ⟨l, rest, b, e, hfree, hlen, hseg, hrest⟩ := freeList_split s.q hroom
  have hnodup : l.Nodup := by
    have hnd := (List.nodup_append'.mp hi.nodup).1
    rw [hfree] at hnd
    exact (List.nodup_append'.mp hnd).1
  obtain ⟨hp, hb⟩ := pushAll_pushed hseg
    (hlen.trans (directBuffers_length inputs outputs).symm) hnodup
  have hterm := directBuffers_terminated inputs hf.1
  rw [← hp.filled] at hterm
  have hlinked := linked_of_terminated (hseg.congr fun j _ => hp.next j) hterm
  cases l with
  | nil => exact hlinked.elim
  | cons i l =>
      cases hseg.1
      refine ⟨l, hp, hlinked, hi.add hfree hp (hb.symm ▸ hrest) hlinked ?_ ?_ ?_⟩
      · exact (pushAll_frame ..).2.trans hi.mode
      · intro j hj
        rw [(pushAll_frame ..).1] at hj
        exact .inl hj
      · -- no buffer of a direct request is indirect
        intro hflag
        exfalso
        cases l with
        | nil => exact hflag hterm.2
        | cons j l => exact hflag hterm.2.1

/-- The indirect branch. -/
theorem Ring.Inv.addIndirect (hi : Ring.Inv mode s) (inputs outputs : List Frame)
    (page : Nat × UInt64) (hlt : s.q.numUsed.toNat < numDesc) :
    ∃ q', Virtio.addIndirect s.q inputs outputs page = some q' ∧
      (q'.desc s.q.freeHead).buffer = indirectBuffer inputs outputs page ∧
      q'.listMem page.2 = indirectList (s.q.listMem page.2) inputs outputs ∧
      Ring.Inv mode ⟨q', s.q.freeHead :: s.heads⟩ := by
  obtain ⟨q', hq', hp, hhead, hlists, hmode, hmem⟩ :=
    addIndirect_pushed inputs outputs page (hi.free_head hlt).2
  obtain ⟨l, rest, b, e, hfree, hlen, hseg, hrest⟩ := freeList_split s.q
    (show 1 ≤ numDesc - s.q.numUsed.toNat by omega)
  obtain ⟨i, rfl⟩ := List.length_eq_one_iff.mp hlen
  obtain ⟨rfl, rfl⟩ := hseg
  change Segment _ (s.q.descShadow s.q.freeHead).next rest e at hrest
  rw [← hhead] at hrest
  have hbuffer : (q'.descShadow s.q.freeHead).buffer = indirectBuffer inputs outputs page :=
    List.singleton_inj.mp hp.filled
  have hflags : (q'.descShadow s.q.freeHead).flags = descFIndirect :=
    congrArg (fun b => b.2.2) hbuffer
  have hnext : descFIndirect &&& descFNext = 0 := by decide
  have hind : descFIndirect &&& descFIndirect ≠ 0 := by decide
  refine ⟨q', hq', ?_, hmem, hi.add hfree hp hrest ?_ (hmode.trans hi.mode)
    (fun j hj => ?_) fun _ => hflags ▸ hnext⟩
  · rw [hp.shared _ (List.mem_cons_self ..), hbuffer]
  · rw [Linked, hflags]
    exact hnext
  · by_cases hne : j = s.q.freeHead
    · exact .inr ⟨hne, by rw [hne, hflags]; exact hind⟩
    · rw [hlists, Function.update_of_ne hne] at hj
      exact .inl hj

/-- What `add_queue` has done before it publishes the head. -/
inductive Added (q q' : VirtIOQueue) (inputs outputs : List Frame) (page : Nat × UInt64) : Prop where
  | direct (l : List UInt16) : ¬ (q.indirect ∧ 1 < inputs.length + outputs.length) →
      Pushed q q' (q.freeHead :: l) (directBuffers inputs outputs) →
      Linked q'.descShadow (q.freeHead :: l) → Added q q' inputs outputs page
  | indirect : q.indirect ∧ 1 < inputs.length + outputs.length →
      (q'.desc q.freeHead).buffer = indirectBuffer inputs outputs page →
      q'.listMem page.2 = indirectList (q.listMem page.2) inputs outputs →
      Added q q' inputs outputs page

/-- `add_queue` returns, and what it publishes is a new chain. -/
theorem Ring.Inv.addQueue (hi : Ring.Inv mode s) {inputs outputs : List Frame}
    (hf : Fits inputs outputs) (page : Nat × UInt64) :
    Virtio.addQueue s.q inputs outputs page = some (none, s.q) ∨
      ∃ q', Virtio.addQueue s.q inputs outputs page =
          some (some s.q.freeHead, Virtio.publish q' s.q.freeHead) ∧
        Added s.q q' inputs outputs page ∧ Ring.Inv mode ⟨q', s.q.freeHead :: s.heads⟩ := by
  rw [Virtio.addQueue, addRefused, needed_eq hf]
  by_cases hr : numDesc ≤ s.q.numUsed.toNat ∨ numDesc < inputs.length + outputs.length ∨
      (s.q.indirect = false ∧ numDesc < s.q.numUsed.toNat + (inputs.length + outputs.length))
  · rw [decide_eq_true hr]
    exact .inl rfl
  rw [decide_eq_false hr]
  have hlt : s.q.numUsed.toNat < numDesc := by omega
  right
  rw [if_neg Bool.false_ne_true]
  by_cases hind : s.q.indirect ∧ 1 < inputs.length + outputs.length
  · obtain ⟨q', hq', hbuffer, hmem, hi'⟩ := hi.addIndirect inputs outputs page hlt
    have hpage : ¬ 4096 < (inputs.length + outputs.length) * 16 := by
      have h16 : numDesc = 16 := rfl
      have := hf.2
      omega
    rw [if_pos hind, if_neg hpage, hq']
    exact ⟨q', rfl, .indirect hind hbuffer hmem, hi'⟩
  · have hroom : inputs.length + outputs.length ≤ numDesc - s.q.numUsed.toNat := by
      cases hm : s.q.indirect with
      | true =>
          have : ¬ 1 < inputs.length + outputs.length := fun h => hind ⟨hm, h⟩
          omega
      | false =>
          have : ¬ numDesc < s.q.numUsed.toNat + (inputs.length + outputs.length) := fun h =>
            hr (.inr (.inr ⟨hm, h⟩))
          omega
    obtain ⟨l, hp, hlinked, hi'⟩ := hi.addDirect hf hroom
    rw [if_neg hind, addDirect_eq]
    exact ⟨_, rfl, .direct l hind hp hlinked, hi'⟩

/-- `recycle_descriptors` returns, and the chain is free. -/
theorem Ring.Inv.recycleDescriptors (hi : Ring.Inv mode s) {head : UInt16} (hh : head ∈ s.heads) :
    ∃ q', Virtio.recycleDescriptors s.q head = some q' ∧
      Ring.Inv mode ⟨q', s.heads.erase head⟩ := by
  rw [Virtio.recycleDescriptors]
  by_cases hflag : (s.q.descShadow head).flags &&& descFIndirect ≠ 0
  · have hchain : chain s.q head = [head] := by
      rw [chain, numDesc, chainFrom, if_neg fun hne => hne (hi.single head hh hflag)]
    rw [if_pos hflag]
    refine ⟨_, rfl, hi.recycle hh ?_ fun j hj => ?_⟩
    · rw [hchain]
      refine ⟨⟨rfl, ?_⟩, fun j hj => ⟨?_, rfl⟩, rfl, rfl, rfl⟩
      · dsimp only [Segment]
        rw [Function.update_self]
      · exact Function.update_of_ne (List.ne_of_not_mem_cons hj) ..
    · by_cases hne : j = head
      · dsimp only at hj
        rw [hne, Function.update_self] at hj
        exact absurd rfl hj
      · dsimp only at hj
        rw [Function.update_of_ne hne] at hj
        exact ⟨hne, hj⟩
  · rw [if_neg hflag]
    have hlen : (chain s.q head).length ≤ numDesc := chainFrom_length_le ..
    have hlinked := hi.linked head hh
    obtain ⟨l, hl⟩ : ∃ l, chain s.q head = head :: l := ⟨_, rfl⟩
    have hnodup : (chain s.q head).Nodup := by
      have hnd := (List.nodup_append'.mp hi.nodup).2.1
      exact (List.nodup_flatMap.mp hnd).1 head hh
    rw [hl] at hlinked hlen hnodup
    obtain ⟨q', hq', hlinks, hothers, hused, hhead, hmode, hlists⟩ :=
      recycleChain_spec s.q.freeHead (q := { s.q with freeHead := head }) hlinked hnodup hlen
    refine ⟨q', hq', hi.recycle hh ?_ fun j hj => ?_⟩
    · rw [hl]
      exact ⟨hlinks, hothers, hused, hhead, hmode⟩
    · rw [hlists] at hj
      refine ⟨fun he => hflag ?_, hj⟩
      rw [← he]
      exact (hi.lists j hj).2

theorem Ring.Inv.sound (hi : Ring.Inv mode s) : Ring.Sound s := by
  refine ⟨hi.partition, hi.linked, hi.published, fun inputs outputs page hf hnone => ?_,
    fun h hh hnone => ?_⟩
  · rcases hi.addQueue hf page with h | ⟨q', h, -, -⟩
    · rw [h] at hnone
      cases hnone
    · rw [h] at hnone
      cases hnone
  · obtain ⟨q', h, -⟩ := hi.recycleDescriptors hh
    rw [h] at hnone
    cases hnone

/-- Every call keeps the invariant. -/
theorem Ring.Inv.step {s' : Ring} (hi : Ring.Inv mode s) {e : Ring.Event}
    (h : s.step e = some s') : Ring.Inv mode s' := by
  cases e with
  | add inputs outputs page =>
      rw [Ring.step] at h
      split at h
      · rename_i hf
        rcases hi.addQueue hf page with hq | ⟨q', hq, -, hi'⟩
        · rw [hq] at h
          cases h
          exact hi
        · rw [hq] at h
          cases h
          exact hi'.publish _
      · cases h
  | recycle head =>
      rw [Ring.step] at h
      split at h
      · rename_i hh
        obtain ⟨q', hq, hi'⟩ := hi.recycleDescriptors hh
        rw [hq] at h
        cases h
        exact hi'
      · cases h

theorem ring_init (mode : Bool) : Ring.Inv mode ⟨initQueue mode, []⟩ := by
  refine ⟨rfl, show 0 ≤ numDesc by decide, ?_, fun _ hh => absurd hh List.not_mem_nil,
    fun _ hh => absurd hh List.not_mem_nil, fun _ hne => absurd rfl hne,
    fun _ hh => absurd hh List.not_mem_nil⟩
  rw [List.flatMap_nil, List.append_nil]
  exact List.Perm.of_eq (show List.iterate (fun i => (linkedDesc i).next) 0 16 = numbers by decide)

end Ring

/-- The run of any calls on a queue that `init_queue` has set up. -/
theorem run_sound {mode : Bool} {r : List (Ring.Event × Ring)}
    (h : IsRun (fun s e s' => Ring.step s e = some s') ⟨initQueue mode, []⟩ r) :
    EveryState Ring.Sound ⟨initQueue mode, []⟩ r :=
  (h.invariant (fun _ _ _ hi hs => Ring.Inv.step hi hs) (ring_init mode)).mono
    fun _ hi => hi.sound

/-- Two requests, of which the first is completed first. -/
def twoRequests : List Ring.Event :=
  [.add [(100, 16), (101, 4096)] [(102, 1)] (0, 0), .add [(103, 16)] [(104, 4096), (105, 1)] (0, 0),
    .recycle 0]

theorem run_sound_twoRequests :
    ∃ r, runOf Ring.step ⟨initQueue false, []⟩ twoRequests = some r ∧
      EveryState Ring.Sound ⟨initQueue false, []⟩ r := by
  have hsome : (runOf Ring.step ⟨initQueue false, []⟩ twoRequests).isSome := by decide
  obtain ⟨r, hr⟩ := Option.isSome_iff_exists.mp hsome
  exact ⟨r, hr, run_sound (isRun_runOf hr)⟩

end Virtio
