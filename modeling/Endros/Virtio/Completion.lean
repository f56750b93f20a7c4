import Endros.Lib.Run
import Endros.Virtio.Queue

/-!
# Driver and device: `queue_add_notify_pop`

The driver takes one request at a time through `queue_add_notify_pop`: it adds
a request, waits until `last_used_idx` differs from the device's `used->idx`,
reads the used entry and recycles the descriptors.  The device may at any time
take any head that is published and not yet answered, write the next used entry
and increment `used->idx`.

`last_used_idx` has 32 bits and `used->idx` has 16.  As long as `last_used_idx`
fits into 16 bits the two are equal when a call starts to wait, and the loop is
left only after the device has answered (`leave_completed`).  Once
`last_used_idx` has reached `2 ^ 16` the comparison never finds them equal and
every call leaves the loop at once (`leave_of_wrapped`).
-/

namespace Virtio

open Lib

/-- Where the driver is in `queue_add_notify_pop`. -/
inductive Pc where
  | idle
  /-- In the wait loop, for the request `req` whose head is `token`. -/
  | waiting (req : Nat) (token : UInt16)
  /-- Behind the wait loop, the used entry not read yet. -/
  | left (req : Nat) (token : UInt16)
deriving DecidableEq, Repr

/-- The queue with the driver's place in the code.  Requests are numbered as
they are published.  `pending` are those the device has not answered. -/
structure Sys where
  q : VirtIOQueue
  pc : Pc
  pending : List (Nat × UInt16)
  issued : Nat

inductive Event where
  /-- The driver calls `queue_add_notify_pop` and runs `add_queue`. -/
  | call (inputs outputs : List Frame) (page : Nat × UInt64)
  /-- The device answers the request `req`. -/
  | device (req : Nat) (len : UInt32)
  /-- The driver leaves its wait loop. -/
  | leave
  /-- The driver reads the used entry and returns. -/
  | pop

/-- The device writes the next used entry. -/
def deviceUse (q : VirtIOQueue) (head : UInt16) (len : UInt32) : VirtIOQueue :=
  { q with
    used := { q.used with
      ring := Function.update q.used.ring (q.used.idx.toNat % numDesc) ⟨head.toUInt32, len⟩
      idx := q.used.idx + 1 } }

/-- One step.  `none` where the event is not possible or the driver panics. -/
def step (s : Sys) : Event → Option Sys
  | .call inputs outputs page =>
      match s.pc, addQueue s.q inputs outputs page with
      | .idle, some (none, q) => some { s with q }
      | .idle, some (some head, q) =>
          some { q, pc := .waiting s.issued head, pending := s.pending ++ [(s.issued, head)],
                 issued := s.issued + 1 }
      | _, _ => none
  | .device req len =>
      match s.pending.find? (fun p => p.1 == req) with
      | some (_, head) =>
          some { s with
            q := deviceUse s.q head len, pending := s.pending.filter (fun p => p.1 != req) }
      | none => none
  | .leave =>
      match s.pc with
      | .waiting req token =>
          -- the 16-bit index is widened before the comparison
          if s.q.lastUsedIdx.toNat ≠ s.q.used.idx.toNat then some { s with pc := .left req token }
          else none
      | _ => none
  | .pop =>
      match s.pc with
      | .left _ token =>
          let index := (s.q.used.ring (s.q.lastUsedIdx.toNat % numDesc)).id.toUInt16
          if index ≠ token then some { s with pc := .idle }
          else
            match recycleDescriptors s.q index with
            | none => none
            | some q => some { s with q := { q with lastUsedIdx := q.lastUsedIdx + 1 }, pc := .idle }
      | _ => none

/-- The system before the first call. -/
def Sys.init (indirect : Bool) : Sys :=
  { q := initQueue indirect, pc := .idle, pending := [], issued := 0 }

/-- `step` as a relation. -/
def Step (s : Sys) (e : Event) (s' : Sys) : Prop := step s e = some s'

/-- A step out of the wait loop is taken only once the device has published the
used entry of the request that waits. -/
def LeavesCompleted (s : Sys) (e : Event) (_ : Sys) : Prop :=
  match e, s.pc with
  | .leave, .waiting req _ => ∀ p ∈ s.pending, p.1 ≠ req
  | _, _ => True

/-- A call starts with `last_used_idx` inside the 16 bits of `used->idx`. -/
def CallsBelowWrap (s : Sys) (e : Event) (_ : Sys) : Prop :=
  match e with
  | .call _ _ _ => s.q.lastUsedIdx.toNat < 2 ^ 16
  | _ => True

instance (s : Sys) (e : Event) (s' : Sys) : Decidable (CallsBelowWrap s e s') :=
  match e with
  | .call _ _ _ => inferInstanceAs (Decidable (s.q.lastUsedIdx.toNat < 2 ^ 16))
  | .device _ _ => .isTrue trivial
  | .leave => .isTrue trivial
  | .pop => .isTrue trivial

/-! ## The invariant -/

/-- The device has written the entry the driver reads next, for `token`. -/
def Answered (s : Sys) (token : UInt16) : Prop :=
  s.pending = [] ∧ s.q.used.idx.toNat = (s.q.lastUsedIdx.toNat + 1) % 2 ^ 16 ∧
    (s.q.used.ring (s.q.lastUsedIdx.toNat % numDesc)).id = token.toUInt32

/-- The request that waits is the only one, and the driver's place in the used
ring is the device's until the device answers. -/
def Inv (s : Sys) : Prop :=
  match s.pc with
  | .idle =>
      s.pending = [] ∧ s.q.lastUsedIdx.toNat ≤ 2 ^ 16 ∧
        s.q.used.idx.toNat = s.q.lastUsedIdx.toNat % 2 ^ 16
  | .waiting req token =>
      s.q.lastUsedIdx.toNat < 2 ^ 16 ∧
        ((s.pending = [(req, token)] ∧ s.q.used.idx.toNat = s.q.lastUsedIdx.toNat) ∨
          Answered s token)
  | .left _ token => s.q.lastUsedIdx.toNat < 2 ^ 16 ∧ Answered s token

theorem inv_init (indirect : Bool) : Inv (Sys.init indirect) := by
  refine ⟨rfl, ?_, ?_⟩ <;> simp [Sys.init, initQueue]

/-- A call that is accepted leaves the request as the only pending one. -/
theorem inv_call {s s' : Sys} {ins outs : List Frame} {page : Nat × UInt64} (hi : Inv s)
    (hc : s.q.lastUsedIdx.toNat < 2 ^ 16) (h : step s (.call ins outs page) = some s') :
    Inv s' := by
  cases hpc : s.pc with
  | idle =>
      rw [Inv, hpc] at hi
      obtain ⟨hp, hle, hidx⟩ := hi
      cases ha : addQueue s.q ins outs page with
      | none => simp [step, hpc, ha] at h
      | some res =>
          obtain ⟨r, q'⟩ := res
          have hq := addQueue_used ha
          cases r with
          | none =>
              simp only [step, hpc, ha, Option.some.injEq] at h
              subst h
              simp only [Inv, hq.1, hq.2]
              exact ⟨hp, hle, hidx⟩
          | some head =>
              simp only [step, hpc, ha, Option.some.injEq] at h
              subst h
              simp only [Inv, hq.1, hq.2]
              refine ⟨hc, Or.inl ⟨by rw [hp]; rfl, ?_⟩⟩
              rw [hidx, Nat.mod_eq_of_lt hc]
  | waiting req token => simp [step, hpc] at h
  | left req token => simp [step, hpc] at h

/-- The device can only answer the request that waits. -/
theorem inv_device {s s' : Sys} {req : Nat} {len : UInt32} (hi : Inv s)
    (h : step s (.device req len) = some s') : Inv s' := by
  cases hf : s.pending.find? (fun p => p.1 == req) with
  | none => simp [step, hf] at h
  | some p =>
      obtain ⟨req', head⟩ := p
      simp only [step, hf, Option.some.injEq] at h
      subst h
      cases hpc : s.pc with
      | idle => rw [Inv, hpc] at hi; rw [hi.1] at hf; cases hf
      | left req0 token => rw [Inv, hpc] at hi; rw [hi.2.1] at hf; cases hf
      | waiting req0 token =>
          rw [Inv, hpc] at hi
          obtain ⟨hlt, ⟨hp, hidx⟩ | hans⟩ := hi
          · rw [hp] at hf
            obtain ⟨hreq, hhd⟩ : req0 = req ∧ token = head := by
              by_cases hr : req0 = req
              · simp [hr] at hf; exact ⟨hr, hf.2⟩
              · simp [hr] at hf
            subst hreq hhd
            simp only [Inv]
            refine ⟨hlt, Or.inr ⟨by simp [hp], ?_, ?_⟩⟩
            · simp only [deviceUse, UInt16.toNat_add, UInt16.toNat_one, hidx]
            · simp [deviceUse, hidx]
          · rw [hans.1] at hf; cases hf

/-- Out of the wait loop the entry is there. -/
theorem inv_leave {s s' : Sys} (hi : Inv s) (h : step s .leave = some s') : Inv s' := by
  cases hpc : s.pc with
  | idle => simp [step, hpc] at h
  | left req token => simp [step, hpc] at h
  | waiting req token =>
      rw [Inv, hpc] at hi
      simp only [step, hpc, Option.ite_none_right_eq_some, Option.some.injEq] at h
      obtain ⟨hne, rfl⟩ := h
      obtain ⟨hlt, ⟨_, hidx⟩ | hans⟩ := hi
      · exact absurd hidx.symm hne
      · exact ⟨hlt, hans⟩

theorem pop_of_answer {s : Sys} {req : Nat} {token : UInt16} {q : VirtIOQueue}
    (hpc : s.pc = .left req token)
    (hring : (s.q.used.ring (s.q.lastUsedIdx.toNat % numDesc)).id = token.toUInt32)
    (hq : recycleDescriptors s.q token = some q) :
    step s .pop = some { s with q := { q with lastUsedIdx := q.lastUsedIdx + 1 }, pc := .idle } := by
  have hindex : (s.q.used.ring (s.q.lastUsedIdx.toNat % numDesc)).id.toUInt16 = token := by
    rw [hring]; simp
  simp [step, hpc, hindex, hq]

/-- Reading the entry moves the driver's place by one, as the device's has. -/
theorem inv_pop {s s' : Sys} (hi : Inv s) (h : step s .pop = some s') : Inv s' := by
  cases hpc : s.pc with
  | idle => simp [step, hpc] at h
  | waiting req token => simp [step, hpc] at h
  | left req token =>
      rw [Inv, hpc] at hi
      obtain ⟨hlt, hp, hidx, hring⟩ := hi
      cases hq : recycleDescriptors s.q token with
      | none => simp [step, hpc, hring, hq] at h
      | some q' =>
          rw [pop_of_answer hpc hring hq, Option.some.injEq] at h
          subst h
          obtain ⟨hused, hlast⟩ := recycleDescriptors_used hq
          have hsucc : (s.q.lastUsedIdx + 1).toNat = s.q.lastUsedIdx.toNat + 1 := by
            rw [UInt32.toNat_add, UInt32.toNat_one]
            omega
          simp only [Inv, hused, hlast, hsucc]
          exact ⟨hp, by omega, hidx⟩

theorem inv_step (s : Sys) (e : Event) (s' : Sys) (hi : Inv s) (h : Step s e s')
    (hc : CallsBelowWrap s e s') : Inv s' := by
  cases e with
  | call ins outs page => exact inv_call hi hc h
  | device req len => exact inv_device hi h
  | leave => exact inv_leave hi h
  | pop => exact inv_pop hi h

/-- From an invariant state the wait loop is left only after the answer. -/
theorem leavesCompleted_of_inv (s : Sys) (e : Event) (s' : Sys) (hi : Inv s) (h : Step s e s')
    (_ : CallsBelowWrap s e s') : LeavesCompleted s e s' := by
  cases e with
  | leave =>
      cases hpc : s.pc with
      | idle => simp [LeavesCompleted, hpc]
      | left req token => simp [LeavesCompleted, hpc]
      | waiting req token =>
          have hleft := inv_leave hi h
          rw [Step, step, hpc] at h
          simp only [Option.ite_none_right_eq_some, Option.some.injEq] at h
          obtain ⟨_, rfl⟩ := h
          have hp : s.pending = [] := hleft.2.1
          simp [LeavesCompleted, hpc, hp]
  | call _ _ _ => trivial
  | device _ _ => trivial
  | pop => trivial

theorem leave_of_ne {s : Sys} {req : Nat} {token : UInt16} (hpc : s.pc = .waiting req token)
    (hne : s.q.lastUsedIdx.toNat ≠ s.q.used.idx.toNat) :
    step s .leave = some { s with pc := .left req token } := by
  simp [step, hpc, hne]

/-- With `last_used_idx` past the 16 bits a waiting call can leave at once,
whatever the device has done. -/
theorem leave_of_wrapped {s : Sys} {req : Nat} {token : UInt16} (hpc : s.pc = .waiting req token)
    (hw : 2 ^ 16 ≤ s.q.lastUsedIdx.toNat) :
    step s .leave = some { s with pc := .left req token } := by
  have hidx : s.q.used.idx.toNat < 2 ^ 16 := UInt16.toNat_lt _
  exact leave_of_ne hpc (by omega)

/-- Over runs of any length, in which every call starts with `last_used_idx`
below `2 ^ 16`, no call leaves its wait loop before the device has published the
used entry of its request.  The bound cannot be raised: a call that waits with
`last_used_idx` at `2 ^ 16` or above can leave at any time. -/
theorem run_leavesCompleted (indirect : Bool) (r : List (Event × Sys))
    (hr : IsRun Step (Sys.init indirect) r)
    (hc : EveryStep CallsBelowWrap (Sys.init indirect) r) :
    EveryStep LeavesCompleted (Sys.init indirect) r ∧
      ∀ (s : Sys) (req : Nat) (token : UInt16), s.pc = .waiting req token →
        2 ^ 16 ≤ s.q.lastUsedIdx.toNat →
          step s .leave = some { s with pc := .left req token } := by
  constructor
  · exact IsRun.everyStep inv_step leavesCompleted_of_inv hr (inv_init indirect) hc
  · intro s req token hpc hw
    exact leave_of_wrapped hpc hw

/-- A request with one input and one output, answered by the device. -/
def oneRequest : List Event :=
  [.call [(1, 16)] [(2, 1)] (0, 0), .device 0 1, .leave, .pop]

theorem run_leavesCompleted_oneRequest :
    ∃ r ∈ runOf step (Sys.init false) oneRequest, EveryStep LeavesCompleted (Sys.init false) r := by
  obtain ⟨r, hr, hc⟩ : ∃ r ∈ runOf step (Sys.init false) oneRequest,
      EveryStep CallsBelowWrap (Sys.init false) r := by decide
  exact ⟨r, hr, (run_leavesCompleted false r (isRun_runOf hr) hc).1⟩

/-! ## The wrapped index

One request after the other, each a single output on descriptor `0`, answered
before it is popped.  `round n` is the idle system after `n` of them. -/

/-- The descriptor table after `n` rounds. -/
def roundTable : Nat → UInt16 → VirtQueueDesc
  | 0 => linkedDesc
  | _ + 1 => Function.update linkedDesc 0 ⟨0, 0, descFWrite, 1⟩

def roundQueue (n : Nat) : VirtIOQueue :=
  { initQueue false with
    desc := roundTable n
    descShadow := roundTable n
    availIdx := UInt32.ofNat n
    lastUsedIdx := UInt32.ofNat n
    avail := { flags := 0, idx := UInt16.ofNat n, ring := fun _ => 0 }
    used := { flags := 0, idx := UInt16.ofNat n, ring := fun _ => ⟨0, 0⟩ } }

def round (n : Nat) : Sys := { q := roundQueue n, pc := .idle, pending := [], issued := n }

/-- The queue of a round whose request is published and not yet answered. -/
def askedQueue (n : Nat) : VirtIOQueue :=
  { roundQueue n with
    numUsed := 1
    freeHead := 1
    desc := roundTable (n + 1)
    descShadow := roundTable (n + 1)
    availIdx := UInt32.ofNat (n + 1)
    avail := { flags := 0, idx := UInt16.ofNat (n + 1), ring := fun _ => 0 } }

def asked (n : Nat) : Sys :=
  { q := askedQueue n, pc := .waiting n 0, pending := [(n, 0)], issued := n + 1 }

theorem roundTable_update (n : Nat) :
    Function.update (roundTable n) 0 ⟨0, 0, descFWrite, 1⟩ = roundTable (n + 1) := by
  cases n with
  | zero => rfl
  | succ n => rw [roundTable, Function.update_idem]; rfl

theorem roundTable_next (n : Nat) : (roundTable n 0).next = 1 := by
  cases n with
  | zero => rfl
  | succ n => simp [roundTable]

theorem round_zero : round 0 = Sys.init false := rfl

theorem round_call (n : Nat) : step (round n) (.call [] [(0, 0)] (0, 0)) = some (asked n) := by
  have hpush : pushDesc (roundQueue n) 0 0 (outputFlags 0 1) =
      { roundQueue n with
        numUsed := 1, freeHead := 1, desc := roundTable (n + 1),
        descShadow := roundTable (n + 1) } := by
    simp [pushDesc, roundQueue, initQueue, roundTable_next, outputFlags, roundTable_update]
  have hgo : addRefused (roundQueue n) [] [(0, 0)] = false := by
    simp [addRefused, roundQueue, initQueue, needed, numDesc]
  have hadd : addQueue (roundQueue n) [] [(0, 0)] (0, 0) = some (some 0, askedQueue n) := by
    rw [addQueue, hgo]
    simp only [Bool.false_eq_true, if_false, List.length_singleton, addInputs, addOutputs, hpush]
    simp [roundQueue, initQueue, publish, askedQueue]
  simp [step, round, hadd, asked]

/-- The same, with the request answered. -/
def answered (n : Nat) : Sys :=
  { asked n with
    q := { askedQueue n with
      used := { flags := 0, idx := UInt16.ofNat (n + 1), ring := fun _ => ⟨0, 0⟩ } }
    pending := [] }

theorem asked_device (n : Nat) : step (asked n) (.device n 0) = some (answered n) := by
  simp [step, asked, answered, deviceUse, askedQueue, roundQueue]

theorem answered_leave (n : Nat) :
    step (answered n) .leave = some { answered n with pc := .left n 0 } := by
  have hne : (UInt32.ofNat n).toNat ≠ (UInt16.ofNat (n + 1)).toNat := by
    rw [UInt32.toNat_ofNat', UInt16.toNat_ofNat']
    omega
  exact leave_of_ne rfl hne

theorem answered_pop (n : Nat) :
    step { answered n with pc := .left n 0 } .pop = some (round (n + 1)) := by
  have hrec : recycleDescriptors (answered n).q 0 =
      some { (answered n).q with freeHead := 0, numUsed := 0 } := by
    have hsame : Function.update (roundTable (n + 1)) 0 ⟨0, 0, descFWrite, 1⟩ = roundTable (n + 1) := by
      rw [roundTable_update, roundTable, roundTable]
    have hd : roundTable (n + 1) 0 = ⟨0, 0, descFWrite, 1⟩ := by simp [roundTable]
    have hi : descFWrite &&& descFIndirect = 0 := by decide
    have hn : descFWrite &&& descFNext = 0 := by decide
    simp [recycleDescriptors, answered, askedQueue, hd, recycleChain, numDesc, hsame, hi, hn]
  refine (pop_of_answer (s := { answered n with pc := .left n 0 }) rfl rfl hrec).trans ?_
  simp [round, roundQueue, answered, asked, askedQueue, initQueue]

/-- The events of round `n`, up to the wait. -/
def roundRun (n : Nat) : List (Event × Sys) :=
  [(.call [] [(0, 0)] (0, 0), asked n), (.device n 0, answered n),
   (.leave, { answered n with pc := .left n 0 }), (.pop, round (n + 1))]

theorem isRun_roundRun (n : Nat) : IsRun Step (round n) (roundRun n) :=
  ⟨round_call n, asked_device n, answered_leave n, answered_pop n, trivial⟩

/-- The first `n` rounds. -/
def rounds : Nat → List (Event × Sys)
  | 0 => []
  | n + 1 => rounds n ++ roundRun n

theorem finalState_rounds : ∀ n, finalState (round 0) (rounds n) = round n
  | 0 => rfl
  | n + 1 => by rw [rounds, finalState_append]; rfl

theorem isRun_rounds : ∀ n, IsRun Step (round 0) (rounds n)
  | 0 => trivial
  | n + 1 => by
      refine IsRun.append (isRun_rounds n) ?_
      rw [finalState_rounds]
      exact isRun_roundRun n

/-- After `n` requests, with `n` past the 16 bits, the next call leaves its wait
loop while the device has answered nothing. -/
theorem leaves_early_of_wrapped (n : Nat) (hn : 2 ^ 16 ≤ (UInt32.ofNat n).toNat) :
    ¬ ∀ r, IsRun Step (Sys.init false) r → EveryStep LeavesCompleted (Sys.init false) r := by
  intro hall
  have hleave : step (asked n) .leave = some { asked n with pc := .left n 0 } :=
    leave_of_wrapped rfl hn
  have hrun : IsRun Step (round 0) (rounds n ++
      [(.call [] [(0, 0)] (0, 0), asked n), (.leave, { asked n with pc := .left n 0 })]) := by
    refine IsRun.append (isRun_rounds n) ?_
    rw [finalState_rounds]
    exact ⟨round_call n, hleave, trivial⟩
  have hev := EveryStep.drop (hall _ hrun)
  rw [← round_zero, finalState_rounds] at hev
  exact hev.2.1 (n, 0) (by simp [asked]) rfl

theorem wrapped_call_leaves_early :
    ¬ ∀ r, IsRun Step (Sys.init false) r → EveryStep LeavesCompleted (Sys.init false) r :=
  leaves_early_of_wrapped 65536 (by decide)

end Virtio
