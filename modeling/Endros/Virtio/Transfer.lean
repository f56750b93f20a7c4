import Endros.Virtio.Descriptors

/-!
# What the device is told to transfer

A device takes the head that was published last and follows it: along the chain
in the shared table, or through the list an indirect descriptor points to.  It
obtains a sequence of buffers, each with an address, a length and whether the
device writes it.

`add_queue` is given frame numbers.  Its indirect branch writes the addresses of
the frames into the list.  Its direct branch writes the frame numbers themselves
into the chain.  The two agree only on frame `0` (`addQueue_modes`).
-/

namespace Virtio

open Lib

/-- A buffer as the device sees it: address, length, device-writable. -/
abbrev DeviceBuffer := UInt64 × UInt32 × Bool

def Buffer.device (b : Buffer) : DeviceBuffer := (b.1, b.2.1, b.2.2 &&& descFWrite ≠ 0)

/-- The buffers of the chain from `head`, of at most `n` descriptors. -/
def readChain (t : Table) (n : Nat) (head : UInt16) : List DeviceBuffer :=
  (chainFrom t n head).map fun i => (t i).buffer.device

/-- The buffers a device obtains from a head. -/
def deviceBuffers (q : VirtIOQueue) (head : UInt16) : List DeviceBuffer :=
  let d := q.desc head
  if d.flags &&& descFIndirect ≠ 0 then
    readChain (fun i => q.listMem (d.addr / 4096) i.toNat) (d.len.toNat / 16) 0
  else readChain q.desc numDesc head

/-- The head that was published last. -/
def lastPublished (q : VirtIOQueue) : UInt16 := q.avail.ring ((q.avail.idx - 1).toNat % numDesc)

/-- The transfer a request stands for. -/
def transferOf (inputs outputs : List Frame) : List DeviceBuffer :=
  inputs.map (fun f => (pageAddr f.1, f.2, false)) ++
    outputs.map (fun f => (pageAddr f.1, f.2, true))

theorem lastPublished_publish (q : VirtIOQueue) (head : UInt16) :
    lastPublished (publish q head) = head := by
  have hslot : ((q.availIdx + 1).toUInt16 - 1).toNat % numDesc = q.availIdx.toNat % numDesc := by
    rw [UInt16.toNat_sub, UInt32.toNat_toUInt16, UInt32.toNat_add]
    show (65536 - 1 + (q.availIdx.toNat + 1) % 4294967296 % 65536) % 65536 % 16 =
      q.availIdx.toNat % 16
    omega
  show Function.update q.avail.ring (q.availIdx.toNat % numDesc) head
    (((q.availIdx + 1).toUInt16 - 1).toNat % numDesc) = head
  rw [hslot, Function.update_self]

/-! ## The direct chain -/

/-- The buffers of a direct request, as the device sees them. -/
def frameNumbers (inputs outputs : List Frame) : List DeviceBuffer :=
  inputs.map (fun f => (f.1, f.2, false)) ++ outputs.map (fun f => (f.1, f.2, true))

theorem descFNext_write : decide (descFNext &&& descFWrite ≠ 0) = false := by decide

theorem outputFlags_write (i n : Nat) : outputFlags i n &&& descFWrite ≠ 0 := by
  rw [outputFlags]
  split <;> decide

theorem outputBuffers_device (n : Nat) : ∀ (fs : List Frame) (i : Nat),
    (outputBuffers n i fs).map Buffer.device = fs.map fun f => (f.1, f.2, true)
  | [], _ => rfl
  | f :: fs, i => by
      rw [outputBuffers, List.map_cons, List.map_cons, outputBuffers_device n fs (i + 1),
        Buffer.device, decide_eq_true (outputFlags_write i n)]

theorem directBuffers_device (inputs outputs : List Frame) :
    (directBuffers inputs outputs).map Buffer.device = frameNumbers inputs outputs := by
  rw [directBuffers, List.map_append, outputBuffers_device, List.map_map, frameNumbers]
  refine congrArg (· ++ _) (List.map_congr_left fun f _ => ?_)
  rw [Function.comp_apply, Buffer.device, descFNext_write]

/-- A frame number is the address of its frame only for frame `0`. -/
theorem pageAddr_eq_self {pfn : UInt64} : pageAddr pfn = pfn ↔ pfn = 0 := by
  constructor
  · intro h
    have hnat := congrArg UInt64.toNat h
    rw [pageAddr, UInt64.toNat_mul] at hnat
    have hlt := pfn.toNat_lt
    apply UInt64.toNat_inj.mp
    show pfn.toNat = 0
    change pfn.toNat * 4096 % 2 ^ 64 = pfn.toNat at hnat
    omega
  · rintro rfl
    rfl

theorem frameNumbers_eq_transferOf {inputs outputs : List Frame} :
    frameNumbers inputs outputs = transferOf inputs outputs ↔
      ∀ f ∈ inputs ++ outputs, f.1 = 0 := by
  have hmap : ∀ (w : Bool) (fs : List Frame),
      fs.map (fun f => ((f.1, f.2, w) : DeviceBuffer)) = fs.map (fun f => (pageAddr f.1, f.2, w)) ↔
        ∀ f ∈ fs, f.1 = 0 := by
    intro w fs
    rw [List.map_inj_left]
    refine forall_congr' fun f => imp_congr_right fun _ => ?_
    rw [Prod.mk.injEq, eq_self_iff_true, and_true, eq_comm]
    exact pageAddr_eq_self
  rw [frameNumbers, transferOf, List.forall_mem_append, ← hmap false, ← hmap true]
  constructor
  · intro h
    exact List.append_inj h (by rw [List.length_map, List.length_map])
  · rintro ⟨h₁, h₂⟩
    rw [h₁, h₂]

/-- The device obtains the frame numbers. -/
theorem deviceBuffers_direct {q q' : VirtIOQueue} {l : List UInt16} {inputs outputs : List Frame}
    (hf : Fits inputs outputs) (hp : Pushed q q' (q.freeHead :: l) (directBuffers inputs outputs))
    (hl : Linked q'.descShadow (q.freeHead :: l)) :
    deviceBuffers q' q.freeHead = frameNumbers inputs outputs := by
  have hterm := directBuffers_terminated inputs hf.1
  have hlen : (q.freeHead :: l).length = inputs.length + outputs.length := by
    rw [← directBuffers_length, ← hp.filled, List.length_map]
  have hdesc := hp.shared q.freeHead (List.mem_cons_self ..)
  have hflag : ¬ (q'.desc q.freeHead).flags &&& descFIndirect ≠ 0 := by
    rw [hdesc]
    rw [← hp.filled] at hterm
    cases l with
    | nil => exact fun h => h hterm.2
    | cons i l => exact fun h => h hterm.2.1
  have hchain : chainFrom q'.desc numDesc q.freeHead = q.freeHead :: l := by
    refine (hl.congr hp.shared).chainFrom_eq ?_
    have := hf.2
    rw [List.length_cons] at hlen
    omega
  rw [deviceBuffers, if_neg hflag, readChain, hchain, ← directBuffers_device, ← hp.filled,
    List.map_map]
  exact List.map_congr_left fun i hi => by rw [hp.shared i hi, Function.comp_apply]

/-! ## The indirect list -/

/-- The numbers from `k` on are linked in a table that links them. -/
theorem linked_range' {t : Table} {n : Nat}
    (hmid : ∀ k, k + 1 < n → (t (UInt16.ofNat k)).flags &&& descFNext ≠ 0 ∧
      (t (UInt16.ofNat k)).next = UInt16.ofNat (k + 1))
    (hlast : (t (UInt16.ofNat (n - 1))).flags &&& descFNext = 0) :
    ∀ (m k : Nat), k + (m + 1) = n → Linked t ((List.range' k (m + 1)).map UInt16.ofNat)
  | 0, k, hk => by
      obtain rfl : k = n - 1 := by omega
      exact hlast
  | m + 1, k, hk => by
      obtain ⟨hflag, hnext⟩ := hmid k (by omega)
      exact ⟨hflag, hnext, linked_range' hmid hlast m (k + 1) (by omega)⟩

section Indirect

variable {inputs outputs : List Frame} {old : Nat → VirtQueueDesc} {k : Nat}

theorem indirectList_input (hk : k < inputs.length) :
    indirectList old inputs outputs k =
      { addr := pageAddr inputs[k].1, len := inputs[k].2, flags := descFNext,
        next := UInt16.ofNat (k + 1) } := by
  rw [indirectList, List.getElem?_eq_getElem hk]

theorem indirectList_output (hk : k < outputs.length) :
    indirectList old inputs outputs (inputs.length + k) =
      { addr := pageAddr outputs[k].1, len := outputs[k].2, flags := outputFlags k outputs.length,
        next := UInt16.ofNat (inputs.length + k + 1) } := by
  rw [indirectList, List.getElem?_eq_none (Nat.le_add_right ..), Nat.add_sub_cancel_left,
    List.getElem?_eq_getElem hk]

theorem indirectList_next (hk : k + 1 < inputs.length + outputs.length) :
    (indirectList old inputs outputs k).flags &&& descFNext ≠ 0 ∧
      (indirectList old inputs outputs k).next = UInt16.ofNat (k + 1) := by
  rcases Nat.lt_or_ge k inputs.length with hin | hout
  · rw [indirectList_input hin]
    exact ⟨show descFNext &&& descFNext ≠ 0 by decide, rfl⟩
  · obtain ⟨j, rfl⟩ := Nat.exists_eq_add_of_le hout
    rw [indirectList_output (by omega)]
    dsimp only
    rw [outputFlags, if_pos (by omega)]
    exact ⟨by decide, rfl⟩

theorem indirectList_last (hout : outputs ≠ []) :
    (indirectList old inputs outputs (inputs.length + outputs.length - 1)).flags &&&
      descFNext = 0 := by
  have hpos := List.length_pos_of_ne_nil hout
  rw [Nat.add_sub_assoc hpos, indirectList_output (by omega)]
  dsimp only
  rw [outputFlags, if_neg (fun h => h rfl)]
  decide

theorem indirectList_device (old : Nat → VirtQueueDesc) (inputs outputs : List Frame) :
    (List.range (inputs.length + outputs.length)).map
        (fun k => (indirectList old inputs outputs k).buffer.device) =
      transferOf inputs outputs := by
  rw [List.range_add, List.map_append, transferOf, List.map_map]
  congr 1
  · refine List.ext_getElem (by rw [List.length_map, List.length_map, List.length_range]) ?_
    intro k hk hk'
    rw [List.length_map] at hk'
    rw [List.getElem_map, List.getElem_map, List.getElem_range, indirectList_input hk',
      VirtQueueDesc.buffer, Buffer.device]
    dsimp only
    rw [descFNext_write]
  · refine List.ext_getElem (by rw [List.length_map, List.length_map, List.length_range]) ?_
    intro k hk hk'
    rw [List.length_map] at hk'
    rw [List.getElem_map, List.getElem_map, List.getElem_range, Function.comp_apply,
      indirectList_output hk', VirtQueueDesc.buffer, Buffer.device]
    dsimp only
    rw [decide_eq_true (outputFlags_write k outputs.length)]

end Indirect

/-- The device obtains the addresses of the frames. -/
theorem deviceBuffers_indirect {q q' : VirtIOQueue} {inputs outputs : List Frame}
    {page : Nat × UInt64} (hf : Fits inputs outputs) (hpage : page.2.toNat < 2 ^ 52)
    (hb : (q'.desc q.freeHead).buffer = indirectBuffer inputs outputs page)
    (hmem : q'.listMem page.2 = indirectList (q.listMem page.2) inputs outputs) :
    deviceBuffers q' q.freeHead = transferOf inputs outputs := by
  have h16 : numDesc = 16 := rfl
  have hle := hf.2
  have hpos := List.length_pos_of_ne_nil hf.1
  have haddr : (q'.desc q.freeHead).addr / 4096 = page.2 := by
    have : (q'.desc q.freeHead).addr = pageAddr page.2 := congrArg (fun b => b.1) hb
    rw [this]
    apply UInt64.toNat_inj.mp
    rw [UInt64.toNat_div, pageAddr, UInt64.toNat_mul]
    show page.2.toNat * 4096 % 2 ^ 64 / 4096 = page.2.toNat
    omega
  have hlen : (q'.desc q.freeHead).len.toNat / 16 = inputs.length + outputs.length := by
    have : (q'.desc q.freeHead).len = UInt32.ofNat (16 * needed inputs outputs) :=
      congrArg (fun b => b.2.1) hb
    rw [this, needed_eq hf, UInt32.toNat_ofNat']
    omega
  have hflags : (q'.desc q.freeHead).flags = descFIndirect := congrArg (fun b => b.2.2) hb
  have hflag : (q'.desc q.freeHead).flags &&& descFIndirect ≠ 0 := by
    rw [hflags]
    decide
  rw [deviceBuffers, if_pos hflag, haddr, hlen, hmem]
  have hnum : ∀ k, k < inputs.length + outputs.length → (UInt16.ofNat k).toNat = k := by
    intro k hk
    rw [UInt16.toNat_ofNat']
    omega
  have hlinked : Linked (fun i => indirectList (q.listMem page.2) inputs outputs i.toNat)
      ((List.range' 0 (inputs.length + outputs.length - 1 + 1)).map UInt16.ofNat) := by
    refine linked_range' (n := inputs.length + outputs.length) (fun k hk => ?_) ?_ _ 0 (by omega)
    · rw [hnum k (by omega)]
      exact indirectList_next hk
    · rw [hnum _ (by omega)]
      exact indirectList_last hf.1
  have hchain : chainFrom (fun i => indirectList (q.listMem page.2) inputs outputs i.toNat)
      (inputs.length + outputs.length) 0 =
      (List.range (inputs.length + outputs.length)).map UInt16.ofNat := by
    have hn : inputs.length + outputs.length - 1 + 1 = inputs.length + outputs.length := by omega
    rw [List.range'_succ, List.map_cons] at hlinked
    refine (hlinked.chainFrom_eq ?_).trans ?_
    · rw [List.length_map, List.length_range']
      omega
    · rw [← List.map_cons, ← List.range'_succ, hn, List.range_eq_range']
  rw [readChain, hchain, List.map_map, ← indirectList_device (q.listMem page.2)]
  refine List.map_congr_left fun k hk => ?_
  rw [Function.comp_apply, hnum k (List.mem_range.mp hk)]

/-! ## Both modes -/

theorem deviceBuffers_publish (q : VirtIOQueue) (head : UInt16) :
    deviceBuffers (publish q head) (lastPublished (publish q head)) = deviceBuffers q head := by
  rw [lastPublished_publish]
  rfl

/-- A request of several buffers, given to a direct queue and to an indirect
queue after any calls.  The device is told the same transfer in both modes, with
the addresses of the frames, exactly when all frames are frame `0`. -/
theorem addQueue_modes {rd ri : List (Ring.Event × Ring)}
    (hd : IsRun (fun s e s' => Ring.step s e = some s') ⟨initQueue false, []⟩ rd)
    (hi : IsRun (fun s e s' => Ring.step s e = some s') ⟨initQueue true, []⟩ ri)
    {inputs outputs : List Frame} (hf : Fits inputs outputs)
    (htwo : 2 ≤ inputs.length + outputs.length) {page page' : Nat × UInt64}
    (hpage : page'.2.toNat < 2 ^ 52) {head head' : UInt16} {qd qi : VirtIOQueue}
    (had : addQueue (finalState ⟨initQueue false, []⟩ rd).q inputs outputs page =
      some (some head, qd))
    (hai : addQueue (finalState ⟨initQueue true, []⟩ ri).q inputs outputs page' =
      some (some head', qi)) :
    deviceBuffers qd (lastPublished qd) = deviceBuffers qi (lastPublished qi) ∧
        deviceBuffers qi (lastPublished qi) = transferOf inputs outputs ↔
      ∀ f ∈ inputs ++ outputs, f.1 = 0 := by
  have hinvd := (hd.invariant (fun _ _ _ hi hs => Ring.Inv.step hi hs) (ring_init false)).final
  have hinvi := (hi.invariant (fun _ _ _ hi hs => Ring.Inv.step hi hs) (ring_init true)).final
  have hdirect : deviceBuffers qd (lastPublished qd) = frameNumbers inputs outputs := by
    rcases hinvd.addQueue hf page with h | ⟨q', h, hadded, -⟩
    · rw [h] at had
      cases had
    · rw [h] at had
      cases had
      rw [deviceBuffers_publish]
      cases hadded with
      | direct l _ hp hl => exact deviceBuffers_direct hf hp hl
      | indirect hmode => exact absurd (hinvd.mode.symm.trans hmode.1) Bool.false_ne_true
  have hindirect : deviceBuffers qi (lastPublished qi) = transferOf inputs outputs := by
    rcases hinvi.addQueue hf page' with h | ⟨q', h, hadded, -⟩
    · rw [h] at hai
      cases hai
    · rw [h] at hai
      cases hai
      rw [deviceBuffers_publish]
      cases hadded with
      | direct l hmode => exact absurd ⟨hinvi.mode, htwo⟩ hmode
      | indirect _ hb hmem => exact deviceBuffers_indirect hf hpage hb hmem
  rw [hdirect, hindirect, ← frameNumbers_eq_transferOf]
  exact and_iff_left rfl

/-- The request of a read of one page into frame `pfn`, with its two other
buffers in the same frame. -/
def readRequest (pfn : UInt64) : List Frame × List Frame := ([(pfn, 16)], [(pfn, 4096), (pfn, 1)])

theorem addQueue_accepts (mode : Bool) (pfn : UInt64) :
    ∃ q, addQueue (initQueue mode) (readRequest pfn).1 (readRequest pfn).2 (1, 7) =
      some (some 0, q) := by
  cases mode with
  | false => exact ⟨_, rfl⟩
  | true => exact ⟨_, rfl⟩

/-- Frame `0`. -/
theorem addQueue_modes_zero :
    ∃ qd qi, addQueue (initQueue false) (readRequest 0).1 (readRequest 0).2 (1, 7) =
        some (some 0, qd) ∧
      addQueue (initQueue true) (readRequest 0).1 (readRequest 0).2 (1, 7) = some (some 0, qi) ∧
      deviceBuffers qd (lastPublished qd) = deviceBuffers qi (lastPublished qi) := by
  obtain ⟨qd, had⟩ := addQueue_accepts false 0
  obtain ⟨qi, hai⟩ := addQueue_accepts true 0
  have hrun : ∀ mode, IsRun (fun s e s' => Ring.step s e = some s') ⟨initQueue mode, []⟩ [] :=
    fun _ => trivial
  have hmodes := addQueue_modes (hrun false) (hrun true) (by decide) (by decide) (by decide) had hai
  have hzero : ∀ f ∈ (readRequest 0).1 ++ (readRequest 0).2, f.1 = 0 := by simp [readRequest]
  exact ⟨qd, qi, had, hai, (hmodes.mpr hzero).1⟩

/-- Frame 100: the direct chain has the address 100, the indirect list has the
address 409600. -/
theorem direct_chain_has_frame_numbers :
    ∃ qd qi, addQueue (initQueue false) (readRequest 100).1 (readRequest 100).2 (1, 7) =
        some (some 0, qd) ∧
      addQueue (initQueue true) (readRequest 100).1 (readRequest 100).2 (1, 7) =
        some (some 0, qi) ∧
      deviceBuffers qd (lastPublished qd) =
        [(100, 16, false), (100, 4096, true), (100, 1, true)] ∧
      deviceBuffers qi (lastPublished qi) =
        [(409600, 16, false), (409600, 4096, true), (409600, 1, true)] :=
  ⟨_, _, rfl, rfl, by decide, by decide⟩

end Virtio
