import Endros.Block.Refine

/-!
# `sync_filesystem`

The flush loop walks the list of buffers and writes back those that are valid and
dirty.  On a coherent cache that makes the disk equal to the flat disk: where
they differ there is a dirty buffer, and its page has the right bytes.
-/

namespace Block

open Lib Mem

/-- The block of a dirty buffer. -/
def Dirty (s : State) (i a : Nat) : Prop :=
  (s.buf i).valid = true ∧ (s.buf i).dirty = true ∧ addr2Page a = (s.buf i).blockId

theorem addr2Page_eq_iff {a b : Nat} :
    addr2Page a = b ↔ b * pageSize ≤ a ∧ a < b * pageSize + pageSize := by
  simp only [addr2Page, pageSize]
  omega

theorem writeBlock_disk {s : State} {flat : Nat → UInt8} {i : Nat}
    (hpage : ∀ j, j < pageSize → s.page i j = flat ((s.buf i).blockId * pageSize + j)) (a : Nat) :
    (writeBlock s i).disk a = if addr2Page a = (s.buf i).blockId then flat a else s.disk a := by
  simp only [writeBlock, sector_eq]
  by_cases ha : addr2Page a = (s.buf i).blockId
  · obtain ⟨h₁, h₂⟩ := addr2Page_eq_iff.mp ha
    rw [if_pos ha, patch_of_mem h₁ h₂, hpage _ (by omega)]
    exact congrArg flat (by omega)
  · rw [if_neg ha, patch, if_neg fun h => ha (addr2Page_eq_iff.mpr h)]

/-- The flush loop, from a buffer of the list on.  Where the disk differs from
`flat`, one of the buffers that are still to come is dirty. -/
theorem flush_flat {flat : Nat → UInt8} {l : List Nat} {fuel : Nat} {s : State} {ptr : Option Nat}
    (hc : Chain s.dev.next ptr l) (hlen : l.length ≤ fuel)
    (hpage : ∀ i ∈ l, (s.buf i).valid = true → ∀ j, j < pageSize →
      s.page i j = flat ((s.buf i).blockId * pageSize + j))
    (hdisk : ∀ a, s.disk a = flat a ∨ ∃ i ∈ l, Dirty s i a) :
    ∃ s', flush fuel s ptr = some s' ∧ s'.disk = flat := by
  induction l generalizing fuel s ptr with
  | nil =>
      obtain rfl : ptr = none := hc
      refine ⟨s, by rw [flush], funext fun a => ?_⟩
      rcases hdisk a with h | ⟨i, hi, -⟩
      · exact h
      · cases hi
  | cons i l ih =>
      obtain ⟨rfl, hc⟩ := hc
      cases fuel with
      | zero => simp at hlen
      | succ fuel =>
          have hpage' := fun j hj => hpage j (List.mem_cons_of_mem _ hj)
          rw [flush]
          by_cases hd : (s.buf i).valid = true ∧ (s.buf i).dirty = true
          · rw [if_pos hd]
            refine ih (s := writeBlock s i) hc (by simpa using hlen) hpage' fun a => ?_
            rw [writeBlock_disk (hpage i (List.mem_cons_self ..) hd.1)]
            split
            · exact Or.inl rfl
            · rename_i ha
              rcases hdisk a with h | ⟨j, hj, hdj⟩
              · exact Or.inl h
              · rcases List.mem_cons.mp hj with rfl | hj
                · exact absurd hdj.2.2 ha
                · exact Or.inr ⟨j, hj, hdj⟩
          · rw [if_neg hd]
            refine ih hc (by simpa using hlen) hpage' fun a => ?_
            rcases hdisk a with h | ⟨j, hj, hdj⟩
            · exact Or.inl h
            · rcases List.mem_cons.mp hj with rfl | hj
              · exact absurd ⟨hdj.1, hdj.2.1⟩ hd
              · exact Or.inr ⟨j, hj, hdj⟩

/-- A coherent cache is flushed to the flat disk. -/
theorem sync_coherent {H : Host} {s : State} {flat : Nat → UInt8} {seen : Finset Nat}
    (h : Coherent H s flat seen) : ∃ s', syncFilesystem s = some s' ∧ s'.disk = flat := by
  obtain ⟨l, hl⟩ := h.listed
  refine flush_flat hl.chain hl.length_le
    (fun i hi _ => h.page i ((hl.mem_iff i).mp hi)) fun a => ?_
  by_cases hd : ∃ i ∈ l, Dirty s i a
  · exact Or.inr hd
  · left
    have ha : addr2Page a * pageSize + offset a = a := addr2Page_add_offset a
    rw [← ha]
    refine h.disk (addr2Page a) (fun i hi he => ?_) (offset a) (offset_lt a)
    by_contra hdirty
    exact hd ⟨i, (hl.mem_iff i).mpr hi, h.valid i hi, by simpa using hdirty, he.symm⟩

/-- Writes are durable.  After any calls that touch no more than `CACHE_BLOCKS`
blocks, none of which overwrites a whole block before it has been touched,
`sync_filesystem` leaves the disk with all the writes applied in order. -/
theorem sync_durable (H : Host) (hok : ∀ n, H.fault n = none) (disk : Nat → UInt8)
    (mem : Nat → Nat → UInt8) (ops : List Op) (hwarm : Warm ∅ ops)
    (htop : ∀ op ∈ ops, op.top < 2 ^ 64) (hcard : (touched ops).card ≤ cacheBlocks) :
    ∃ s outs s', runOps H (start disk mem) ops = some (s, outs) ∧ syncFilesystem s = some s' ∧
      s'.disk = (flatRun disk ops).1 := by
  obtain ⟨s, hrun, hcoh⟩ := runOps_coherent hok (coherent_start H disk mem) hwarm htop
    (by rw [Finset.empty_union]; exact hcard)
  obtain ⟨s', hsync, hdisk⟩ := sync_coherent hcoh
  exact ⟨s, _, s', hrun, hsync, hdisk⟩

/-- A write over the end of block `0`. -/
theorem sync_durable_twoBlocks :
    ∃ s outs s', runOps plainHost (start (fun _ => 0) fun _ _ => 0) [.write 4090 10 fun _ => 1] =
        some (s, outs) ∧ syncFilesystem s = some s' ∧
      s'.disk = (flatRun (fun _ => 0) [.write 4090 10 fun _ => 1]).1 := by
  refine sync_durable plainHost (fun _ => rfl) _ _ _ ⟨?_, trivial⟩ ?_ (by decide)
  · rintro b ⟨h₁, h₂⟩
    simp only [pageSize] at h₁ h₂
    omega
  · simp [Op.top]

/-- A single write of all of block `0` is dropped: its buffer is dirty but not
valid. -/
theorem whole_write_not_durable :
    (((runOps plainHost (start (fun _ => 0) fun _ _ => 0) [.write 0 4096 fun _ => 1]).bind
        fun r => syncFilesystem r.1).map fun s => s.disk 0) = some 0 ∧
      (flatRun (fun _ => 0) [.write 0 4096 fun _ => 1]).1 0 = 1 := by
  decide

end Block
