import Endros.Exec.Arguments

/-!
# The kernel regions of `sys_execve`

A log of the calls of `kalloc` and `kfree` tells which regions are live behind the call.
There are three ways to leave `sys_execve`.  When no file is found, only the path is given
back.  When the file is not executable, the arguments are given back too.  Otherwise the
buffers of the arguments are given back one after the other on the way.  The `FSFile` that
`getfile` takes for a file is not given back by any of them.  Only a device has none.

The kernel stack of the old image is given back while the call still runs on it.  It is then
the first region of the list, and long enough for the first array of the new image.
-/

namespace Exec

open Lib Mem Space
open Fs (Chr Disk Mount Target sampleFs)

variable {ω : Type} {A : Allocator ω}

/-! ## Logs -/

inductive RegionCall where
  | kalloc (b pages : Nat)
  | kfree (b pages : Nat)
deriving DecidableEq, Repr

/-- The allocators, with a log of the calls of `kalloc` and `kfree`, the last one first. -/
def logged (A : Allocator ω) : Allocator (ω × List RegionCall) where
  frame w := A.frame w.1
  dmalloc w m z := (A.dmalloc w.1 m z).map fun r => (r.1, (r.2.1, w.2), r.2.2)
  dmafree w m p :=
    let r := A.dmafree w.1 m p
    ((r.1, w.2), r.2)
  kalloc w n := (A.kalloc w.1 n).map fun r => (r.1, (r.2, .kalloc r.1 n :: w.2))
  kfree w b n := (A.kfree w.1 b n, .kfree b n :: w.2)

/-- The memory with an empty log. -/
def withLog (s : Memory ω) : Memory (ω × List RegionCall) := { s with heap := (s.heap, []) }

/-- The regions that are live behind the calls, when those of `K` were live before. -/
def live (K : Set (Nat × Nat)) : List RegionCall → Set (Nat × Nat)
  | [] => K
  | .kalloc b n :: log => insert (b, n) (live K log)
  | .kfree b n :: log => live K log \ {(b, n)}

/-- Every region was live when it was given back. -/
def Legal (K : Set (Nat × Nat)) : List RegionCall → Prop
  | [] => True
  | .kalloc _ _ :: log => Legal K log
  | .kfree b n :: log => (b, n) ∈ live K log ∧ Legal K log

section Logged

variable {V : Lawful A} {K : Set (Nat × Nat)} {w w' : ω × List RegionCall} {m m' : Paging.Phys} {z : Bool}
  {p : Page} {n b : Nat}

theorem logged_dmalloc (h : (logged A).dmalloc w m z = some (p, w', m')) :
    A.dmalloc w.1 m z = some (p, w'.1, m') ∧ w'.2 = w.2 := by
  obtain ⟨⟨p', w₁, m₁⟩, hA, he⟩ := Option.map_eq_some_iff.1 h
  cases he
  exact ⟨hA, rfl⟩

theorem logged_kalloc (h : (logged A).kalloc w n = some (b, w')) :
    A.kalloc w.1 n = some (b, w'.1) ∧ w'.2 = .kalloc b n :: w.2 := by
  obtain ⟨⟨b', w₁⟩, hA, he⟩ := Option.map_eq_some_iff.1 h
  cases he
  exact ⟨hA, rfl⟩

/-- What is in use is live. -/
def loggedLawful (V : Lawful A) (K : Set (Nat × Nat)) : Lawful (logged A) where
  Valid w D K' := V.Valid w.1 D K' ∧ K' ⊆ live K w.2
  mono h hD hK := ⟨V.mono h.1 hD hK, hK.trans h.2⟩
  page h := V.page h.1
  inj h := V.inj h.1
  dmalloc h hd := by
    obtain ⟨hA, hlog⟩ := logged_dmalloc hd
    obtain ⟨hnew, hvalid, hrest⟩ := V.dmalloc h.1 hA
    exact ⟨hnew, ⟨hvalid, hlog ▸ h.2⟩, hrest⟩
  dmafree h hp := ⟨⟨(V.dmafree h.1 hp).1, h.2⟩, (V.dmafree h.1 hp).2⟩
  kalloc h hn hk := by
    obtain ⟨hA, hlog⟩ := logged_kalloc hk
    obtain ⟨hnew, hvalid⟩ := V.kalloc h.1 hn hA
    exact ⟨hnew, hvalid, hlog ▸ Set.insert_subset_insert h.2⟩
  kfree h hb := ⟨V.kfree h.1 hb, Set.sdiff_subset_sdiff_left h.2⟩

/-- The live regions are those of the footprint. -/
def logAccount (A : Allocator ω) (K : Set (Nat × Nat)) : Account (logged A) where
  Holds w F := live K w.2 = F.refs ∧ Legal K w.2
  dmalloc h hd := (logged_dmalloc hd).2 ▸ h
  kalloc {w F n b w'} h hn hk := by
    rw [(logged_kalloc hk).2]
    exact ⟨congrArg (insert (b, n)) h.1, h.2⟩
  dmafree h _ := h
  kfree {w F b n} h hb := ⟨congrArg (· \ {(b, n)}) h.1, h.1 ▸ hb, h.2⟩

end Logged

/-- The log takes no room. -/
def loggedRoomy (Y : Roomy A) : Roomy (logged A) where
  Room w := Y.Room w.1
  mono := Y.mono
  dmalloc {w n} m z hroom := by
    obtain ⟨p, w', m', hd, hroom'⟩ := Y.dmalloc m z hroom
    exact ⟨p, (w', w.2), m', Option.map_eq_some_iff.mpr ⟨_, hd, rfl⟩, hroom'⟩
  kalloc {w n k} hk hroom := by
    obtain ⟨b, w', hb, hroom'⟩ := Y.kalloc hk hroom
    exact ⟨b, (w', .kalloc b k :: w.2), Option.map_eq_some_iff.mpr ⟨_, hb, rfl⟩, hroom'⟩

theorem loggedRoomy_kept {Y : Roomy A} (hY : Y.Kept) : (loggedRoomy Y).Kept where
  dmafree m p h := hY.dmafree m p h
  kfree b n h := hY.kfree b n h

/-- An address space is the same with a log. -/
theorem held_withLog {V : Lawful A} {s : Memory ω} {sp : AddressSpace} {trampoline : UInt64}
    {T Q R : Footprint} (h : Held V s sp trampoline T Q R) :
    Held (loggedLawful V ((T.union Q).union R).refs) (withLog s) sp trampoline T Q R := by
  have htree := h.built.tree
  refine ⟨⟨⟨⟨h.built.own.valid, fun a ha => ?_⟩, h.built.own.pages, h.built.own.refs⟩, h.built.apart,
    ⟨htree.good, htree.page, htree.ref, fun p i b f hp hb hf => ?_, htree.tables, htree.refs⟩,
    h.built.leaves⟩, h.trap, h.trap_ne, h.stack, h.heap⟩
  · rcases ha with ha | ha | ha
    · exact .inl (.inl ha)
    · exact .inl (.inr ha)
    · exact .inr ha
  · cases htree.linked p i b f hp hb hf with
    | empty hr hm => exact .empty hr hm
    | table q hq hr hm href => exact .table q hq hr hm href

/-! ## No region is lost -/

/-- The arrays of the tables and the kernel stack of a process. -/
def imageRegions (s : Memory ω) (sp : AddressSpace) : Set (Nat × Nat) :=
  insert (sp.kernelStackVpn, kernelStackPages)
    {a | ∃ p b, Short p ∧ refOf s sp.root p = some b ∧ (b, refPages p) = a}

/-- Behind the calls the regions are as before, with `new` in the place of `old`. -/
structure NoLeak (K old new : Set (Nat × Nat)) (log : List RegionCall) : Prop where
  live : live K log = (K \ old) ∪ new
  once : Legal K log

/-- A call that fails leaves the regions as they are.  One that returns replaces those of
the image. -/
def Clean (K : Set (Nat × Nat)) (s : Memory ω) (sp : AddressSpace) (ret : Int) (sp' : AddressSpace)
    (s' : Memory (ω × List RegionCall)) : Prop :=
  if ret < 0 then NoLeak K ∅ ∅ s'.heap.2
  else NoLeak K (imageRegions s sp) (imageRegions s' sp') s'.heap.2

section Clean

variable {V : Lawful A} {B : Platform} {m : Mount} {d : Disk} {u : Locals} {cwd : UInt32} {s : Memory ω}
  {sp sp' : AddressSpace} {T Q R : Footprint} {path argv envp : UInt64} {ret : Int}
  {s' : Memory (ω × List RegionCall)}

/-- The regions of an image are in its footprint. -/
theorem imageRegions_subset {trampoline : UInt64} (h : Built V s sp.root trampoline T Q R)
    (hs : (sp.kernelStackVpn, kernelStackPages) ∈ Q.refs) : imageRegions s sp ⊆ (T.union Q).refs := by
  rintro a (rfl | ⟨p, b, hp, hb, rfl⟩)
  · exact .inr hs
  · rcases h.tree.at_or hp with ⟨q, b', hat⟩ | ⟨-, hnone⟩
    · cases hat.refOf.symm.trans hb
      exact .inl hat.ref
    · rw [hnone] at hb
      cases hb

/-- The regions are as before exactly if no buffer is left. -/
theorem Temps.noLeak_iff {l : List (Nat × Nat)} {s₁ : Memory (ω × List RegionCall)}
    (h : Temps (loggedLawful V ((T.union Q).union R).refs) (logAccount A ((T.union Q).union R).refs)
      s₁ sp B.trampoline T Q R l s') :
    NoLeak ((T.union Q).union R).refs ∅ ∅ s'.heap.2 ↔ l = [] := by
  obtain ⟨hlive, honce⟩ := h.account
  constructor
  · intro hno
    refine List.eq_nil_iff_forall_not_mem.mpr fun a ha => ?_
    have hin : a ∈ live ((T.union Q).union R).refs s'.heap.2 := hlive ▸ .inl ha
    rw [hno.live, Set.sdiff_empty, Set.union_empty] at hin
    exact h.fresh a ha a hin rfl
  · rintro rfl
    refine ⟨?_, honce⟩
    rw [hlive, Set.sdiff_empty, Set.union_empty]
    exact Set.union_eq_self_of_subset_left fun a ha => absurd ha List.not_mem_nil

/-- Behind a new image the `FSFile` is still there. -/
theorem replaced_leaks {s₁ s₂ : Memory (ω × List RegionCall)} {program : Program} {x y : Arguments}
    {fileout : Nat} (h : Temps (loggedLawful V ((T.union Q).union R).refs)
      (logAccount A ((T.union Q).union R).refs) s₁ sp B.trampoline T Q R (x.on (y.on [(fileout, 1)])) s₂)
    (hr : replaceImage (logged A) B program x y (freeProcessSpace (logged A) s₂ sp) = some (ret, sp', s'))
    (old : Set (Nat × Nat)) :
    0 ≤ ret ∧ ¬ NoLeak ((T.union Q).union R).refs old (imageRegions s' sp') s'.heap.2 := by
  obtain ⟨s₃, T', Q', m₁, m', hloaded, -, -, hpush, hret⟩ := replaceImage_shows h.held.free.1 h.nodup
    (fun a ha a' ha' => h.fresh a ha a' (.inr ha')) hr
  refine ⟨hret ▸ Int.natCast_nonneg _, fun hno => ?_⟩
  have hin : (fileout, 1) ∈ ((buffers [(fileout, 1)]).union R).refs := .inl List.mem_cons_self
  have hlive := hpush.showing.built.own.valid.2 (.inr (.inr hin))
  rw [hno.live] at hlive
  rcases hlive with hold | hnew
  · refine h.fresh (fileout, 1) ?_ _ hold.1 rfl
    simp [Arguments.on]
  · have hown := hpush.showing.built
    rcases imageRegions_subset hown hloaded.held.stack hnew with hT | hQ
    · exact hown.own.refs _ hT _ (.inr hin) rfl
    · exact hown.apart.refs _ hQ _ hin rfl

/-- `sys_execve` loses no region exactly if the path is that of a device. -/
theorem execve_clean_iff (h : Held V s sp B.trampoline T Q R)
    (hrun : sysExecve (logged A) B m d u cwd sp path argv envp (withLog s) = some (ret, sp', s')) :
    Clean ((T.union Q).union R).refs s sp ret sp' s' ↔
      ∃ text t, userString (view A s sp.root) path = some text ∧
        Fs.getfile m d u.getfile cwd text false = some (some t, d) ∧ ∀ inum, t ≠ .file inum := by
  obtain ⟨text, args, vars, found, htext, -, -, hfound, hended⟩ :=
    sysExecve_ended (U := logAccount A ((T.union Q).union R).refs)
      (held_withLog h) ⟨rfl, trivial⟩ hrun
  have hdevice : (∃ text t, userString (view A s sp.root) path = some text ∧
      Fs.getfile m d u.getfile cwd text false = some (some t, d) ∧ ∀ inum, t ≠ .file inum) ↔
      ∃ t, found = some t ∧ ∀ inum, t ≠ .file inum := by
    constructor
    · rintro ⟨text', t, htext', hfound', ht⟩
      cases htext.symm.trans htext'
      cases hfound.symm.trans hfound'
      exact ⟨t, rfl, ht⟩
    · rintro ⟨t, rfl, ht⟩
      exact ⟨text, t, htext, hfound, ht⟩
  rw [hdevice, Clean]
  cases hended with
  | missing htemps hne =>
      rw [if_pos (by decide), htemps.noLeak_iff]
      exact iff_of_false hne fun ⟨t, ht, _⟩ => nomatch ht
  | @refused t _ l fileout hnot htemps hfile hdev =>
      rw [if_pos (by decide), htemps.noLeak_iff]
      constructor
      · rintro rfl
        exact ⟨t, rfl, fun inum he => nomatch hfile inum he⟩
      · rintro ⟨t', he, ht⟩
        cases he
        exact hdev ht
  | @replaced t _ _ _ _ _ _ fileout hexec _ _ htemps hr =>
      obtain ⟨hret, hno⟩ := replaced_leaks htemps hr (imageRegions s sp)
      rw [if_neg (not_lt.mpr hret)]
      refine iff_of_false hno ?_
      rintro ⟨t', he, ht⟩
      cases he
      exact hexec (notExecutable_device m d u ht)

end Clean

/-! ## The stack of the call -/

/-- The calls behind the last free of the region. -/
def behindFree (b pages : Nat) (log : List RegionCall) : List RegionCall :=
  log.takeWhile (· ≠ .kfree b pages)

section Behind

variable {w w' : ω × List RegionCall} {F : Footprint} {b : Nat}

/-- What is taken is in the log. -/
theorem Takes.log (h : Takes (logged A) w .none w' F) :
    ∃ log, w'.2 = log ++ w.2 ∧ (∀ c ∈ log, ∀ b n, c ≠ .kfree b n) ∧ ∀ a ∈ F.refs, .kalloc a.1 a.2 ∈ log := by
  induction h with
  | refl => exact ⟨[], rfl, fun c hc => absurd hc List.not_mem_nil, fun a ha => ha.elim⟩
  | dmalloc _ hd ih =>
      obtain ⟨log, hlog, hrest⟩ := ih
      exact ⟨log, (logged_dmalloc hd).2.trans hlog, hrest⟩
  | @kalloc w₁ w₂ F₁ b n _ _ hk ih =>
      obtain ⟨log, hlog, hkalloc, hrefs⟩ := ih
      refine ⟨.kalloc b n :: log, ?_, fun c hc b' n' => ?_, ?_⟩
      · rw [(logged_kalloc hk).2, hlog, List.cons_append]
      · rcases List.mem_cons.mp hc with rfl | hc
        · exact nofun
        · exact hkalloc c hc b' n'
      · rintro a (rfl | ha)
        · exact List.mem_cons_self
        · exact List.mem_cons_of_mem _ (hrefs a ha)

theorem pushPointer_heap {r : Root} {x : UInt64} {c c' : Cursor} {s s' : Memory ω}
    (h : pushPointer A r x c s = some (c', s')) : s'.heap = s.heap := by
  rw [pushPointer] at h
  split at h
  · cases h
  · cases h
    rfl

/-- The loop over the strings only gives buffers back. -/
theorem pushStrings_log {r : Root} {xs : List Argument} {c c' : Cursor}
    {s s' : Memory (ω × List RegionCall)} (h : pushStrings (logged A) r xs c s = some (c', s')) :
    ∃ log, s'.heap.2 = log ++ s.heap.2 ∧ ∀ e ∈ log, ∃ b, e = .kfree b bufferPages := by
  induction xs generalizing c s with
  | nil => exact ⟨[], congrArg Prod.snd (pushPointer_heap h), fun e he => absurd he List.not_mem_nil⟩
  | cons x xs ih =>
      obtain ⟨⟨c₁, s₁⟩, hp, h⟩ := Option.bind_eq_some_iff.mp h
      obtain ⟨s₂, ht, h⟩ := Option.bind_eq_some_iff.mp h
      obtain ⟨log, hlog, hfrees⟩ := ih h
      have hheap : s₂.heap = s.heap := (translateOut_heap ht).trans (pushPointer_heap hp)
      refine ⟨log ++ [.kfree x.region bufferPages], ?_, fun e he => ?_⟩
      · rw [hlog, List.append_assoc]
        exact congrArg (fun l => log ++ .kfree x.region bufferPages :: l) (congrArg Prod.snd hheap)
      · rcases List.mem_append.mp he with he | he
        · exact hfrees e he
        · exact ⟨x.region, List.mem_singleton.mp he⟩

theorem loadProcess_root {B : Platform} {program : Program} {sp : AddressSpace} {s s' : Memory ω}
    (h : loadProcess A B program s = some (sp, s')) : ∃ s₁, newRoot A s = some (sp.root, s₁) := by
  obtain ⟨⟨root, s₁⟩, hroot, h⟩ := Option.bind_eq_some_iff.mp h
  obtain ⟨s₂, -, h⟩ := Option.bind_eq_some_iff.mp h
  obtain ⟨s₃, -, h⟩ := Option.bind_eq_some_iff.mp h
  obtain ⟨⟨maxVpn, s₄⟩, -, h⟩ := Option.bind_eq_some_iff.mp h
  obtain ⟨s₅, -, h⟩ := Option.bind_eq_some_iff.mp h
  obtain ⟨⟨trap, s₆⟩, -, h⟩ := Option.bind_eq_some_iff.mp h
  obtain ⟨s₇, -, h⟩ := Option.bind_eq_some_iff.mp h
  obtain ⟨⟨stack, s₈⟩, -, h⟩ := Option.bind_eq_some_iff.mp h
  cases h
  exact ⟨s₁, hroot⟩

/-- What `load_process` takes is behind a free that came before it. -/
theorem replaceImage_log {B : Platform} {program : Program} {x y : Arguments} {ret : Int}
    {sp : AddressSpace} {s s' : Memory (ω × List RegionCall)}
    (h : replaceImage (logged A) B program x y s = some (ret, sp, s')) :
    ∃ s₁ log, loadProcess (logged A) B program s = some (sp, s₁) ∧ s'.heap.2 = log ++ s₁.heap.2 ∧
      ∀ e ∈ log, ∃ b, e = .kfree b bufferPages := by
  obtain ⟨⟨sp₁, s₁⟩, hload, h⟩ := Option.bind_eq_some_iff.mp h
  obtain ⟨⟨c₁, s₂⟩, hargv, h⟩ := Option.bind_eq_some_iff.mp h
  obtain ⟨⟨c₂, s₃⟩, henvp, h⟩ := Option.bind_eq_some_iff.mp h
  cases h
  obtain ⟨log, hlog, hfrees⟩ := pushStrings_log hargv
  obtain ⟨log', hlog', hfrees'⟩ := pushStrings_log henvp
  refine ⟨s₁, .kfree y.region bufferPages :: (log' ++ .kfree x.region bufferPages :: log), hload, ?_,
    fun e he => ?_⟩
  · show RegionCall.kfree y.region bufferPages :: s₃.heap.2 = _
    rw [hlog', List.cons_append, List.append_assoc]
    exact congrArg (fun l => RegionCall.kfree y.region bufferPages ::
      (log' ++ .kfree x.region bufferPages :: l)) hlog
  · rcases List.mem_cons.mp he with rfl | he
    · exact ⟨_, rfl⟩
    · rcases List.mem_append.mp he with he | he
      · exact hfrees' e he
      · rcases List.mem_cons.mp he with rfl | he
        · exact ⟨_, rfl⟩
        · exact hfrees e he

end Behind

section Stack

variable {low : Nat} {B : Platform} {m : Mount} {d : Disk} {u : Locals} {cwd : UInt32}
  {s : Memory Alloc.Heap} {sp sp' : AddressSpace} {T Q R : Footprint} {path argv envp : UInt64} {ret : Int}
  {s' : Memory (Alloc.Heap × List RegionCall)}

/-- The allocation of a page leaves the list of the free regions as it is. -/
theorem dmalloc_vfreelist {h h' : Alloc.Heap} {r : Span Nat} (hd : h.dmalloc 1 = some (r, h')) :
    h'.vfreelist = h.vfreelist := by
  rw [Alloc.Heap.dmalloc] at hd
  split at hd
  · cases hd
    rfl
  · rw [Alloc.Heap.dmallocEnd] at hd
    obtain ⟨⟨f, h₁⟩, hp, he⟩ := Option.map_eq_some_iff.mp hd
    cases he
    exact (Alloc.Heap.pallocPtr_spec hp).1.vfreelist

/-- The first region of a new address space is the beginning of the one that was given back
last. -/
theorem newRoot_ref {w w' : Memory (Alloc.Heap × List RegionCall)} {r : Root} {b : Nat}
    {l : List (Span Unit)} (hfree : w.heap.1.vfreelist = ⟨b, kernelStackPages, ()⟩ :: l)
    (hn : newRoot (logged heapAllocator) w = some (r, w')) : r.ref = b := by
  obtain ⟨⟨page, w₁⟩, hd, hn⟩ := Option.bind_eq_some_iff.mp hn
  obtain ⟨⟨ref, w₂⟩, hk, hn⟩ := Option.bind_eq_some_iff.mp hn
  cases hn
  -- the page
  obtain ⟨⟨p, w₃, m₃⟩, hd₁, he⟩ := Option.map_eq_some_iff.mp hd
  cases he
  obtain ⟨⟨r₁, h₁⟩, hd₂, he⟩ := Option.map_eq_some_iff.mp (logged_dmalloc hd₁).1
  have hheap : w₃.1 = h₁ := congrArg (fun x => x.2.1) he.symm
  have hlist : h₁.vfreelist = ⟨b, kernelStackPages, ()⟩ :: l := (dmalloc_vfreelist hd₂).trans hfree
  -- the array of the root
  obtain ⟨⟨b', w₄⟩, hk₁, he⟩ := Option.map_eq_some_iff.mp hk
  cases he
  obtain ⟨⟨r₂, h₂⟩, hk₂, he⟩ := Option.map_eq_some_iff.mp (logged_kalloc hk₁).1
  have hk₂ : w₃.1.kalloc 2 = some (r₂, h₂) := hk₂
  rw [Alloc.Heap.kalloc, hheap, hlist, Span.firstFit,
    if_pos (show 2 < kernelStackPages by decide)] at hk₂
  cases hk₂
  exact (congrArg Prod.fst he).symm

/-- Behind the free of its stack, `sys_execve` takes the beginning of the stack. -/
theorem sysExecve_takes_stack (h : Held (heapLawful low) s sp B.trampoline T Q R)
    (hrun : sysExecve (logged heapAllocator) B m d u cwd sp path argv envp (withLog s) =
      some (ret, sp', s')) (hret : 0 ≤ ret) :
    .kalloc sp.kernelStackVpn 2 ∈ behindFree sp.kernelStackVpn kernelStackPages s'.heap.2 := by
  obtain ⟨text, args, vars, found, -, -, -, -, hended⟩ :=
    sysExecve_ended (U := logAccount heapAllocator ((T.union Q).union R).refs)
      (held_withLog h) ⟨rfl, trivial⟩ hrun
  cases hended with
  | missing => exact absurd hret (by decide)
  | refused => exact absurd hret (by decide)
  | @replaced t s₁ _ _ _ x y fileout hexec hx hy htemps hr =>
      obtain ⟨s₂, log, hload, hlog, hfrees⟩ := replaceImage_log hr
      obtain ⟨T', Q', hloaded⟩ := loadProcess_loaded htemps.held.free.1 hload
      obtain ⟨log', hlog', hkallocs, hrefs⟩ := Takes.log hloaded.loading.takes
      have hroot : sp'.root.ref = sp.kernelStackVpn := by
        obtain ⟨w, hroot⟩ := loadProcess_root hload
        exact newRoot_ref rfl hroot
      have hin : RegionCall.kalloc sp.kernelStackVpn 2 ∈ log' :=
        hroot ▸ hrefs (sp'.root.ref, 2) (.inl hloaded.held.built.tree.at_nil.ref)
      rw [behindFree, hlog, hlog', List.takeWhile_append_of_pos, List.takeWhile_append_of_pos]
      · exact List.mem_append_right _ (List.mem_append_left _ hin)
      · exact fun e he => decide_eq_true (hkallocs e he _ _)
      · intro e he
        obtain ⟨b, rfl⟩ := hfrees e he
        exact decide_eq_true nofun

/-- `sys_execve` takes a region that overlaps the stack it runs on. -/
theorem execve_reuses_stack (h : Held (heapLawful low) s sp B.trampoline T Q R)
    (hrun : sysExecve (logged heapAllocator) B m d u cwd sp path argv envp (withLog s) =
      some (ret, sp', s')) (hret : 0 ≤ ret) :
    ¬ ∀ b n, .kalloc b n ∈ behindFree sp.kernelStackVpn kernelStackPages s'.heap.2 →
      Span.Disjoint (⟨b, n, ()⟩ : Span Unit) ⟨sp.kernelStackVpn, kernelStackPages, ()⟩ := by
  intro hall
  refine hall _ _ (sysExecve_takes_stack h hrun hret) sp.kernelStackVpn ?_ ?_
  · exact Span.has_start (show 1 ≤ 2 by decide)
  · exact Span.has_start (show 1 ≤ kernelStackPages by decide)

end Stack

/-! ## A device and no file -/

section Caller

variable {s : Memory Alloc.Heap} {sp : AddressSpace} {T Q : Footprint}

/-- The caller calls `sys_execve` without arguments. -/
theorem caller_refused {m : Mount} {path : UInt64} {text : List Chr}
    (h : Loaded (heapLawful 0x80206) board callerProgram largeMemory .none sp s T Q)
    (hroom : HeapRoom s.heap 6000) (hpath : userString (view heapAllocator s sp.root) path = some text)
    (hget : ∀ s : Memory (Alloc.Heap × List RegionCall), HeapRoom s.heap.1 100 →
      ∃ found s', getfile (logged heapAllocator) m (elfDisk 0x10000) zeroCall.getfile 2 text s =
        some (found, s') ∧ ∀ t, found = some t → notExecutable m (elfDisk 0x10000) zeroCall t) :
    ∃ s', sysExecve (logged heapAllocator) board m (elfDisk 0x10000) zeroCall 2 sp path 0x10010 0x10010
      (withLog s) = some (-1, sp, s') :=
  sysExecve_refuses (Y := loggedRoomy heapRoomy) (held_withLog h.held) hpath
    ((caller_envp h).userStrings (by decide) fun text ht => absurd ht List.not_mem_nil)
    ((caller_envp h).userStrings (by decide) fun text ht => absurd ht List.not_mem_nil)
    (heapRoomy.mono (m := 100 + bufferPages * 3) hroom (by decide)) hget

end Caller

/-- The device `vda` cannot be executed. -/
theorem execve_clean_vda : ∃ s sp T Q s',
    Held (heapLawful 0x80206) s sp board.trampoline T Q .none ∧
      sysExecve (logged heapAllocator) board ⟨sampleFs, 2, 2⟩ (elfDisk 0x10000) zeroCall 2 sp 0x10004 0x10010
        0x10010 (withLog s) = some (-1, sp, s') ∧
      Clean ((T.union Q).union .none).refs s sp (-1) sp s' := by
  obtain ⟨sp, s, T, Q, h, hroom⟩ := caller_loaded
  have hpath : userString (view heapAllocator s sp.root) 0x10004 = some (Fs.literal "vda") :=
    caller_string h (k := 4) rfl (by decide) (by decide)
  have hdev : (Fs.firstRound ⟨sampleFs, 2, 2⟩ zeroCall.getfile 2 (Fs.literal "vda")).device ⟨sampleFs, 2, 2⟩
      (elfDisk 0x10000) zeroCall.getfile = some .vda := by decide +kernel
  have hget : ∀ s : Memory (Alloc.Heap × List RegionCall), HeapRoom s.heap.1 100 → ∃ s',
      getfile (logged heapAllocator) ⟨sampleFs, 2, 2⟩ (elfDisk 0x10000) zeroCall.getfile 2 (Fs.literal "vda") s
        = some (some .vda, s') := fun s hroom =>
    getfile_device_returns (Y := loggedRoomy heapRoomy) (n := 0) (by decide +kernel) (by decide +kernel) hdev
      (heapRoomy.mono hroom (by decide +kernel))
  have hvda : ∀ inum, Target.vda ≠ .file inum := nofun
  obtain ⟨s', hrun⟩ := caller_refused h hroom (m := ⟨sampleFs, 2, 2⟩) hpath fun s₁ hroom₁ => by
    obtain ⟨s₂, hs₂⟩ := hget s₁ hroom₁
    exact ⟨_, s₂, hs₂, fun t ht => Option.some.inj ht ▸ notExecutable_device _ _ _ hvda⟩
  obtain ⟨s₂, hs₂⟩ := hget (withLog s) (heapRoomy.mono hroom (by decide))
  exact ⟨s, sp, T, Q, s', h.held, hrun, (execve_clean_iff h.held hrun).mpr
    ⟨Fs.literal "vda", .vda, hpath, getfile_target hs₂, hvda⟩⟩

/-- No file is found, and the buffers of the two arrays are lost. -/
theorem execve_missing_leaks : ∃ s sp T Q s',
    Held (heapLawful 0x80206) s sp board.trampoline T Q .none ∧
      sysExecve (logged heapAllocator) board sampleMount (elfDisk 0x10000) zeroCall 2 sp 0x10010 0x10010
        0x10010 (withLog s) = some (-1, sp, s') ∧
      ¬ Clean ((T.union Q).union .none).refs s sp (-1) sp s' := by
  obtain ⟨sp, s, T, Q, h, hroom⟩ := caller_loaded
  have hpath : userString (view heapAllocator s sp.root) 0x10010 = some [] :=
    caller_string h (k := 16) rfl (by decide) (by decide)
  have hget : ∀ s, getfile (logged heapAllocator) sampleMount (elfDisk 0x10000) zeroCall.getfile 2 [] s =
      some (none, s) := fun s => rfl
  obtain ⟨s', hrun⟩ := caller_refused h hroom (m := sampleMount) hpath fun s₁ _ =>
    ⟨none, s₁, hget s₁, fun t ht => nomatch ht⟩
  refine ⟨s, sp, T, Q, s', h.held, hrun, fun hclean => ?_⟩
  obtain ⟨text, args, vars, found, htext, -, -, hfound, hended⟩ :=
    sysExecve_ended (U := logAccount heapAllocator ((T.union Q).union .none).refs)
      (held_withLog h.held) ⟨rfl, trivial⟩ hrun
  cases hpath.symm.trans htext
  cases (getfile_target (hget (withLog s))).symm.trans hfound
  cases hended with
  | missing htemps hne => exact hne (htemps.noLeak_iff.mp hclean)

/-- The caller executes a file. -/
theorem execve_reuses_stack_caller : ∃ s sp ret sp' s',
    sysExecve (logged heapAllocator) board sampleMount (elfDisk 0x10000) zeroCall 2 sp 0x10000 0x10008
        0x10010 (withLog s) = some (ret, sp', s') ∧ 0 ≤ ret ∧
      ¬ ∀ b n, .kalloc b n ∈ behindFree sp.kernelStackVpn kernelStackPages s'.heap.2 →
        Span.Disjoint (⟨b, n, ()⟩ : Span Unit) ⟨sp.kernelStackVpn, kernelStackPages, ()⟩ := by
  obtain ⟨sp, s, T, Q, h, hroom⟩ := caller_loaded
  obtain ⟨ret, sp', s', hret, hrun⟩ := caller_execve_low (loggedRoomy_kept heapRoomy_kept) h
    (held_withLog h.held) rfl hroom
  exact ⟨s, sp, ret, sp', s', hrun, hret, execve_reuses_stack h.held hrun hret⟩

/-- The array of the new tables is on the stack of the call. -/
theorem execve_tables_on_stack : ∃ s sp ret sp' s',
    sysExecve (logged heapAllocator) board sampleMount (elfDisk 0x10000) zeroCall 2 sp 0x10000 0x10008
        0x10010 (withLog s) = some (ret, sp', s') ∧ 0 ≤ ret ∧
      .kalloc sp.kernelStackVpn 2 ∈ behindFree sp.kernelStackVpn kernelStackPages s'.heap.2 ∧
      ¬ Span.Disjoint (⟨sp.kernelStackVpn, 2, ()⟩ : Span Unit) ⟨sp.kernelStackVpn, kernelStackPages, ()⟩ := by
  obtain ⟨sp, s, T, Q, h, hroom⟩ := caller_loaded
  obtain ⟨ret, sp', s', hret, hrun⟩ := caller_execve_low (loggedRoomy_kept heapRoomy_kept) h
    (held_withLog h.held) rfl hroom
  refine ⟨s, sp, ret, sp', s', hrun, hret, sysExecve_takes_stack h.held hrun hret, fun hdisjoint => ?_⟩
  exact hdisjoint sp.kernelStackVpn (Span.has_start (show 1 ≤ 2 by decide))
    (Span.has_start (show 1 ≤ kernelStackPages by decide))

end Exec
