import Endros.Space.Copy

/-!
# Every page is freed once

An address space is made by calls of `uptmap`, each with a page from `dmalloc`, and
calls of `uptunmap`, and `ptref_free` takes it apart.  The trace of a run has the pages
that `dmalloc` returned and those that were passed to `dmafree`, with their frames.

As long as nothing is unmapped, the tables and the pages in the slots are all that was
taken, and `ptref_free` gives back exactly that.  But `uptunmap` frees the page of a slot
and leaves the kernel page in it.  So `walkupt` still finds it, and `ptref_free` passes
it to `dmafree` again.
-/

namespace Space

open Lib Paging

variable {ω : Type} {A : Allocator ω}

/-! ## Traces -/

/-- The pages from `dmalloc` and those passed to `dmafree`, the last one first. -/
structure Trace where
  taken : List Page
  given : List Page
deriving DecidableEq, Repr

/-- The allocators, with a trace of the calls of `dmalloc` and `dmafree`. -/
def traced (A : Allocator ω) : Allocator (ω × Trace) where
  frame w := A.frame w.1
  dmalloc w m z := (A.dmalloc w.1 m z).map fun r =>
    (r.1, (r.2.1, { w.2 with taken := r.1 :: w.2.taken }), r.2.2)
  dmafree w m p :=
    let r := A.dmafree w.1 m p
    ((r.1, { w.2 with given := p :: w.2.given }), r.2)
  kalloc w n := (A.kalloc w.1 n).map fun r => (r.1, (r.2, w.2))
  kfree w b n := (A.kfree w.1 b n, w.2)

/-- The memory with an empty trace. -/
def Memory.traced (s : Memory ω) : Memory (ω × Trace) :=
  { s with heap := (s.heap, ⟨[], []⟩) }

section Traced

variable {V : Lawful A} {w : ω × Trace} {m m' : Phys} {z : Bool} {p : Page} {n b : Nat} {w' : ω × Trace}

theorem traced_dmalloc (h : (Space.traced A).dmalloc w m z = some (p, w', m')) :
    A.dmalloc w.1 m z = some (p, w'.1, m') ∧ w'.2 = ⟨p :: w.2.taken, w.2.given⟩ := by
  obtain ⟨⟨p', w₁, m₁⟩, hA, he⟩ := Option.map_eq_some_iff.1 h
  cases he
  exact ⟨hA, rfl⟩

theorem traced_kalloc (h : (Space.traced A).kalloc w n = some (b, w')) :
    A.kalloc w.1 n = some (b, w'.1) ∧ w'.2 = w.2 := by
  obtain ⟨⟨b', w₁⟩, hA, he⟩ := Option.map_eq_some_iff.1 h
  cases he
  exact ⟨hA, rfl⟩

/-- The trace does not matter to the allocators. -/
def tracedLawful (V : Lawful A) : Lawful (Space.traced A) where
  Valid w := V.Valid w.1
  mono := V.mono
  page := V.page
  inj := V.inj
  dmalloc h hd := V.dmalloc h (traced_dmalloc hd).1
  dmafree := V.dmafree
  kalloc h hn hk := V.kalloc h hn (traced_kalloc hk).1
  kfree := V.kfree

/-- A page was taken as often as it was given back, and once more if it is there. -/
structure Balanced (t : Trace) (P : Set Page) : Prop where
  there : ∀ p ∈ P, t.taken.count p = t.given.count p + 1
  gone : ∀ p, p ∉ P → t.taken.count p = t.given.count p

section Balanced

variable {t : Trace} {P : Set Page}

theorem Balanced.take (h : Balanced t P) (hp : p ∉ P) :
    Balanced ⟨p :: t.taken, t.given⟩ (insert p P) := by
  refine ⟨fun q hq => ?_, fun q hq => ?_⟩
  · by_cases he : q = p
    · rw [he, List.count_cons_self, h.gone p hp]
    · rw [List.count_cons_of_ne (Ne.symm he), h.there q (hq.resolve_left he)]
  · rw [List.count_cons_of_ne fun he => hq (.inl he.symm), h.gone q fun hin => hq (.inr hin)]

theorem Balanced.give (h : Balanced t P) (hp : p ∈ P) :
    Balanced ⟨t.taken, p :: t.given⟩ (P \ {p}) := by
  refine ⟨fun q hq => ?_, fun q hq => ?_⟩
  · rw [List.count_cons_of_ne (Ne.symm hq.2), h.there q hq.1]
  · by_cases he : q = p
    · rw [he, List.count_cons_self, h.there p hp]
    · rw [List.count_cons_of_ne (Ne.symm he), h.gone q fun hin => hq ⟨hin, he⟩]

theorem Balanced.perm (h : Balanced t ∅) : t.given.Perm t.taken :=
  List.perm_iff_count.2 fun p => (h.gone p (Set.notMem_empty p)).symm

end Balanced

/-- The trace has the pages of the footprint. -/
def traceAccount (V : Lawful A) : Account (Space.traced A) where
  Holds w F := V.Valid w.1 F.pages F.refs ∧ Balanced w.2 F.pages
  dmalloc h hd := by
    obtain ⟨hd, ht⟩ := traced_dmalloc hd
    obtain ⟨hnew, hv, -⟩ := V.dmalloc h.1 hd
    exact ⟨hv, ht ▸ h.2.take hnew⟩
  kalloc h hn hk := by
    obtain ⟨hk, ht⟩ := traced_kalloc hk
    exact ⟨(V.kalloc h.1 hn hk).2, ht ▸ h.2⟩
  dmafree h hp := ⟨(V.dmafree h.1 hp).1, h.2.give hp⟩
  kfree h hb := ⟨V.kfree h.1 hb, h.2⟩

end Traced

/-! ## Calls -/

/-- A call of `uptmap` with a new page, or of `uptunmap`. -/
inductive UserCall where
  | map (zeroing : Bool) (userVpn : Nat) (flags : UInt64)
  | unmap (userVpn : Nat)

namespace UserCall

def run (A : Allocator ω) (r : Root) : UserCall → Memory ω → Option (Memory ω)
  | map zeroing userVpn flags, s => do
      let (p, s) ← s.dmalloc A zeroing
      uptmap A s r.page.vpn r.ref p.vpn userVpn p.pfn flags
  | unmap userVpn, s => uptunmap A s r.ref userVpn

def runAll (A : Allocator ω) (r : Root) : List UserCall → Memory ω → Option (Memory ω)
  | [], s => some s
  | c :: cs, s => (c.run A r s).bind (runAll A r cs)

/-- The slots of mapped pages behind the call. -/
def slots (M : Set Slot) : UserCall → Set Slot
  | map _ userVpn _ => insert (slotOf userVpn) M
  | unmap userVpn => M \ {slotOf userVpn}

/-- A page is mapped only if it is not, and unmapped only if it is. -/
def Fits (M : Set Slot) : UserCall → Prop
  | map _ userVpn flags => slotOf userVpn ∉ M ∧ GoodFlags flags
  | unmap userVpn => slotOf userVpn ∈ M

def AllFit : Set Slot → List UserCall → Prop
  | _, [] => True
  | M, c :: cs => c.Fits M ∧ AllFit (c.slots M) cs

def isUnmap : UserCall → Bool
  | map .. => false
  | unmap _ => true

/-- The call maps the page. -/
def Maps (v : Nat) : UserCall → Prop
  | map _ userVpn _ => slotOf userVpn = slotOf v
  | unmap _ => False

theorem runAll_append (r : Root) (cs cs' : List UserCall) (s : Memory ω) :
    runAll A r (cs ++ cs') s = (runAll A r cs s).bind (runAll A r cs') := by
  induction cs generalizing s with
  | nil => rfl
  | cons c cs ih =>
      rw [List.cons_append, runAll, runAll, Option.bind_assoc]
      exact congrArg _ (funext ih)

end UserCall

/-- All pages are freed once, and a page that was unmapped is not found until it is
mapped again. -/
structure FreedOnce (A : Allocator ω) (r : Root) (cs : List UserCall) (s : Memory (ω × Trace)) : Prop where
  freed : ∀ s', UserCall.runAll (traced A) r cs s = some s' →
    (ptrefFree (traced A) s' r).heap.2.given.Perm (ptrefFree (traced A) s' r).heap.2.taken
  cleared : ∀ cs₁ v cs₂ cs₃, cs = cs₁ ++ .unmap v :: cs₂ ++ cs₃ → (∀ c ∈ cs₂, ¬ c.Maps v) →
    ∀ s', UserCall.runAll (traced A) r (cs₁ ++ .unmap v :: cs₂) s = some s' → walkupt s' r.ref v = 0

/-! ## Without `uptunmap` -/

section Calls

variable {V : Lawful A} {s₀ s s' : Memory ω} {r : Root} {T Q R : Footprint} {M : Set Slot}
  {c : UserCall} {cs : List UserCall}

/-- The address space has all that was taken: tables on paths, and pages in the slots
of `M`. -/
structure Filled (V : Lawful A) (s₀ : Memory ω) (r : Root) (R : Footprint) (M : Set Slot)
    (T Q : Footprint) (s : Memory ω) : Prop where
  built : Built V s r 0 T Q R
  takes : Takes A s₀.heap .none s.heap (T.union Q)
  reached : Reached s r T
  placed : Placed s r Q
  refs : Q.refs = ∅
  slots : ∀ x, (leafAt s r x).2 ≠ 0 ↔ x ∈ M

/-- The root has no slots. -/
theorem Filled.newRoot (ho : Own V s₀.heap .none R) (hroot : newRoot A s₀ = some (r, s)) :
    ∃ T Q, Filled V s₀ r R ∅ T Q s := by
  obtain ⟨hb, -, htakes, hreached⟩ := newRoot_takes 0 ho hroot
  have hempty := (newRoot_empty ho hroot).2.2
  refine ⟨_, _, hb, htakes, hreached, fun _ hq => hq.elim, rfl, fun x => ?_⟩
  rw [hempty.leafAt_eq]
  exact iff_of_false (fun h => h rfl) (Set.notMem_empty x)

/-- A page is mapped. -/
theorem Filled.map {z : Bool} {userVpn : Nat} {flags : UInt64} (h : Filled V s₀ r R M T Q s)
    (hfit : (UserCall.map z userVpn flags).Fits M)
    (hrun : (UserCall.map z userVpn flags).run A r s = some s') :
    ∃ T' Q', Filled V s₀ r R (insert (slotOf userVpn) M) T' Q' s' := by
  obtain ⟨hslot, hflags⟩ := hfit
  obtain ⟨⟨p, s₁⟩, hd, hu⟩ := Option.bind_eq_some_iff.1 hrun
  obtain ⟨h₁, hsame, hleaf, hp, -⟩ := h.built.dmalloc hd
  have hT : Same s s₁ T := hsame.mono Footprint.le_union_left
  obtain ⟨T', h', -, hleaf', htakes, hreached⟩ := h₁.putPage (hleaf ▸ h.built.leaves) hp hflags hu
  have hgood := h₁.good (show p ∈ (Q.addPage p).pages from .inl rfl)
  have hempty : (leafAt s₁ r (slotOf userVpn)).2 = 0 := by
    rw [hleaf]
    exact not_not.1 fun hne => hslot ((h.slots _).1 hne)
  refine ⟨T', Q.addPage p, h', ?_, ?_, ?_, h.refs, fun x => ?_⟩
  · have hd' : Takes A s.heap (T.union Q) s₁.heap ((T.union Q).addPage p) := Takes.of_dmalloc hd
    rw [← Footprint.addPage_union] at hd'
    exact (h.takes.trans hd').trans htakes
  · exact hreached (h.reached.congr h.built.tree hT)
  · exact (h.placed.congr hleaf).put hempty hleaf' hgood.1 (leafPage_pte hgood.2.1 hflags)
  · rw [hleaf', hleaf]
    by_cases hx : x = slotOf userVpn
    · rw [hx, Function.update_self]
      exact iff_of_true hgood.1 (Set.mem_insert _ M)
    · rw [Function.update_of_ne hx, h.slots x]
      exact (or_iff_right hx).symm

/-- Calls of `uptmap`. -/
theorem Filled.runAll (h : Filled V s₀ r R M T Q s) (hfit : UserCall.AllFit M cs)
    (hmaps : ∀ c ∈ cs, c.isUnmap = false) (hrun : UserCall.runAll A r cs s = some s') :
    ∃ T' Q', Filled V s₀ r R (cs.foldl UserCall.slots M) T' Q' s' := by
  induction cs generalizing M T Q s with
  | nil =>
      cases hrun
      exact ⟨T, Q, h⟩
  | cons c cs ih =>
      obtain ⟨s₁, hc, hcs⟩ := Option.bind_eq_some_iff.1 hrun
      cases c with
      | map z userVpn flags =>
          obtain ⟨T₁, Q₁, h₁⟩ := h.map hfit.1 hc
          exact ih h₁ hfit.2 (fun c hc => hmaps c (List.mem_cons_of_mem _ hc)) hcs
      | unmap v => cases hmaps _ List.mem_cons_self

/-- `ptref_free` gives back what was taken. -/
theorem Filled.ptrefFree (h : Filled V s₀ r R M T Q s) :
    Gives A s.heap (T.union Q) (Space.ptrefFree A s r).heap .none := by
  have hgives := (Left.ptrefFree h.built h.built.left).2.2
  have hQ : (⟨Q.pages, ∅⟩ : Footprint) = Q := congrArg (Footprint.mk Q.pages) h.refs.symm
  rw [h.built.left_eq h.reached h.placed, hQ] at hgives
  exact hgives

/-- `uptunmap` leaves the kernel page of the slot. -/
theorem walkupt_uptunmap {v : Nat} (hrun : uptunmap A s r.ref v = some s') (u : Nat) :
    walkupt s' r.ref u = walkupt s r.ref u := by
  simp only [uptunmap] at hrun
  split at hrun
  · cases hrun
  · split at hrun
    · cases hrun
    · cases hrun
      split <;> rfl

theorem UserCall.AllFit.split {cs' : List UserCall} (h : AllFit M (cs ++ cs')) :
    AllFit M cs ∧ AllFit (cs.foldl UserCall.slots M) cs' := by
  induction cs generalizing M with
  | nil => exact ⟨trivial, h⟩
  | cons c cs ih => exact ⟨⟨h.1, (ih h.2).1⟩, (ih h.2).2⟩

end Calls

/-! ## Every page is freed once -/

section Freed

variable {V : Lawful A} {s : Memory ω} {s₁ : Memory (ω × Trace)} {r : Root} {R : Footprint}
  {cs : List UserCall}

/-- Without `uptunmap`, what `dmalloc` returned is what is passed to `dmafree`. -/
theorem freed_of_maps (ho : Own V s.heap .none R) (hroot : newRoot (traced A) s.traced = some (r, s₁))
    (hfit : UserCall.AllFit ∅ cs) (hmaps : ∀ c ∈ cs, c.isUnmap = false) {s₂ : Memory (ω × Trace)}
    (hrun : UserCall.runAll (traced A) r cs s₁ = some s₂) :
    (ptrefFree (traced A) s₂ r).heap.2.given.Perm (ptrefFree (traced A) s₂ r).heap.2.taken := by
  have ho' : Own (tracedLawful V) s.traced.heap .none R := ⟨ho.valid, ho.pages, ho.refs⟩
  obtain ⟨T₁, Q₁, h₁⟩ := Filled.newRoot ho' hroot
  obtain ⟨T₂, Q₂, h₂⟩ := h₁.runAll hfit hmaps hrun
  have hstart : (traceAccount V).Holds s.traced.heap .none := by
    refine ⟨V.mono ho.valid Set.subset_union_left Set.subset_union_left, ?_⟩
    exact ⟨fun _ hp => hp.elim, fun _ _ => rfl⟩
  have hend := h₂.ptrefFree.holds (traceAccount V) (h₂.takes.holds (traceAccount V) hstart)
  exact hend.2.perm

/-- The kernel page of the first page that is unmapped is still found. -/
theorem found_of_unmap (ho : Own V s.heap .none R) (hroot : newRoot (traced A) s.traced = some (r, s₁))
    {cs' : List UserCall} {v : Nat} (hfit : UserCall.AllFit ∅ (cs ++ .unmap v :: cs'))
    (hmaps : ∀ c ∈ cs, c.isUnmap = false) {s₂ : Memory (ω × Trace)}
    (hrun : UserCall.runAll (traced A) r (cs ++ [.unmap v]) s₁ = some s₂) :
    walkupt s₂ r.ref v ≠ 0 := by
  have ho' : Own (tracedLawful V) s.traced.heap .none R := ⟨ho.valid, ho.pages, ho.refs⟩
  obtain ⟨T₁, Q₁, h₁⟩ := Filled.newRoot ho' hroot
  rw [UserCall.runAll_append] at hrun
  obtain ⟨s₃, hrun₃, hrun⟩ := Option.bind_eq_some_iff.1 hrun
  obtain ⟨s₄, hunmap, he⟩ := Option.bind_eq_some_iff.1 hrun
  cases he
  obtain ⟨hfit₁, hfit₂, -⟩ := hfit.split
  obtain ⟨T₃, Q₃, h₃⟩ := h₁.runAll hfit₁ hmaps hrun₃
  rw [walkupt_uptunmap hunmap, h₃.built.tree.walkupt_eq, h₃.slots]
  exact hfit₂

/-- All pages of an address space are freed once, and pages that were unmapped are not
found, exactly if no page was unmapped. -/
theorem freedOnce_iff (ho : Own V s.heap .none R)
    (hroot : newRoot (traced A) s.traced = some (r, s₁)) (hfit : UserCall.AllFit ∅ cs)
    {s₂ : Memory (ω × Trace)} (hrun : UserCall.runAll (traced A) r cs s₁ = some s₂) :
    FreedOnce A r cs s₁ ↔ ∀ c ∈ cs, c.isUnmap = false := by
  constructor
  · intro h
    by_contra hunmap
    obtain ⟨c, hfind⟩ : ∃ c, cs.find? UserCall.isUnmap = some c := by
      rw [← Option.isSome_iff_exists, List.find?_isSome]
      push Not at hunmap
      exact hunmap.imp fun c hc => ⟨hc.1, Bool.not_eq_false _ ▸ hc.2⟩
    -- the first call of `uptunmap`
    obtain ⟨hc, cs₁, cs₂, rfl, hfirst⟩ := List.find?_eq_some_iff_append.1 hfind
    cases c with
    | map => cases hc
    | unmap v =>
        have hsplit : cs₁ ++ .unmap v :: cs₂ = cs₁ ++ .unmap v :: [] ++ cs₂ := by
          rw [List.append_assoc, List.cons_append, List.nil_append]
        rw [hsplit, UserCall.runAll_append] at hrun
        obtain ⟨s₃, hrun₃, -⟩ := Option.bind_eq_some_iff.1 hrun
        have hzero := h.cleared cs₁ v [] cs₂ hsplit (fun _ hc => absurd hc List.not_mem_nil) s₃ hrun₃
        exact found_of_unmap ho hroot hfit (fun c hc => by simpa using hfirst c hc) hrun₃ hzero
  · intro h
    refine ⟨fun s' hs' => freed_of_maps ho hroot hfit h hs', fun cs₁ v cs₂ cs₃ hcs => ?_⟩
    have hin : UserCall.unmap v ∈ cs := by
      rw [hcs]
      exact List.mem_append_left _ (List.mem_append_right _ List.mem_cons_self)
    cases h _ hin

end Freed

/-- Two pages are mapped. -/
def mapTwo : List UserCall := [.map true 5 heapFlags, .map false 6 heapFlags]

theorem freedOnce_mapTwo : ∃ r s₁, newRoot (traced heapAllocator) bootMemory.traced = some (r, s₁) ∧
    FreedOnce heapAllocator r mapTwo s₁ := by
  have hrun : ((newRoot (traced heapAllocator) bootMemory.traced).bind fun x =>
      UserCall.runAll (traced heapAllocator) x.1 mapTwo x.2).isSome = true := by decide
  obtain ⟨s₂, hs₂⟩ := Option.isSome_iff_exists.1 hrun
  obtain ⟨⟨r, s₁⟩, hroot, hcalls⟩ := Option.bind_eq_some_iff.1 hs₂
  have hfit : UserCall.AllFit ∅ mapTwo := by
    refine ⟨⟨Set.notMem_empty _, heapFlags_good⟩, ⟨?_, heapFlags_good⟩, trivial⟩
    rintro (he | he)
    · exact absurd he (by decide)
    · exact he
  have hmaps : ∀ c ∈ mapTwo, c.isUnmap = false := by
    rintro c (_ | ⟨_, _ | ⟨_, hc⟩⟩)
    · rfl
    · rfl
    · cases hc
  exact ⟨r, s₁, hroot, (freedOnce_iff bootMemory_own hroot hfit hcalls).2 hmaps⟩

/-- A page is mapped and unmapped. -/
def mapAndUnmap : List UserCall := [.map true 5 heapFlags, .unmap 5]

/-- The kernel page of the page is found behind `uptunmap`, and it is freed twice: by
`uptunmap` with its frame, and by `ptref_free` with the frame of an entry that is `0`. -/
def freesTwice (r : Root) (s₂ : Memory (Alloc.Heap × Trace)) : Bool :=
  let t := (ptrefFree (traced heapAllocator) s₂ r).heap.2
  walkupt s₂ r.ref 5 == 0x100001 && t.taken.length == 4 && t.given.length == 5 &&
    t.given.contains ⟨524813, 0x100001⟩ && t.given.contains ⟨0, 0x100001⟩

set_option maxRecDepth 20000 in
theorem unmapped_page_freed_twice : ∃ r s₁ s₂,
    newRoot (traced heapAllocator) bootMemory.traced = some (r, s₁) ∧
    UserCall.AllFit ∅ mapAndUnmap ∧
    UserCall.runAll (traced heapAllocator) r mapAndUnmap s₁ = some s₂ ∧ freesTwice r s₂ = true ∧
    ¬ FreedOnce heapAllocator r mapAndUnmap s₁ := by
  have hrun : ((newRoot (traced heapAllocator) bootMemory.traced).bind fun x =>
      (UserCall.runAll (traced heapAllocator) x.1 mapAndUnmap x.2).map fun s =>
        freesTwice x.1 s) = some true := by decide +kernel
  obtain ⟨⟨r, s₁⟩, hroot, hrun⟩ := Option.bind_eq_some_iff.1 hrun
  obtain ⟨s₂, hcalls, htwice⟩ := Option.map_eq_some_iff.1 hrun
  have hfit : UserCall.AllFit ∅ mapAndUnmap :=
    ⟨⟨Set.notMem_empty _, heapFlags_good⟩, .inl rfl, trivial⟩
  refine ⟨r, s₁, s₂, hroot, hfit, hcalls, htwice, fun h => ?_⟩
  have hperm := (h.freed s₂ hcalls).length_eq
  simp only [freesTwice, Bool.and_eq_true, beq_iff_eq] at htwice
  rw [htwice.1.1.1.2, htwice.1.1.2] at hperm
  cases hperm

end Space
