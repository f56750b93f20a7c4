import Endros.Lib.Loop
import Endros.Lib.Radix
import Endros.Mem
import Endros.Paging.Entry

/-!
# The kernel page table

`ptmap` and `ptunmap` edit the kernel page table while it is in use.  They reach
the tables through the recursive entries of the root: entry `0` points to the
root as a table, entry `1` maps the root as a page that can be written.  So page
`1` is the root, page `i` is the table of root entry `i`, and page `i * 512 + j`
is the table of entry `j` of that table.  These pages are called windows.

Every access goes through a translation, which is a parameter.  `windows` walks
the three levels and looks only at the valid bits.  `ptmap_physical` runs before
paging is switched on and accesses frames directly (`bare`).

The pointers are the page number and the index of a word.  Words are 64 bits.
-/

namespace Paging

open Lib Mem

/-- Physical memory: the words of each frame. -/
abbrev Phys := Nat → Fin 512 → UInt64

inductive Access where
  | read
  | write
deriving DecidableEq, Repr

/-- Why a routine does not return. -/
inductive Stop where
  /-- `panic`. -/
  | panic
  /-- An access that is not translated. -/
  | fault
deriving DecidableEq, Repr

/-- The frame an access to a page goes to. -/
abbrev Translate := Phys → Nat → Access → Option Nat

/-- The globals of `pagetable.c`.  `pfreelist` is the page of the first node,
`0` for `NULL`. -/
structure Tables where
  mem : Phys
  ptBase : Nat
  pfnStart : Nat
  maxPfn : Nat
  pfreelist : Nat

/-- The walk through three levels that looks only at the valid bits. -/
def windows (root : Nat) : Translate := fun mem vpn _ =>
  Radix.walk child mem root [vpnAt 2 vpn, vpnAt 1 vpn, vpnAt 0 vpn]

/-- No translation. -/
def bare : Translate := fun _ pfn _ => some pfn

/-! ## Accesses -/

def load (tr : Translate) (s : Tables) (vpn : Nat) (i : Fin 512) : Except Stop UInt64 :=
  match tr s.mem vpn .read with
  | none => .error .fault
  | some f => .ok (s.mem f i)

def store (tr : Translate) (s : Tables) (vpn : Nat) (i : Fin 512) (x : UInt64) :
    Except Stop Tables :=
  match tr s.mem vpn .write with
  | none => .error .fault
  | some f => .ok { s with mem := Radix.set s.mem f i x }

/-- `SET_FLAGS`. -/
def setFlags (tr : Translate) (s : Tables) (vpn : Nat) (i : Fin 512) (flags : UInt64) :
    Except Stop Tables := do
  let e ← load tr s vpn i
  store tr s vpn i (withFlags e flags)

/-- `memset` of a page to zero, word by word. -/
def memset (tr : Translate) (s : Tables) (vpn : Nat) : Except Stop Tables :=
  loop (fun k s => store tr s vpn (Fin.ofNat 512 k) 0) 512 s

/-! ## The routines -/

/-- `kpgdir`, as a page. -/
def kpgdir : Nat := 1

/-- `ptunmap`. -/
def ptunmap (tr : Translate) (s : Tables) (vpn : Nat) : Except Stop (Nat × Tables) := do
  let i₂ := vpnAt 2 vpn
  let i₁ := vpnAt 1 vpn
  let e₂ ← load tr s kpgdir i₂
  if e₂ &&& pteValid = 0 then .error .panic
  else
    let s ← setFlags tr s kpgdir i₂ pteTable
    let e₁ ← load tr s i₂ i₁
    if e₁ &&& pteValid = 0 then .error .panic
    else
      let s ← setFlags tr s i₂ i₁ pteTable
      let s ← setFlags tr s kpgdir i₂ pteValid
      let e₀ ← load tr s (i₂ * 512 + i₁) (vpnAt 0 vpn)
      let s ← setFlags tr s (i₂ * 512 + i₁) (vpnAt 0 vpn) 0
      let s ← setFlags tr s i₂ i₁ pteValid
      .ok (getPfn e₀, s)

/-- `palloc`.  A node of the free list has its frame in word 1 and the next node
in word 2. -/
def palloc (tr : Translate) (s : Tables) : Except Stop (Nat × Tables) :=
  if s.pfreelist ≠ 0 then do
    let pfn ← load tr s s.pfreelist 1
    let next ← load tr s s.pfreelist 2
    let (_, s) ← ptunmap tr s s.pfreelist
    .ok (pfn.toNat, { s with pfreelist := next.toNat / 4096 })
  else if s.pfnStart ≥ s.maxPfn then .error .panic
  else .ok (s.pfnStart, { s with pfnStart := s.pfnStart + 1 })

/-- The level 2 part of `ptmap`: the table of root entry `i₂` exists and can be
written through its window. -/
def ptmapLevel2 (tr : Translate) (s : Tables) (i₂ : Fin 512) : Except Stop Tables := do
  let e ← load tr s kpgdir i₂
  if e &&& pteValid = 0 then
    let (pfn, s) ← palloc tr s
    let s ← store tr s kpgdir i₂ (pte pfn pteTable)
    memset tr s i₂
  else setFlags tr s kpgdir i₂ pteTable

/-- The level 1 part of `ptmap`: the same one level down.  The root entry is
closed again. -/
def ptmapLevel1 (tr : Translate) (s : Tables) (i₂ i₁ : Fin 512) : Except Stop Tables := do
  let e ← load tr s i₂ i₁
  if e &&& pteValid = 0 then
    let (pfn, s) ← palloc tr s
    let s ← store tr s i₂ i₁ (pte pfn pteTable)
    let s ← setFlags tr s kpgdir i₂ pteValid
    memset tr s (i₂ * 512 + i₁)
  else
    let s ← setFlags tr s i₂ i₁ pteTable
    setFlags tr s kpgdir i₂ pteValid

/-- The level 0 part of `ptmap`. -/
def ptmapLevel0 (tr : Translate) (s : Tables) (i₂ i₁ i₀ : Fin 512) (e : UInt64) :
    Except Stop Tables := do
  let s ← store tr s (i₂ * 512 + i₁) i₀ e
  setFlags tr s i₂ i₁ pteValid

/-- `ptmap`. -/
def ptmap (tr : Translate) (s : Tables) (vpn pfn : Nat) (flags : UInt64) : Except Stop Tables := do
  let s ← ptmapLevel2 tr s (vpnAt 2 vpn)
  let s ← ptmapLevel1 tr s (vpnAt 2 vpn) (vpnAt 1 vpn)
  ptmapLevel0 tr s (vpnAt 2 vpn) (vpnAt 1 vpn) (vpnAt 0 vpn) (pte pfn flags)

/-- One turn of the loop of `ptmap_physical`: the table that entry `i` of the
table `t` points to. -/
def physicalLevel (s : Tables) (t : Nat) (i : Fin 512) : Except Stop (Nat × Tables) := do
  let e ← load bare s t i
  if e &&& pteValid = 0 then
    let (pfn, s) ← palloc bare s
    let s ← memset bare s pfn
    let s ← store bare s t i (pte pfn pteValid)
    .ok (pfn, s)
  else .ok (getPfn e, s)

/-- `ptmap_physical`. -/
def ptmapPhysical (s : Tables) (vpn pfn : Nat) (flags : UInt64) : Except Stop Tables := do
  let (t₁, s) ← physicalLevel s s.ptBase (vpnAt 2 vpn)
  let (t₀, s) ← physicalLevel s t₁ (vpnAt 1 vpn)
  store bare s t₀ (vpnAt 0 vpn) (pte pfn flags)

/-! ## `init_pagetable` -/

/-- A call of `ptmap` or `ptmap_physical`. -/
structure Mapping where
  vpn : Nat
  pfn : Nat
  flags : UInt64

/-- The symbols of the linker script and the addresses of the virtio headers. -/
structure Layout where
  stext : Nat
  etext : Nat
  srodata : Nat
  erodata : Nat
  sdata : Nat
  ebss : Nat
  ekernel : Nat
  strampoline : Nat
  virtioMmioHeaders : List Nat

/-- `TRAMPOLINE`. -/
def trampoline : Nat := 0xfffffffffffff000

/-- The loop over the pages of a section. -/
def mapSection (start stop : Nat) (flags : UInt64) : List Mapping :=
  (List.range' (addr2Page start) (addr2PageUp stop - addr2Page start)).map fun pfn =>
    ⟨pfn, pfn, flags⟩

/-- The calls of `ptmap_physical` in `init_pagetable`. -/
def Layout.mappings (l : Layout) : List Mapping :=
  mapSection l.stext l.etext (pteValid ||| pteRead ||| pteExecute) ++
    mapSection l.srodata l.erodata (pteValid ||| pteRead) ++
    mapSection l.sdata l.ebss (pteValid ||| pteRead ||| pteWrite) ++
    [⟨addr2Page trampoline, addr2Page l.strampoline, pteValid ||| pteRead ||| pteExecute⟩] ++
    l.virtioMmioHeaders.map fun a =>
      ⟨addr2Page a, addr2Page a, pteValid ||| pteRead ||| pteWrite⟩

/-- A sequence of mappings with `ptmap_physical`. -/
def ptmapPhysicalAll (s : Tables) (ms : List Mapping) : Except Stop Tables :=
  ms.foldlM (fun s m => ptmapPhysical s m.vpn m.pfn m.flags) s

/-- `init_pagetable`. -/
def initPagetable (mem : Phys) (maxPfn : Nat) (l : Layout) : Except Stop Tables := do
  let (root, s) ← palloc bare
    { mem, ptBase := 0, pfnStart := addr2Page l.ekernel, maxPfn, pfreelist := 0 }
  let s ← memset bare { s with ptBase := root } root
  let s ← store bare s root 0 (pte root pteValid)
  let s ← store bare s root 1 (pte root (pteValid ||| pteRead ||| pteWrite))
  ptmapPhysicalAll s l.mappings

end Paging
