/-
# Page allocation and page tables

`kalloc.c` and the functions of `vm.c` on page directories.  Physical memory is a sequence of
frames of `PGSIZE` bytes.  A page directory is viewed as a tree of values, with the frame that
each page table occupies; the functions only write page tables through these trees, so the bytes
of a frame are those of the data in it.  An entry without `PTE_P` is always `0` and is `none`.
-/
import Xv6.Fs

open Function

/-! ## Addresses -/

/-- Bytes mapped by a page. -/
abbrev PGSIZE : ℕ := 4096

/-- First kernel virtual address. -/
abbrev KERNBASE : ℕ := 0x80000000

/-- Start of extended memory. -/
abbrev EXTMEM : ℕ := 0x100000

/-- Top physical memory. -/
abbrev PHYSTOP : ℕ := 0xE000000

/-- Other devices are at high addresses. -/
abbrev DEVSPACE : ℕ := 0xFE000000

/-- Address where the kernel is linked. -/
abbrev KERNLINK : ℕ := KERNBASE + EXTMEM

/-- Entries of a page directory, and of a page table. -/
abbrev NPDENTRIES : ℕ := 1024

instance neZero_pdentries : NeZero NPDENTRIES := ⟨by decide⟩

/-- Pages of the address space. -/
abbrev NPAGES : ℕ := 2 ^ 20

/-- `V2P`. -/
def v2p (a : ℕ) : ℕ := u32 (a + (2 ^ 32 - KERNBASE))

/-- `PGROUNDUP`. -/
def pgroundup (sz : ℕ) : ℕ := u32 (sz + (PGSIZE - 1)) / PGSIZE * PGSIZE

/-- `PGROUNDDOWN`. -/
def pgrounddown (a : ℕ) : ℕ := a / PGSIZE * PGSIZE

/-- Page directory index. -/
def pdx (va : ℕ) : Fin NPDENTRIES := Fin.ofNat _ (va / 2 ^ 22)

/-- Page table index. -/
def ptx (va : ℕ) : Fin NPDENTRIES := Fin.ofNat _ (va / 2 ^ 12)

/-- The symbols `data` and `end`, which the linker script places after the kernel's text. -/
structure Linker where
  data : ℕ
  kend : ℕ
  aligned : data % PGSIZE = 0
  text_lt : KERNLINK < data
  data_lt : data < kend
  kend_le : kend ≤ KERNBASE + PHYSTOP

/-! ## The page allocator -/

/-- The page allocator and the bytes of physical memory. -/
structure Kmem where
  /-- The frames on the free list. -/
  freelist : List ℕ
  /-- For the coming calls of `kalloc`, those that find the list empty because other processors
  hold its pages at that moment; past its end, none. -/
  refuse : List Bool
  /-- The bytes of each frame. -/
  page : ℕ → ℕ → UInt8

namespace Kmem

/-- Replace the bytes of a frame. -/
def setPage (k : Kmem) (f : ℕ) (bytes : ℕ → UInt8) : Kmem :=
  { k with page := update k.page f bytes }

/-- Allocate one page of physical memory. -/
def kalloc (k : Kmem) : Option ℕ × Kmem :=
  match k.refuse, k.freelist with
  | true :: rest, _ => (none, { k with refuse := rest })
  | _, [] => (none, { k with refuse := k.refuse.tail })
  | _, f :: rest => (some f, { k with freelist := rest, refuse := k.refuse.tail })

/-- The frames that `kfree` takes: from `end` to `PHYSTOP`. -/
def Freeable (ld : Linker) (f : ℕ) : Prop := ld.kend ≤ KERNBASE + f * PGSIZE ∧ f * PGSIZE < PHYSTOP

instance (ld : Linker) (f : ℕ) : Decidable (Freeable ld f) := by
  unfold Freeable
  infer_instance

/-- Free a page of physical memory; it is filled with junk. -/
def kfree (ld : Linker) (k : Kmem) (f : ℕ) : Except Stop Kmem :=
  if Freeable ld f then
    .ok { k.setPage f (fun _ => 1) with freelist := f :: k.freelist }
  else
    .error (.panic "kfree")

end Kmem

/-! ## Page directories -/

/-- `PTE_W` and `PTE_U` of an entry. -/
structure Perm where
  w : Bool
  u : Bool
deriving DecidableEq

/-- A present page table entry. -/
structure Pte where
  frame : ℕ
  perm : Perm
deriving DecidableEq

/-- A page table, in a frame of its own. -/
structure PageTable where
  frame : ℕ
  pte : Fin NPDENTRIES → Option Pte

/-- A page directory, in a frame of its own. -/
structure Pgdir where
  frame : ℕ
  pde : Fin NPDENTRIES → Option PageTable

namespace Pgdir

/-- The directory after `memset(pgdir, 0, PGSIZE)`. -/
def empty (frame : ℕ) : Pgdir := ⟨frame, fun _ => none⟩

/-- The entry that translates `va`, if it is present. -/
def lookup (pg : Pgdir) (va : ℕ) : Option Pte := (pg.pde (pdx va)).bind fun t => t.pte (ptx va)

/-- Assign the entry that translates `va`, in a page table that is there. -/
def setPte (pg : Pgdir) (va : ℕ) (e : Option Pte) : Pgdir :=
  ⟨pg.frame, update pg.pde (pdx va)
    ((pg.pde (pdx va)).map fun t => ⟨t.frame, update t.pte (ptx va) e⟩)⟩

/-- `walkpgdir(pgdir, va, 1)`: the page table for `va` is there afterwards, unless there is no
page for it. -/
def walkpgdir (k : Kmem) (pg : Pgdir) (va : ℕ) : Bool × Kmem × Pgdir :=
  match pg.pde (pdx va) with
  | some _ => (true, k, pg)
  | none =>
    match k.kalloc with
    | (none, k) => (false, k, pg)
    | (some pgtab, k) =>
      (true, k, ⟨pg.frame, update pg.pde (pdx va) (some ⟨pgtab, fun _ => none⟩)⟩)

/-- The loop of `mappages`; `fuel` bounds its rounds. -/
def mapLoop (perm : Perm) (last : ℕ) : ℕ → Kmem → Pgdir → ℕ → ℕ →
    Except Stop (Bool × Kmem × Pgdir)
  | 0, _, _, _, _ => .error .blocked
  | fuel + 1, k, pg, a, pa =>
    match walkpgdir k pg a with
    | (false, k, pg) => .ok (false, k, pg)
    | (true, k, pg) =>
      if (pg.lookup a).isSome then
        .error (.panic "remap")
      else
        let pg := pg.setPte a (some ⟨pa / PGSIZE, perm⟩)
        if a = last then .ok (true, k, pg)
        else mapLoop perm last fuel k pg (u32 (a + PGSIZE)) (u32 (pa + PGSIZE))

/-- Create entries for the virtual addresses from `va` on that refer to the physical addresses
from `pa` on; `false` stands for the result `-1`.  The loop meets `last` within `NPAGES` rounds,
because its address goes through all pages. -/
def mappages (k : Kmem) (pg : Pgdir) (va size pa : ℕ) (perm : Perm) :
    Except Stop (Bool × Kmem × Pgdir) :=
  mapLoop perm (pgrounddown (u32 (va + size + (2 ^ 32 - 1)))) NPAGES k pg (pgrounddown va) pa

/-- The loop of `deallocuvm`.  In a region without a page table the address goes to the end of the
region. -/
def deallocLoop (ld : Linker) (oldsz : ℕ) : ℕ → Kmem → Pgdir → ℕ → Except Stop (Kmem × Pgdir)
  | 0, _, _, _ => .error .blocked
  | fuel + 1, k, pg, a =>
    if a < oldsz then
      match pg.pde (pdx a) with
      | none => deallocLoop ld oldsz fuel k pg (u32 (((pdx a : ℕ) + 1) * 2 ^ 22))
      | some t =>
        match t.pte (ptx a) with
        | none => deallocLoop ld oldsz fuel k pg (u32 (a + PGSIZE))
        | some e =>
          if e.frame = 0 then
            .error (.panic "kfree")
          else do
            let k ← k.kfree ld e.frame
            deallocLoop ld oldsz fuel k (pg.setPte a none) (u32 (a + PGSIZE))
    else
      .ok (k, pg)

/-- Deallocate user pages to bring the process size from `oldsz` to `newsz`. -/
def deallocuvm (ld : Linker) (k : Kmem) (pg : Pgdir) (oldsz newsz : ℕ) :
    Except Stop (ℕ × Kmem × Pgdir) :=
  if newsz ≥ oldsz then
    .ok (oldsz, k, pg)
  else do
    let (k, pg) ← deallocLoop ld oldsz (oldsz / PGSIZE + 2) k pg (pgroundup newsz)
    return (newsz, k, pg)

/-- The loop of `freevm` over the page directory. -/
def freeTables (ld : Linker) (pg : Pgdir) (k : Kmem) : Except Stop Kmem :=
  (List.finRange NPDENTRIES).foldlM (fun k i =>
    match pg.pde i with
    | some t => k.kfree ld t.frame
    | none => .ok k) k

/-- Free a page table and all the physical memory pages in the user part. -/
def freevm (ld : Linker) (k : Kmem) (pg : Pgdir) : Except Stop Kmem := do
  let (_, k, pg) ← deallocuvm ld k pg KERNBASE 0
  let k ← freeTables ld pg k
  k.kfree ld pg.frame

/-- The loop of `allocuvm`; `none` stands for the failure of `kalloc` or `mappages`, and comes
with the page that is not mapped yet. -/
def allocLoop (newsz : ℕ) : ℕ → Kmem → Pgdir → ℕ →
    Except Stop ((Bool × Option ℕ) × Kmem × Pgdir)
  | 0, _, _, _ => .error .blocked
  | fuel + 1, k, pg, a =>
    if a < newsz then
      match k.kalloc with
      | (none, k) => .ok ((false, none), k, pg)
      | (some mem, k) => do
        let (ok, k, pg) ← mappages (k.setPage mem fun _ => 0) pg a PGSIZE (mem * PGSIZE)
          ⟨true, true⟩
        if ok then allocLoop newsz fuel k pg (u32 (a + PGSIZE))
        else return ((false, some mem), k, pg)
    else
      .ok ((true, none), k, pg)

/-- Allocate page tables and physical memory to grow a process from `oldsz` to `newsz`.  Returns
the new size, or `0` on error. -/
@[irreducible] def allocuvm (ld : Linker) (k : Kmem) (pg : Pgdir) (oldsz newsz : ℕ) :
    Except Stop (ℕ × Kmem × Pgdir) :=
  if newsz ≥ KERNBASE then
    .ok (0, k, pg)
  else if newsz < oldsz then
    .ok (oldsz, k, pg)
  else do
    let ((ok, mem), k, pg) ← allocLoop newsz (newsz / PGSIZE + 2) k pg (pgroundup oldsz)
    if ok then
      return (newsz, k, pg)
    else
      let (_, k, pg) ← deallocuvm ld k pg newsz oldsz
      match mem with
      | none => return (0, k, pg)
      | some mem =>
        let k ← k.kfree ld mem
        return (0, k, pg)

/-! ## The kernel part -/

/-- A range of the kernel's mappings. -/
structure Kmap where
  virt : ℕ
  phys_start : ℕ
  phys_end : ℕ
  perm : Perm

/-- The kernel's mappings, which are present in every process's page table. -/
def kmap (ld : Linker) : List Kmap :=
  [⟨KERNBASE, 0, EXTMEM, ⟨true, false⟩⟩,
   ⟨KERNLINK, v2p KERNLINK, v2p ld.data, ⟨false, false⟩⟩,
   ⟨ld.data, v2p ld.data, PHYSTOP, ⟨true, false⟩⟩,
   ⟨DEVSPACE, DEVSPACE, 0, ⟨true, false⟩⟩]

/-- The loop of `setupkvm`. -/
def setupLoop (ld : Linker) : List Kmap → Kmem → Pgdir → Except Stop (Option Pgdir × Kmem)
  | [], k, pg => .ok (some pg, k)
  | m :: rest, k, pg => do
    let (ok, k, pg) ← mappages k pg m.virt (u32 (m.phys_end + 2 ^ 32 - m.phys_start))
      m.phys_start m.perm
    if ok then setupLoop ld rest k pg
    else
      let k ← freevm ld k pg
      return (none, k)

/-- Set up the kernel part of a page table. -/
def setupkvm (ld : Linker) (k : Kmem) : Except Stop (Option Pgdir × Kmem) :=
  match k.kalloc with
  | (none, k) => .ok (none, k)
  | (some pgdir, k) =>
    if KERNBASE + PHYSTOP > DEVSPACE then .error (.panic "PHYSTOP too high")
    else setupLoop ld (kmap ld) k (empty pgdir)

/-! ## User memory -/

/-- Load the initcode into address `0`.  The results of `kalloc` and `mappages` are not
checked. -/
def inituvm (k : Kmem) (pg : Pgdir) (init : List UInt8) : Except Stop (Kmem × Pgdir) :=
  if init.length ≥ PGSIZE then
    .error (.panic "inituvm: more than a page")
  else
    match k.kalloc with
    | (none, _) => .error .nullDeref
    | (some mem, k) => do
      let (_, k, pg) ← mappages k pg 0 PGSIZE (mem * PGSIZE) ⟨true, true⟩
      return (k.setPage mem fun o => init.getD o 0, pg)

/-- Clear `PTE_U` on a page. -/
def clearpteu (pg : Pgdir) (uva : ℕ) : Except Stop Pgdir :=
  match pg.pde (pdx uva) with
  | none => .error (.panic "clearpteu")
  | some _ =>
    .ok (pg.setPte uva ((pg.lookup uva).map fun e => { e with perm := { e.perm with u := false } }))

/-- The loop of `copyuvm`; `none` stands for `goto bad`. -/
def copyLoop (ld : Linker) (pg : Pgdir) (sz : ℕ) : ℕ → Kmem → Pgdir → ℕ →
    Except Stop (Bool × Kmem × Pgdir)
  | 0, _, _, _ => .error .blocked
  | fuel + 1, k, d, i =>
    if i < sz then
      match pg.pde (pdx i) with
      | none => .error (.panic "copyuvm: pte should exist")
      | some t =>
        match t.pte (ptx i) with
        | none => .error (.panic "copyuvm: page not present")
        | some e =>
          match k.kalloc with
          | (none, k) => .ok (false, k, d)
          | (some mem, k) => do
            let (ok, k, d) ← mappages (k.setPage mem (k.page e.frame)) d i PGSIZE
              (mem * PGSIZE) e.perm
            if ok then copyLoop ld pg sz fuel k d (u32 (i + PGSIZE))
            else
              let k ← k.kfree ld mem
              return (false, k, d)
    else
      .ok (true, k, d)

/-- Given a parent process's page table, create a copy of it for a child. -/
def copyuvm (ld : Linker) (k : Kmem) (pg : Pgdir) (sz : ℕ) : Except Stop (Option Pgdir × Kmem) := do
  match ← setupkvm ld k with
  | (none, k) => return (none, k)
  | (some d, k) =>
    let (ok, k, d) ← copyLoop ld pg sz (sz / PGSIZE + 2) k d 0
    if ok then
      return (some d, k)
    else
      let k ← freevm ld k d
      return (none, k)

/-- Map a user virtual address to the frame behind it.  The entry is read without a check that
its page table is there. -/
def uva2ka (pg : Pgdir) (uva : ℕ) : Except Stop (Option ℕ) :=
  match pg.pde (pdx uva) with
  | none => .error .nullDeref
  | some t =>
    match t.pte (ptx uva) with
    | none => .ok none
    | some e => .ok (if e.perm.u then some e.frame else none)

/-- Replace the bytes of a page from `off` on. -/
def storeBytes (page : ℕ → UInt8) (off : ℕ) (src : List UInt8) : ℕ → UInt8 := fun o =>
  if off ≤ o ∧ o < off + src.length then src.getD (o - off) 0 else page o

/-- The loop of `copyout`, with the bytes still to copy. -/
def copyoutLoop (pg : Pgdir) : ℕ → Kmem → ℕ → List UInt8 → Except Stop (Bool × Kmem)
  | 0, _, _, _ => .error .blocked
  | fuel + 1, k, va, buf =>
    if buf.length > 0 then do
      let va0 := pgrounddown va
      match ← pg.uva2ka va0 with
      | none => return (false, k)
      | some pa0 =>
        let n := min (PGSIZE - (va - va0)) buf.length
        copyoutLoop pg fuel (k.setPage pa0 (storeBytes (k.page pa0) (va - va0) (buf.take n)))
          (u32 (va0 + PGSIZE)) (buf.drop n)
    else
      .ok (true, k)

/-- Copy `buf` to the user address `va`; `false` stands for the result `-1`. -/
def copyout (k : Kmem) (pg : Pgdir) (va : ℕ) (buf : List UInt8) : Except Stop (Bool × Kmem) :=
  copyoutLoop pg (buf.length / PGSIZE + 3) k va buf

end Pgdir
