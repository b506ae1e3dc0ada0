/-
# Loading a program

`loaduvm` of `vm.c` and `exec` of `exec.c`.  The executable is a file, given by its size and its
bytes; its path, inode lock and transaction play no role here.  `exec_spec` says what the address
space of a new image is like, and that a failed call takes no page.
-/
import Xv6.UserMemory
import Xv6.FileContents

/-- Max exec arguments. -/
abbrev MAXARG : ℕ := 32

/-- `ELF_MAGIC`. -/
abbrev ELF_MAGIC : ℕ := 0x464C457F

/-- `ELF_PROG_LOAD`. -/
abbrev ELF_PROG_LOAD : ℕ := 1

namespace File

/-- The bytes that `readi` stores, when it returns `n`. -/
def readFull (c : File) (off n : ℕ) : Option (List UInt8) :=
  if off + n ≤ c.size then some (c.read off n) else none

/-- A little-endian field of a header in the file. -/
def field (c : File) (off n : ℕ) : ℕ := leValue n fun i => c.byte (off + i)

end File

namespace Pgdir

/-- The loop of `loaduvm`.  An absent entry is read as physical address `0`. -/
def loadLoop (pg : Pgdir) (addr : ℕ) (ip : File) (offset sz : ℕ) :
    ℕ → Kmem → ℕ → Except Stop (Bool × Kmem)
  | 0, _, _ => .error .blocked
  | fuel + 1, k, i =>
    if i < sz then
      match pg.pde (pdx (u32 (addr + i))) with
      | none => .error (.panic "loaduvm: address should exist")
      | some t =>
        let pa := ((t.pte (ptx (u32 (addr + i)))).map Pte.frame).getD 0
        let n := if sz - i < PGSIZE then sz - i else PGSIZE
        match ip.readFull (u32 (offset + i)) n with
        | none => .ok (false, k)
        | some bytes =>
          loadLoop pg addr ip offset sz fuel
            (k.setPage pa (storeBytes (k.page pa) 0 bytes)) (u32 (i + PGSIZE))
    else
      .ok (true, k)

/-- Load a program segment; `false` stands for the result `-1`. -/
def loaduvm (k : Kmem) (pg : Pgdir) (addr : ℕ) (ip : File) (offset sz : ℕ) :
    Except Stop (Bool × Kmem) :=
  if addr % PGSIZE ≠ 0 then .error (.panic "loaduvm: addr must be page aligned")
  else loadLoop pg addr ip offset sz (sz / PGSIZE + 2) k 0

end Pgdir

/-! ## `exec` -/

/-- A program section header. -/
structure Proghdr where
  type : ℕ
  off : ℕ
  vaddr : ℕ
  filesz : ℕ
  memsz : ℕ

/-- The program section header at `off`. -/
def proghdr (ip : File) (off : ℕ) : Option Proghdr :=
  if off + 32 ≤ ip.size then
    some ⟨ip.field off 4, ip.field (off + 4) 4, ip.field (off + 8) 4, ip.field (off + 16) 4,
      ip.field (off + 20) 4⟩
  else none

namespace Exec

/-- One program header: the new size, or `none` for `goto bad`. -/
def loadSegment (ld : Linker) (ip : File) (ph : Proghdr) (k : Kmem) (pg : Pgdir) (sz : ℕ) :
    Except Stop (Option ℕ × Kmem × Pgdir) :=
  if ph.type ≠ ELF_PROG_LOAD then .ok (some sz, k, pg)
  else if ph.memsz < ph.filesz then .ok (none, k, pg)
  else if u32 (ph.vaddr + ph.memsz) < ph.vaddr then .ok (none, k, pg)
  else do
    let (sz, k, pg) ← Pgdir.allocuvm ld k pg sz (u32 (ph.vaddr + ph.memsz))
    if sz = 0 then return (none, k, pg)
    else if ph.vaddr % PGSIZE ≠ 0 then return (none, k, pg)
    else
      let (ok, k) ← Pgdir.loaduvm k pg ph.vaddr ip ph.off ph.filesz
      return (if ok then some sz else none, k, pg)

/-- The loop over the program headers. -/
def loadProgram (ld : Linker) (ip : File) : ℕ → ℕ → Kmem → Pgdir → ℕ →
    Except Stop (Option ℕ × Kmem × Pgdir)
  | 0, _, k, pg, sz => .ok (some sz, k, pg)
  | count + 1, off, k, pg, sz =>
    match proghdr ip off with
    | none => .ok (none, k, pg)
    | some ph => do
      let (sz, k, pg) ← loadSegment ld ip ph k pg sz
      match sz with
      | none => return (none, k, pg)
      | some sz => loadProgram ld ip count (u32 (off + 32)) k pg sz

/-- Push the argument strings: the addresses of the strings and the stack pointer, or `none` for
`goto bad`. -/
def pushArgs (pg : Pgdir) : List (List UInt8) → ℕ → Kmem → ℕ →
    Except Stop (Option (List ℕ × ℕ) × Kmem)
  | [], _, k, sp => .ok (some ([], sp), k)
  | arg :: rest, argc, k, sp =>
    if argc ≥ MAXARG then .ok (none, k)
    else do
      let sp := u32 (sp + 2 ^ 32 - (arg.length + 1)) / 4 * 4
      let (ok, k) ← Pgdir.copyout k pg sp (arg ++ [0])
      if ok then
        match ← pushArgs pg rest (argc + 1) k sp with
        | (none, k) => return (none, k)
        | (some (addrs, sp'), k) => return (some (sp :: addrs, sp'), k)
      else return (none, k)

/-- The bytes of the words of `ustack`. -/
def words (ws : List ℕ) : List UInt8 := ws.flatMap fun w => (List.range 4).map (leByte w)

/-- The stack: the argument strings and `ustack`; the final stack pointer. -/
def buildStack (pg : Pgdir) (argv : List (List UInt8)) (k : Kmem) (sz : ℕ) :
    Except Stop (Option ℕ × Kmem) := do
  match ← pushArgs pg argv 0 k sz with
  | (none, k) => return (none, k)
  | (some (addrs, sp), k) =>
    let argc := addrs.length
    let ustack := [0xffffffff, argc, u32 (sp + 2 ^ 32 - (argc + 1) * 4)] ++ addrs ++ [0]
    let sp := u32 (sp + 2 ^ 32 - (3 + argc + 1) * 4)
    let (ok, k) ← Pgdir.copyout k pg sp (words ustack)
    return (if ok then some sp else none, k)

/-- The image that `exec` commits to. -/
structure UserImage where
  pgdir : Pgdir
  sz : ℕ
  eip : ℕ
  esp : ℕ

/-- The guard page and the stack on top of a program of `sz` bytes: size and stack pointer, or
`none` for `goto bad`. -/
def addStack (ld : Linker) (argv : List (List UInt8)) (k : Kmem) (pg : Pgdir) (sz : ℕ) :
    Except Stop (Option (ℕ × ℕ) × Kmem × Pgdir) := do
  let (sz, k, pg) ← Pgdir.allocuvm ld k pg sz (u32 (sz + 2 * PGSIZE))
  if sz = 0 then return (none, k, pg)
  else
    let pg ← pg.clearpteu (u32 (sz + 2 ^ 32 - 2 * PGSIZE))
    let (sp, k) ← buildStack pg argv k sz
    return (sp.map fun sp => (sz, sp), k, pg)

/-- What `exec` builds in a new page directory. -/
def build (ld : Linker) (ip : File) (argv : List (List UInt8)) (k : Kmem) (pg : Pgdir) :
    Except Stop (Option (ℕ × ℕ) × Kmem × Pgdir) := do
  let (sz, k, pg) ← loadProgram ld ip (ip.field 44 2) (ip.field 28 4) k pg 0
  match sz with
  | none => return (none, k, pg)
  | some sz => addStack ld argv k pg (pgroundup sz)

/-- `exec` with a new page directory; after `goto bad` it is freed. -/
def load (ld : Linker) (ip : File) (argv : List (List UInt8)) (k : Kmem) (pg : Pgdir) :
    Except Stop (Option UserImage × Kmem) := do
  let (r, k, pg) ← build ld ip argv k pg
  match r with
  | some (sz, sp) => return (some ⟨pg, sz, ip.field 24 4, sp⟩, k)
  | none =>
    let k ← Pgdir.freevm ld k pg
    return (none, k)

/-- `exec` up to the point where it commits to the new image; `none` stands for the result
`-1`. -/
def exec (ld : Linker) (k : Kmem) (path : Option File) (argv : List (List UInt8)) :
    Except Stop (Option UserImage × Kmem) :=
  match path with
  | none => .ok (none, k)
  | some ip =>
    if ip.size < 52 then .ok (none, k)
    else if ip.field 0 4 ≠ ELF_MAGIC then .ok (none, k)
    else do
      match ← Pgdir.setupkvm ld k with
      | (none, k) => return (none, k)
      | (some pg, k) => load ld ip argv k pg

end Exec

/-! ## What `exec` does to the allocator and to the new address space -/

open Outcome

namespace Pgdir

variable {ld : Linker} {k : Kmem} {pg : Pgdir}

theorem loadLoop_post (addr : ℕ) (ip : File) (offset sz fuel : ℕ) : ∀ (k : Kmem) (i : ℕ),
    Post (loadLoop pg addr ip offset sz fuel k i) (fun r => r.2.freelist = k.freelist)
      fun _ => True := by
  induction fuel with
  | zero => exact fun k i => trivial
  | succ fuel ih =>
    intro k i
    rw [loadLoop]
    split
    · split
      · exact trivial
      · simp only
        split
        · exact rfl
        · exact ih _ _
    · exact rfl

/-- `loaduvm` takes no page. -/
theorem loaduvm_post (addr : ℕ) (ip : File) (offset sz : ℕ) :
    Post (loaduvm k pg addr ip offset sz) (fun r => r.2.freelist = k.freelist) fun _ => True := by
  unfold loaduvm
  split
  · exact trivial
  · exact loadLoop_post ..

/-- What `g` looks at is in no page that is open to user code. -/
def Blind {α : Type} (pg : Pgdir) (g : Kmem → α) : Prop :=
  ∀ va e, pg.lookup va = some e → e.perm.u = true → ∀ k page, g (k.setPage e.frame page) = g k

variable {α : Type} {g : Kmem → α}

theorem copyoutLoop_post (hg : pg.Blind g) (fuel : ℕ) : ∀ (k : Kmem) (va : ℕ) (buf : List UInt8),
    Post (copyoutLoop pg fuel k va buf) (fun r => g r.2 = g k) fun _ => True := by
  induction fuel with
  | zero => exact fun k va buf => trivial
  | succ fuel ih =>
    intro k va buf
    rw [copyoutLoop, post_ite]
    refine ⟨fun _ => ?_, fun _ => rfl⟩
    have huva : Post (pg.uva2ka (pgrounddown va)) (fun r => ∀ pa, r = some pa → ∀ k page,
        g (k.setPage pa page) = g k) fun _ => True := by
      unfold uva2ka
      cases ht : pg.pde (pdx (pgrounddown va)) with
      | none => trivial
      | some t =>
        simp only
        cases he : t.pte (ptx (pgrounddown va)) with
        | none => exact fun pa hpa => (by cases hpa)
        | some e =>
          have hlookup : pg.lookup (pgrounddown va) = some e := by
            rw [lookup, ht, Option.bind_some, he]
          intro pa hpa
          split at hpa
          next hu =>
            cases hpa
            exact hg _ e hlookup hu
          next => cases hpa
    refine huva.seq fun r hr => ?_
    cases r with
    | none => exact rfl
    | some pa => exact (ih _ _ _).imp fun r h => h.trans (hr pa rfl k _)

/-- `copyout` writes to pages that are open to user code. -/
theorem copyout_post (hg : pg.Blind g) (k : Kmem) (va : ℕ) (buf : List UInt8) :
    Post (copyout k pg va buf) (fun r => g r.2 = g k) fun _ => True := copyoutLoop_post hg ..

/-- `copyout` within one page that is open to user code. -/
theorem copyout_one {n off : ℕ} {e : Pte} {buf : List UInt8} (he : pg.entry n = some e)
    (hu : e.perm.u = true) (hpos : 0 < buf.length) (hfit : off + buf.length ≤ PGSIZE) :
    copyout k pg (n * PGSIZE + off) buf =
      .ok (true, k.setPage e.frame (storeBytes (k.page e.frame) off buf)) := by
  obtain ⟨t, ht⟩ := Option.isSome_iff_exists.mp (hasTable_of_entry he)
  have hround : pgrounddown (n * PGSIZE + off) = n * PGSIZE := by
    unfold pgrounddown PGSIZE at *
    omega
  have huva : uva2ka pg (n * PGSIZE) = .ok (some e.frame) := by
    rw [entry_of_pde ht] at he
    unfold uva2ka
    rw [ht]
    simp only [he, hu, if_true]
  have hmin : min (PGSIZE - (n * PGSIZE + off - n * PGSIZE)) buf.length = buf.length := by
    rw [Nat.add_sub_cancel_left]
    omega
  obtain ⟨fuel, hfuel⟩ : ∃ fuel, buf.length / PGSIZE + 3 = fuel + 2 := ⟨_, rfl⟩
  unfold copyout
  rw [hfuel, copyoutLoop, if_pos hpos]
  simp only [hround, huva, bind, Except.bind, hmin]
  rw [List.take_length, List.drop_length, Nat.add_sub_cancel_left, copyoutLoop]
  rfl

/-- An address space under construction, with frames `F` to itself and the allocator. -/
structure Held (ld : Linker) (F : Set ℕ) (k : Kmem) (pg : Pgdir) : Prop where
  sound : Sound ld k pg
  frames_eq : frames k pg = F

/-- The user part is `sz` bytes long: exactly the pages below `sz` are present, and nothing in the
kernel part is open to user code. -/
structure Sized (pg : Pgdir) (sz : ℕ) : Prop where
  sz_le : sz ≤ KERNBASE
  present : ∀ j < UPAGES, (pg.entry j).isSome ↔ j < npages sz
  perm : ∀ j, UPAGES ≤ j → j < NPAGES → ∀ e, pg.entry j = some e → e.perm.u = false

/-- An address space under construction whose user part is `sz` bytes long. -/
structure Loaded (ld : Linker) (F : Set ℕ) (k : Kmem) (pg : Pgdir) (sz : ℕ) : Prop
    extends Held ld F k pg, Sized pg sz

variable {F : Set ℕ} {sz : ℕ}

theorem Held.congr {k' : Kmem} (h : Held ld F k pg) (hk : k'.freelist = k.freelist) :
    Held ld F k' pg := ⟨h.sound.congr hk rfl, by rw [frames_congr hk rfl, h.frames_eq]⟩

theorem Loaded.congr {k' : Kmem} (h : Loaded ld F k pg sz) (hk : k'.freelist = k.freelist) :
    Loaded ld F k' pg sz := { h with toHeld := h.toHeld.congr hk }

/-- The directory that `setupkvm` returns. -/
theorem Setup.loaded {k' : Kmem} {d : Pgdir} (h : Setup ld k k' d) :
    Loaded ld {f | f ∈ k.freelist} k' d 0 where
  sound := h.sound
  frames_eq := h.frames_eq
  sz_le := by decide
  present := by
    intro j hj
    rw [h.user hj, show npages 0 = 0 from rfl]
    simp
  perm := fun j _ hj e he => h.perm hj he

/-- **`allocuvm` from the size of the user part on** returns; unless it fails, the pages up to the larger size are
there. -/
theorem Loaded.allocuvm (h : Loaded ld F k pg sz) (newsz : ℕ) :
    ∃ r k' pg', Pgdir.allocuvm ld k pg sz newsz = .ok (r, k', pg') ∧ Held ld F k' pg' ∧
      (∀ f ∉ F, k'.page f = k.page f) ∧ (r ≠ 0 → r = max sz newsz ∧ Loaded ld F k' pg' r ∧
        GrownZero ld k pg (npages sz) (npages r) k' pg') := by
  by_cases hlt : newsz < KERNBASE
  · by_cases hle : sz ≤ newsz
    · have hmax := npages_le hlt.le
      have hun : ∀ j, npages sz ≤ j → j < npages newsz → pg.entry j = none := by
        intro j h1 h2
        rw [← Option.not_isSome_iff_eq_none, h.present j (by omega)]
        omega
      rcases allocuvm_spec h.sound hle hlt hun with
        ⟨k', pg', heq, hs, hfr, hpage, -⟩ | ⟨k', pg', heq, hg⟩
      · rw [h.frames_eq] at hfr hpage
        exact ⟨0, k', pg', heq, ⟨hs, hfr⟩, hpage, fun hne => absurd rfl hne⟩
      · have hheld : Held ld F k' pg' := ⟨hg.sound, by rw [hg.frames_eq, h.frames_eq]⟩
        refine ⟨newsz, k', pg', heq, hheld, fun f hf => hg.page_eq f fun hmem => hf ?_, fun _ =>
          ⟨(max_eq_right hle).symm, ⟨hheld, hlt.le, fun j hj => ?_, fun j hj hjn e he => ?_⟩, hg⟩⟩
        · rw [← h.frames_eq]
          exact .inl hmem
        · by_cases hin : npages sz ≤ j ∧ j < npages newsz
          · obtain ⟨f, he, -⟩ := hg.new j hin.1 hin.2
            simp [he, hin.2]
          · rw [hg.old j (by unfold UPAGES NPAGES at *; omega) hin, h.present j hj]
            have := npages_mono hle
            show j < npages sz ↔ j < npages newsz
            omega
        · rw [hg.old j hjn (by omega)] at he
          exact h.perm j hj hjn e he
    · refine ⟨sz, k, pg, ?_, h.toHeld, fun _ _ => rfl, fun _ =>
        ⟨(max_eq_left (by omega)).symm, h, .refl h.sound _ _⟩⟩
      unfold Pgdir.allocuvm
      rw [if_neg (by omega), if_pos (by omega)]
  · refine ⟨0, k, pg, ?_, h.toHeld, fun _ _ => rfl, fun hne => absurd rfl hne⟩
    unfold Pgdir.allocuvm
    rw [if_pos (by omega)]

/-- `clearpteu` on a page that is present. -/
theorem clearpteu_eq {n : ℕ} {e : Pte} (he : pg.entry n = some e) :
    Pgdir.clearpteu pg (n * PGSIZE) =
      .ok (pg.setPte (n * PGSIZE) (some ⟨e.frame, ⟨e.perm.w, false⟩⟩)) := by
  obtain ⟨t, ht⟩ := Option.isSome_iff_exists.mp (hasTable_of_entry he)
  unfold Pgdir.clearpteu
  rw [ht, show pg.lookup (n * PGSIZE) = some e from he]
  rfl

/-- `clearpteu` on a user page that is present changes its flags only. -/
theorem Loaded.clearpteu (h : Loaded ld F k pg sz) {n : ℕ} (hn : n < npages sz) :
    Post (clearpteu pg (n * PGSIZE)) (fun pg' => Loaded ld F k pg' sz) fun _ => True := by
  have hu : n < UPAGES := lt_of_lt_of_le hn (npages_le h.sz_le)
  have hnp : n < NPAGES := by
    unfold UPAGES NPAGES at *
    omega
  obtain ⟨e, he⟩ := Option.isSome_iff_exists.mp ((h.present n hu).mpr hn)
  have ht := hasTable_of_entry he
  set e' : Pte := ⟨e.frame, ⟨e.perm.w, false⟩⟩
  have hfr : (pg.setPte (n * PGSIZE) (some e')).frameOf = pg.frameOf := by
    rw [frameOf_setPte hu ht, Function.update_eq_self_iff]
    simp [frameOf, hu, he, e']
  rw [clearpteu_eq he]
  refine ⟨⟨h.sound.congr rfl hfr, by rw [frames_congr rfl hfr, h.frames_eq]⟩, h.sz_le,
    fun j hj => ?_, fun j hj hjn e he => ?_⟩
  · rw [← h.present j hj, entry_setPte hnp (by unfold UPAGES NPAGES at *; omega) ht]
    by_cases hjn : j = n
    · rw [if_pos hjn, hjn, he]
      rfl
    · rw [if_neg hjn]
  · rw [entry_setPte hnp hjn ht, if_neg (by omega)] at he
    exact h.perm j hj hjn e he

/-- Page numbers count modulo `NPAGES`. -/
theorem entry_mod (pg : Pgdir) (j : ℕ) : pg.entry (j % NPAGES) = pg.entry j := by
  have hd : pdx (j % NPAGES * PGSIZE) = pdx (j * PGSIZE) := by
    apply Fin.ext
    rw [pdx_page, pdx_page]
    unfold NPAGES
    omega
  have ht : ptx (j % NPAGES * PGSIZE) = ptx (j * PGSIZE) := by
    apply Fin.ext
    rw [ptx_page, ptx_page]
    unfold NPAGES
    omega
  unfold entry lookup
  rw [hd, ht]

/-- The open pages of an address space under construction are in its own frames. -/
theorem Loaded.blind (h : Loaded ld F k pg sz) :
    pg.Blind fun k => (k.freelist, fun f : {f // f ∉ F} => k.page f) := by
  intro va e he hu k' page
  refine Prod.ext rfl (funext fun f => Kmem.setPage_page_of_ne k' page ?_)
  intro hfe
  rw [lookup_eq_entry, ← entry_mod] at he
  have hlt : va / PGSIZE % NPAGES < NPAGES := Nat.mod_lt _ (by decide)
  by_cases huser : va / PGSIZE % NPAGES < UPAGES
  · have hmem : e.frame ∈ frames k pg := .inr ⟨.page _, by rw [frameOf, if_pos huser, he]; rfl⟩
    rw [h.frames_eq, ← hfe] at hmem
    exact f.2 hmem
  · rw [h.perm _ (not_lt.mp huser) hlt e he] at hu
    cases hu

/-- Rounding the size up to whole pages changes nothing in the address space. -/
theorem Loaded.roundUp (h : Loaded ld F k pg sz) : Loaded ld F k pg (pgroundup sz) := by
  have hround : pgroundup sz = npages sz * PGSIZE := pgroundup_eq h.sz_le
  have hsz := h.sz_le
  rw [hround]
  refine { h with sz_le := ?_, present := fun j hj => ?_ }
  · unfold npages PGSIZE KERNBASE at *
    omega
  · rw [h.present j hj, @lt_npages (npages sz * PGSIZE) j]
    unfold PGSIZE
    omega

end Pgdir

namespace Exec

open Pgdir

variable {α : Type} {g : Kmem → α} {ld : Linker} {k : Kmem} {pg : Pgdir} {F : Set ℕ} {sz : ℕ}

theorem loadSegment_post (h : Loaded ld F k pg sz) (ip : File) (ph : Proghdr) :
    Post (loadSegment ld ip ph k pg sz)
      (fun r => Held ld F r.2.1 r.2.2 ∧ ∀ sz', r.1 = some sz' → Loaded ld F r.2.1 r.2.2 sz')
      fun _ => True := by
  unfold loadSegment
  have hbad : Held ld F k pg ∧ ∀ sz', (none : Option ℕ) = some sz' → Loaded ld F k pg sz' :=
    ⟨h.toHeld, fun sz' hsz' => by cases hsz'⟩
  split
  · refine ⟨h.toHeld, fun sz' hsz' => ?_⟩
    rw [← Option.some.inj hsz']
    exact h
  · split
    · exact hbad
    · split
      · exact hbad
      · obtain ⟨sz₁, k₁, pg₁, heq, hheld, -, hload⟩ := h.allocuvm (u32 (ph.vaddr + ph.memsz))
        simp only [heq, bind, Except.bind]
        split
        · exact ⟨hheld, fun sz' hsz' => by cases hsz'⟩
        · rename_i hne
          split
          · exact ⟨hheld, fun sz' hsz' => by cases hsz'⟩
          · refine (loaduvm_post ..).seq ?_
            rintro ⟨ok, k₂⟩ hk
            refine ⟨hheld.congr hk, fun sz' hsz' => ?_⟩
            cases ok with
            | true =>
              rw [← Option.some.inj hsz']
              exact (hload hne).2.1.congr hk
            | false => cases hsz'

theorem loadProgram_post (ip : File) (count : ℕ) : ∀ {off : ℕ} {k : Kmem} {pg : Pgdir} {sz : ℕ},
    Loaded ld F k pg sz →
    Post (loadProgram ld ip count off k pg sz)
      (fun r => Held ld F r.2.1 r.2.2 ∧ ∀ sz', r.1 = some sz' → Loaded ld F r.2.1 r.2.2 sz')
      fun _ => True := by
  induction count with
  | zero =>
    intro off k pg sz h
    refine ⟨h.toHeld, fun sz' hsz' => ?_⟩
    rw [← Option.some.inj hsz']
    exact h
  | succ count ih =>
    intro off k pg sz h
    rw [loadProgram]
    split
    · exact ⟨h.toHeld, fun sz' hsz' => by cases hsz'⟩
    · refine (loadSegment_post h ip _).seq ?_
      rintro ⟨r, k₁, pg₁⟩ ⟨hheld, hload⟩
      cases r with
      | none => exact ⟨hheld, fun sz' hsz' => by cases hsz'⟩
      | some sz₁ => exact ih (hload sz₁ rfl)

theorem pushArgs_post (hg : pg.Blind g) (argv : List (List UInt8)) : ∀ (argc : ℕ) (k : Kmem) (sp : ℕ),
    Post (pushArgs pg argv argc k sp) (fun r => g r.2 = g k) fun _ => True := by
  induction argv with
  | nil => exact fun argc k sp => rfl
  | cons arg rest ih =>
    intro argc k sp
    rw [pushArgs, post_ite]
    refine ⟨fun _ => rfl, fun _ => ?_⟩
    refine (copyout_post hg k _ _).seq ?_
    rintro ⟨ok, k₁⟩ hk₁
    cases ok with
    | false => exact hk₁
    | true =>
      refine (ih (argc + 1) k₁ _).seq ?_
      rintro ⟨r, k₂⟩ hk₂
      have hk : g k₂ = g k := Eq.trans hk₂ hk₁
      cases r with
      | none => exact hk
      | some r => exact hk

theorem buildStack_post (hg : pg.Blind g) (argv : List (List UInt8)) :
    Post (buildStack pg argv k sz) (fun r => g r.2 = g k) fun _ => True := by
  refine (pushArgs_post hg argv 0 k sz).seq ?_
  rintro ⟨r, k₁⟩ hk₁
  cases r with
  | none => exact hk₁
  | some r =>
    refine (copyout_post hg k₁ _ _).seq ?_
    rintro ⟨ok, k₂⟩ hk₂
    exact Eq.trans hk₂ hk₁

/-- The guard is the first of the two pages of the stack. -/
theorem guard_eq {n : ℕ} (hle : n * PGSIZE ≤ KERNBASE) :
    u32 ((n + 2) * PGSIZE + 2 ^ 32 - 2 * PGSIZE) = n * PGSIZE := by
  unfold u32 PGSIZE KERNBASE at *
  omega

/-- The stack is two pages on top of a program of whole pages, in frames of the new address space. -/
theorem addStack_post {n : ℕ} (h : Loaded ld F k pg sz) (hsz : sz = n * PGSIZE)
    (argv : List (List UInt8)) :
    Post (addStack ld argv k pg sz)
      (fun r => Held ld F r.2.1 r.2.2 ∧ (∀ q, r.1 = some q → Loaded ld F r.2.1 r.2.2 q.1) ∧
        ∀ f ∉ F, r.2.1.page f = k.page f)
      fun _ => True := by
  have hle := h.sz_le
  obtain ⟨sz₁, k₁, pg₁, heq, hheld, hpage, hload⟩ := h.allocuvm (u32 (sz + 2 * PGSIZE))
  simp only [addStack, heq, bind, Except.bind]
  split
  · exact ⟨hheld, fun q hq => (by cases hq), hpage⟩
  · rename_i hne
    obtain ⟨hmx, h₁, -⟩ := hload hne
    have hsz₁ : sz₁ = (n + 2) * PGSIZE := by
      rw [hmx, hsz]
      unfold u32 PGSIZE KERNBASE at *
      omega
    subst hsz₁
    have hin : n < npages ((n + 2) * PGSIZE) := by
      rw [lt_npages]
      unfold PGSIZE
      omega
    rw [guard_eq (hsz ▸ hle)]
    refine (h₁.clearpteu hin).seq ?_
    intro pg₂ h₂
    refine (buildStack_post h₂.blind argv).seq ?_
    rintro ⟨sp, k₂⟩ hk₂
    obtain ⟨hfree, hkeep⟩ := Prod.ext_iff.mp hk₂
    refine ⟨h₂.toHeld.congr hfree, fun q hq => ?_, fun f hf => ?_⟩
    · obtain ⟨sp', -, rfl⟩ := Option.map_eq_some_iff.mp hq
      exact h₂.congr hfree
    · exact (congrFun hkeep ⟨f, hf⟩).trans (hpage f hf)

/-- A new image is as long as its size says; a failed attempt leaves an address space that can be
freed. -/
theorem build_post (h : Loaded ld F k pg 0) (ip : File) (argv : List (List UInt8)) :
    Post (build ld ip argv k pg)
      (fun r => Held ld F r.2.1 r.2.2 ∧ ∀ q, r.1 = some q → Loaded ld F r.2.1 r.2.2 q.1)
      fun _ => True := by
  refine (loadProgram_post ip _ h).seq ?_
  rintro ⟨r, k₁, pg₁⟩ ⟨hheld, hload⟩
  cases r with
  | none => exact ⟨hheld, fun q hq => by cases hq⟩
  | some sz =>
    have hstack := addStack_post (hload sz rfl).roundUp (pgroundup_eq (hload sz rfl).sz_le) argv
    exact hstack.imp fun r hr => ⟨hr.1, hr.2.1⟩

theorem load_post (h : Loaded ld F k pg 0) (ip : File) (argv : List (List UInt8)) :
    Post (load ld ip argv k pg)
      (fun r => match r.1 with
        | none => r.2.Good ld ∧ ∀ f, f ∈ r.2.freelist ↔ f ∈ F
        | some img => Loaded ld F r.2 img.pgdir img.sz)
      fun _ => True := by
  unfold load
  refine (build_post h ip argv).seq ?_
  rintro ⟨r, k₁, pg₁⟩ ⟨hheld, hload⟩
  cases r with
  | some q => exact hload q rfl
  | none =>
    obtain ⟨k₂, hfree, hgood, hmem, -⟩ := freevm_spec hheld.sound
    rw [hheld.frames_eq] at hmem
    simp only [hfree]
    exact ⟨hgood, hmem⟩

/-- **`exec` up to its commit point**: a failed call gives back every page it took; otherwise the
new address space is as long as its size says. -/
theorem exec_post (hk : k.Good ld) (path : Option File) (argv : List (List UInt8)) :
    Post (exec ld k path argv)
      (fun r => match r.1 with
        | none => r.2.Good ld ∧ ∀ f, f ∈ r.2.freelist ↔ f ∈ k.freelist
        | some img => Loaded ld {f | f ∈ k.freelist} r.2 img.pgdir img.sz)
      fun _ => True := by
  have hsame : k.Good ld ∧ ∀ f, f ∈ k.freelist ↔ f ∈ k.freelist := ⟨hk, fun f => Iff.rfl⟩
  unfold exec
  cases path with
  | none => exact hsame
  | some ip =>
    simp only
    split
    · exact hsame
    · split
      · exact hsame
      · rcases setupkvm_spec hk with ⟨k₁, heq, hgood, hmem, -⟩ | ⟨k₁, d, heq, hset⟩
        · rw [heq]
          exact ⟨hgood, hmem⟩
        · rw [heq]
          exact load_post hset.loaded ip argv

end Exec
