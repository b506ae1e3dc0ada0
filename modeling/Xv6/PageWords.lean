/-
# Page tables in memory

The functions of `vm.c` on page directories, on the bytes of physical memory: a page directory is a
frame of 1024 words, and each present word leads to a frame of 1024 more.  `Vm` views the same
directory as a tree.  Here it is read as one flat map from page numbers to frames and flags, and the
functions are shown to do to that map what they are for.
-/
import Xv6.KernelPart
import Xv6.LittleEndian

open List

/-! ## Words -/

/-- `pde_t` and `pte_t`. -/
abbrev Word := BitVec 32

/-- The flags of an entry, its low twelve bits. -/
abbrev Flags := BitVec 12

abbrev PTE_P : Flags := 0x001
abbrev PTE_W : Flags := 0x002
abbrev PTE_U : Flags := 0x004

namespace Word

/-- The frame at `PTE_ADDR`. -/
def frame (w : Word) : ℕ := (w >>> 12).toNat

/-- `PTE_FLAGS`. -/
def flags (w : Word) : Flags := w.setWidth 12

/-- The test `w & PTE_P`. -/
def Present (w : Word) : Prop := w &&& PTE_P.setWidth 32 ≠ 0

instance (w : Word) : Decidable (Present w) := by
  unfold Present
  infer_instance

/-- The word `pa | flags`. -/
def make (pa : ℕ) (flags : Flags) : Word := BitVec.ofNat 32 pa ||| flags.setWidth 32

/-- The word `w & ~flags`. -/
def clear (w : Word) (flags : Flags) : Word := w &&& ~~~(flags.setWidth 32)

theorem setWidth_setWidth (fl : Flags) : (fl.setWidth 32).setWidth 12 = fl := by
  rw [BitVec.setWidth_setWidth_of_le fl (by decide), BitVec.setWidth_eq]

/-- Flags are below the frame. -/
theorem setWidth_ushiftRight (fl : Flags) : fl.setWidth 32 >>> 12 = 0 := by
  ext i hi
  simp

/-- `PTE_P` is the lowest bit. -/
theorem present_iff (w : Word) : Present w ↔ w.getLsbD 0 = true := by
  unfold Present
  rw [show PTE_P.setWidth 32 = 1#32 from rfl, BitVec.and_one_eq_setWidth_ofBool_getLsbD]
  cases w.getLsbD 0 <;> simp

theorem frame_make {f : ℕ} (hf : f < NPAGES) (fl : Flags) : frame (make (f * PGSIZE) fl) = f := by
  rw [frame, make, BitVec.ushiftRight_or_distrib, setWidth_ushiftRight, show (0 : BitVec 32) = 0#32 from rfl, BitVec.or_zero,
    BitVec.toNat_ushiftRight, BitVec.toNat_ofNat, Nat.shiftRight_eq_div_pow]
  unfold NPAGES PGSIZE at *
  omega

theorem flags_make (f : ℕ) (fl : Flags) : flags (make (f * PGSIZE) fl) = fl := by
  have hlow : (BitVec.ofNat 32 (f * PGSIZE)).setWidth 12 = 0#12 := by
    apply BitVec.eq_of_toNat_eq
    rw [BitVec.toNat_setWidth, BitVec.toNat_ofNat, BitVec.toNat_zero]
    unfold PGSIZE
    omega
  rw [flags, make, BitVec.setWidth_or, hlow, setWidth_setWidth, BitVec.zero_or]

theorem frame_clear (w : Word) (fl : Flags) : frame (clear w fl) = frame w := by
  unfold frame clear
  congr 1
  ext i hi
  by_cases h : 12 + i < 32
  · simp [h]
  · have hout := BitVec.getLsbD_of_ge w (12 + i) (by omega)
    simp [h, hout]

theorem flags_clear (w : Word) (fl : Flags) : flags (clear w fl) = flags w &&& ~~~fl := by
  rw [flags, clear, BitVec.setWidth_and, BitVec.setWidth_not (by decide), setWidth_setWidth, flags]

theorem present_make (pa : ℕ) (fl : Flags) : Present (make pa (fl ||| PTE_P)) := by
  rw [present_iff]
  simp [make]

theorem present_clear (w : Word) : Present (clear w PTE_U) ↔ Present w := by
  rw [present_iff, present_iff]
  simp [clear]

end Word

/-! ## Words of a frame -/

namespace Kmem

/-- The word `i` of a frame. -/
def word (k : Kmem) (f : ℕ) (i : Fin NPDENTRIES) : Word :=
  BitVec.ofNat 32 (leValue 4 fun o => k.page f (4 * i + o))

/-- Store a word of a frame. -/
def setWord (k : Kmem) (f : ℕ) (i : Fin NPDENTRIES) (w : Word) : Kmem :=
  k.setPage f fun o => if 4 * i ≤ o ∧ o < 4 * i + 4 then leByte w.toNat (o - 4 * i) else k.page f o

variable (k : Kmem) {f g : ℕ} {i j : Fin NPDENTRIES} (w : Word)

theorem word_congr {k k' : Kmem} (h : k'.page f = k.page f) : k'.word f i = k.word f i := by
  unfold word
  rw [h]

theorem word_zero {k : Kmem} (h : k.page f = fun _ => 0) : k.word f i = 0 := by
  unfold word
  rw [h]
  rfl

theorem word_setWord_self : (k.setWord f i w).word f i = w := by
  unfold word setWord
  rw [setPage_page_self]
  have hbytes : leValue 4 (fun o => if 4 * (i : ℕ) ≤ 4 * i + o ∧ 4 * (i : ℕ) + o < 4 * i + 4 then
      leByte w.toNat (4 * i + o - 4 * i) else k.page f (4 * i + o)) = leValue 4 (leByte w.toNat) := by
    refine leValue_congr fun o ho => ?_
    rw [if_pos (by omega), Nat.add_sub_cancel_left]
  rw [hbytes, leValue_leByte]
  apply BitVec.eq_of_toNat_eq
  rw [BitVec.toNat_ofNat]
  have hlt := w.isLt
  omega

theorem word_setWord_of_index (h : j ≠ i) : (k.setWord f i w).word f j = k.word f j := by
  unfold word setWord
  rw [setPage_page_self]
  congr 1
  refine leValue_congr fun o ho => if_neg ?_
  have hne : (j : ℕ) ≠ i := fun heq => h (Fin.ext heq)
  omega

theorem word_setWord_of_frame (h : g ≠ f) : (k.setWord f i w).word g j = k.word g j :=
  word_congr (setPage_page_of_ne k _ h)

theorem word_setWord : (k.setWord f i w).word g j =
    if g = f ∧ j = i then w else k.word g j := by
  by_cases hg : g = f
  · subst hg
    by_cases hj : j = i
    · subst hj
      rw [if_pos ⟨rfl, rfl⟩, word_setWord_self]
    · rw [if_neg fun h => hj h.2, word_setWord_of_index k w hj]
  · rw [if_neg fun h => hg h.1, word_setWord_of_frame k w hg]

@[simp] theorem setWord_freelist : (k.setWord f i w).freelist = k.freelist := rfl

@[simp] theorem setWord_refuse : (k.setWord f i w).refuse = k.refuse := rfl

end Kmem

/-! ## The functions -/

namespace PageWords

open Word

/-- `walkpgdir`: the page table and the index in it of the entry for `va`. -/
def walkpgdir (k : Kmem) (pgdir va : ℕ) (alloc : Bool) : Option (ℕ × Fin NPDENTRIES) × Kmem :=
  let pde := k.word pgdir (pdx va)
  if Present pde then
    (some (frame pde, ptx va), k)
  else if alloc then
    match k.kalloc with
    | (none, k) => (none, k)
    | (some pgtab, k) =>
      let k := k.setPage pgtab fun _ => 0
      (some (pgtab, ptx va),
        k.setWord pgdir (pdx va) (make (pgtab * PGSIZE) (PTE_P ||| PTE_W ||| PTE_U)))
  else
    (none, k)

/-- The loop of `mappages`; `fuel` bounds its rounds. -/
def mapLoop (pgdir : ℕ) (perm : Flags) (last : ℕ) : ℕ → Kmem → ℕ → ℕ → Except Stop (Bool × Kmem)
  | 0, _, _, _ => .error .blocked
  | fuel + 1, k, a, pa =>
    match walkpgdir k pgdir a true with
    | (none, k) => .ok (false, k)
    | (some (pgtab, i), k) =>
      if Present (k.word pgtab i) then
        .error (.panic "remap")
      else
        let k := k.setWord pgtab i (make pa (perm ||| PTE_P))
        if a = last then .ok (true, k)
        else mapLoop pgdir perm last fuel k (u32 (a + PGSIZE)) (u32 (pa + PGSIZE))

/-- Create entries for the virtual addresses from `va` on that refer to the physical addresses from
`pa` on; `false` stands for the result `-1`. -/
def mappages (k : Kmem) (pgdir va size pa : ℕ) (perm : Flags) : Except Stop (Bool × Kmem) :=
  mapLoop pgdir perm (pgrounddown (u32 (va + size + (2 ^ 32 - 1)))) NPAGES k (pgrounddown va) pa

/-- Clear `PTE_U` on a page. -/
def clearpteu (k : Kmem) (pgdir uva : ℕ) : Except Stop Kmem :=
  match walkpgdir k pgdir uva false with
  | (none, _) => .error (.panic "clearpteu")
  | (some (pgtab, i), k) => .ok (k.setWord pgtab i (clear (k.word pgtab i) PTE_U))

/-- The loop of `deallocuvm`. -/
def deallocLoop (ld : Linker) (pgdir oldsz : ℕ) : ℕ → Kmem → ℕ → Except Stop Kmem
  | 0, _, _ => .error .blocked
  | fuel + 1, k, a =>
    if a < oldsz then
      match walkpgdir k pgdir a false with
      | (none, k) => deallocLoop ld pgdir oldsz fuel k (u32 (((pdx a : ℕ) + 1) * 2 ^ 22))
      | (some (pgtab, i), k) =>
        let pte := k.word pgtab i
        if Present pte then
          if frame pte = 0 then
            .error (.panic "kfree")
          else do
            let k ← k.kfree ld (frame pte)
            deallocLoop ld pgdir oldsz fuel (k.setWord pgtab i 0) (u32 (a + PGSIZE))
        else deallocLoop ld pgdir oldsz fuel k (u32 (a + PGSIZE))
    else
      .ok k

/-- Deallocate user pages to bring the process size from `oldsz` to `newsz`. -/
def deallocuvm (ld : Linker) (k : Kmem) (pgdir oldsz newsz : ℕ) : Except Stop (ℕ × Kmem) :=
  if newsz ≥ oldsz then
    .ok (oldsz, k)
  else do
    let k ← deallocLoop ld pgdir oldsz (oldsz / PGSIZE + 2) k (pgroundup newsz)
    return (newsz, k)

/-- The loop of `freevm` over the page directory. -/
def freeTables (ld : Linker) (pgdir : ℕ) (k : Kmem) : Except Stop Kmem :=
  (finRange NPDENTRIES).foldlM (fun k i =>
    if Present (k.word pgdir i) then k.kfree ld (frame (k.word pgdir i)) else .ok k) k

/-- Free a page table and all the physical memory pages in the user part. -/
def freevm (ld : Linker) (k : Kmem) (pgdir : ℕ) : Except Stop Kmem := do
  let (_, k) ← deallocuvm ld k pgdir KERNBASE 0
  let k ← freeTables ld pgdir k
  k.kfree ld pgdir

/-- The flags of a range of `kmap`. -/
def permFlags (perm : Perm) : Flags :=
  (if perm.w then PTE_W else 0) ||| (if perm.u then PTE_U else 0)

/-- The loop of `setupkvm`. -/
def setupLoop (ld : Linker) (pgdir : ℕ) : List Pgdir.Kmap → Kmem → Except Stop (Option ℕ × Kmem)
  | [], k => .ok (some pgdir, k)
  | m :: rest, k => do
    let (ok, k) ← mappages k pgdir m.virt (u32 (m.phys_end + 2 ^ 32 - m.phys_start))
      m.phys_start (permFlags m.perm)
    if ok then setupLoop ld pgdir rest k
    else
      let k ← freevm ld k pgdir
      return (none, k)

/-- Set up the kernel part of a page table. -/
def setupkvm (ld : Linker) (k : Kmem) : Except Stop (Option ℕ × Kmem) :=
  match k.kalloc with
  | (none, k) => .ok (none, k)
  | (some pgdir, k) =>
    if KERNBASE + PHYSTOP > DEVSPACE then .error (.panic "PHYSTOP too high")
    else setupLoop ld pgdir (Pgdir.kmap ld) (k.setPage pgdir fun _ => 0)

/-! ## The flat map -/

/-- A page of the address space: the frame behind it and its flags. -/
structure Entry where
  frame : ℕ
  flags : Flags
deriving DecidableEq

/-- A map of the pages of an address space. -/
abbrev FlatMap := Fin NPAGES → Option Entry

namespace FlatMap

/-- The map with the pages from `first` to `last` at consecutive frames from `f` on. -/
def mapRange (m : FlatMap) (first last f : ℕ) (flags : Flags) : FlatMap := fun n =>
  if first ≤ n ∧ n ≤ last then some ⟨(f + (n - first)) % NPAGES, flags⟩ else m n

/-- The map with `PTE_U` off for page `n`. -/
def clearU (m : FlatMap) (n : ℕ) : FlatMap := fun j =>
  if j = n then (m j).map fun e => { e with flags := e.flags &&& ~~~PTE_U } else m j

/-- The ranges of `kmap`. -/
def kernel (ld : Linker) : FlatMap := fun n =>
  (Pgdir.rangesEntry (Pgdir.kmap ld) n).map fun e => ⟨e.frame, permFlags e.perm ||| PTE_P⟩

end FlatMap

/-- What a word says of its page. -/
def decode (w : Word) : Option Entry := if Present w then some ⟨frame w, flags w⟩ else none

/-- The page table at index `x` of a directory. -/
def tableAt (k : Kmem) (pgdir : ℕ) (x : Fin NPDENTRIES) : Option ℕ :=
  if Present (k.word pgdir x) then some (frame (k.word pgdir x)) else none

/-- What a directory says of the page at index `y` of the table at index `x`. -/
def entryAt (k : Kmem) (pgdir : ℕ) (x y : Fin NPDENTRIES) : Option Entry :=
  (tableAt k pgdir x).bind fun t => decode (k.word t y)

/-- **A directory as a flat map.** -/
def flat (k : Kmem) (pgdir : ℕ) : FlatMap := fun n =>
  entryAt k pgdir (pdx (n * PGSIZE)) (ptx (n * PGSIZE))

/-- The page tables of a directory are pages of their own, and the free pages are other ones. -/
structure Tables (k : Kmem) (pgdir : ℕ) : Prop where
  inj : ∀ x y t, tableAt k pgdir x = some t → tableAt k pgdir y = some t → x = y
  ne_dir : ∀ x, tableAt k pgdir x ≠ some pgdir
  nodup : k.freelist.Nodup
  free : ∀ f ∈ k.freelist, f < NPAGES ∧ f ≠ pgdir ∧ ∀ x, tableAt k pgdir x ≠ some f

variable {k k' : Kmem} {pgdir : ℕ}

variable {x : Fin NPDENTRIES}

theorem tableAt_congr (h : k'.word pgdir x = k.word pgdir x) :
    tableAt k' pgdir x = tableAt k pgdir x := by
  unfold tableAt
  rw [h]

variable {x y : Fin NPDENTRIES} {t : ℕ}

theorem entryAt_of_table (h : tableAt k pgdir x = some t) :
    entryAt k pgdir x y = decode (k.word t y) := by
  unfold entryAt
  rw [h]
  rfl

/-- Entries are read from the bytes of memory. -/
theorem entryAt_congr (h : k'.page = k.page) :
    entryAt k' pgdir x y = entryAt k pgdir x y := by
  unfold entryAt tableAt Kmem.word
  rw [h]

theorem Tables.congr (h : Tables k pgdir) (hfree : k'.freelist = k.freelist)
    (hword : ∀ x, k'.word pgdir x = k.word pgdir x) : Tables k' pgdir := by
  have htable : tableAt k' pgdir = tableAt k pgdir := funext fun x => tableAt_congr (hword x)
  refine ⟨?_, ?_, ?_, ?_⟩
  · rw [htable]
    exact h.inj
  · rw [htable]
    exact h.ne_dir
  · rw [hfree]
    exact h.nodup
  · rw [hfree, htable]
    exact h.free

/-! ## Storing an entry -/

variable {w : Word}

/-- A word stored in a page table changes one entry. -/
theorem entryAt_setWord {x y x' y' : Fin NPDENTRIES} (h : Tables k pgdir)
    (ht : tableAt k pgdir x = some t) :
    entryAt (k.setWord t y w) pgdir x' y' =
      if x' = x ∧ y' = y then decode w else entryAt k pgdir x' y' := by
  have hdir : pgdir ≠ t := fun heq => h.ne_dir x (heq ▸ ht)
  have htable : ∀ z, tableAt (k.setWord t y w) pgdir z = tableAt k pgdir z := fun z =>
    tableAt_congr (Kmem.word_setWord_of_frame k w hdir)
  cases ht' : tableAt k pgdir x' with
  | none =>
    rw [if_neg]
    · unfold entryAt
      rw [htable, ht']
      rfl
    · rintro ⟨rfl, -⟩
      rw [ht] at ht'
      cases ht'
  | some t' =>
    rw [entryAt_of_table ((htable x').trans ht'), entryAt_of_table ht', Kmem.word_setWord]
    -- one table has one index
    have hiff : t' = t ↔ x' = x :=
      ⟨fun heq => h.inj x' x t (heq ▸ ht') ht, fun heq => Option.some.inj (ht'.symm.trans (heq ▸ ht))⟩
    simp only [hiff]
    split <;> rfl

theorem Tables.setWord (h : Tables k pgdir) (ht : tableAt k pgdir x = some t) :
    Tables (k.setWord t y w) pgdir :=
  h.congr rfl fun _ => Kmem.word_setWord_of_frame k w fun heq => h.ne_dir x (heq ▸ ht)

/-! ## A new page table -/

/-- The memory with the free frame `f` as an empty page table for the region `x`. -/
def newTable (k : Kmem) (pgdir f : ℕ) (x : Fin NPDENTRIES) : Kmem :=
  (k.setPage f fun _ => 0).setWord pgdir x (make (f * PGSIZE) (PTE_P ||| PTE_W ||| PTE_U))

variable {f : ℕ}

theorem newTable_page (h : k'.page = k.page) :
    (newTable k' pgdir f x).page = (newTable k pgdir f x).page := by
  unfold newTable Kmem.setWord Kmem.setPage
  rw [h]

theorem tableAt_newTable (hf : f < NPAGES) (hne : f ≠ pgdir) :
    tableAt (newTable k pgdir f x) pgdir y = if y = x then some f else tableAt k pgdir y := by
  by_cases hy : y = x
  · subst hy
    have hp : Present (make (f * PGSIZE) (PTE_P ||| PTE_W ||| PTE_U)) :=
      present_make (f * PGSIZE) (PTE_W ||| PTE_U)
    rw [if_pos rfl, tableAt, newTable, Kmem.word_setWord_self, if_pos hp, frame_make hf]
  · rw [if_neg hy]
    refine tableAt_congr ?_
    rw [newTable, Kmem.word_setWord_of_index _ _ hy,
      Kmem.word_congr (Kmem.setPage_page_of_ne k _ hne.symm)]

/-- An empty table changes nothing in the flat map. -/
theorem entryAt_newTable (h : Tables k pgdir) (hf : f ∈ k.freelist) (hx : tableAt k pgdir x = none)
    (y z : Fin NPDENTRIES) :
    entryAt (newTable k pgdir f x) pgdir y z = entryAt k pgdir y z := by
  obtain ⟨hlt, hne, hnot⟩ := h.free f hf
  have hwords : ∀ g, g ≠ pgdir → (newTable k pgdir f x).word g z = (k.setPage f fun _ => 0).word g z :=
    fun g hg => Kmem.word_setWord_of_frame _ _ hg
  by_cases hy : y = x
  · subst hy
    rw [entryAt_of_table ((tableAt_newTable hlt hne).trans (if_pos rfl)), hwords f hne,
      Kmem.word_zero (Kmem.setPage_page_self k f _)]
    unfold entryAt
    rw [hx]
    rfl
  · have htable : tableAt (newTable k pgdir f x) pgdir y = tableAt k pgdir y :=
      (tableAt_newTable hlt hne).trans (if_neg hy)
    cases ht : tableAt k pgdir y with
    | none =>
      unfold entryAt
      rw [htable, ht]
      rfl
    | some t =>
      have htf : t ≠ f := fun heq => hnot y (heq ▸ ht)
      have htd : t ≠ pgdir := fun heq => h.ne_dir y (heq ▸ ht)
      rw [entryAt_of_table (htable.trans ht), entryAt_of_table ht, hwords t htd,
        Kmem.word_congr (Kmem.setPage_page_of_ne k _ htf)]

theorem Tables.newTable (h : Tables k pgdir) (hk : k.freelist = f :: k'.freelist)
    (hpage : k'.page = k.page) :
    Tables (newTable k' pgdir f x) pgdir := by
  have hf : f ∈ k.freelist := hk ▸ mem_cons_self
  obtain ⟨hlt, hne, hnot⟩ := h.free f hf
  have hnd := h.nodup
  rw [hk, nodup_cons] at hnd
  have hold : ∀ y, tableAt k' pgdir y = tableAt k pgdir y := fun y =>
    tableAt_congr (Kmem.word_congr (congrFun hpage pgdir))
  have htable : ∀ y, tableAt (PageWords.newTable k' pgdir f x) pgdir y =
      if y = x then some f else tableAt k pgdir y := fun y => by
    rw [tableAt_newTable hlt hne, hold]
  refine ⟨fun y z t hy hz => ?_, fun y hy => ?_, hnd.2, fun g hg => ?_⟩
  · rw [htable] at hy hz
    split at hy <;> split at hz
    next hyx hzx => rw [hyx, hzx]
    next =>
      cases hy
      exact absurd hz (hnot z)
    next =>
      cases hz
      exact absurd hy (hnot y)
    next => exact h.inj y z t hy hz
  · rw [htable] at hy
    split at hy
    next => exact hne (Option.some.inj hy)
    next => exact h.ne_dir y hy
  · obtain ⟨hglt, hgne, hgnot⟩ := h.free g (hk ▸ mem_cons_of_mem f hg)
    refine ⟨hglt, hgne, fun y hy => ?_⟩
    rw [htable] at hy
    split at hy
    next =>
      cases hy
      exact hnd.1 hg
    next => exact hgnot y hy

/-! ## `walkpgdir` -/

/-- **`walkpgdir` that may allocate**: without a page it changes nothing; otherwise the table is there, and
the flat map is that of before. -/
theorem walkpgdir_cases (h : Tables k pgdir) (va : ℕ) :
    (∃ k', walkpgdir k pgdir va true = (none, k') ∧ k'.freelist = k.freelist ∧ k'.page = k.page) ∨
    ∃ t k', walkpgdir k pgdir va true = (some (t, ptx va), k') ∧ Tables k' pgdir ∧
      tableAt k' pgdir (pdx va) = some t ∧ ∀ x y, entryAt k' pgdir x y = entryAt k pgdir x y := by
  unfold walkpgdir
  dsimp only
  split
  next hp => exact .inr ⟨_, k, rfl, h, if_pos hp, fun _ _ => rfl⟩
  next hp =>
    rw [if_pos rfl]
    obtain ⟨k', heq, hfree, hpage, -⟩ | ⟨f, k', heq, hfree, hpage, -⟩ := k.kalloc_cases
    · rw [heq]
      exact .inl ⟨k', rfl, hfree, hpage⟩
    · rw [heq]
      have hf : f ∈ k.freelist := hfree ▸ mem_cons_self
      obtain ⟨hlt, hne, -⟩ := h.free f hf
      refine .inr ⟨f, newTable k' pgdir f (pdx va), rfl, h.newTable hfree hpage,
        (tableAt_newTable hlt hne).trans (if_pos rfl), fun x y => ?_⟩
      rw [← entryAt_newTable h hf (if_neg hp) x y]
      exact entryAt_congr (newTable_page hpage)

/-! ## `mappages` -/

/-- A word stored where `walkpgdir` says changes one page of the flat map. -/
theorem flat_setWord {n t : ℕ} (h : Tables k pgdir) (hn : n < NPAGES)
    (ht : tableAt k pgdir (pdx (n * PGSIZE)) = some t) (j : Fin NPAGES) :
    flat (k.setWord t (ptx (n * PGSIZE)) w) pgdir j =
      if j = n then decode w else flat k pgdir j := by
  unfold flat
  rw [entryAt_setWord h ht]
  refine if_congr ⟨fun heq => Pgdir.page_eq_of_indexes j.isLt hn heq.1 heq.2, ?_⟩ rfl rfl
  intro heq
  rw [heq]
  exact ⟨rfl, rfl⟩

theorem decode_make (f : ℕ) (perm : Flags) :
    decode (make (f % NPAGES * PGSIZE) (perm ||| PTE_P)) = some ⟨f % NPAGES, perm ||| PTE_P⟩ := by
  have hp : Present (make (f % NPAGES * PGSIZE) (perm ||| PTE_P)) := present_make _ _
  rw [decode, if_pos hp, frame_make (Nat.mod_lt _ (by decide)), flags_make]

/-- What the loop of `mappages` has done to the pages from `n` to `n + r`. -/
structure Mapped (k : Kmem) (pgdir n r f : ℕ) (flags : Flags) (k' : Kmem) : Prop where
  tables : Tables k' pgdir
  absent : ∀ j : Fin NPAGES, n ≤ j → j ≤ n + r → flat k pgdir j = none
  flat_eq : flat k' pgdir = (flat k pgdir).mapRange n (n + r) f flags

/-- A page, then the pages after it. -/
theorem Mapped.cons {k₁ : Kmem} {n r f : ℕ} {flags : Flags}
    (h₁ : Mapped k pgdir n 0 f flags k₁) (h : Mapped k₁ pgdir (n + 1) r (f + 1) flags k') :
    Mapped k pgdir n (r + 1) f flags k' where
  tables := h.tables
  absent := by
    intro j hlo hhi
    by_cases hj : (j : ℕ) = n
    · exact h₁.absent j (by omega) (by omega)
    · have habs := h.absent j (by omega) (by omega)
      rwa [h₁.flat_eq, FlatMap.mapRange, if_neg (by omega)] at habs
  flat_eq := by
    funext j
    rw [h.flat_eq, h₁.flat_eq]
    unfold FlatMap.mapRange
    by_cases hj : (j : ℕ) = n
    · rw [if_neg (by omega), if_pos (by omega), if_pos (by omega)]
    · by_cases hin : n + 1 ≤ (j : ℕ) ∧ (j : ℕ) ≤ n + 1 + r
      · rw [if_pos hin, if_pos (by omega), show f + 1 + (j - (n + 1)) = f + (j - n) by omega]
      · rw [if_neg hin, if_neg (by omega), if_neg (by omega)]

/-- One round of the loop of `mappages`. -/
theorem mapLoop_round (h : Tables k pgdir) (n : ℕ) (hn : n < NPAGES) (perm : Flags)
    (last fuel f : ℕ) :
    (∃ k', mapLoop pgdir perm last (fuel + 1) k (n * PGSIZE) (f % NPAGES * PGSIZE) = .ok (false, k')) ∨
    mapLoop pgdir perm last (fuel + 1) k (n * PGSIZE) (f % NPAGES * PGSIZE) =
      .error (.panic "remap") ∨
    ∃ k', Mapped k pgdir n 0 f (perm ||| PTE_P) k' ∧
      mapLoop pgdir perm last (fuel + 1) k (n * PGSIZE) (f % NPAGES * PGSIZE) =
        if n * PGSIZE = last then .ok (true, k')
        else mapLoop pgdir perm last fuel k' (u32 (n * PGSIZE + PGSIZE))
          (u32 (f % NPAGES * PGSIZE + PGSIZE)) := by
  rw [mapLoop]
  obtain ⟨k', heq, -⟩ | ⟨t, k₁, heq, h₁, ht, hentry⟩ := walkpgdir_cases h (n * PGSIZE)
  · rw [heq]
    exact .inl ⟨k', rfl⟩
  · rw [heq]
    dsimp only
    split
    next => exact .inr (.inl rfl)
    next hp =>
      have hflat : flat k₁ pgdir = flat k pgdir := funext fun j => hentry ..
      refine .inr (.inr ⟨_, ⟨h₁.setWord ht, fun j hlo hhi => ?_, funext fun j => ?_⟩, rfl⟩)
      · rw [← hflat, flat, show (j : ℕ) = n by omega, entryAt_of_table ht]
        exact if_neg hp
      · rw [flat_setWord h₁ hn ht, decode_make, hflat, FlatMap.mapRange]
        by_cases hj : (j : ℕ) = n
        · rw [if_pos hj, if_pos (by omega), hj, Nat.sub_self, Nat.add_zero]
        · rw [if_neg hj, if_neg (by omega)]

theorem u32_frame (f : ℕ) :
    u32 (f % NPAGES * PGSIZE + PGSIZE) = (f + 1) % NPAGES * PGSIZE := by
  unfold u32 PGSIZE NPAGES
  omega

/-- **The loop of `mappages`** over `r + 1` pages: it runs out of pages, finds a page that is there, or maps
them all. -/
theorem mapLoop_cases (perm : Flags) (r : ℕ) : ∀ (fuel n f : ℕ) (k : Kmem), Tables k pgdir → r < fuel →
    n + r < NPAGES →
    (∃ k', mapLoop pgdir perm ((n + r) * PGSIZE) fuel k (n * PGSIZE) (f % NPAGES * PGSIZE) =
      .ok (false, k')) ∨
    mapLoop pgdir perm ((n + r) * PGSIZE) fuel k (n * PGSIZE) (f % NPAGES * PGSIZE) =
      .error (.panic "remap") ∨
    ∃ k', mapLoop pgdir perm ((n + r) * PGSIZE) fuel k (n * PGSIZE) (f % NPAGES * PGSIZE) =
      .ok (true, k') ∧ Mapped k pgdir n r f (perm ||| PTE_P) k' := by
  induction r with
  | zero =>
    intro fuel n f k h hfuel hn
    obtain ⟨fuel, rfl⟩ : ∃ r, fuel = r + 1 := ⟨fuel - 1, by omega⟩
    obtain hfail | hremap | ⟨k', hm, heq⟩ :=
      mapLoop_round h n hn perm ((n + 0) * PGSIZE) fuel f
    · exact .inl hfail
    · exact .inr (.inl hremap)
    · rw [if_pos (by rw [Nat.add_zero])] at heq
      exact .inr (.inr ⟨k', heq, hm⟩)
  | succ r ih =>
    intro fuel n f k h hfuel hn
    obtain ⟨fuel, rfl⟩ : ∃ r, fuel = r + 1 := ⟨fuel - 1, by omega⟩
    obtain hfail | hremap | ⟨k₁, hm, heq⟩ :=
      mapLoop_round h n (by omega) perm ((n + (r + 1)) * PGSIZE) fuel f
    · exact .inl hfail
    · exact .inr (.inl hremap)
    · -- the next address is that of the next page, without wrap-around; the frames may wrap
      rw [if_neg (by unfold PGSIZE; omega), Pgdir.u32_next (by omega), u32_frame] at heq
      rw [heq, show n + (r + 1) = n + 1 + r by omega]
      obtain hfail | hremap | ⟨k', heq', hm'⟩ :=
        ih fuel (n + 1) (f + 1) k₁ hm.tables (by omega) (by omega)
      · exact .inl hfail
      · exact .inr (.inl hremap)
      · exact .inr (.inr ⟨k', heq', hm.cons hm'⟩)

/-- **`mappages`** for a range that ends in the address space. -/
theorem mappages_cases (h : Tables k pgdir) {va size pa : ℕ} (hsize : 1 ≤ size)
    (hend : va + (size - 1) < 2 ^ 32) (hpa : pa < 2 ^ 32) (halign : PGSIZE ∣ pa) (perm : Flags) :
    (∃ k', mappages k pgdir va size pa perm = .ok (false, k')) ∨
    mappages k pgdir va size pa perm = .error (.panic "remap") ∨
    ∃ k', mappages k pgdir va size pa perm = .ok (true, k') ∧
      Mapped k pgdir (va / PGSIZE) ((va + (size - 1)) / PGSIZE - va / PGSIZE) (pa / PGSIZE)
        (perm ||| PTE_P) k' := by
  have hlast : pgrounddown (u32 (va + size + (2 ^ 32 - 1))) =
      (va / PGSIZE + ((va + (size - 1)) / PGSIZE - va / PGSIZE)) * PGSIZE := by
    rw [show va + size + (2 ^ 32 - 1) = va + (size - 1) + 2 ^ 32 by omega]
    unfold pgrounddown u32 PGSIZE at *
    omega
  have hframe : pa / PGSIZE % NPAGES * PGSIZE = pa := by
    obtain ⟨f, rfl⟩ := halign
    unfold PGSIZE NPAGES at *
    omega
  have hloop := @mapLoop_cases pgdir perm
    ((va + (size - 1)) / PGSIZE - va / PGSIZE) NPAGES (va / PGSIZE) (pa / PGSIZE) k h
    (by unfold PGSIZE NPAGES at *; omega) (by unfold PGSIZE NPAGES at *; omega)
  rw [hframe] at hloop
  unfold mappages
  rw [hlast]
  exact hloop

/-! ## `clearpteu` -/

theorem decode_clear (w : Word) :
    decode (clear w PTE_U) = (decode w).map fun e => { e with flags := e.flags &&& ~~~PTE_U } := by
  unfold decode
  by_cases hp : Present w
  · have hp' : Present (clear w PTE_U) := (present_clear w).mpr hp
    rw [if_pos hp, if_pos hp', frame_clear, flags_clear]
    rfl
  · have hp' : ¬ Present (clear w PTE_U) := mt (present_clear w).mp hp
    rw [if_neg hp, if_neg hp']
    rfl

/-- `clearpteu` changes one flag of one page. -/
theorem clearpteu_flat (h : Tables k pgdir) {uva : ℕ} (huva : uva < 2 ^ 32)
    (hclear : clearpteu k pgdir uva = .ok k') :
    flat k' pgdir = (flat k pgdir).clearU (uva / PGSIZE) := by
  unfold clearpteu walkpgdir at hclear
  dsimp only at hclear
  split at hclear
  next => cases hclear
  next pgtab i k₁ heq =>
    split at heq
    next hp =>
      cases heq
      cases hclear
      have ht : tableAt k pgdir (pdx (uva / PGSIZE * PGSIZE)) = some (frame (k.word pgdir (pdx uva))) := by
        rw [Pgdir.pdx_pgrounddown]
        exact if_pos hp
      have hn : uva / PGSIZE < NPAGES := by
        unfold PGSIZE NPAGES
        omega
      funext j
      rw [← Pgdir.ptx_pgrounddown uva, flat_setWord h hn ht, FlatMap.clearU]
      split
      next hj =>
        rw [flat, hj, entryAt_of_table ht, Pgdir.ptx_pgrounddown, decode_clear]
      next => rfl
    next => cases heq

end PageWords
