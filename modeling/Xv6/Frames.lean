/-
# Who uses a frame

A page directory as a flat map from page numbers to entries, and the uses that it makes of
physical frames: one for the directory, one for each page table, one for each user page.  `Sound`
says that no frame is used twice and no frame in use is on the free list.  The four rules at the
end say how a frame goes from the free list into use and back.
-/
import Xv6.Vm

open Function Option

/-- Pages of the user part of an address space. -/
abbrev UPAGES : ℕ := 2 ^ 19

/-! ## Pages that the allocator can still give -/

namespace Kmem

/-- With `n` frames on the list, the number of calls of `kalloc` that succeed before one fails. -/
def availFrom : List Bool → ℕ → ℕ
  | true :: _, _ => 0
  | [], n => n
  | false :: _, 0 => 0
  | false :: rest, n + 1 => availFrom rest n + 1

theorem availFrom_mono (l : List Bool) : ∀ n, availFrom l n ≤ availFrom l (n + 1) := by
  induction l with
  | nil => exact fun n => Nat.le_succ n
  | cons b l ih =>
    intro n
    cases b with
    | true => exact le_rfl
    | false =>
      cases n with
      | zero => exact Nat.zero_le _
      | succ n => exact Nat.succ_le_succ (ih n)

/-- The number of calls of `kalloc` that succeed before one fails. -/
def avail (k : Kmem) : ℕ := availFrom k.refuse k.freelist.length

theorem avail_of_nil {k : Kmem} (h : k.freelist = []) : k.avail = 0 := by
  unfold avail
  rw [h]
  cases k.refuse with
  | nil => rfl
  | cons b bs => cases b <;> rfl

@[simp] theorem setPage_freelist (k : Kmem) (f : ℕ) (b : ℕ → UInt8) :
    (k.setPage f b).freelist = k.freelist := rfl

@[simp] theorem setPage_avail (k : Kmem) (f : ℕ) (b : ℕ → UInt8) :
    (k.setPage f b).avail = k.avail := rfl

@[simp] theorem setPage_page_self (k : Kmem) (f : ℕ) (b : ℕ → UInt8) :
    (k.setPage f b).page f = b := update_self ..

theorem setPage_page_of_ne (k : Kmem) {f g : ℕ} (b : ℕ → UInt8) (h : g ≠ f) :
    (k.setPage f b).page g = k.page g := update_of_ne h ..

/-- `kalloc` fails and takes nothing, or it takes the first frame of the list. -/
theorem kalloc_cases (k : Kmem) :
    (∃ k', k.kalloc = (none, k') ∧ k'.freelist = k.freelist ∧ k'.page = k.page ∧ k.avail = 0) ∨
      ∃ f k', k.kalloc = (some f, k') ∧ k.freelist = f :: k'.freelist ∧ k'.page = k.page ∧
        k.avail = k'.avail + 1 := by
  obtain ⟨freelist, refuse, page⟩ := k
  cases refuse with
  | nil =>
    cases freelist with
    | nil => exact .inl ⟨_, rfl, rfl, rfl, rfl⟩
    | cons f rest => exact .inr ⟨f, _, rfl, rfl, rfl, rfl⟩
  | cons b bs =>
    cases b with
    | true => exact .inl ⟨_, rfl, rfl, rfl, rfl⟩
    | false =>
      cases freelist with
      | nil => exact .inl ⟨_, rfl, rfl, rfl, rfl⟩
      | cons f rest => exact .inr ⟨f, _, rfl, rfl, rfl, rfl⟩

/-- The free list holds frames that may be freed, each once. -/
structure Good (ld : Linker) (k : Kmem) : Prop where
  nodup : k.freelist.Nodup
  freeable : ∀ f ∈ k.freelist, Freeable ld f

end Kmem

theorem Linker.freeable_pos (ld : Linker) {f : ℕ} (h : Kmem.Freeable ld f) : f ≠ 0 := by
  rintro rfl
  have h1 := ld.text_lt
  have h2 := ld.data_lt
  have h3 := h.1
  unfold KERNLINK KERNBASE EXTMEM at *
  omega

/-! ## The flat map -/

namespace Pgdir

/-- The entry of page number `n`. -/
def entry (pg : Pgdir) (n : ℕ) : Option Pte := pg.lookup (n * PGSIZE)

/-- Whether page number `n` has a page table. -/
def hasTable (pg : Pgdir) (n : ℕ) : Prop := (pg.pde (pdx (n * PGSIZE))).isSome

theorem pdx_page (n : ℕ) : (pdx (n * PGSIZE) : ℕ) = n / 1024 % 1024 := by
  unfold pdx PGSIZE
  rw [Fin.val_ofNat]
  congr 1
  omega

theorem ptx_page (n : ℕ) : (ptx (n * PGSIZE) : ℕ) = n % 1024 := by
  unfold ptx PGSIZE
  rw [Fin.val_ofNat]
  congr 1
  omega

theorem pdx_eq_iff {m n : ℕ} (hm : m < NPAGES) (hn : n < NPAGES) :
    pdx (m * PGSIZE) = pdx (n * PGSIZE) ↔ m / 1024 = n / 1024 := by
  rw [Fin.ext_iff, pdx_page, pdx_page]
  unfold NPAGES at *
  omega

/-- The two indexes of a page determine it. -/
theorem page_eq_of_indexes {m n : ℕ} (hm : m < NPAGES) (hn : n < NPAGES)
    (hd : pdx (m * PGSIZE) = pdx (n * PGSIZE)) (ht : ptx (m * PGSIZE) = ptx (n * PGSIZE)) :
    m = n := by
  rw [pdx_eq_iff hm hn] at hd
  rw [Fin.ext_iff, ptx_page, ptx_page] at ht
  omega

theorem pdx_pgrounddown (va : ℕ) : pdx (va / PGSIZE * PGSIZE) = pdx va := by
  apply Fin.ext
  unfold pdx PGSIZE
  rw [Fin.val_ofNat, Fin.val_ofNat]
  congr 1
  omega

theorem ptx_pgrounddown (va : ℕ) : ptx (va / PGSIZE * PGSIZE) = ptx va := by
  apply Fin.ext
  unfold ptx PGSIZE
  rw [Fin.val_ofNat, Fin.val_ofNat]
  congr 1
  omega

/-- An address is translated by the entry of its page. -/
theorem lookup_eq_entry (pg : Pgdir) (va : ℕ) : pg.lookup va = pg.entry (va / PGSIZE) := by
  unfold entry lookup
  rw [pdx_pgrounddown, ptx_pgrounddown]

variable {pg : Pgdir} {n : ℕ}

theorem entry_of_pde {t : PageTable} (h : pg.pde (pdx (n * PGSIZE)) = some t) :
    pg.entry n = t.pte (ptx (n * PGSIZE)) := by
  unfold entry lookup
  rw [h]
  rfl

theorem entry_of_pde_none (h : pg.pde (pdx (n * PGSIZE)) = none) :
    pg.entry n = none := by
  unfold entry lookup
  rw [h]
  rfl

theorem hasTable_of_entry {e : Pte} (h : pg.entry n = some e) :
    pg.hasTable n := by
  unfold hasTable
  by_contra hne
  rw [entry_of_pde_none (not_isSome_iff_eq_none.mp hne)] at h
  cases h

@[simp] theorem entry_empty (f n : ℕ) : (empty f).entry n = none := rfl

/-! ### Assigning an entry -/

/-- The page tables after an entry is assigned are those of before. -/
theorem setPte_pde_frame (pg : Pgdir) (va : ℕ) (e : Option Pte) (x : Fin NPDENTRIES) :
    ((pg.setPte va e).pde x).map PageTable.frame = (pg.pde x).map PageTable.frame := by
  unfold setPte
  show ((update pg.pde (pdx va) _) x).map _ = _
  by_cases hx : x = pdx va
  · rw [hx, update_self, map_map]
    rfl
  · rw [update_of_ne hx]

theorem isSome_of_map_frame {a b : Option PageTable}
    (h : a.map PageTable.frame = b.map PageTable.frame) : a.isSome = b.isSome := by
  rw [← isSome_map, h, isSome_map]

/-- An assignment changes one entry of the flat map. -/
theorem entry_setPte {n m : ℕ} {e : Option Pte} (hn : n < NPAGES) (hm : m < NPAGES)
    (ht : pg.hasTable n) :
    (pg.setPte (n * PGSIZE) e).entry m = if m = n then e else pg.entry m := by
  obtain ⟨t, ht⟩ := isSome_iff_exists.mp ht
  unfold setPte entry lookup
  simp only [ht, map_some]
  by_cases hd : pdx (m * PGSIZE) = pdx (n * PGSIZE)
  · rw [hd, update_self, ht]
    simp only [bind_some]
    by_cases hp : ptx (m * PGSIZE) = ptx (n * PGSIZE)
    · rw [hp, update_self, if_pos (page_eq_of_indexes hm hn hd hp)]
    · rw [update_of_ne hp, if_neg]
      rintro rfl
      exact hp rfl
  · rw [update_of_ne hd, if_neg]
    rintro rfl
    exact hd rfl

/-! ### Adding a page table -/

/-- The directory with an empty page table for the region of `va`. -/
def addTable (pg : Pgdir) (va pgtab : ℕ) : Pgdir :=
  ⟨pg.frame, update pg.pde (pdx va) (some ⟨pgtab, fun _ => none⟩)⟩

/-- An empty page table changes nothing in the flat map. -/
theorem entry_addTable {va pgtab : ℕ} (h : pg.pde (pdx va) = none) (m : ℕ) :
    (pg.addTable va pgtab).entry m = pg.entry m := by
  unfold addTable entry lookup
  by_cases hx : pdx (m * PGSIZE) = pdx va
  · rw [hx, h]
    simp only [update_self]
    rfl
  · simp only [update_of_ne hx]

theorem hasTable_addTable {n pgtab m : ℕ} (hn : n < NPAGES) (hm : m < NPAGES) :
    (pg.addTable (n * PGSIZE) pgtab).hasTable m ↔ pg.hasTable m ∨ m / 1024 = n / 1024 := by
  unfold addTable hasTable
  by_cases hx : pdx (m * PGSIZE) = pdx (n * PGSIZE)
  · simp [hx, (pdx_eq_iff hm hn).mp hx]
  · simp [update_of_ne hx, mt (pdx_eq_iff hm hn).mpr hx]

/-! ## The uses of frames -/

end Pgdir

/-- What an address space uses a frame for. -/
inductive Use where
  | dir
  | table (x : Fin NPDENTRIES)
  | page (n : ℕ)
deriving DecidableEq

namespace Pgdir

/-- The frame of a use.  Entries of the kernel part refer to memory that is not the address
space's own. -/
def frameOf (pg : Pgdir) : Use → Option ℕ
  | .dir => some pg.frame
  | .table x => (pg.pde x).map PageTable.frame
  | .page n => if n < UPAGES then (pg.entry n).map Pte.frame else none

/-- **No frame is used twice, and no frame in use is free.** -/
structure Sound (ld : Linker) (k : Kmem) (pg : Pgdir) : Prop extends Kmem.Good ld k where
  inj : ∀ u v f, pg.frameOf u = some f → pg.frameOf v = some f → u = v
  used : ∀ u f, pg.frameOf u = some f → Kmem.Freeable ld f ∧ f ∉ k.freelist

/-- The frames on the free list or in use by the address space. -/
def frames (k : Kmem) (pg : Pgdir) : Set ℕ :=
  {f | f ∈ k.freelist ∨ ∃ u, pg.frameOf u = some f}

section Rules

variable {ld : Linker} {k k' : Kmem} {pg pg' : Pgdir} {f : ℕ} {u : Use}

/-- `Sound` and `frames` see the free list and the uses only. -/
theorem Sound.congr (h : Sound ld k pg) (hk : k'.freelist = k.freelist)
    (hpg : pg'.frameOf = pg.frameOf) : Sound ld k' pg' where
  nodup := by rw [hk]; exact h.nodup
  freeable := by rw [hk]; exact h.freeable
  inj := by rw [hpg]; exact h.inj
  used := by rw [hk, hpg]; exact h.used

theorem frames_congr (hk : k'.freelist = k.freelist) (hpg : pg'.frameOf = pg.frameOf) :
    frames k' pg' = frames k pg := by
  unfold frames
  rw [hk, hpg]

variable (h : Sound ld k pg)

include h

/-- An address space stays sound when others leave its frames off the free list. -/
theorem Sound.of_free (hk : k'.Good ld) (hfree : ∀ f ∈ k'.freelist, ∀ u, pg.frameOf u ≠ some f) :
    Sound ld k' pg where
  toGood := hk
  inj := h.inj
  used := fun u f hu => ⟨(h.used u f hu).1, fun hmem => hfree f hmem u hu⟩

/-- A frame is taken off the free list. -/
theorem Sound.take (hk : k.freelist = f :: k'.freelist) :
    Sound ld k' pg ∧ Kmem.Freeable ld f ∧ f ∉ frames k' pg ∧
      frames k pg = insert f (frames k' pg) := by
  have hnd := h.nodup
  rw [hk, List.nodup_cons] at hnd
  have hmem : f ∈ k.freelist := by rw [hk]; exact List.mem_cons_self
  have hsub : ∀ g ∈ k'.freelist, g ∈ k.freelist := by
    intro g hg
    rw [hk]
    exact List.mem_cons_of_mem _ hg
  refine ⟨⟨⟨hnd.2, fun g hg => h.freeable g (hsub g hg)⟩, h.inj, fun u g hu => ?_⟩,
    h.freeable f hmem, ?_, ?_⟩
  · exact ⟨(h.used u g hu).1, fun hg => (h.used u g hu).2 (hsub g hg)⟩
  · rintro (hf | ⟨u, hu⟩)
    · exact hnd.1 hf
    · exact (h.used u f hu).2 hmem
  · ext g
    simp only [frames, hk, List.mem_cons, Set.mem_insert_iff, Set.mem_ofPred_eq]
    tauto

/-- A frame in hand goes to the free list. -/
theorem Sound.give (hf : f ∉ frames k pg) (hfree : Kmem.Freeable ld f)
    (hk : k'.freelist = f :: k.freelist) :
    Sound ld k' pg ∧ frames k' pg = insert f (frames k pg) := by
  have hfl : f ∉ k.freelist := fun hmem => hf (.inl hmem)
  refine ⟨⟨⟨?_, ?_⟩, h.inj, fun u g hu => ⟨(h.used u g hu).1, ?_⟩⟩, ?_⟩
  · rw [hk]
    exact List.nodup_cons.mpr ⟨hfl, h.nodup⟩
  · intro g hg
    rw [hk, List.mem_cons] at hg
    rcases hg with rfl | hg
    · exact hfree
    · exact h.freeable g hg
  · intro hg
    rw [hk, List.mem_cons] at hg
    rcases hg with rfl | hg
    · exact hf (.inr ⟨u, hu⟩)
    · exact (h.used u g hu).2 hg
  · ext g
    simp only [frames, hk, List.mem_cons, Set.mem_insert_iff, Set.mem_ofPred_eq]
    tauto

/-- A frame in hand comes into use. -/
theorem Sound.put (hf : f ∉ frames k pg) (hfree : Kmem.Freeable ld f) (hu : pg.frameOf u = none)
    (hpg : pg'.frameOf = update pg.frameOf u (some f)) :
    Sound ld k pg' ∧ frames k pg' = insert f (frames k pg) := by
  have hcases : ∀ v g, pg'.frameOf v = some g → v = u ∧ g = f ∨ v ≠ u ∧ pg.frameOf v = some g := by
    intro v g hv
    rw [hpg] at hv
    by_cases hvu : v = u
    · rw [hvu, update_self, some_inj] at hv
      exact .inl ⟨hvu, hv.symm⟩
    · rw [update_of_ne hvu] at hv
      exact .inr ⟨hvu, hv⟩
  refine ⟨⟨h.toGood, fun v w g hv hw => ?_, fun v g hv => ?_⟩, ?_⟩
  · rcases hcases v g hv with ⟨hvu, hgf⟩ | ⟨-, hv⟩
    · rcases hcases w g hw with ⟨hwu, -⟩ | ⟨-, hw⟩
      · rw [hvu, hwu]
      · exact absurd (.inr ⟨w, hgf ▸ hw⟩) hf
    · rcases hcases w g hw with ⟨-, hgf⟩ | ⟨-, hw⟩
      · exact absurd (.inr ⟨v, hgf ▸ hv⟩) hf
      · exact h.inj v w g hv hw
  · rcases hcases v g hv with ⟨rfl, rfl⟩ | ⟨-, hv⟩
    · exact ⟨hfree, fun hmem => hf (.inl hmem)⟩
    · exact h.used v g hv
  · ext g
    simp only [frames, Set.mem_insert_iff, Set.mem_ofPred_eq]
    constructor
    · rintro (hg | ⟨v, hv⟩)
      · exact .inr (.inl hg)
      · rcases hcases v g hv with ⟨-, rfl⟩ | ⟨-, hv⟩
        · exact .inl rfl
        · exact .inr (.inr ⟨v, hv⟩)
    · rintro (rfl | hg | ⟨v, hv⟩)
      · exact .inr ⟨u, by rw [hpg, update_self]⟩
      · exact .inl hg
      · refine .inr ⟨v, ?_⟩
        rw [hpg, update_of_ne, hv]
        rintro rfl
        rw [hu] at hv
        cases hv

/-- A frame goes out of use, and is in hand. -/
theorem Sound.drop (hu : pg.frameOf u = some f)
    (hpg : pg'.frameOf = update pg.frameOf u none) :
    Sound ld k pg' ∧ Kmem.Freeable ld f ∧ f ∉ frames k pg' ∧
      frames k pg = insert f (frames k pg') := by
  have hold : ∀ v g, pg'.frameOf v = some g → v ≠ u ∧ pg.frameOf v = some g := by
    intro v g hv
    rw [hpg] at hv
    by_cases hvu : v = u
    · rw [hvu, update_self] at hv
      cases hv
    · rw [update_of_ne hvu] at hv
      exact ⟨hvu, hv⟩
  have hsound : Sound ld k pg' := ⟨h.toGood,
    fun v w g hv hw => h.inj v w g (hold v g hv).2 (hold w g hw).2,
    fun v g hv => h.used v g (hold v g hv).2⟩
  have hfree := (h.used u f hu).1
  have hnot : f ∉ frames k pg' := by
    rintro (hmem | ⟨v, hv⟩)
    · exact (h.used u f hu).2 hmem
    · exact (hold v f hv).1 (h.inj v u f (hold v f hv).2 hu)
  -- putting the frame back gives the old tree
  refine ⟨hsound, hfree, hnot, (hsound.put hnot hfree (by rw [hpg, update_self]) ?_).2⟩
  rw [hpg, update_idem, ← hu, update_eq_self]

end Rules

/-! ## The uses after a change -/

variable {pg : Pgdir}

theorem frameOf_addTable {va pgtab : ℕ} (h : pg.pde (pdx va) = none) :
    (pg.addTable va pgtab).frameOf = update pg.frameOf (.table (pdx va)) (some pgtab) := by
  funext v
  cases v with
  | dir => rfl
  | table x =>
    by_cases hx : x = pdx va
    · subst hx
      rw [update_self]
      simp [frameOf, addTable]
    · rw [update_of_ne (by simpa using hx)]
      simp [frameOf, addTable, update_of_ne hx]
  | page n =>
    rw [update_of_ne (by simp)]
    simp only [frameOf, entry_addTable h]

/-- An assignment to an entry of the user part is a change of one use. -/
theorem frameOf_setPte {n : ℕ} {e : Option Pte} (hn : n < UPAGES) (ht : pg.hasTable n) :
    (pg.setPte (n * PGSIZE) e).frameOf =
      update pg.frameOf (.page n) (e.map Pte.frame) := by
  funext v
  cases v with
  | dir => rfl
  | table x =>
    rw [update_of_ne (by simp)]
    exact setPte_pde_frame pg _ e x
  | page m =>
    by_cases hmn : m = n
    · subst hmn
      rw [update_self]
      simp only [frameOf, if_pos hn]
      rw [entry_setPte (by unfold UPAGES NPAGES at *; omega) (by unfold UPAGES NPAGES at *; omega)
        ht, if_pos rfl]
    · rw [update_of_ne (by simpa using hmn)]
      simp only [frameOf]
      split
      · rename_i hm
        rw [entry_setPte (by unfold UPAGES NPAGES at *; omega)
          (by unfold UPAGES NPAGES at *; omega) ht, if_neg hmn]
      · rfl

/-- An assignment to an entry of the kernel part changes no use. -/
theorem frameOf_setPte_kernel {n : ℕ} {e : Option Pte} (hn : UPAGES ≤ n) (hlt : n < NPAGES)
    (ht : pg.hasTable n) : (pg.setPte (n * PGSIZE) e).frameOf = pg.frameOf := by
  funext v
  cases v with
  | dir => rfl
  | table x => exact setPte_pde_frame pg _ e x
  | page m =>
    simp only [frameOf]
    split
    · rename_i hm
      rw [entry_setPte hlt (by omega) ht, if_neg (by omega)]
    · rfl

end Pgdir
