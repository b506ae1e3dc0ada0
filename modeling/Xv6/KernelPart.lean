/-
# The kernel part of an address space

`setupkvm` maps the ranges of `kmap` one after the other.  It succeeds exactly when the allocator
can give the page directory and the page tables for them, and otherwise gives back all that it
took.
-/
import Xv6.Mapping

open List

namespace Pgdir

/-! ## The ranges as a flat map -/

/-- The length of a range in bytes, as `setupkvm` computes it. -/
def Kmap.size (m : Kmap) : ℕ := u32 (m.phys_end + 2 ^ 32 - m.phys_start)

/-- The first page of a range. -/
def Kmap.first (m : Kmap) : ℕ := m.virt / PGSIZE

/-- The number of pages of a range. -/
def Kmap.pages (m : Kmap) : ℕ := m.size / PGSIZE

/-- The entry of page `j` according to a range. -/
def Kmap.entry (m : Kmap) (j : ℕ) : Option Pte :=
  if m.first ≤ j ∧ j < m.first + m.pages then
    some ⟨m.phys_start / PGSIZE + (j - m.first), m.perm⟩
  else none

/-- The entry of page `j` according to the first range it is in. -/
def rangesEntry (ms : List Kmap) (j : ℕ) : Option Pte := ms.findSome? fun m => m.entry j

/-- A range of whole pages of the kernel part, from page `lo` on. -/
structure Kmap.Fits (m : Kmap) (lo : ℕ) : Prop where
  virt_eq : m.virt = m.first * PGSIZE
  phys_eq : m.phys_start = m.phys_start / PGSIZE * PGSIZE
  size_eq : m.size = m.pages * PGSIZE
  pos : 0 < m.pages
  lo_le : lo ≤ m.first
  kernel : UPAGES ≤ m.first
  virt_le : m.first + m.pages ≤ NPAGES
  phys_le : m.phys_start / PGSIZE + m.pages ≤ NPAGES

/-- Ranges in order, from page `lo` on. -/
def Fit : ℕ → List Kmap → Prop
  | _, [] => True
  | lo, m :: rest => m.Fits lo ∧ Fit (m.first + m.pages) rest

variable {ms : List Kmap}

theorem rangesEntry_of_lt : ∀ {lo : ℕ}, Fit lo ms → ∀ {j : ℕ}, j < lo →
    rangesEntry ms j = none := by
  induction ms with
  | nil => exact fun _ _ _ => rfl
  | cons m rest ih =>
    intro lo hfit j hj
    have hne : m.entry j = none := by
      unfold Kmap.entry
      rw [if_neg]
      have := hfit.1.lo_le
      omega
    unfold rangesEntry
    rw [findSome?_cons, hne]
    refine ih hfit.2 ?_
    have := hfit.1.lo_le
    omega

/-- The ranges of `kmap` in pages; `data` is some page of physical memory after the kernel's
text. -/
theorem kmap_eq (ld : Linker) : ∃ d, 256 < d ∧ d < 57344 ∧ kmap ld =
    [⟨UPAGES * PGSIZE, 0, 256 * PGSIZE, ⟨true, false⟩⟩,
     ⟨(UPAGES + 256) * PGSIZE, 256 * PGSIZE, d * PGSIZE, ⟨false, false⟩⟩,
     ⟨(UPAGES + d) * PGSIZE, d * PGSIZE, 57344 * PGSIZE, ⟨true, false⟩⟩,
     ⟨1040384 * PGSIZE, 1040384 * PGSIZE, 0, ⟨true, false⟩⟩] := by
  have h1 := ld.aligned
  have h2 := ld.text_lt
  have h3 := ld.data_lt
  have h4 := ld.kend_le
  unfold KERNLINK KERNBASE EXTMEM PHYSTOP PGSIZE at *
  obtain ⟨d, hd⟩ : ∃ d, ld.data = (UPAGES + d) * PGSIZE := by
    unfold UPAGES PGSIZE
    exact ⟨ld.data / 4096 - 2 ^ 19, by omega⟩
  have hv : v2p ld.data = d * PGSIZE := by
    rw [hd]
    unfold v2p u32 KERNBASE PGSIZE UPAGES at *
    omega
  refine ⟨d, ?_, ?_, ?_⟩
  · unfold UPAGES PGSIZE at *
    omega
  · unfold UPAGES PGSIZE at *
    omega
  · rw [kmap, hv, hd]
    rfl

/-- The ranges of `kmap` are in order; the last one ends at the end of the address space. -/
theorem kmap_fit (ld : Linker) : Fit UPAGES (kmap ld) := by
  obtain ⟨d, hlo, hhi, heq⟩ := kmap_eq ld
  rw [heq]
  refine ⟨?_, ?_, ?_, ?_, trivial⟩ <;> constructor <;>
    simp only [Kmap.first, Kmap.pages, Kmap.size, u32, PGSIZE, UPAGES, NPAGES] <;> omega

/-- No range of `kmap` is open to user code. -/
theorem kmap_perm (ld : Linker) : ∀ m ∈ kmap ld, m.perm.u = false := by
  intro m hm
  simp only [kmap, mem_cons, not_mem_nil, or_false] at hm
  rcases hm with rfl | rfl | rfl | rfl <;> rfl

/-- The regions whose page tables the kernel part needs. -/
def kernelTables : Finset ℕ := Finset.Icc 512 567 ∪ Finset.Icc 1016 1023

theorem card_kernelTables : kernelTables.card = 64 := by
  have hdisj : Disjoint (Finset.Icc 512 567) (Finset.Icc 1016 1023) := by
    rw [Finset.disjoint_left]
    intro x h1 h2
    rw [Finset.mem_Icc] at h1 h2
    omega
  rw [kernelTables, Finset.card_union_of_disjoint hdisj, Nat.card_Icc, Nat.card_Icc]

theorem mem_kernelTables (ld : Linker) (x : ℕ) :
    x ∈ kernelTables ↔
      ∃ m ∈ kmap ld, m.first / 1024 ≤ x ∧ x ≤ (m.first + (m.pages - 1)) / 1024 := by
  obtain ⟨d, hlo, hhi, heq⟩ := kmap_eq ld
  rw [heq]
  simp only [kernelTables, mem_cons, not_mem_nil, or_false, exists_eq_or_imp,
    exists_eq_left, Kmap.first, Kmap.pages, Kmap.size, Finset.mem_union, Finset.mem_Icc, u32,
    PGSIZE, UPAGES]
  omega

/-! ## `setupkvm` -/

variable {ld : Linker} {k : Kmem} {pg : Pgdir}

/-- The mapping of some ranges succeeded. -/
structure MappedRanges (ld : Linker) (k : Kmem) (pg : Pgdir) (ms : List Kmap) (k' : Kmem)
    (pg' : Pgdir) : Prop where
  sound : Sound ld k' pg'
  frames_eq : frames k' pg' = frames k pg
  page_eq : k'.page = k.page
  entry_eq : ∀ j < NPAGES, pg'.entry j = (rangesEntry ms j).or (pg.entry j)
  tables_eq : ∀ x, x ∈ tables pg' ↔ x ∈ tables pg ∨
    ∃ m ∈ ms, m.first / 1024 ≤ x ∧ x ≤ (m.first + (m.pages - 1)) / 1024
  budget_eq : budget k' pg' = budget k pg

/-- `setupkvm` or its loop failed: all frames are free again, and there were fewer pages than any
set of regions that covers the ranges. -/
structure SetupFailed (ld : Linker) (k : Kmem) (pg : Pgdir) (ms : List Kmap) (k' : Kmem) :
    Prop where
  good : k'.Good ld
  mem_iff : ∀ f, f ∈ k'.freelist ↔ f ∈ frames k pg
  page_eq : ∀ f ∉ frames k pg, k'.page f = k.page f
  short : ∀ s : Finset ℕ, tables pg ⊆ s →
    (∀ m ∈ ms, ∀ x, m.first / 1024 ≤ x → x ≤ (m.first + (m.pages - 1)) / 1024 → x ∈ s) →
    budget k pg < s.card

/-- A range, then the ranges after it. -/
theorem MappedRanges.cons {lo : ℕ} {m : Kmap} {k₁ k' : Kmem} {pg₁ pg' : Pgdir} (hm : m.Fits lo)
    (hfit : Fit (m.first + m.pages) ms)
    (h₁ : MappedRange ld k pg m.first (m.pages - 1) (m.phys_start / PGSIZE) m.perm k₁ pg₁)
    (h : MappedRanges ld k₁ pg₁ ms k' pg') : MappedRanges ld k pg (m :: ms) k' pg' where
  sound := h.sound
  frames_eq := by rw [h.frames_eq, h₁.frames_eq]
  page_eq := by rw [h.page_eq, h₁.page_eq]
  entry_eq := by
    intro j hj
    have hpos := hm.pos
    rw [h.entry_eq j hj, h₁.entry_eq j hj]
    unfold rangesEntry
    rw [findSome?_cons]
    by_cases hin : m.first ≤ j ∧ j < m.first + m.pages
    · have hrest := rangesEntry_of_lt hfit hin.2
      unfold rangesEntry at hrest
      rw [hrest, Option.none_or, if_pos (by omega), Kmap.entry, if_pos hin]
      rfl
    · rw [if_neg (by omega), Kmap.entry, if_neg hin]
  tables_eq := by
    intro x
    rw [h.tables_eq, h₁.tables_eq]
    simp only [mem_cons, exists_eq_or_imp, or_assoc]
  budget_eq := by rw [h.budget_eq, h₁.budget_eq]

theorem SetupFailed.cons {m : Kmap} {k₁ k' : Kmem} {pg₁ : Pgdir}
    (h₁ : MappedRange ld k pg m.first (m.pages - 1) (m.phys_start / PGSIZE) m.perm k₁ pg₁)
    (h : SetupFailed ld k₁ pg₁ ms k') : SetupFailed ld k pg (m :: ms) k' where
  good := h.good
  mem_iff := by rw [← h₁.frames_eq]; exact h.mem_iff
  page_eq := by rw [← h₁.frames_eq, ← h₁.page_eq]; exact h.page_eq
  short := by
    intro s hsub hcov
    rw [← h₁.budget_eq]
    refine h.short s (fun x hx => ?_) fun m' hm' => hcov m' (mem_cons_of_mem _ hm')
    rcases (h₁.tables_eq x).mp hx with hx | ⟨hlo, hhi⟩
    · exact hsub hx
    · exact hcov m mem_cons_self x hlo hhi

/-- A range is mapped where nothing is mapped yet. -/
theorem Kmap.Fits.mappages {m : Kmap} {lo : ℕ} (hm : m.Fits lo) (hs : Sound ld k pg)
    (hun : ∀ j, lo ≤ j → j < NPAGES → pg.entry j = none) :
    (∃ k' pg', mappages k pg m.virt m.size m.phys_start m.perm = .ok (false, k', pg') ∧
      RangeFailed ld k pg m.first (m.pages - 1) k' pg') ∨
    ∃ k' pg', mappages k pg m.virt m.size m.phys_start m.perm = .ok (true, k', pg') ∧
      MappedRange ld k pg m.first (m.pages - 1) (m.phys_start / PGSIZE) m.perm k' pg' ∧
      ∀ j, m.first + m.pages ≤ j → j < NPAGES → pg'.entry j = none := by
  have hpos := hm.pos
  have hvirt := hm.virt_le
  have hphys := hm.phys_le
  have hlo := hm.lo_le
  have hcall : Pgdir.mappages k pg m.virt m.size m.phys_start m.perm =
      Pgdir.mappages k pg (m.first * PGSIZE) ((m.pages - 1 + 1) * PGSIZE)
        (m.phys_start / PGSIZE * PGSIZE) m.perm := by
    rw [← hm.virt_eq, ← hm.phys_eq, Nat.sub_add_cancel hpos, ← hm.size_eq]
  rw [hcall]
  unfold Pgdir.mappages
  rw [last_page (by omega), pgrounddown_page]
  refine (mapLoop_range (m.pages - 1) NPAGES m.first (m.phys_start / PGSIZE) k pg hs (by omega) hm.kernel
    (by omega) (by omega) fun j h1 h2 => hun j (by omega) (by omega)).imp_right ?_
  rintro ⟨k', pg', heq, hmap⟩
  refine ⟨k', pg', heq, hmap, fun j h1 h2 => ?_⟩
  rw [hmap.entry_eq j h2, if_neg (by omega)]
  exact hun j (by omega) h2

/-- The loop of `setupkvm` over ranges in order, above which nothing is mapped yet. -/
theorem setupLoop_spec : ∀ {lo : ℕ} {k : Kmem} {pg : Pgdir}, Fit lo ms →
    Sound ld k pg → (∀ j, lo ≤ j → j < NPAGES → pg.entry j = none) →
    (∃ k', setupLoop ld ms k pg = .ok (none, k') ∧ SetupFailed ld k pg ms k') ∨
    ∃ k' pg', setupLoop ld ms k pg = .ok (some pg', k') ∧ MappedRanges ld k pg ms k' pg' := by
  induction ms with
  | nil =>
    intro lo k pg hfit hs hun
    refine .inr ⟨k, pg, rfl, hs, rfl, rfl, fun j hj => rfl, fun x => ?_, rfl⟩
    simp
  | cons m ms ih =>
    intro lo k pg hfit hs hun
    obtain ⟨hm, hfit⟩ := hfit
    unfold setupLoop
    rw [show u32 (m.phys_end + 2 ^ 32 - m.phys_start) = m.size from rfl]
    obtain ⟨k₁, pg₁, heq, hfail⟩ | ⟨k₁, pg₁, heq, hmap, hun₁⟩ := hm.mappages hs hun
    · obtain ⟨k', hfree, hgood, hmem, hpage, -⟩ := freevm_spec hfail.sound
      rw [hfail.frames_eq] at hmem hpage
      rw [hfail.page_eq] at hpage
      refine .inl ⟨k', ?_, hgood, hmem, hpage, fun s hsub hcov => ?_⟩
      · simp [heq, hfree, bind, Except.bind, pure, Except.pure]
      · exact hfail.short s hsub (hcov m mem_cons_self)
    · rw [heq]
      simp only [bind, Except.bind, if_true]
      rcases ih hfit hmap.sound hun₁ with ⟨k', heq', hfail⟩ | ⟨k', pg', heq', hmaps⟩
      · exact .inl ⟨k', heq', hfail.cons hmap⟩
      · exact .inr ⟨k', pg', heq', hmaps.cons hm hfit hmap⟩

/-- A page directory just after `setupkvm`. -/
structure Setup (ld : Linker) (k : Kmem) (k' : Kmem) (d : Pgdir) : Prop where
  sound : Sound ld k' d
  frames_eq : frames k' d = {f | f ∈ k.freelist}
  page_eq : k'.page = k.page
  entry_eq : ∀ j < NPAGES, d.entry j = rangesEntry (kmap ld) j
  tables_eq : tables d = kernelTables
  avail_eq : k.avail = k'.avail + 65

variable {k' : Kmem}

theorem Setup.user {d : Pgdir} (h : Setup ld k k' d) {j : ℕ} (hj : j < UPAGES) :
    d.entry j = none := by
  rw [h.entry_eq j (by unfold UPAGES NPAGES at *; omega)]
  exact rangesEntry_of_lt (kmap_fit ld) hj

/-- Nothing in the kernel part is open to user code. -/
theorem Setup.perm {d : Pgdir} (h : Setup ld k k' d) {j : ℕ} (hj : j < NPAGES) {e : Pte}
    (he : d.entry j = some e) : e.perm.u = false := by
  rw [h.entry_eq j hj] at he
  obtain ⟨m, hm, hme⟩ := exists_of_findSome?_eq_some he
  unfold Kmap.entry at hme
  split at hme
  · rw [← Option.some.inj hme]
    exact kmap_perm ld m hm
  · cases hme

/-- The directory that `setupkvm` starts from. -/
theorem Sound.empty {f : ℕ} (hk : k.Good ld) (h : k.freelist = f :: k'.freelist) :
    Sound ld k' (empty f) ∧ frames k' (Pgdir.empty f) = {f | f ∈ k.freelist} := by
  have hnd := hk.nodup
  rw [h, nodup_cons] at hnd
  have hsub : ∀ g ∈ k'.freelist, g ∈ k.freelist := by
    intro g hg
    rw [h]
    exact mem_cons_of_mem _ hg
  have huse : ∀ u g, (Pgdir.empty f).frameOf u = some g → u = .dir ∧ g = f := by
    intro u g hu
    cases u with
    | dir => exact ⟨rfl, (Option.some.inj hu).symm⟩
    | table x => cases hu
    | page j => simp [frameOf] at hu
  refine ⟨⟨⟨hnd.2, fun g hg => hk.freeable g (hsub g hg)⟩, fun u v g hu hv => ?_, fun u g hu => ?_⟩,
    ?_⟩
  · rw [(huse u g hu).1, (huse v g hv).1]
  · rw [(huse u g hu).2]
    exact ⟨hk.freeable f (by rw [h]; exact mem_cons_self), hnd.1⟩
  · ext g
    simp only [frames, h, mem_cons, Set.mem_ofPred_eq]
    constructor
    · rintro (hg | ⟨u, hu⟩)
      · exact .inr hg
      · exact .inl (huse u g hu).2
    · rintro (rfl | hg)
      · exact .inr ⟨.dir, rfl⟩
      · exact .inl hg

/-- **`setupkvm`** takes 65 pages and maps the kernel part; with fewer it takes nothing. -/
theorem setupkvm_spec (hk : k.Good ld) :
    (∃ k', setupkvm ld k = .ok (none, k') ∧ k'.Good ld ∧
      (∀ f, f ∈ k'.freelist ↔ f ∈ k.freelist) ∧ (∀ f, f ∉ k.freelist → k'.page f = k.page f) ∧
      k.avail < 65) ∨
    ∃ k' d, setupkvm ld k = .ok (some d, k') ∧ Setup ld k k' d := by
  unfold setupkvm
  obtain ⟨k₁, heq, hfree, hpage, havail⟩ | ⟨f, k₁, heq, hfree, hpage, havail⟩ := k.kalloc_cases
  · rw [heq]
    exact .inl ⟨k₁, rfl, ⟨hfree ▸ hk.nodup, hfree ▸ hk.freeable⟩, fun f => by rw [hfree],
      fun f _ => congrFun hpage f, by omega⟩
  · rw [heq]
    simp only [if_neg (show ¬ KERNBASE + PHYSTOP > DEVSPACE by decide)]
    obtain ⟨hs, hfr⟩ := Sound.empty hk hfree
    rcases setupLoop_spec (kmap_fit ld) hs (fun j _ _ => entry_empty f j) with
      ⟨k', heq', hfail⟩ | ⟨k', d, heq', hmaps⟩
    · refine .inl ⟨k', heq', hfail.good, fun g => ?_, fun g hg => ?_, ?_⟩
      · rw [hfail.mem_iff g, hfr]
        rfl
      · rw [hfail.page_eq g (by rwa [hfr]), hpage]
      · have := hfail.short kernelTables (by rw [tables_empty]; exact Finset.empty_subset _)
          fun m hm x h1 h2 => (mem_kernelTables ld x).mpr ⟨m, hm, h1, h2⟩
        rw [budget, tables_empty, Finset.card_empty, card_kernelTables] at this
        omega
    · have htab : tables d = kernelTables := by
        ext x
        rw [hmaps.tables_eq, mem_kernelTables ld, tables_empty]
        simp
      refine .inr ⟨k', d, heq', hmaps.sound, by rw [hmaps.frames_eq, hfr],
        by rw [hmaps.page_eq, hpage], fun j hj => ?_, htab, ?_⟩
      · rw [hmaps.entry_eq j hj, entry_empty, Option.or_none]
      · have := hmaps.budget_eq
        rw [budget, budget, htab, tables_empty, Finset.card_empty, card_kernelTables] at this
        omega

end Pgdir
