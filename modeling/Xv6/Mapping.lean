/-
# Mapping and unmapping pages

What `walkpgdir`, `mappages`, `deallocuvm`, `freevm`, `setupkvm` and `allocuvm` do to the flat map
of a page directory, to the uses of frames, and to the number of pages the allocator can still
give.
-/
import Xv6.Frames
import Xv6.Outcome

open Function List

namespace Pgdir

/-! ## Counting page tables -/

/-- The regions of the address space that have a page table. -/
def tables (pg : Pgdir) : Finset ℕ :=
  (Finset.range NPDENTRIES).filter fun x => (pg.pde (Fin.ofNat _ x)).isSome

/-- Pages that the allocator can still give, and pages taken for page tables. -/
def budget (k : Kmem) (pg : Pgdir) : ℕ := k.avail + (tables pg).card

theorem pdx_eq_ofNat (n : ℕ) : pdx (n * PGSIZE) = Fin.ofNat _ (n / 1024) := by
  apply Fin.ext
  rw [pdx_page]
  rfl

theorem mem_tables {pg : Pgdir} {n : ℕ} (hn : n < NPAGES) :
    n / 1024 ∈ tables pg ↔ pg.hasTable n := by
  unfold tables hasTable
  rw [Finset.mem_filter, Finset.mem_range, pdx_eq_ofNat, and_iff_right_iff_imp]
  intro _
  unfold NPAGES NPDENTRIES at *
  omega

theorem tables_setPte (pg : Pgdir) (va : ℕ) (e : Option Pte) :
    tables (pg.setPte va e) = tables pg := by
  unfold tables
  apply Finset.filter_congr
  intro x _
  rw [isSome_of_map_frame (setPte_pde_frame ..)]

theorem tables_addTable {pg : Pgdir} {n pgtab : ℕ} (hn : n < NPAGES) :
    tables (pg.addTable (n * PGSIZE) pgtab) = insert (n / 1024) (tables pg) := by
  have hlt : n / 1024 < NPDENTRIES := by
    unfold NPAGES NPDENTRIES at *
    omega
  ext x
  unfold tables addTable
  rw [pdx_eq_ofNat]
  simp only [Finset.mem_filter, Finset.mem_range, Finset.mem_insert]
  by_cases hx : x = n / 1024
  · subst hx
    simp [hlt]
  · simp only [hx, false_or]
    refine and_congr_right fun hxlt => ?_
    rw [update_of_ne]
    intro heq
    have := congrArg Fin.val heq
    rw [Fin.val_ofNat, Fin.val_ofNat, Nat.mod_eq_of_lt hxlt, Nat.mod_eq_of_lt hlt] at this
    exact hx this

@[simp] theorem tables_empty (f : ℕ) : tables (empty f) = ∅ := by
  unfold tables empty
  simp

/-! ## One page -/

section

variable {ld : Linker} {k : Kmem} {pg : Pgdir} {n : ℕ}

/-- `walkpgdir` fails for want of a page and changes nothing, or the page table is there
afterwards and the flat map is that of before. -/
theorem walkpgdir_cases (hs : Sound ld k pg) (hn : n < NPAGES) :
    (∃ k', walkpgdir k pg (n * PGSIZE) = (false, k', pg) ∧ k'.freelist = k.freelist ∧
      k'.page = k.page ∧ k.avail = 0 ∧ n / 1024 ∉ tables pg) ∨
    ∃ k' pg', walkpgdir k pg (n * PGSIZE) = (true, k', pg') ∧ Sound ld k' pg' ∧
      frames k' pg' = frames k pg ∧ (∀ f ∈ k'.freelist, f ∈ k.freelist) ∧ k'.page = k.page ∧
      (∀ m, pg'.entry m = pg.entry m) ∧ pg'.hasTable n ∧ tables pg' = insert (n / 1024) (tables pg) ∧ budget k' pg' = budget k pg := by
  unfold walkpgdir
  cases ht : pg.pde (pdx (n * PGSIZE)) with
  | some t =>
    have hhas : pg.hasTable n := by
      unfold hasTable
      rw [ht]
      rfl
    refine .inr ⟨k, pg, rfl, hs, rfl, fun _ hf => hf, rfl, fun m => rfl, hhas, ?_, rfl⟩
    rw [Finset.insert_eq_of_mem ((mem_tables hn).mpr hhas)]
  | none =>
    have hnot : n / 1024 ∉ tables pg := by
      rw [mem_tables hn]
      unfold hasTable
      simp [ht]
    obtain ⟨k', hk, hfree, hpage, havail⟩ | ⟨f, k', hk, hfree, hpage, havail⟩ := k.kalloc_cases
    · rw [hk]
      exact .inl ⟨k', rfl, hfree, hpage, havail, hnot⟩
    · rw [hk]
      obtain ⟨hs', hfb, hf, hfr⟩ := hs.take hfree
      obtain ⟨hs'', hfr'⟩ := hs'.put (u := .table (pdx (n * PGSIZE))) hf hfb
        (by simp [frameOf, ht]) (frameOf_addTable ht)
      refine .inr ⟨k', pg.addTable (n * PGSIZE) f, rfl, hs'', by rw [hfr', hfr], fun g hg => ?_,
        hpage, entry_addTable ht, (hasTable_addTable hn hn).mpr (.inr rfl), tables_addTable hn, ?_⟩
      · rw [hfree]
        exact mem_cons_of_mem _ hg
      · unfold budget
        rw [tables_addTable hn, Finset.card_insert_of_notMem hnot, havail]
        omega

/-- Page `n` was mapped to `e` by `mappages`. -/
structure Mapped (ld : Linker) (k : Kmem) (pg : Pgdir) (n : ℕ) (e : Pte) (k' : Kmem)
    (pg' : Pgdir) : Prop where
  free_sub : ∀ f ∈ k'.freelist, f ∈ k.freelist
  page_eq : k'.page = k.page
  entry_eq : ∀ m < NPAGES, pg'.entry m = if m = n then some e else pg.entry m
  tables_eq : tables pg' = insert (n / 1024) (tables pg)
  budget_eq : budget k' pg' = budget k pg
  /-- In the user part, a frame in hand comes into use. -/
  user : n < UPAGES → e.frame ∉ frames k pg → Kmem.Freeable ld e.frame →
    Sound ld k' pg' ∧ frames k' pg' = insert e.frame (frames k pg)
  kernel : UPAGES ≤ n → Sound ld k' pg' ∧ frames k' pg' = frames k pg

variable {e : Pte} {k' : Kmem} {pg' : Pgdir}

/-- An absent entry, once its page table is there, is assigned. -/
theorem Mapped.of_setPte (hn : n < NPAGES) (hs : Sound ld k' pg')
    (hfr : frames k' pg' = frames k pg) (hsub : ∀ f ∈ k'.freelist, f ∈ k.freelist)
    (hpage : k'.page = k.page) (hentry : ∀ m, pg'.entry m = pg.entry m) (ht : pg'.hasTable n)
    (htab : tables pg' = insert (n / 1024) (tables pg)) (hb : budget k' pg' = budget k pg)
    (hun : pg.entry n = none) : Mapped ld k pg n e k' (pg'.setPte (n * PGSIZE) (some e)) where
  free_sub := hsub
  page_eq := hpage
  entry_eq := by
    intro m hm
    rw [entry_setPte hn hm ht, hentry]
  tables_eq := by rw [tables_setPte, htab]
  budget_eq := by
    rw [← hb]
    unfold budget
    rw [tables_setPte]
  user := by
    intro hlt hf hfree
    rw [← hfr] at hf
    obtain ⟨hs', hfr'⟩ := hs.put (u := .page n) hf hfree
      (by simp [frameOf, hlt, hentry, hun]) (frameOf_setPte (e := some e) hlt ht)
    exact ⟨hs', by rw [hfr', hfr]⟩
  kernel := by
    intro hge
    have hpg := frameOf_setPte_kernel (e := some e) hge hn ht
    exact ⟨hs.congr rfl hpg, by rw [frames_congr rfl hpg, hfr]⟩

/-- One round of the loop of `mappages`, at an absent page. -/
theorem mapLoop_round (hs : Sound ld k pg) (hn : n < NPAGES) (hun : pg.entry n = none)
    (perm : Perm) (last fuel f : ℕ) :
    (∃ k', mapLoop perm last (fuel + 1) k pg (n * PGSIZE) (f * PGSIZE) = .ok (false, k', pg) ∧
      k'.freelist = k.freelist ∧ k'.page = k.page ∧ k.avail = 0 ∧ n / 1024 ∉ tables pg) ∨
    ∃ k' pg', Mapped ld k pg n ⟨f, perm⟩ k' pg' ∧
      mapLoop perm last (fuel + 1) k pg (n * PGSIZE) (f * PGSIZE) =
        if n * PGSIZE = last then .ok (true, k', pg')
        else mapLoop perm last fuel k' pg' (u32 (n * PGSIZE + PGSIZE)) (u32 (f * PGSIZE + PGSIZE)) := by
  rw [mapLoop]
  obtain ⟨k', heq, h⟩ | ⟨k', pg', heq, hs', hfr, hsub, hpage, hentry, ht, htab, hb⟩ :=
    walkpgdir_cases hs hn
  · rw [heq]
    exact .inl ⟨k', rfl, h⟩
  · have hnone : ¬ (pg'.lookup (n * PGSIZE)).isSome := by
      show ¬ (pg'.entry n).isSome
      rw [hentry, hun]
      exact Bool.false_ne_true
    rw [heq]
    simp only [if_neg hnone, Nat.mul_div_cancel f (show 0 < PGSIZE by decide)]
    exact .inr ⟨k', _, .of_setPte hn hs' hfr hsub hpage hentry ht htab hb hun, rfl⟩

theorem pgrounddown_page (n : ℕ) : pgrounddown (n * PGSIZE) = n * PGSIZE := by
  unfold pgrounddown
  rw [Nat.mul_div_cancel n (by decide)]

variable {m : ℕ}

/-- The last page of a range of `m + 1` pages. -/
theorem last_page (h : n + m < NPAGES) :
    pgrounddown (u32 (n * PGSIZE + (m + 1) * PGSIZE + (2 ^ 32 - 1))) = (n + m) * PGSIZE := by
  unfold pgrounddown u32 PGSIZE NPAGES at *
  omega

/-- Mapping one page takes one round. -/
theorem mappages_page (mem : ℕ) (perm : Perm) (hn : n < NPAGES) :
    mappages k pg (n * PGSIZE) PGSIZE (mem * PGSIZE) perm =
      mapLoop perm (n * PGSIZE) (1048575 + 1) k pg (n * PGSIZE) (mem * PGSIZE) := by
  have hlast := last_page (m := 0) (show n + 0 < NPAGES from hn)
  rw [Nat.zero_add, Nat.one_mul, Nat.add_zero] at hlast
  unfold mappages
  rw [hlast, pgrounddown_page]
  rfl

/-- **`mappages` for one absent page** either maps it, or fails for want of a page table and
changes nothing. -/
theorem mappages_page_cases (hs : Sound ld k pg) (hn : n < NPAGES) (hun : pg.entry n = none)
    (mem : ℕ) (perm : Perm) :
    (∃ k', mappages k pg (n * PGSIZE) PGSIZE (mem * PGSIZE) perm = .ok (false, k', pg) ∧
      k'.freelist = k.freelist ∧ k'.page = k.page ∧ k.avail = 0 ∧ n / 1024 ∉ tables pg) ∨
    ∃ k' pg', mappages k pg (n * PGSIZE) PGSIZE (mem * PGSIZE) perm = .ok (true, k', pg') ∧
      Mapped ld k pg n ⟨mem, perm⟩ k' pg' := by
  rw [mappages_page mem perm hn]
  obtain h | ⟨k', pg', hm, heq⟩ := mapLoop_round hs hn hun perm (n * PGSIZE) 1048575 mem
  · exact .inl h
  · rw [if_pos rfl] at heq
    exact .inr ⟨k', pg', heq, hm⟩

/-- A page that is there cannot be mapped again. -/
theorem mappages_page_remap (hn : n < NPAGES) (he : pg.entry n = some e) (mem : ℕ) (perm : Perm) :
    mappages k pg (n * PGSIZE) PGSIZE (mem * PGSIZE) perm = .error (.panic "remap") := by
  obtain ⟨t, ht⟩ := Option.isSome_iff_exists.mp (hasTable_of_entry he)
  have hsome : (pg.lookup (n * PGSIZE)).isSome := by
    show (pg.entry n).isSome
    rw [he]
    rfl
  rw [mappages_page mem perm hn, mapLoop, walkpgdir, ht]
  exact if_pos hsome

/-! ## A range of the kernel part -/

/-- The pages from `n` to `n + m` were mapped to consecutive frames from `f` on. -/
structure MappedRange (ld : Linker) (k : Kmem) (pg : Pgdir) (n m f : ℕ) (perm : Perm) (k' : Kmem)
    (pg' : Pgdir) : Prop where
  sound : Sound ld k' pg'
  frames_eq : frames k' pg' = frames k pg
  page_eq : k'.page = k.page
  entry_eq : ∀ j < NPAGES, pg'.entry j =
    if n ≤ j ∧ j ≤ n + m then some ⟨f + (j - n), perm⟩ else pg.entry j
  tables_eq : ∀ x, x ∈ tables pg' ↔ x ∈ tables pg ∨ n / 1024 ≤ x ∧ x ≤ (n + m) / 1024
  budget_eq : budget k' pg' = budget k pg

variable {f : ℕ} {perm : Perm}

theorem MappedRange.single (h : Mapped ld k pg n ⟨f, perm⟩ k' pg') (hn : UPAGES ≤ n) :
    MappedRange ld k pg n 0 f perm k' pg' where
  sound := (h.kernel hn).1
  frames_eq := (h.kernel hn).2
  page_eq := h.page_eq
  entry_eq := by
    intro j hj
    rw [h.entry_eq j hj]
    by_cases hjn : j = n
    · rw [if_pos hjn, if_pos (by omega), hjn, Nat.sub_self, Nat.add_zero]
    · rw [if_neg hjn, if_neg (by omega)]
  tables_eq := by
    intro x
    rw [h.tables_eq, Finset.mem_insert, or_comm, Nat.add_zero]
    exact or_congr_right ⟨fun hx => ⟨hx.ge, hx.le⟩, fun hx => le_antisymm hx.2 hx.1⟩
  budget_eq := h.budget_eq

/-- A page, then the pages after it. -/
theorem MappedRange.cons {k₁ k' : Kmem} {pg₁ pg' : Pgdir} {m f : ℕ}
    (h₁ : Mapped ld k pg n ⟨f, perm⟩ k₁ pg₁) (hn : UPAGES ≤ n)
    (h : MappedRange ld k₁ pg₁ (n + 1) m (f + 1) perm k' pg') :
    MappedRange ld k pg n (m + 1) f perm k' pg' where
  sound := h.sound
  frames_eq := by rw [h.frames_eq, (h₁.kernel hn).2]
  page_eq := by rw [h.page_eq, h₁.page_eq]
  entry_eq := by
    intro j hj
    rw [h.entry_eq j hj]
    by_cases hj1 : n + 1 ≤ j ∧ j ≤ n + 1 + m
    · rw [if_pos hj1, if_pos (by omega)]
      congr 2
      omega
    · rw [if_neg hj1, h₁.entry_eq j hj]
      by_cases hjn : j = n
      · rw [if_pos hjn, if_pos (by omega), hjn, Nat.sub_self, Nat.add_zero]
      · rw [if_neg hjn, if_neg (by omega)]
  tables_eq := by
    intro x
    rw [h.tables_eq, h₁.tables_eq, Finset.mem_insert]
    by_cases hx : x ∈ tables pg
    · simp [hx]
    · simp only [hx, or_false, false_or]
      omega
  budget_eq := by rw [h.budget_eq, h₁.budget_eq]

/-- The mapping of a range of the kernel part failed: more page tables are needed than pages are
available. -/
structure RangeFailed (ld : Linker) (k : Kmem) (pg : Pgdir) (n m : ℕ) (k' : Kmem) (pg' : Pgdir) :
    Prop where
  sound : Sound ld k' pg'
  frames_eq : frames k' pg' = frames k pg
  page_eq : k'.page = k.page
  short : ∀ s : Finset ℕ, tables pg ⊆ s → (∀ x, n / 1024 ≤ x → x ≤ (n + m) / 1024 → x ∈ s) →
    budget k pg < s.card

/-- The failure at the first page. -/
theorem RangeFailed.of_walk (hs : Sound ld k pg)
    (h : k'.freelist = k.freelist ∧ k'.page = k.page ∧ k.avail = 0 ∧ n / 1024 ∉ tables pg) :
    RangeFailed ld k pg n m k' pg where
  sound := hs.congr h.1 rfl
  frames_eq := frames_congr h.1 rfl
  page_eq := h.2.1
  short := by
    intro s hsub hrange
    have hmem : n / 1024 ∈ s := hrange _ le_rfl (Nat.div_le_div_right (by omega))
    have hss : tables pg ⊂ s := Finset.ssubset_iff_subset_ne.mpr
      ⟨hsub, fun heq => h.2.2.2 (heq ▸ hmem)⟩
    unfold budget
    rw [h.2.2.1, Nat.zero_add]
    exact Finset.card_lt_card hss

theorem RangeFailed.cons {k₁ k' : Kmem} {pg₁ pg' : Pgdir} (h₁ : Mapped ld k pg n e k₁ pg₁)
    (hn : UPAGES ≤ n) (h : RangeFailed ld k₁ pg₁ (n + 1) m k' pg') : RangeFailed ld k pg n (m + 1) k' pg' where
  sound := h.sound
  frames_eq := by rw [h.frames_eq, (h₁.kernel hn).2]
  page_eq := by rw [h.page_eq, h₁.page_eq]
  short := by
    intro s hsub hrange
    rw [← h₁.budget_eq]
    refine h.short s ?_ fun x h1 h2 => hrange x (by omega) (by omega)
    rw [h₁.tables_eq]
    exact Finset.insert_subset (hrange _ le_rfl (by omega)) hsub

theorem u32_next (h : n + 1 < NPAGES) : u32 (n * PGSIZE + PGSIZE) = (n + 1) * PGSIZE := by
  unfold u32 PGSIZE NPAGES at *
  omega

/-- The loop of `mappages` over absent pages of the kernel part. -/
theorem mapLoop_range (m : ℕ) :
    ∀ (fuel n f : ℕ) (k : Kmem) (pg : Pgdir), Sound ld k pg → m < fuel → UPAGES ≤ n →
      n + m < NPAGES → f + m < NPAGES → (∀ j, n ≤ j → j ≤ n + m → pg.entry j = none) →
    (∃ k' pg', mapLoop perm ((n + m) * PGSIZE) fuel k pg (n * PGSIZE) (f * PGSIZE) =
        .ok (false, k', pg') ∧ RangeFailed ld k pg n m k' pg') ∨
    ∃ k' pg', mapLoop perm ((n + m) * PGSIZE) fuel k pg (n * PGSIZE) (f * PGSIZE) =
        .ok (true, k', pg') ∧ MappedRange ld k pg n m f perm k' pg' := by
  induction m with
  | zero =>
    intro fuel n f k pg hs hfuel hn hlt hf hun
    obtain ⟨fuel, rfl⟩ : ∃ r, fuel = r + 1 := ⟨fuel - 1, by omega⟩
    obtain ⟨k', heq, hfail⟩ | ⟨k', pg', hm, heq⟩ :=
      mapLoop_round hs hlt (hun n le_rfl le_rfl) perm ((n + 0) * PGSIZE) fuel f
    · exact .inl ⟨k', pg, heq, .of_walk hs hfail⟩
    · rw [if_pos rfl] at heq
      exact .inr ⟨k', pg', heq, .single hm hn⟩
  | succ m ih =>
    intro fuel n f k pg hs hfuel hn hlt hf hun
    obtain ⟨fuel, rfl⟩ : ∃ r, fuel = r + 1 := ⟨fuel - 1, by omega⟩
    obtain ⟨k', heq, hfail⟩ | ⟨k₁, pg₁, hm, heq⟩ :=
      mapLoop_round hs (by omega) (hun n le_rfl (by omega)) perm ((n + (m + 1)) * PGSIZE) fuel f
    · exact .inl ⟨k', pg, heq, .of_walk hs hfail⟩
    · -- the next round is at the next page, without wrap-around
      rw [if_neg (by unfold PGSIZE; omega), u32_next (by omega), u32_next (by omega)] at heq
      rw [heq, show n + (m + 1) = n + 1 + m by omega]
      have hun₁ : ∀ j, n + 1 ≤ j → j ≤ n + 1 + m → pg₁.entry j = none := by
        intro j h1 h2
        rw [hm.entry_eq j (by omega), if_neg (by omega)]
        exact hun j (by omega) (by omega)
      rcases ih fuel (n + 1) (f + 1) k₁ pg₁ (hm.kernel hn).1 (by omega) (by omega) (by omega)
        (by omega) hun₁ with ⟨k', pg', heq', hfail⟩ | ⟨k', pg', heq', hr⟩
      · exact .inl ⟨k', pg', heq', hfail.cons hm hn⟩
      · exact .inr ⟨k', pg', heq', hr.cons hm hn⟩

/-! ## Freeing -/

/-- The allocator after the frame `f` is freed. -/
def freed (k : Kmem) (f : ℕ) : Kmem :=
  { k.setPage f (fun _ => 1) with freelist := f :: k.freelist }

theorem kfree_ok (hf : Kmem.Freeable ld f) : k.kfree ld f = .ok (freed k f) := if_pos hf

/-- `kfree` fills the frame that it frees, and no other. -/
theorem freed_page {g : ℕ} (h : g ≠ f) : (freed k f).page g = k.page g :=
  k.setPage_page_of_ne (fun _ => 1) h

/-- A freed frame may be given again. -/
theorem avail_le_freed (k : Kmem) (f : ℕ) : k.avail ≤ (freed k f).avail :=
  Kmem.availFrom_mono k.refuse k.freelist.length

/-- The user pages from `n` on and below `oldsz` were freed. -/
structure Dealloc (ld : Linker) (k : Kmem) (pg : Pgdir) (n oldsz : ℕ) (k' : Kmem) (pg' : Pgdir) :
    Prop where
  sound : Sound ld k' pg'
  frames_eq : frames k' pg' = frames k pg
  /-- Only frames of the address space are filled. -/
  page_eq : ∀ f ∉ frames k pg, k'.page f = k.page f
  entry_eq : ∀ j < NPAGES, pg'.entry j =
    if n ≤ j ∧ j * PGSIZE < oldsz then none else pg.entry j
  tables_eq : tables pg' = tables pg
  avail_le : k.avail ≤ k'.avail

/-- A page that is absent may be added in front. -/
theorem Dealloc.skip {oldsz : ℕ} (h : Dealloc ld k pg (n + 1) oldsz k' pg') (hun : pg.entry n = none) :
    Dealloc ld k pg n oldsz k' pg' :=
  { h with
    entry_eq := by
      intro j hj
      rw [h.entry_eq j hj]
      by_cases hjn : j = n
      · rw [hjn, hun, ite_self, ite_self]
      · exact if_congr (by omega) rfl rfl }

/-- What is used for nothing is not used for `u`. -/
theorem ne_of_frameOf {u : Use} {g : ℕ} (hg : g ∉ frames k pg) (hu : pg.frameOf u = some f) : g ≠ f := by
  rintro rfl
  exact hg (.inr ⟨u, hu⟩)

/-- A user page is unmapped and its frame freed. -/
theorem Sound.unmap {k₁ : Kmem} (hs : Sound ld k pg) (hn : n < UPAGES) (he : pg.entry n = some e)
    (hk : k₁.freelist = e.frame :: k.freelist) :
    Sound ld k₁ (pg.setPte (n * PGSIZE) none) ∧
      frames k₁ (pg.setPte (n * PGSIZE) none) = frames k pg := by
  obtain ⟨hs₁, hfree, hf, hfr⟩ := hs.drop (u := .page n) (f := e.frame) (by simp [frameOf, hn, he])
    (frameOf_setPte (e := none) hn (hasTable_of_entry he))
  obtain ⟨hs₂, hfr₂⟩ := hs₁.give hf hfree hk
  exact ⟨hs₂, by rw [hfr₂, hfr]⟩

/-- One page, then the pages after it. -/
theorem Dealloc.cons {oldsz : ℕ} (hs : Sound ld k pg) (hn : n < UPAGES) (hlt : n * PGSIZE < oldsz)
    (he : pg.entry n = some e)
    (h : Dealloc ld (freed k e.frame) (pg.setPte (n * PGSIZE) none) (n + 1) oldsz k' pg') :
    Dealloc ld k pg n oldsz k' pg' where
  sound := h.sound
  frames_eq := by rw [h.frames_eq, (hs.unmap hn he rfl).2]
  page_eq := by
    intro f hf
    rw [h.page_eq f (by rwa [(hs.unmap hn he rfl).2]),
      freed_page (ne_of_frameOf (u := .page n) hf (by simp [frameOf, hn, he]))]
  entry_eq := by
    intro j hj
    rw [h.entry_eq j hj,
      entry_setPte (by unfold UPAGES NPAGES at *; omega) hj (hasTable_of_entry he)]
    by_cases hjn : j = n
    · rw [if_pos hjn, hjn, if_neg (by omega), if_pos ⟨le_rfl, hlt⟩]
    · rw [if_neg hjn]
      exact if_congr (by omega) rfl rfl
  tables_eq := by rw [h.tables_eq, tables_setPte]
  avail_le := (avail_le_freed k e.frame).trans h.avail_le

/-- The first page of the next region. -/
theorem next_region (hn : n < UPAGES) :
    u32 (((pdx (n * PGSIZE) : ℕ) + 1) * 2 ^ 22) = (n / 1024 + 1) * 1024 * PGSIZE := by
  rw [pdx_page]
  unfold u32 PGSIZE UPAGES at *
  omega

/-- The number of pages that `sz` bytes take. -/
def npages (sz : ℕ) : ℕ := (sz + (PGSIZE - 1)) / PGSIZE

theorem lt_npages {sz j : ℕ} : j < npages sz ↔ j * PGSIZE < sz := by
  unfold npages PGSIZE
  omega

/-- Free the page `n`, if it is there. -/
def visitPage (ld : Linker) (n : ℕ) (k : Kmem) (pg : Pgdir) : Except Stop (Kmem × Pgdir) :=
  match pg.entry n with
  | none => .ok (k, pg)
  | some e =>
    if e.frame = 0 then
      .error (.panic "kfree")
    else do
      let k ← k.kfree ld e.frame
      return (k, pg.setPte (n * PGSIZE) none)

/-- Visit some pages, one after the other. -/
def visitPages (ld : Linker) : List ℕ → Kmem → Pgdir → Except Stop (Kmem × Pgdir)
  | [], k, pg => .ok (k, pg)
  | n :: rest, k, pg => do
    let (k, pg) ← visitPage ld n k pg
    visitPages ld rest k pg

theorem visitPages_cons_none (h : pg.entry n = none) (rest : List ℕ) :
    visitPages ld (n :: rest) k pg = visitPages ld rest k pg := by
  rw [visitPages, visitPage, h]
  rfl

/-- Pages that are absent may be left out at the start of a range. -/
theorem visitPages_skip {m : ℕ} (hle : n ≤ m) (top : ℕ) (hun : ∀ j, n ≤ j → j < m → pg.entry j = none) :
    visitPages ld (range' n (top - n)) k pg = visitPages ld (range' m (top - m)) k pg := by
  induction m, hle using Nat.le_induction with
  | base => rfl
  | succ m hle ih =>
    rw [ih fun j h1 h2 => hun j h1 (by omega)]
    by_cases htop : m < top
    · obtain ⟨r, hr⟩ : ∃ r, top - m = r + 1 := ⟨top - m - 1, by omega⟩
      rw [hr, range'_succ, visitPages_cons_none (hun m hle (Nat.lt_succ_self m)),
        show top - (m + 1) = r by omega]
    · rw [show top - m = 0 by omega, show top - (m + 1) = 0 by omega]
      rfl

/-- **The loop of `deallocuvm`** visits the pages from its address on: in a region without a page table all of
them are absent. -/
theorem deallocLoop_eq {oldsz : ℕ} (hold : oldsz ≤ KERNBASE) (fuel : ℕ) :
    ∀ (n : ℕ) (k : Kmem) (pg : Pgdir), 0 < fuel → oldsz / PGSIZE + 1 < n + fuel →
      deallocLoop ld oldsz fuel k pg (n * PGSIZE) =
        visitPages ld (range' n (npages oldsz - n)) k pg := by
  induction fuel with
  | zero => exact fun n k pg hpos => absurd hpos (lt_irrefl 0)
  | succ fuel ih =>
    intro n k pg hpos hfuel
    rw [deallocLoop]
    by_cases hlt : n * PGSIZE < oldsz
    · have hn : n < UPAGES := by
        unfold PGSIZE KERNBASE UPAGES at *
        omega
      have hpos' : 0 < fuel := by
        unfold PGSIZE at *
        omega
      have hnext : u32 (n * PGSIZE + PGSIZE) = (n + 1) * PGSIZE :=
        u32_next (by unfold UPAGES NPAGES at *; omega)
      have hrange : range' n (npages oldsz - n) = n :: range' (n + 1) (npages oldsz - (n + 1)) := by
        have := lt_npages.mpr hlt
        rw [show npages oldsz - n = npages oldsz - (n + 1) + 1 by omega, range'_succ]
      rw [if_pos hlt]
      cases ht : pg.pde (pdx (n * PGSIZE)) with
      | none =>
        simp only [next_region hn]
        rw [ih _ k pg hpos' (by omega), ← visitPages_skip (show n ≤ (n / 1024 + 1) * 1024 by omega) _
          fun j h1 h2 => entry_of_pde_none ?_]
        rw [← ht, (pdx_eq_iff (by unfold UPAGES NPAGES at *; omega)
          (by unfold UPAGES NPAGES at *; omega)).mpr (show j / 1024 = n / 1024 by omega)]
      | some t =>
        have hent := entry_of_pde ht
        simp only [hnext]
        cases he : t.pte (ptx (n * PGSIZE)) with
        | none =>
          rw [he] at hent
          simp only
          rw [ih _ k pg hpos' (by omega), hrange, visitPages_cons_none hent]
        | some e =>
          rw [he] at hent
          rw [hrange, visitPages, visitPage, hent]
          simp only
          by_cases h0 : e.frame = 0
          · rw [if_pos h0, if_pos h0]
            rfl
          · rw [if_neg h0, if_neg h0]
            cases hfree : k.kfree ld e.frame with
            | error err => rfl
            | ok k₁ => exact ih _ k₁ _ hpos' (by omega)
    · rw [if_neg hlt, show npages oldsz - n = 0 from Nat.sub_eq_zero_of_le (not_lt.mp (mt lt_npages.mp hlt))]
      rfl

/-- **The pages below `KERNBASE`** can all be visited, and are freed. -/
theorem visitPages_spec {oldsz : ℕ} (hold : oldsz ≤ KERNBASE) (r : ℕ) : ∀ {n : ℕ} {k : Kmem} {pg : Pgdir},
    npages oldsz - n = r → Sound ld k pg →
    ∃ k' pg', visitPages ld (range' n r) k pg = .ok (k', pg') ∧ Dealloc ld k pg n oldsz k' pg' := by
  induction r with
  | zero =>
    intro n k pg hr hs
    refine ⟨k, pg, rfl, hs, rfl, fun _ _ => rfl, fun j hj => ?_, rfl, le_rfl⟩
    rw [if_neg]
    rintro ⟨h1, h2⟩
    have := lt_npages.mpr h2
    omega
  | succ r ih =>
    intro n k pg hr hs
    have hlt : n * PGSIZE < oldsz := lt_npages.mp (by omega)
    have hn : n < UPAGES := by
      unfold PGSIZE KERNBASE UPAGES at *
      omega
    rw [range'_succ]
    cases he : pg.entry n with
    | none =>
      obtain ⟨k', pg', heq, h⟩ := ih (n := n + 1) (by omega) hs
      rw [visitPages_cons_none he]
      exact ⟨k', pg', heq, h.skip he⟩
    | some e =>
      have hfree := (hs.used (.page n) e.frame (by simp [frameOf, hn, he])).1
      obtain ⟨k', pg', heq, h⟩ := ih (n := n + 1) (k := freed k e.frame) (by omega) (hs.unmap hn he rfl).1
      refine ⟨k', pg', ?_, .cons hs hn hlt he h⟩
      rw [visitPages, visitPage, he]
      simp only [if_neg (ld.freeable_pos hfree), kfree_ok hfree]
      exact heq

/-- `deallocuvm` below `KERNBASE`. -/
theorem deallocuvm_spec {oldsz newsz : ℕ} (hs : Sound ld k pg) (hold : oldsz ≤ KERNBASE)
    (hlt : newsz < oldsz) :
    ∃ k' pg', deallocuvm ld k pg oldsz newsz = .ok (newsz, k', pg') ∧
      Dealloc ld k pg (pgroundup newsz / PGSIZE) oldsz k' pg' := by
  have hround : pgroundup newsz / PGSIZE * PGSIZE = pgroundup newsz := by
    unfold pgroundup
    rw [Nat.mul_div_cancel _ (by decide)]
  obtain ⟨k', pg', heq, h⟩ := visitPages_spec hold _ rfl hs
  refine ⟨k', pg', ?_, h⟩
  rw [← deallocLoop_eq hold (oldsz / PGSIZE + 2) _ _ _ (Nat.succ_pos _) (by unfold PGSIZE; omega),
    hround] at heq
  rw [deallocuvm, if_neg (by omega), heq]
  rfl

/-! ### A whole address space -/

/-- The directory without the page tables of some regions. -/
def without (pg : Pgdir) (l : List (Fin NPDENTRIES)) : Pgdir :=
  ⟨pg.frame, fun x => if x ∈ l then none else pg.pde x⟩

/-- Removing page tables without user pages gives up a use. -/
theorem frameOf_without (hun : ∀ j < UPAGES, pg.entry j = none) (l : List (Fin NPDENTRIES))
    (x : Fin NPDENTRIES) :
    (pg.without (l ++ [x])).frameOf = update (pg.without l).frameOf (.table x) none := by
  have hpage : ∀ l, ∀ j < UPAGES, (pg.without l).entry j = none := by
    intro l j hj
    have hj' := hun j hj
    unfold entry lookup without at *
    by_cases hmem : pdx (j * PGSIZE) ∈ l
    · simp [hmem]
    · simpa [hmem] using hj'
  funext v
  cases v with
  | dir => rfl
  | table y =>
    by_cases hyx : y = x
    · subst hyx
      simp [frameOf, without]
    · rw [update_of_ne (by simpa using hyx)]
      simp [frameOf, without, hyx]
  | page j =>
    rw [update_of_ne (by simp)]
    simp only [frameOf]
    split
    · rename_i hj
      rw [hpage _ j hj, hpage _ j hj]
    · rfl

/-- The frame of a page table that holds no user page goes to the free list. -/
theorem Sound.freeTable {l : List (Fin NPDENTRIES)} {x : Fin NPDENTRIES} {t : PageTable}
    (hun : ∀ j < UPAGES, pg.entry j = none) (hs : Sound ld k (pg.without l)) (hx : x ∉ l)
    (ht : pg.pde x = some t) :
    Kmem.Freeable ld t.frame ∧ Sound ld (freed k t.frame) (pg.without (l ++ [x])) ∧
      frames (freed k t.frame) (pg.without (l ++ [x])) = frames k (pg.without l) := by
  obtain ⟨hs₁, hfree, hf, hfr⟩ := hs.drop (u := .table x) (f := t.frame)
    (by simp [frameOf, without, hx, ht]) (frameOf_without hun l x)
  obtain ⟨hs₂, hfr₂⟩ := hs₁.give hf hfree (show (freed k t.frame).freelist = _ from rfl)
  exact ⟨hfree, hs₂, by rw [hfr₂, hfr]⟩

/-- The loop of `freevm` over the page tables. -/
theorem freeTables_spec (hun : ∀ j < UPAGES, pg.entry j = none) (hs : Sound ld k pg) :
    ∃ k', freeTables ld pg k = .ok k' ∧ Sound ld k' (pg.without (finRange NPDENTRIES)) ∧
      frames k' (pg.without (finRange NPDENTRIES)) = frames k pg ∧
      (∀ f ∉ frames k pg, k'.page f = k.page f) ∧ k.avail ≤ k'.avail := by
  have hnil : (pg.without []).frameOf = pg.frameOf := by
    unfold without
    simp
  refine (Outcome.Post.foldlM (E := fun _ => False)
    (I := fun before k' => Sound ld k' (pg.without before) ∧
      frames k' (pg.without before) = frames k pg ∧ (∀ f ∉ frames k pg, k'.page f = k.page f) ∧
      k.avail ≤ k'.avail) _ ?_
    ⟨hs.congr rfl hnil, frames_congr rfl hnil, fun _ _ => rfl, le_rfl⟩).exists_ok fun e he => he
  rintro before x after heq k' ⟨hs', hfr', hpage, havail⟩
  have hx : x ∉ before := by
    have hnd := nodup_finRange NPDENTRIES
    rw [← heq] at hnd
    exact fun hmem => disjoint_of_nodup_append hnd hmem mem_cons_self
  cases ht : pg.pde x with
  | some t =>
    obtain ⟨hfree, hs₂, hfr₂⟩ := Sound.freeTable hun hs' hx ht
    simp only [kfree_ok hfree]
    refine ⟨hs₂, by rw [hfr₂, hfr'], fun f hf => ?_, havail.trans (avail_le_freed k' t.frame)⟩
    rw [freed_page (ne_of_frameOf (u := .table x) hf (by simp [frameOf, ht])), hpage f hf]
  | none =>
    have hpg : (pg.without (before ++ [x])).frameOf = (pg.without before).frameOf := by
      rw [frameOf_without hun, update_eq_self_iff]
      simp [frameOf, without, ht]
    exact ⟨hs'.congr rfl hpg, by rw [frames_congr rfl hpg, hfr'], hpage, havail⟩

/-- **`freevm` gives back every frame of the address space**, and writes no other. -/
theorem freevm_spec (hs : Sound ld k pg) :
    ∃ k', freevm ld k pg = .ok k' ∧ k'.Good ld ∧ (∀ f, f ∈ k'.freelist ↔ f ∈ frames k pg) ∧
      (∀ f ∉ frames k pg, k'.page f = k.page f) ∧ k.avail ≤ k'.avail := by
  obtain ⟨k₁, pg₁, heq₁, hd⟩ := deallocuvm_spec hs le_rfl (show 0 < KERNBASE by decide)
  have hun : ∀ j < UPAGES, pg₁.entry j = none := by
    intro j hj
    rw [hd.entry_eq j (by unfold UPAGES NPAGES at *; omega), if_pos]
    refine ⟨Nat.zero_le j, ?_⟩
    unfold UPAGES PGSIZE KERNBASE at *
    omega
  obtain ⟨k₂, heq₂, hs₂, hfr₂, hpage, havail⟩ := freeTables_spec hun hd.sound
  have hdir : ∀ v f, (pg₁.without (finRange NPDENTRIES)).frameOf v = some f ↔
      v = .dir ∧ f = pg₁.frame := by
    rintro (_ | x | j) f <;> simp [frameOf, entry, lookup, without, eq_comm]
  obtain ⟨hfree, hnot⟩ := hs₂.used .dir pg₁.frame ((hdir _ _).mpr ⟨rfl, rfl⟩)
  refine ⟨freed k₂ pg₁.frame, ?_, ⟨nodup_cons.mpr ⟨hnot, hs₂.nodup⟩, fun f hf => ?_⟩,
    fun f => ?_, fun f hf => ?_, (hd.avail_le.trans havail).trans (avail_le_freed k₂ pg₁.frame)⟩
  · simp only [freevm, heq₁, heq₂, bind, Except.bind]
    exact kfree_ok hfree
  · rcases mem_cons.mp hf with rfl | hf
    · exact hfree
    · exact hs₂.freeable f hf
  · rw [← hd.frames_eq, ← hfr₂]
    unfold freed frames
    simp only [mem_cons, Set.mem_ofPred_eq]
    constructor
    · rintro (rfl | hf)
      · exact .inr ⟨.dir, (hdir _ _).mpr ⟨rfl, rfl⟩⟩
      · exact .inl hf
    · rintro (hf | ⟨v, hv⟩)
      · exact .inr hf
      · exact .inl ((hdir v f).mp hv).2
  · have hf₁ : f ∉ frames k₁ pg₁ := by rwa [hd.frames_eq]
    rw [freed_page (ne_of_frameOf (u := .dir) hf₁ rfl), hpage f hf₁, hd.page_eq f hf]

end

end Pgdir
