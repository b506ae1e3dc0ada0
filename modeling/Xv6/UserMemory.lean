/-
# Growing and copying user memory

`allocuvm` and `copyuvm` add user pages one by one, each in a fresh frame.  `Grown` says what a
run of such steps has done; the loops are followed up to a page, where they go on, end or panic.
-/
import Xv6.KernelPart

namespace Pgdir

variable {ld : Linker} {k : Kmem} {pg : Pgdir} {n : ℕ}

/-! ## Adding pages -/

/-- The pages from `n` to below `m` were added, page `j` with bytes `c j` and flags `perm j`. -/
structure Grown (ld : Linker) (k : Kmem) (pg : Pgdir) (n m : ℕ) (c : ℕ → ℕ → UInt8)
    (perm : ℕ → Perm) (k' : Kmem) (pg' : Pgdir) : Prop where
  sound : Sound ld k' pg'
  frames_eq : frames k' pg' = frames k pg
  new : ∀ j, n ≤ j → j < m → ∃ f, pg'.entry j = some ⟨f, perm j⟩ ∧ k'.page f = c j
  old : ∀ j < NPAGES, ¬ (n ≤ j ∧ j < m) → pg'.entry j = pg.entry j
  free_sub : ∀ f ∈ k'.freelist, f ∈ k.freelist
  page_eq : ∀ f, f ∉ k.freelist → k'.page f = k.page f
  tables_eq : ∀ x, x ∈ tables pg' ↔ x ∈ tables pg ∨ ∃ j, n ≤ j ∧ j < m ∧ j / 1024 = x
  budget_eq : budget k pg = budget k' pg' + (m - n)

theorem Grown.refl (hs : Sound ld k pg) (c : ℕ → ℕ → UInt8) (perm : ℕ → Perm) :
    Grown ld k pg n n c perm k pg where
  sound := hs
  frames_eq := rfl
  new := fun j h1 h2 => absurd h2 (not_lt.mpr h1)
  old := fun _ _ _ => rfl
  free_sub := fun _ h => h
  page_eq := fun _ _ => rfl
  tables_eq := by
    intro x
    refine ⟨Or.inl, ?_⟩
    rintro (h | ⟨j, h1, h2, -⟩)
    · exact h
    · omega
  budget_eq := by omega

variable {m : ℕ}

/-- One page, then the pages after it.  The bytes of the first page stay, because its frame is
not free any more. -/
theorem Grown.cons {c : ℕ → ℕ → UInt8} {perm : ℕ → Perm} {k₁ k' : Kmem} {pg₁ pg' : Pgdir}
    (hn : n < UPAGES) (hnm : n < m) (h₁ : Grown ld k pg n (n + 1) c perm k₁ pg₁)
    (h : Grown ld k₁ pg₁ (n + 1) m c perm k' pg') : Grown ld k pg n m c perm k' pg' where
  sound := h.sound
  frames_eq := by rw [h.frames_eq, h₁.frames_eq]
  new := by
    intro j hnj hjm
    by_cases hj : j = n
    · obtain ⟨f, he, hc⟩ := h₁.new j hnj (by omega)
      refine ⟨f, ?_, ?_⟩
      · rw [h.old j (by unfold UPAGES NPAGES at *; omega) (by omega), he]
      · have hused := h₁.sound.used (.page j) f (by
          rw [← hj] at hn
          simp [frameOf, hn, he])
        rw [h.page_eq f hused.2, hc]
    · exact h.new j (by omega) hjm
  old := by
    intro j hj hout
    rw [h.old j hj (by omega), h₁.old j hj (by omega)]
  free_sub := fun f hf => h₁.free_sub f (h.free_sub f hf)
  page_eq := by
    intro f hf
    rw [h.page_eq f fun hmem => hf (h₁.free_sub f hmem), h₁.page_eq f hf]
  tables_eq := by
    intro x
    rw [h.tables_eq, h₁.tables_eq, or_assoc]
    refine or_congr_right ⟨?_, ?_⟩
    · rintro (⟨j, h1, h2, h3⟩ | ⟨j, h1, h2, h3⟩)
      · exact ⟨j, h1, by omega, h3⟩
      · exact ⟨j, by omega, h2, h3⟩
    · rintro ⟨j, h1, h2, h3⟩
      by_cases hj : j < n + 1
      · exact .inl ⟨j, h1, hj, h3⟩
      · exact .inr ⟨j, by omega, h2, h3⟩
  budget_eq := by
    rw [h₁.budget_eq, h.budget_eq]
    omega

/-- There were not enough pages to add the pages from `n` to below `m`. -/
def Short (k : Kmem) (pg : Pgdir) (n m : ℕ) : Prop :=
  ∀ s : Finset ℕ, tables pg ⊆ s → (∀ j, n ≤ j → j < m → j / 1024 ∈ s) →
    budget k pg < s.card + (m - n)

theorem Short.cons {c : ℕ → ℕ → UInt8} {perm : ℕ → Perm} {k₁ : Kmem} {pg₁ : Pgdir} (hnm : n < m)
    (h₁ : Grown ld k pg n (n + 1) c perm k₁ pg₁) (h : Short k₁ pg₁ (n + 1) m) :
    Short k pg n m := by
  intro s hsub hcov
  have hs := h s (fun x hx => ?_) fun j h1 h2 => hcov j (by omega) h2
  · rw [h₁.budget_eq]
    omega
  · rcases (h₁.tables_eq x).mp hx with hx | ⟨j, h1, h2, rfl⟩
    · exact hsub hx
    · exact hcov j h1 (by omega)

/-- The allocation of a page or of its page table failed. -/
theorem Short.of_fail (hnm : n < m) (h : k.avail = 0 ∨ k.avail = 1 ∧ n / 1024 ∉ tables pg) :
    Short k pg n m := by
  intro s hsub hcov
  have hle := Finset.card_le_card hsub
  unfold budget
  rcases h with h0 | ⟨h1, hnot⟩
  · omega
  · have hlt : (tables pg).card < s.card := Finset.card_lt_card
      (Finset.ssubset_iff_subset_ne.mpr ⟨hsub, fun heq => hnot (heq ▸ hcov n le_rfl hnm)⟩)
    omega

/-- **One page more**: `kalloc` fails, or `mappages` fails and leaves the page in hand, or the page
is added. -/
theorem growPage_cases (hs : Sound ld k pg) (hn : n < UPAGES) (hun : pg.entry n = none)
    (bytes : Kmem → ℕ → UInt8) (hb : ∀ k', k'.page = k.page → bytes k' = bytes k) (perm : Perm) :
    (∃ k', k.kalloc = (none, k') ∧ Sound ld k' pg ∧ frames k' pg = frames k pg ∧ k'.page = k.page ∧
      k.avail = 0) ∨
    (∃ f k₁ k₂, k.kalloc = (some f, k₁) ∧
      mappages (k₁.setPage f (bytes k₁)) pg (n * PGSIZE) PGSIZE (f * PGSIZE) perm =
        .ok (false, k₂, pg) ∧
      Sound ld k₂ pg ∧ Kmem.Freeable ld f ∧ f ∉ frames k₂ pg ∧
      frames k pg = insert f (frames k₂ pg) ∧ (∀ g ∉ frames k pg, k₂.page g = k.page g) ∧ k.avail = 1 ∧
      n / 1024 ∉ tables pg) ∨
    ∃ f k₁ k₂ pg₂, k.kalloc = (some f, k₁) ∧
      mappages (k₁.setPage f (bytes k₁)) pg (n * PGSIZE) PGSIZE (f * PGSIZE) perm =
        .ok (true, k₂, pg₂) ∧
      Grown ld k pg n (n + 1) (fun _ => bytes k) (fun _ => perm) k₂ pg₂ := by
  have hnp : n < NPAGES := by
    unfold UPAGES NPAGES at *
    omega
  obtain ⟨k₁, heq, hfree, hpage, havail⟩ | ⟨f, k₁, heq, hfree, hpage, havail⟩ := k.kalloc_cases
  · exact .inl ⟨k₁, heq, hs.congr hfree rfl, frames_congr hfree rfl, hpage, havail⟩
  · obtain ⟨hs₁, hfb, hf, hfr⟩ := hs.take hfree
    have hkeep : ∀ g, g ∉ k.freelist → (k₁.setPage f (bytes k₁)).page g = k.page g := by
      intro g hg
      have hgf : g ≠ f := by
        rintro rfl
        exact hg (by rw [hfree]; exact List.mem_cons_self)
      rw [Kmem.setPage_page_of_ne _ _ hgf, hpage]
    have hs₁' : Sound ld (k₁.setPage f (bytes k₁)) pg := hs₁.congr rfl rfl
    obtain ⟨k₂, heq₂, hfree₂, hpage₂, havail₂, hnot⟩ | ⟨k₂, pg₂, heq₂, hm⟩ :=
      mappages_page_cases hs₁' hnp hun f perm
    · have hfr₂ : frames k₂ pg = frames k₁ pg := frames_congr hfree₂ rfl
      refine .inr (.inl ⟨f, k₁, k₂, heq, heq₂, hs₁.congr hfree₂ rfl, hfb, by rwa [hfr₂],
        by rw [hfr, hfr₂], fun g hg => ?_, ?_, hnot⟩)
      · rw [hpage₂, hkeep g fun hmem => hg (.inl hmem)]
      · rw [havail, show k₁.avail = 0 from havail₂]
    · obtain ⟨hs₂, hfr₂⟩ := hm.user hn hf hfb
      refine .inr (.inr ⟨f, k₁, k₂, pg₂, heq, heq₂, hs₂, by rw [hfr₂, hfr]; rfl, ?_, ?_, ?_, ?_, ?_, ?_⟩)
      · intro j h1 h2
        refine ⟨f, ?_, ?_⟩
        · rw [hm.entry_eq j (by omega), if_pos (by omega)]
        · rw [hm.page_eq, Kmem.setPage_page_self, hb k₁ hpage]
      · intro j hj hout
        rw [hm.entry_eq j hj, if_neg (by omega)]
      · intro g hg
        rw [hfree]
        exact List.mem_cons_of_mem _ (hm.free_sub g hg)
      · intro g hg
        rw [hm.page_eq, hkeep g hg]
      · intro x
        rw [hm.tables_eq, Finset.mem_insert, or_comm]
        refine or_congr_right ⟨fun hx => ⟨n, le_rfl, by omega, hx.symm⟩, ?_⟩
        rintro ⟨j, h1, h2, rfl⟩
        rw [show j = n by omega]
      · have := hm.budget_eq
        unfold budget at *
        rw [Kmem.setPage_avail] at this
        omega

/-! ## `allocuvm` -/

variable {sz : ℕ}

theorem pgroundup_eq (h : sz ≤ KERNBASE) : pgroundup sz = npages sz * PGSIZE := by
  unfold pgroundup npages u32
  rw [Nat.mod_eq_of_lt]
  unfold KERNBASE PGSIZE at *
  omega

theorem npages_le (h : sz ≤ KERNBASE) : npages sz ≤ UPAGES := by
  unfold npages KERNBASE PGSIZE UPAGES at *
  omega

theorem npages_mono {a b : ℕ} (h : a ≤ b) : npages a ≤ npages b :=
  Nat.div_le_div_right (Nat.add_le_add_right h _)

/-- The loop of `allocuvm` stopped for want of a page, with the frame `mem` in hand. -/
structure AllocStopped (ld : Linker) (k : Kmem) (pg : Pgdir) (n m : ℕ) (mem : Option ℕ)
    (k' : Kmem) (pg' : Pgdir) : Prop where
  sound : Sound ld k' pg'
  none_hand : mem = none → frames k' pg' = frames k pg
  some_hand : ∀ f, mem = some f →
    Kmem.Freeable ld f ∧ f ∉ frames k' pg' ∧ frames k pg = insert f (frames k' pg')
  page_eq : ∀ f ∉ frames k pg, k'.page f = k.page f
  old : ∀ j < NPAGES, ¬ (n ≤ j ∧ j < m) → pg'.entry j = pg.entry j
  short : Short k pg n m

/-- Zeroed pages that user code may read and write. -/
abbrev GrownZero (ld : Linker) (k : Kmem) (pg : Pgdir) (n m : ℕ) (k' : Kmem) (pg' : Pgdir) : Prop :=
  Grown ld k pg n m (fun _ _ => 0) (fun _ => ⟨true, true⟩) k' pg'

/-- The loop of `allocuvm`. -/
theorem allocLoop_spec {newsz : ℕ} (hlt : newsz < KERNBASE) (fuel : ℕ) :
    ∀ (n : ℕ) (k : Kmem) (pg : Pgdir), Sound ld k pg → npages newsz < n + fuel →
      n ≤ npages newsz → (∀ j, n ≤ j → j < npages newsz → pg.entry j = none) →
    (∃ mem k' pg', allocLoop newsz fuel k pg (n * PGSIZE) = .ok ((false, mem), k', pg') ∧
      n < npages newsz ∧ AllocStopped ld k pg n (npages newsz) mem k' pg') ∨
    ∃ k' pg', allocLoop newsz fuel k pg (n * PGSIZE) = .ok ((true, none), k', pg') ∧
      GrownZero ld k pg n (npages newsz) k' pg' := by
  have hmax := npages_le hlt.le
  induction fuel with
  | zero => exact fun n k pg hs hfuel hn => absurd hfuel (by omega)
  | succ fuel ih =>
    intro n k pg hs hfuel hn hun
    rw [allocLoop]
    by_cases hnm : n < npages newsz
    · rw [if_pos (lt_npages.mp hnm)]
      rcases growPage_cases hs (by omega) (hun n le_rfl hnm) (fun _ _ => 0) (fun _ _ => rfl)
          ⟨true, true⟩ with
        ⟨k₁, heq, hs₁, hfr, hpage, havail⟩ |
          ⟨f, k₁, k₂, heq, heq₂, hs₂, hfb, hf, hfr, hpage, havail, hnot⟩ | ⟨f, k₁, k₂, pg₂, heq, heq₂, hg⟩
      · rw [heq]
        exact .inl ⟨none, k₁, pg, rfl, hnm, hs₁, fun _ => hfr, fun f hf => (by cases hf),
          fun f _ => congrFun hpage f, fun j _ _ => rfl, .of_fail hnm (.inl havail)⟩
      · rw [heq]
        simp only [heq₂, bind, Except.bind, Bool.false_eq_true, if_false, pure, Except.pure]
        refine .inl ⟨some f, k₂, pg, rfl, hnm, hs₂, fun h => (by cases h), fun g hg => ?_,
          hpage, fun j _ _ => rfl, .of_fail hnm (.inr ⟨havail, hnot⟩)⟩
        rw [← Option.some.inj hg]
        exact ⟨hfb, hf, hfr⟩
      · -- the page is there: the rest of the loop starts one page further
        rw [heq]
        simp only [heq₂, bind, Except.bind, if_true]
        rw [u32_next (by unfold UPAGES NPAGES at *; omega)]
        have hun₂ : ∀ j, n + 1 ≤ j → j < npages newsz → pg₂.entry j = none := by
          intro j h1 h2
          rw [hg.old j (by unfold UPAGES NPAGES at *; omega) (by omega)]
          exact hun j (by omega) h2
        rcases ih (n + 1) k₂ pg₂ hg.sound (by omega) hnm hun₂ with
          ⟨mem, k', pg', heq', -, hstop⟩ | ⟨k', pg', heq', hg'⟩
        · refine .inl ⟨mem, k', pg', heq', hnm, hstop.sound, ?_, ?_, ?_, ?_, hstop.short.cons hnm hg⟩
          · rw [← hg.frames_eq]
            exact hstop.none_hand
          · rw [← hg.frames_eq]
            exact hstop.some_hand
          · intro f hf
            rw [hstop.page_eq f (by rwa [hg.frames_eq]), hg.page_eq f fun hmem => hf (.inl hmem)]
          · intro j hj hout
            rw [hstop.old j hj (by omega), hg.old j hj (by omega)]
        · exact .inr ⟨k', pg', heq', .cons (by omega) hnm hg hg'⟩
    · rw [if_neg (mt lt_npages.mpr hnm)]
      rw [show npages newsz = n by omega]
      exact .inr ⟨k, pg, rfl, .refl hs _ _⟩

/-- **`allocuvm`**: the pages up to the new size are there, or the address space is that of
before, and no frame outside it is written. -/
theorem allocuvm_spec {oldsz newsz : ℕ} (hs : Sound ld k pg) (hle : oldsz ≤ newsz)
    (hlt : newsz < KERNBASE)
    (hun : ∀ j, npages oldsz ≤ j → j < npages newsz → pg.entry j = none) :
    (∃ k' pg', allocuvm ld k pg oldsz newsz = .ok (0, k', pg') ∧ Sound ld k' pg' ∧
      frames k' pg' = frames k pg ∧ (∀ f ∉ frames k pg, k'.page f = k.page f) ∧
      (∀ j < NPAGES, pg'.entry j = pg.entry j) ∧ Short k pg (npages oldsz) (npages newsz)) ∨
    ∃ k' pg', allocuvm ld k pg oldsz newsz = .ok (newsz, k', pg') ∧
      GrownZero ld k pg (npages oldsz) (npages newsz) k' pg' := by
  have hround : pgroundup oldsz = npages oldsz * PGSIZE := pgroundup_eq (by omega)
  unfold allocuvm
  rw [if_neg (by omega), if_neg (by omega), hround]
  rcases allocLoop_spec hlt (newsz / PGSIZE + 2) (npages oldsz) k pg hs
      (by unfold npages PGSIZE; omega) (npages_mono hle) hun with
    ⟨mem, k₁, pg₁, heq, hnm, hstop⟩ | ⟨k', pg', heq, hg⟩
  · -- what was mapped is unmapped again, and the page in hand is freed
    have hlt' : oldsz < newsz := by
      by_contra hge
      rw [show newsz = oldsz by omega] at hnm
      exact lt_irrefl _ hnm
    obtain ⟨k₂, pg₂, heq₂, hd⟩ := deallocuvm_spec hstop.sound hlt.le hlt'
    have hentry : ∀ j < NPAGES, pg₂.entry j = pg.entry j := by
      intro j hj
      rw [hd.entry_eq j hj, hround, Nat.mul_div_cancel _ (show 0 < PGSIZE by decide)]
      split
      · rename_i hin
        rw [hun j hin.1 (lt_npages.mpr hin.2)]
      · rename_i hout
        exact hstop.old j hj fun hin => hout ⟨hin.1, lt_npages.mp hin.2⟩
    simp only [heq, heq₂, bind, Except.bind, Bool.false_eq_true, if_false]
    cases mem with
    | none =>
      have hfr := hstop.none_hand rfl
      refine .inl ⟨k₂, pg₂, rfl, hd.sound, by rw [hd.frames_eq, hfr], fun g hg => ?_, hentry, hstop.short⟩
      rw [hd.page_eq g (by rwa [hfr]), hstop.page_eq g hg]
    | some f =>
      obtain ⟨hfb, hf, hfr⟩ := hstop.some_hand f rfl
      obtain ⟨hs₃, hfr₃⟩ := hd.sound.give (by rwa [hd.frames_eq]) hfb
        (show (freed k₂ f).freelist = _ from rfl)
      refine .inl ⟨freed k₂ f, pg₂, ?_, hs₃, by rw [hfr₃, hd.frames_eq, hfr], fun g hg => ?_, hentry,
        hstop.short⟩
      · simp only [kfree_ok hfb]
        rfl
      · have hg' := hg
        rw [hfr, Set.mem_insert_iff, not_or] at hg'
        rw [freed_page hg'.1, hd.page_eq g hg'.2, hstop.page_eq g hg]
  · simp only [heq, bind, Except.bind, if_true]
    exact .inr ⟨k', pg', rfl, hg⟩

/-! ## `copyuvm` -/

/-- The bytes of page `j`; an absent page has none yet and counts as zero. -/
def pageOf (k : Kmem) (pg : Pgdir) (j : ℕ) : ℕ → UInt8 :=
  match pg.entry j with
  | some e => k.page e.frame
  | none => fun _ => 0

/-- The flags of page `j`. -/
def permOf (pg : Pgdir) (j : ℕ) : Perm :=
  match pg.entry j with
  | some e => e.perm
  | none => ⟨false, false⟩

theorem pageOf_of_entry {e : Pte} {j : ℕ} (h : pg.entry j = some e) :
    pageOf k pg j = k.page e.frame := by
  unfold pageOf
  rw [h]

theorem permOf_of_entry {e : Pte} {j : ℕ} (h : pg.entry j = some e) : permOf pg j = e.perm := by
  unfold permOf
  rw [h]

/-- `Grown` sees the bytes and flags of its range only. -/
theorem Grown.congr {c c' : ℕ → ℕ → UInt8} {perm perm' : ℕ → Perm} {k' : Kmem} {pg' : Pgdir}
    (h : Grown ld k pg n m c perm k' pg') (hc : ∀ j, n ≤ j → j < m → c j = c' j)
    (hp : ∀ j, n ≤ j → j < m → perm j = perm' j) : Grown ld k pg n m c' perm' k' pg' where
  sound := h.sound
  frames_eq := h.frames_eq
  new := by
    intro j h1 h2
    rw [← hc j h1 h2, ← hp j h1 h2]
    exact h.new j h1 h2
  old := h.old
  free_sub := h.free_sub
  page_eq := h.page_eq
  tables_eq := h.tables_eq
  budget_eq := h.budget_eq

variable {par : Pgdir} {sz t : ℕ}

/-- **The loop of `copyuvm` up to page `t`**, when the pages of the source up to there are present
and their frames are in use: it stops for want of a page, or it goes on at page `t` with the pages
before it copied. -/
theorem copyLoop_until (htu : t ≤ UPAGES) (htsz : t ≤ npages sz)
    (hpres : ∀ j < t, (par.entry j).isSome) (r : ℕ) :
    ∀ (fuel n : ℕ) (k : Kmem) (d : Pgdir), n + r = t → Sound ld k d →
      (∀ j, n ≤ j → j < t → d.entry j = none) →
      (∀ j < t, ∀ e, par.entry j = some e → e.frame ∉ k.freelist) →
    (∃ k' d', copyLoop ld par sz (fuel + r) k d (n * PGSIZE) = .ok (false, k', d') ∧
      Sound ld k' d' ∧ frames k' d' = frames k d ∧ Short k d n t) ∨
    ∃ k' d', Grown ld k d n t (pageOf k par) (permOf par) k' d' ∧
      copyLoop ld par sz (fuel + r) k d (n * PGSIZE) =
        copyLoop ld par sz fuel k' d' (t * PGSIZE) := by
  induction r with
  | zero =>
    intro fuel n k d hnt hs hun hown
    obtain rfl : n = t := by omega
    exact .inr ⟨k, d, .refl hs _ _, rfl⟩
  | succ r ih =>
    intro fuel n k d hnt hs hun hown
    have hn : n < t := by omega
    obtain ⟨e, he⟩ := Option.isSome_iff_exists.mp (hpres n hn)
    obtain ⟨pt, hpt⟩ := Option.isSome_iff_exists.mp (hasTable_of_entry he)
    have hpte : pt.pte (ptx (n * PGSIZE)) = some e := by rw [← entry_of_pde hpt, he]
    rw [← Nat.add_assoc, copyLoop, if_pos (lt_npages.mp (by omega)), hpt]
    simp only [hpte]
    rcases growPage_cases hs (by omega) (hun n le_rfl hn) (fun k => k.page e.frame)
        (fun k' hk' => by simp only [hk']) e.perm with
      ⟨k₁, heq, hs₁, hfr, -, havail⟩ | ⟨f, k₁, k₂, heq, heq₂, hs₂, hfb, hf, hfr, -, havail, hnot⟩ |
        ⟨f, k₁, k₂, d₂, heq, heq₂, hg⟩
    · rw [heq]
      exact .inl ⟨k₁, d, rfl, hs₁, hfr, .of_fail hn (.inl havail)⟩
    · -- the page in hand is freed before the loop stops
      obtain ⟨hs₃, hfr₃⟩ := hs₂.give hf hfb (show (freed k₂ f).freelist = _ from rfl)
      rw [heq]
      simp only [heq₂, bind, Except.bind, Bool.false_eq_true, if_false, kfree_ok hfb]
      exact .inl ⟨freed k₂ f, d, rfl, hs₃, by rw [hfr₃, hfr], .of_fail hn (.inr ⟨havail, hnot⟩)⟩
    · rw [heq]
      simp only [heq₂, bind, Except.bind, if_true]
      rw [u32_next (by unfold UPAGES NPAGES at *; omega)]
      have hg₁ : Grown ld k d n (n + 1) (pageOf k par) (permOf par) k₂ d₂ := by
        refine hg.congr (fun j h1 h2 => ?_) (fun j h1 h2 => ?_)
        · rw [show j = n by omega, pageOf_of_entry he]
        · rw [show j = n by omega, permOf_of_entry he]
      have hun₂ : ∀ j, n + 1 ≤ j → j < t → d₂.entry j = none := by
        intro j h1 h2
        rw [hg.old j (by unfold UPAGES NPAGES at *; omega) (by omega)]
        exact hun j (by omega) h2
      rcases ih fuel (n + 1) k₂ d₂ (by omega) hg.sound hun₂
          (fun j hj e he hmem => hown j hj e he (hg.free_sub _ hmem)) with
        ⟨k', d', heq', hs', hfr', hshort⟩ | ⟨k', d', hg', heq'⟩
      · exact .inl ⟨k', d', heq', hs', by rw [hfr', hg.frames_eq], hshort.cons hn hg⟩
      · refine .inr ⟨k', d', .cons (by omega) hn hg₁ (hg'.congr (fun j h1 h2 => ?_) fun _ _ _ => rfl),
          heq'⟩
        -- the frames of the source are in use, so their bytes have not changed
        obtain ⟨e', he'⟩ := Option.isSome_iff_exists.mp (hpres j h2)
        rw [pageOf_of_entry he', pageOf_of_entry he', hg.page_eq _ (hown j h2 e' he')]

/-- The pages that `copyuvm` takes to copy the first `t` pages: page directory and page tables of
the kernel part, the copies, and their page tables. -/
def copyCost (t : ℕ) : ℕ := 65 + t + (t + 1023) / 1024

/-- The regions that have a page table after `t` pages are copied. -/
def copyTables (t : ℕ) : Finset ℕ := kernelTables ∪ Finset.range ((t + 1023) / 1024)

theorem card_copyTables {t : ℕ} (ht : t ≤ UPAGES) : (copyTables t).card = 64 + (t + 1023) / 1024 := by
  have hdisj : Disjoint kernelTables (Finset.range ((t + 1023) / 1024)) := by
    rw [Finset.disjoint_left]
    intro x h1 h2
    rw [kernelTables, Finset.mem_union, Finset.mem_Icc, Finset.mem_Icc] at h1
    rw [Finset.mem_range] at h2
    unfold UPAGES at ht
    omega
  rw [copyTables, Finset.card_union_of_disjoint hdisj, card_kernelTables, Finset.card_range]

theorem lt_tables_iff {t x : ℕ} : x < (t + 1023) / 1024 ↔ ∃ j, 0 ≤ j ∧ j < t ∧ j / 1024 = x := by
  constructor
  · intro hx
    exact ⟨x * 1024, by omega, by omega, by omega⟩
  · rintro ⟨j, -, h, rfl⟩
    omega

/-- What `copyuvm` does when its loop is over. -/
def copyEnd (ld : Linker) : Bool × Kmem × Pgdir → Except Stop (Option Pgdir × Kmem)
  | (true, k, d) => .ok (some d, k)
  | (false, k, d) => do
    let k ← freevm ld k d
    return (none, k)

theorem copyuvm_eq {par d : Pgdir} {k₁ : Kmem} (h : setupkvm ld k = .ok (some d, k₁)) :
    copyuvm ld k par sz = copyLoop ld par sz (sz / PGSIZE + 2) k₁ d 0 >>= copyEnd ld := by
  unfold copyuvm
  rw [h]
  show (copyLoop ld par sz (sz / PGSIZE + 2) k₁ d 0 >>= _) = _
  congr 1
  funext ⟨ok, k, d⟩
  cases ok with
  | true => rfl
  | false => rfl

/-- **`copyuvm` up to page `t`**: with fewer than `copyCost t` pages it returns `0` and takes
nothing; otherwise it goes on at page `t` with the pages before it copied. -/
theorem copyuvm_until (hk : k.Good ld) (htu : t ≤ UPAGES) (htsz : t ≤ npages sz)
    (hpres : ∀ j < t, (par.entry j).isSome)
    (hown : ∀ j < t, ∀ e, par.entry j = some e → e.frame ∉ k.freelist) :
    (∃ k', copyuvm ld k par sz = .ok (none, k') ∧ k'.Good ld ∧
      (∀ f, f ∈ k'.freelist ↔ f ∈ k.freelist) ∧ k.avail < copyCost t) ∨
    (copyCost t ≤ k.avail ∧ ∃ k₁ d₁ k' d', Setup ld k k₁ d₁ ∧
      Grown ld k₁ d₁ 0 t (pageOf k par) (permOf par) k' d' ∧
      copyuvm ld k par sz =
        copyLoop ld par sz (sz / PGSIZE + 2 - t) k' d' (t * PGSIZE) >>= copyEnd ld) := by
  unfold copyCost
  rcases setupkvm_spec hk with ⟨k', heq, hgood, hmem, havail⟩ | ⟨k₁, d₁, heq, hset⟩
  · refine .inl ⟨k', ?_, hgood, hmem, by omega⟩
    unfold copyuvm
    rw [heq]
    rfl
  · rw [copyuvm_eq heq]
    have hsub : ∀ f ∈ k₁.freelist, f ∈ k.freelist := by
      intro f hf
      have : f ∈ frames k₁ d₁ := .inl hf
      rwa [hset.frames_eq] at this
    have hfuel : sz / PGSIZE + 2 = sz / PGSIZE + 2 - t + t := by
      unfold npages PGSIZE at *
      omega
    have hsrc : pageOf k₁ par = pageOf k par := by
      funext j
      unfold pageOf
      rw [hset.page_eq]
    have havail := hset.avail_eq
    have hun := copyLoop_until htu htsz hpres t (sz / PGSIZE + 2 - t) 0 k₁ d₁
      (Nat.zero_add t) hset.sound (fun j _ hj => hset.user (by omega))
      fun j hj e he hmem => hown j hj e he (hsub _ hmem)
    rw [← hfuel, Nat.zero_mul, hsrc] at hun
    rcases hun with ⟨k', d', heq', hs', hfr', hshort⟩ | ⟨k', d', hg, heq'⟩
    · obtain ⟨k'', hfree, hgood, hmem, -⟩ := freevm_spec hs'
      refine .inl ⟨k'', ?_, hgood, fun f => ?_, ?_⟩
      · rw [heq']
        show (freevm ld k' d' >>= _) = _
        rw [hfree]
        rfl
      · rw [hmem f, hfr', hset.frames_eq]
        rfl
      · have hlt := hshort (copyTables t)
          (by rw [hset.tables_eq]; exact Finset.subset_union_left)
          (fun j h1 h2 => Finset.mem_union_right _ (Finset.mem_range.mpr
            (lt_tables_iff.mpr ⟨j, h1, h2, rfl⟩)))
        rw [budget, hset.tables_eq, card_kernelTables, card_copyTables htu] at hlt
        omega
    · have htab : tables d' = copyTables t := by
        ext x
        rw [hg.tables_eq, hset.tables_eq, copyTables, Finset.mem_union, Finset.mem_range,
          lt_tables_iff]
      have hb := hg.budget_eq
      rw [budget, budget, hset.tables_eq, htab, card_kernelTables, card_copyTables htu] at hb
      exact .inr ⟨by omega, k₁, d₁, k', d', hset, hg, by rw [heq']⟩

/-- **A page that is not present stops `copyuvm` with a panic**, if there is memory to get as far. -/
theorem copyuvm_panic (hk : k.Good ld) (htu : t ≤ UPAGES) (htsz : t < npages sz)
    (hpres : ∀ j < t, (par.entry j).isSome)
    (hown : ∀ j < t, ∀ e, par.entry j = some e → e.frame ∉ k.freelist) (habs : par.entry t = none)
    (havail : copyCost t ≤ k.avail) :
    ∃ msg, copyuvm ld k par sz = .error (.panic msg) := by
  rcases copyuvm_until hk htu htsz.le hpres hown with
    ⟨-, -, -, -, hlt⟩ | ⟨-, k₁, d₁, k', d', -, -, heq⟩
  · omega
  · obtain ⟨fuel, hfuel⟩ : ∃ fuel, sz / PGSIZE + 2 - t = fuel + 1 := by
      unfold npages PGSIZE at *
      exact ⟨sz / 4096 + 1 - t, by omega⟩
    rw [heq, hfuel, copyLoop, if_pos (lt_npages.mp htsz)]
    cases hpt : par.pde (pdx (t * PGSIZE)) with
    | none => exact ⟨_, rfl⟩
    | some pt =>
      rw [entry_of_pde hpt] at habs
      simp only [habs]
      exact ⟨_, rfl⟩

/-- **With all pages present `copyuvm` returns**: `0`, or a directory in which every page of the
source has a copy. -/
theorem copyuvm_ok (hk : k.Good ld) (hsz : sz ≤ KERNBASE)
    (hpres : ∀ j < npages sz, (par.entry j).isSome)
    (hown : ∀ j < npages sz, ∀ e, par.entry j = some e → e.frame ∉ k.freelist) :
    (∃ k', copyuvm ld k par sz = .ok (none, k') ∧ k'.Good ld ∧
      ∀ f, f ∈ k'.freelist ↔ f ∈ k.freelist) ∨
    ∃ k₁ d₁ k' d', Setup ld k k₁ d₁ ∧
      Grown ld k₁ d₁ 0 (npages sz) (pageOf k par) (permOf par) k' d' ∧
      copyuvm ld k par sz = .ok (some d', k') := by
  rcases copyuvm_until hk (npages_le hsz) le_rfl hpres hown with
    ⟨k', heq, hgood, hmem, -⟩ | ⟨-, k₁, d₁, k', d', hset, hg, heq⟩
  · exact .inl ⟨k', heq, hgood, hmem⟩
  · obtain ⟨fuel, hfuel⟩ : ∃ fuel, sz / PGSIZE + 2 - npages sz = fuel + 1 := by
      unfold npages PGSIZE at *
      exact ⟨sz / 4096 + 1 - (sz + 4095) / 4096, by omega⟩
    refine .inr ⟨k₁, d₁, k', d', hset, hg, ?_⟩
    rw [heq, hfuel, copyLoop, if_neg (mt lt_npages.mpr (lt_irrefl _))]
    rfl

/-! ## Absent pages -/

/-- There are fewer frames than user pages, so some user page is absent. -/
theorem Sound.exists_absent (hs : Sound ld k pg) : ∃ j < UPAGES, pg.entry j = none := by
  by_contra hall
  push Not at hall
  set frame : ℕ → ℕ := fun j => ((pg.entry j).map Pte.frame).getD 0
  have huse : ∀ j < UPAGES, pg.frameOf (.page j) = some (frame j) := by
    intro j hj
    obtain ⟨e, he⟩ := Option.ne_none_iff_exists'.mp (hall j hj)
    simp [frameOf, hj, he, frame]
  have hmaps : ∀ j ∈ Finset.range UPAGES, frame j ∈ Finset.range (PHYSTOP / PGSIZE) := by
    intro j hj
    have hlt := (hs.used _ _ (huse j (Finset.mem_range.mp hj))).1.2
    rw [Finset.mem_range]
    unfold PHYSTOP PGSIZE at *
    omega
  have hinj : Set.InjOn frame (Finset.range UPAGES) := by
    intro i hi j hj heq
    have hi' := huse i (Finset.mem_range.mp hi)
    rw [heq] at hi'
    exact Use.page.inj (hs.inj _ _ _ hi' (huse j (Finset.mem_range.mp hj)))
  have hcard := Finset.card_le_card_of_injOn frame hmaps hinj
  rw [Finset.card_range, Finset.card_range] at hcard
  unfold UPAGES PHYSTOP PGSIZE at hcard
  omega

/-- The first absent page below `sz` is a user page; without one, `sz` is at most `KERNBASE`. -/
theorem Sound.first_absent (hs : Sound ld k pg) (sz : ℕ) :
    (∃ t, t < npages sz ∧ t < UPAGES ∧ pg.entry t = none ∧ ∀ j < t, (pg.entry j).isSome) ∨
    (sz ≤ KERNBASE ∧ ∀ j < npages sz, (pg.entry j).isSome) := by
  obtain ⟨a, ha, habs⟩ := hs.exists_absent
  have hex : ∃ j, pg.entry j = none := ⟨a, habs⟩
  have hle : Nat.find hex ≤ a := Nat.find_le habs
  have hbefore : ∀ j < Nat.find hex, (pg.entry j).isSome := fun j hj =>
    Option.isSome_iff_ne_none.mpr (Nat.find_min hex hj)
  by_cases hlt : Nat.find hex < npages sz
  · exact .inl ⟨_, hlt, by omega, Nat.find_spec hex, hbefore⟩
  · refine .inr ⟨?_, fun j hj => hbefore j (by omega)⟩
    unfold npages PGSIZE KERNBASE UPAGES at *
    omega

end Pgdir
