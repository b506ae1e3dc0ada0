/-
# The tree and the words

`Holds` says that the memory of `PageWords` holds the page directory that `Vm` views as a tree.  The
functions on words and on trees keep step: they stop for the same reason or return memory and tree that
agree again.  What is known of `setupkvm` on trees, when it succeeds among other things, holds on words
with it.
-/
import Xv6.PageWords
import Xv6.Runs

namespace PageWords

open Function Word Outcome Option List

/-! ## Memory that holds a tree -/

/-- An entry of the tree, as a word says it. -/
def encode (e : Pte) : Entry := ⟨e.frame, permFlags e.perm ||| PTE_P⟩

/-- The allocator is in the same state. -/
structure SameFree (k tk : Kmem) : Prop where
  freelist : k.freelist = tk.freelist
  refuse : k.refuse = tk.refuse

/-- The memory `k` holds the directory `pg`; `tk` is the allocator that goes with the tree. -/
structure Holds (k : Kmem) (pg : Pgdir) (tk : Kmem) : Prop extends SameFree k tk where
  tables : Tables k pg.frame
  table : ∀ x, tableAt k pg.frame x = (pg.pde x).map PageTable.frame
  entry : ∀ x y, entryAt k pg.frame x y = ((pg.pde x).bind fun t => t.pte y).map encode

variable {k tk : Kmem} {pg : Pgdir}

/-- `kalloc` looks at nothing else. -/
theorem SameFree.kalloc (h : SameFree k tk) :
    k.kalloc.1 = tk.kalloc.1 ∧ SameFree k.kalloc.2 tk.kalloc.2 := by
  obtain ⟨freelist, refuse, page⟩ := k
  obtain ⟨freelist', refuse', page'⟩ := tk
  obtain ⟨rfl, rfl⟩ := h
  unfold Kmem.kalloc
  dsimp only
  split <;> exact ⟨rfl, rfl, rfl⟩

variable {ld : Linker}

theorem SameFree.kfree (h : SameFree k tk) (f : ℕ) :
    Sim SameFree (k.kfree ld f) (tk.kfree ld f) := by
  unfold Kmem.kfree
  split
  next => exact .ok ⟨congrArg (f :: ·) h.freelist, h.refuse⟩
  next => exact .error _

/-- The flat map of the memory is that of the tree. -/
theorem Holds.flat (h : Holds k pg tk) (n : Fin NPAGES) :
    flat k pg.frame n = (pg.entry n).map encode := h.entry _ _

/-- Present in the words is present in the tree. -/
theorem Holds.present_iff (h : Holds k pg tk) (x : Fin NPDENTRIES) :
    Present (k.word pg.frame x) ↔ (pg.pde x).isSome := by
  have ht := h.table x
  unfold tableAt at ht
  split at ht
  next hp =>
    refine ⟨fun _ => ?_, fun _ => hp⟩
    rw [← isSome_map (f := PageTable.frame), ← ht]
    rfl
  next hp =>
    refine ⟨fun hp' => absurd hp' hp, fun hs => ?_⟩
    rw [← isSome_map (f := PageTable.frame), ← ht] at hs
    cases hs

variable {k' tk' : Kmem}

/-- A failed `kalloc` changes nothing. -/
theorem Holds.of_same (h : Holds k pg tk) (hsame : SameFree k' tk')
    (hfree : k'.freelist = k.freelist) (hpage : k'.page = k.page) : Holds k' pg tk' where
  toSameFree := hsame
  tables := h.tables.congr hfree fun _ => Kmem.word_congr (congrFun hpage _)
  table x := (tableAt_congr (Kmem.word_congr (congrFun hpage _))).trans (h.table x)
  entry x y := (entryAt_congr hpage).trans (h.entry x y)

/-! ## Entries -/

variable {va : ℕ} {t : PageTable}

/-- An entry is assigned on both sides. -/
theorem Holds.setPte {w : Word} {e : Option Pte} (h : Holds k pg tk) (ht : pg.pde (pdx va) = some t)
    (hw : decode w = e.map encode) :
    Holds (k.setWord t.frame (ptx va) w) (pg.setPte va e) tk := by
  have htable : tableAt k pg.frame (pdx va) = some t.frame := by rw [h.table, ht]; rfl
  have hdir : (pg.setPte va e).frame = pg.frame := rfl
  have hne : pg.frame ≠ t.frame := fun heq => h.tables.ne_dir (pdx va) (by rw [htable, heq])
  refine ⟨⟨h.freelist, h.refuse⟩, h.tables.setWord htable, fun x => ?_, fun x y => ?_⟩
  · rw [Pgdir.setPte_pde_frame, hdir, ← h.table]
    exact tableAt_congr (Kmem.word_setWord_of_frame k w hne)
  · rw [hdir, entryAt_setWord h.tables htable, h.entry]
    unfold Pgdir.setPte
    by_cases hx : x = pdx va
    · subst hx
      simp only [update_self, ht, map_some, bind_some, true_and]
      by_cases hy : y = ptx va
      · rw [if_pos hy, hw, hy, update_self]
      · rw [if_neg hy, update_of_ne hy]
    · simp only [update_of_ne hx, if_neg fun h' : x = pdx va ∧ y = ptx va => hx h'.1]

/-- A new page table on both sides. -/
theorem Holds.addTable {va f : ℕ} (h : Holds k pg tk) (hx : pg.pde (pdx va) = none)
    (hk : k.freelist = f :: k'.freelist) (hpage : k'.page = k.page) (hsame : SameFree k' tk') :
    Holds (newTable k' pg.frame f (pdx va)) (pg.addTable va f) tk' := by
  have hf : f ∈ k.freelist := hk ▸ mem_cons_self
  obtain ⟨hlt, hne, -⟩ := h.tables.free f hf
  have hdir : (pg.addTable va f).frame = pg.frame := rfl
  refine ⟨⟨hsame.freelist, hsame.refuse⟩, h.tables.newTable hk hpage, fun x => ?_, fun x y => ?_⟩
  · rw [hdir, tableAt_newTable hlt hne, tableAt_congr (k := k) (Kmem.word_congr (by rw [hpage])), h.table]
    unfold Pgdir.addTable
    by_cases hxv : x = pdx va
    · simp [hxv]
    · simp [hxv]
  · have hold : entryAt (newTable k' pg.frame f (pdx va)) pg.frame x y = entryAt k pg.frame x y := by
      rw [← entryAt_newTable h.tables hf (by rw [h.table, hx]; rfl) x y]
      exact entryAt_congr (newTable_page hpage)
    rw [hdir, hold, h.entry]
    unfold Pgdir.addTable
    by_cases hxv : x = pdx va
    · simp [hxv, hx]
    · simp [hxv]

/-! ## The functions keep step -/

/-- `walkpgdir` on words and on the tree. -/
theorem Holds.walkpgdir (h : Holds k pg tk) (va : ℕ) :
    (∃ k' tk', PageWords.walkpgdir k pg.frame va true = (none, k') ∧
      Pgdir.walkpgdir tk pg va = (false, tk', pg) ∧ Holds k' pg tk') ∨
    ∃ t k' tk' pg', PageWords.walkpgdir k pg.frame va true = (some (t.frame, ptx va), k') ∧
      Pgdir.walkpgdir tk pg va = (true, tk', pg') ∧ Holds k' pg' tk' ∧ pg'.pde (pdx va) = some t ∧
      pg'.frame = pg.frame := by
  have htable := h.table (pdx va)
  unfold PageWords.walkpgdir Pgdir.walkpgdir
  dsimp only
  cases ht : pg.pde (pdx va) with
  | some t =>
    have hp : Present (k.word pg.frame (pdx va)) := (h.present_iff _).mpr (by rw [ht]; rfl)
    rw [ht, tableAt, if_pos hp] at htable
    rw [if_pos hp, some.inj htable]
    exact .inr ⟨t, k, tk, pg, rfl, rfl, h, ht, rfl⟩
  | none =>
    have hp : ¬ Present (k.word pg.frame (pdx va)) := by
      rw [h.present_iff, ht]
      exact Bool.false_ne_true
    rw [if_neg hp, if_pos rfl]
    obtain ⟨hval, hsame⟩ := h.toSameFree.kalloc
    rcases htk : tk.kalloc with ⟨v, tk'⟩
    rw [htk] at hval hsame
    obtain ⟨k', heq, hfree, hpage, -⟩ | ⟨f, k', heq, hfree, hpage, -⟩ := k.kalloc_cases
    · rw [heq] at hval hsame ⊢
      subst hval
      exact .inl ⟨k', tk', rfl, rfl, h.of_same hsame hfree hpage⟩
    · rw [heq] at hval hsame ⊢
      subst hval
      exact .inr ⟨⟨f, fun _ => none⟩, _, tk', pg.addTable va f, rfl, rfl,
        h.addTable ht hfree hpage hsame, update_self .., rfl⟩

/-- The word that `mappages` stores. -/
theorem decode_perm {pa : ℕ} (hpa : pa < 2 ^ 32) (halign : PGSIZE ∣ pa) (perm : Perm) :
    decode (make pa (permFlags perm ||| PTE_P)) = (some (⟨pa / PGSIZE, perm⟩ : Pte)).map encode := by
  obtain ⟨f, rfl⟩ := halign
  have hf : f % NPAGES = f := by
    unfold PGSIZE NPAGES at *
    omega
  have hmake := decode_make f (permFlags perm)
  rw [hf, mul_comm] at hmake
  rw [hmake, Nat.mul_div_cancel_left f (by decide)]
  rfl

/-- The entry of a page is there in the words exactly if it is there in the tree. -/
theorem Holds.decode_lookup (h : Holds k pg tk) (ht : pg.pde (pdx va) = some t) :
    decode (k.word t.frame (ptx va)) = (pg.lookup va).map encode := by
  have hentry := h.entry (pdx va) (ptx va)
  rwa [entryAt_of_table (by rw [h.table, ht]; rfl)] at hentry

theorem present_iff_decode (w : Word) : Present w ↔ (decode w).isSome := by
  unfold decode
  split
  next hp => exact ⟨fun _ => rfl, fun _ => hp⟩
  next hp => exact ⟨fun hp' => absurd hp' hp, nofun⟩

theorem of_decode_eq_some {w : Word} {e : Entry} (h : decode w = some e) :
    Present w ∧ frame w = e.frame := by
  unfold decode at h
  split at h
  next hp =>
    cases h
    exact ⟨hp, rfl⟩
  next => cases h

theorem Holds.present_lookup (h : Holds k pg tk) (ht : pg.pde (pdx va) = some t) :
    Present (k.word t.frame (ptx va)) ↔ (pg.lookup va).isSome := by
  rw [present_iff_decode, h.decode_lookup ht, isSome_map]

/-- `mappages` on words and on the tree. -/
abbrev MapSim (pgdir : ℕ) : Bool × Kmem → Bool × Kmem × Pgdir → Prop := fun r r' =>
  r.1 = r'.1 ∧ Holds r.2 r'.2.2 r'.2.1 ∧ r'.2.2.frame = pgdir

theorem Holds.mapLoop (perm : Perm) (last fuel : ℕ) : ∀ {k tk : Kmem} {pg : Pgdir} {a pa : ℕ},
    Holds k pg tk → pa < 2 ^ 32 → PGSIZE ∣ pa →
    Sim (MapSim pg.frame) (PageWords.mapLoop pg.frame (permFlags perm) last fuel k a pa)
      (Pgdir.mapLoop perm last fuel tk pg a pa) := by
  induction fuel with
  | zero => exact fun _ _ _ => .error _
  | succ fuel ih =>
    intro k tk pg a pa h hpa halign
    rw [PageWords.mapLoop, Pgdir.mapLoop]
    obtain ⟨k', tk', heq, heq', h'⟩ | ⟨t, k', tk', pg', heq, heq', h', ht, hdir⟩ := h.walkpgdir a
    · rw [heq, heq']
      exact .ok ⟨rfl, h', rfl⟩
    · rw [heq, heq']
      dsimp only
      by_cases hp : Present (k'.word t.frame (ptx a))
      · rw [if_pos hp, if_pos ((h'.present_lookup ht).mp hp)]
        exact .error _
      · rw [if_neg hp, if_neg (mt (h'.present_lookup ht).mpr hp)]
        have hset := h'.setPte ht (decode_perm hpa halign perm)
        by_cases hlast : a = last
        · rw [if_pos hlast, if_pos hlast]
          exact .ok ⟨rfl, hset, hdir⟩
        · rw [if_neg hlast, if_neg hlast, ← hdir]
          refine ih hset ?_ ?_
          · unfold u32
            omega
          · unfold u32
            obtain ⟨f, rfl⟩ := halign
            unfold PGSIZE
            omega

/-! ### Freeing -/

/-- Other frames than the directory and its tables do not matter. -/
theorem entryAt_setPage {pgdir f : ℕ} {b : ℕ → UInt8} (hdir : pgdir ≠ f)
    (htable : ∀ x, tableAt k pgdir x ≠ some f) (x y : Fin NPDENTRIES) :
    tableAt (k.setPage f b) pgdir x = tableAt k pgdir x ∧
      entryAt (k.setPage f b) pgdir x y = entryAt k pgdir x y := by
  have hsame : tableAt (k.setPage f b) pgdir x = tableAt k pgdir x :=
    tableAt_congr (Kmem.word_congr (Kmem.setPage_page_of_ne k b hdir))
  refine ⟨hsame, ?_⟩
  cases ht : tableAt k pgdir x with
  | none =>
    unfold entryAt
    rw [hsame, ht]
    rfl
  | some t =>
    have htf : t ≠ f := fun heq => htable x (heq ▸ ht)
    rw [entryAt_of_table (hsame.trans ht), entryAt_of_table ht,
      Kmem.word_congr (Kmem.setPage_page_of_ne k b htf)]

/-- The frame of a user page is freed on both sides. -/
theorem Holds.freed {n : ℕ} {e : Pte} (h : Holds k pg tk) (hs : Pgdir.Sound ld tk pg)
    (hn : n < UPAGES) (he : pg.entry n = some e) :
    Holds (Pgdir.freed k e.frame) pg (Pgdir.freed tk e.frame) := by
  have huse : pg.frameOf (.page n) = some e.frame := by
    rw [Pgdir.frameOf, if_pos hn, he]
    rfl
  obtain ⟨hfree, hnot⟩ := hs.used _ _ huse
  have hdir : pg.frame ≠ e.frame := fun heq => by
    cases hs.inj .dir (.page n) e.frame (congrArg some heq) huse
  have htable : ∀ x, tableAt k pg.frame x ≠ some e.frame := fun x hx => by
    cases hs.inj (.table x) (.page n) e.frame ((h.table x).symm.trans hx) huse
  have hsame := entryAt_setPage (b := fun _ => 1) hdir htable
  have htables : ∀ x, tableAt (Pgdir.freed k e.frame) pg.frame x = tableAt k pg.frame x :=
    fun x => (hsame x x).1
  refine ⟨⟨congrArg (e.frame :: ·) h.freelist, h.refuse⟩, ⟨fun x y t hx hy => ?_, fun x hx => ?_, ?_,
    fun f hf => ?_⟩, fun x => (htables x).trans (h.table x), fun x y => (hsame x y).2.trans (h.entry x y)⟩
  · rw [htables] at hx hy
    exact h.tables.inj x y t hx hy
  · rw [htables] at hx
    exact h.tables.ne_dir x hx
  · exact nodup_cons.mpr ⟨h.freelist ▸ hnot, h.tables.nodup⟩
  · simp only [htables]
    obtain rfl | hf := mem_cons.mp hf
    · refine ⟨?_, hdir.symm, htable⟩
      have hlt := hfree.2
      unfold PHYSTOP PGSIZE NPAGES at *
      omega
    · exact h.tables.free f hf

theorem Holds.walk_none (h : Holds k pg tk) (ht : pg.pde (pdx va) = none) :
    PageWords.walkpgdir k pg.frame va false = (none, k) := by
  have hp : ¬ Present (k.word pg.frame (pdx va)) := by
    rw [h.present_iff, ht]
    exact Bool.false_ne_true
  unfold PageWords.walkpgdir
  dsimp only
  rw [if_neg hp, if_neg Bool.false_ne_true]

theorem Holds.walk_some (h : Holds k pg tk) (ht : pg.pde (pdx va) = some t) :
    PageWords.walkpgdir k pg.frame va false = (some (t.frame, ptx va), k) := by
  have hp : Present (k.word pg.frame (pdx va)) := (h.present_iff _).mpr (by rw [ht]; rfl)
  have htable := h.table (pdx va)
  rw [tableAt, if_pos hp, ht] at htable
  unfold PageWords.walkpgdir
  dsimp only
  rw [if_pos hp, some.inj htable]

/-- `deallocuvm` on words and on the tree. -/
abbrev FreeSim (pgdir : ℕ) : Kmem → Kmem × Pgdir → Prop := fun k r =>
  Holds k r.2 r.1 ∧ r.2.frame = pgdir

theorem Holds.deallocLoop {oldsz : ℕ} (hold : oldsz ≤ KERNBASE) (fuel : ℕ) :
    ∀ {k tk : Kmem} {pg : Pgdir} (n : ℕ), Holds k pg tk → Pgdir.Sound ld tk pg →
    Sim (FreeSim pg.frame) (PageWords.deallocLoop ld pg.frame oldsz fuel k (n * PGSIZE))
      (Pgdir.deallocLoop ld oldsz fuel tk pg (n * PGSIZE)) := by
  induction fuel with
  | zero => exact fun _ _ _ => .error _
  | succ fuel ih =>
    intro k tk pg n h hs
    rw [PageWords.deallocLoop, Pgdir.deallocLoop]
    by_cases hlt : n * PGSIZE < oldsz
    · have hn : n < UPAGES := by
        unfold PGSIZE KERNBASE UPAGES at *
        omega
      have hnext : u32 (n * PGSIZE + PGSIZE) = (n + 1) * PGSIZE :=
        Pgdir.u32_next (by unfold UPAGES NPAGES at *; omega)
      rw [if_pos hlt, if_pos hlt, hnext]
      cases ht : pg.pde (pdx (n * PGSIZE)) with
      | none =>
        rw [h.walk_none ht]
        simp only [Pgdir.next_region hn]
        exact ih _ h hs
      | some t =>
        rw [h.walk_some ht]
        dsimp only
        have hdecode := h.decode_lookup ht
        have hentry : pg.lookup (n * PGSIZE) = t.pte (ptx (n * PGSIZE)) := Pgdir.entry_of_pde ht
        rw [hentry] at hdecode
        cases he : t.pte (ptx (n * PGSIZE)) with
        | none =>
          have hp : ¬ Present (k.word t.frame (ptx (n * PGSIZE))) := by
            rw [present_iff_decode, hdecode, he]
            exact Bool.false_ne_true
          rw [if_neg hp]
          exact ih _ h hs
        | some e =>
          rw [he] at hdecode hentry
          obtain ⟨hp, hframe⟩ := of_decode_eq_some hdecode
          have hfree := (hs.used (.page n) e.frame
            (by rw [Pgdir.frameOf, if_pos hn, Pgdir.entry, hentry]; rfl)).1
          rw [if_pos hp, hframe]
          simp only [encode, if_neg (ld.freeable_pos hfree), Pgdir.kfree_ok hfree]
          exact ih (n + 1) ((h.freed hs hn hentry).setPte ht rfl) (hs.unmap hn hentry rfl).1
    · rw [if_neg hlt, if_neg hlt]
      exact .ok ⟨h, rfl⟩

/-- `freevm` frees the page tables on both sides. -/
theorem Holds.freeTables (h : Holds k pg tk) :
    Sim SameFree (PageWords.freeTables ld pg.frame k) (Pgdir.freeTables ld pg tk) := by
  -- the directory stays as it is while its tables go
  let S : Kmem → Kmem → Prop := fun k' tk' => SameFree k' tk' ∧ ∀ x, k'.word pg.frame x = k.word pg.frame x
  refine Sim.mono (R := S) (Sim.foldlM (fun k' tk' x hS => ?_) _ ⟨h.toSameFree, fun _ => rfl⟩)
    fun _ _ hS => hS.1
  have htable := h.table x
  rw [hS.2 x]
  cases ht : pg.pde x with
  | none =>
    have hp : ¬ Present (k.word pg.frame x) := by
      rw [h.present_iff, ht]
      exact Bool.false_ne_true
    rw [if_neg hp]
    exact .ok hS
  | some t =>
    have hp : Present (k.word pg.frame x) := (h.present_iff x).mpr (by rw [ht]; rfl)
    rw [ht, tableAt, if_pos hp] at htable
    rw [if_pos hp, some.inj htable]
    have hne : pg.frame ≠ t.frame := fun heq =>
      h.tables.ne_dir x (by rw [h.table, ht, heq]; rfl)
    dsimp only
    unfold Kmem.kfree
    split
    next =>
      refine .ok ⟨⟨congrArg (t.frame :: ·) hS.1.freelist, hS.1.refuse⟩, fun y => ?_⟩
      rw [← hS.2 y]
      exact Kmem.word_congr (Kmem.setPage_page_of_ne k' _ hne)
    next => exact .error _

/-- `freevm` on words and on the tree. -/
theorem Holds.freevm (h : Holds k pg tk) (hs : Pgdir.Sound ld tk pg) :
    Sim SameFree (PageWords.freevm ld k pg.frame) (Pgdir.freevm ld tk pg) := by
  have hdealloc : Sim (fun r r' => FreeSim pg.frame r.2 r'.2) (PageWords.deallocuvm ld k pg.frame KERNBASE 0)
      (Pgdir.deallocuvm ld tk pg KERNBASE 0) := by
    have hloop := h.deallocLoop le_rfl (KERNBASE / PGSIZE + 2) 0 hs
    unfold PageWords.deallocuvm Pgdir.deallocuvm
    rw [if_neg (by decide), if_neg (by decide)]
    exact hloop.bind fun _ _ hk => .ok hk
  refine hdealloc.bind fun r r' hr => ?_
  obtain ⟨n, k'⟩ := r
  obtain ⟨n', tk', pg'⟩ := r'
  obtain ⟨h', hdir⟩ := hr
  dsimp only at h' hdir ⊢
  rw [← hdir]
  exact h'.freeTables.bind fun _ _ hsame => hsame.kfree _

/-! ### `setupkvm` -/

/-- `setupkvm` on words and on the tree. -/
abbrev SetupSim : Option ℕ × Kmem → Option Pgdir × Kmem → Prop := fun r r' =>
  match r'.1 with
  | none => r.1 = none ∧ SameFree r.2 r'.2
  | some d => r.1 = some d.frame ∧ Holds r.2 d r'.2

open Pgdir (Fit) in
/-- The loop of `setupkvm` over ranges in order, above which nothing is mapped yet. -/
theorem Holds.setupLoop {ms : List Pgdir.Kmap} : ∀ {lo : ℕ} {k tk : Kmem} {pg : Pgdir},
    Fit lo ms → Pgdir.Sound ld tk pg → (∀ j, lo ≤ j → j < NPAGES → pg.entry j = none) →
    Holds k pg tk →
    Sim SetupSim (PageWords.setupLoop ld pg.frame ms k) (Pgdir.setupLoop ld ms tk pg) := by
  induction ms with
  | nil => exact fun _ _ _ h => .ok ⟨rfl, h⟩
  | cons m ms ih =>
    intro lo k tk pg hfit hs hun h
    obtain ⟨hm, hfit⟩ := hfit
    have hpos := hm.pos
    have hphys := hm.phys_le
    have halign : PGSIZE ∣ m.phys_start := by
      rw [hm.phys_eq]
      exact dvd_mul_left ..
    have hlt : m.phys_start < 2 ^ 32 := by
      rw [hm.phys_eq]
      unfold PGSIZE NPAGES at *
      omega
    have hsim : Sim (MapSim pg.frame) (PageWords.mappages k pg.frame m.virt m.size m.phys_start
        (permFlags m.perm)) (Pgdir.mappages tk pg m.virt m.size m.phys_start m.perm) :=
      h.mapLoop m.perm _ _ hlt halign
    unfold PageWords.setupLoop Pgdir.setupLoop
    rw [show u32 (m.phys_end + 2 ^ 32 - m.phys_start) = m.size from rfl]
    obtain ⟨tk₁, pg₁, heq, hfail⟩ | ⟨tk₁, pg₁, heq, hmap, hun₁⟩ := hm.mappages hs hun
    · obtain ⟨⟨ok, k₁⟩, heq', hok, h₁, hdir⟩ := hsim.exists_ok heq
      dsimp only at hok h₁ hdir
      subst hok
      rw [heq, heq', ← hdir]
      exact (h₁.freevm hfail.sound).bind fun _ _ hsame => .ok ⟨rfl, hsame⟩
    · obtain ⟨⟨ok, k₁⟩, heq', hok, h₁, hdir⟩ := hsim.exists_ok heq
      dsimp only at hok h₁ hdir
      subst hok
      rw [heq, heq', ← hdir]
      exact ih hfit hmap.sound hun₁ h₁

/-- A frame of zeros is an empty directory. -/
theorem holds_empty {f : ℕ} (hk : k.Good ld) (hfree : k.freelist = f :: k'.freelist)
    (hsame : SameFree k' tk') :
    Holds (k'.setPage f fun _ => 0) (Pgdir.empty f) tk' := by
  have htable : ∀ x, tableAt (k'.setPage f fun _ => 0) f x = none := by
    intro x
    rw [tableAt, Kmem.word_zero (Kmem.setPage_page_self k' f _)]
    rfl
  have hnd := hk.nodup
  rw [hfree, nodup_cons] at hnd
  refine ⟨⟨hsame.freelist, hsame.refuse⟩, ⟨fun x y t hx => ?_, fun x hx => ?_, hnd.2, fun g hg => ?_⟩, htable,
    fun x y => ?_⟩
  · rw [Pgdir.empty, htable] at hx
    cases hx
  · rw [Pgdir.empty, htable] at hx
    cases hx
  · refine ⟨?_, ?_, fun x hx => ?_⟩
    · have hlt := (hk.freeable g (hfree ▸ mem_cons_of_mem f hg)).2
      unfold PHYSTOP PGSIZE NPAGES at *
      omega
    · rintro rfl
      exact hnd.1 hg
    · rw [Pgdir.empty, htable] at hx
      cases hx
  · unfold entryAt
    rw [Pgdir.empty, htable]
    rfl

/-- **`setupkvm` on words and on trees.** -/
theorem setupkvm_sim (hk : k.Good ld) :
    Sim SetupSim (setupkvm ld k) (Pgdir.setupkvm ld k) := by
  unfold setupkvm Pgdir.setupkvm
  obtain ⟨k₁, heq, hfree, -, -⟩ | ⟨f, k₁, heq, hfree, -, -⟩ := k.kalloc_cases
  · rw [heq]
    exact .ok ⟨rfl, rfl, rfl⟩
  · rw [heq]
    dsimp only
    rw [if_neg (by decide), if_neg (by decide)]
    have hdir : f = (Pgdir.empty f).frame := rfl
    rw [hdir]
    exact Holds.setupLoop (Pgdir.kmap_fit ld) (Pgdir.Sound.empty hk hfree).1
      (fun j _ _ => Pgdir.entry_empty f j) (holds_empty hk hfree ⟨rfl, rfl⟩)

/-- **`setupkvm`** needs 65 pages; then the flat map is that of the ranges. -/
theorem setupkvm_cases (hk : k.Good ld) :
    (∃ k', setupkvm ld k = .ok (none, k') ∧ k.avail < 65) ∨
    ∃ d k', setupkvm ld k = .ok (some d, k') ∧ flat k' d = FlatMap.kernel ld := by
  obtain ⟨tk', heq, -, -, -, havail⟩ | ⟨tk', pg, heq, hset⟩ := Pgdir.setupkvm_spec hk
  · obtain ⟨⟨r, k'⟩, heq', hr, -⟩ := (setupkvm_sim hk).exists_ok heq
    cases hr
    exact .inl ⟨k', heq', havail⟩
  · obtain ⟨⟨r, k'⟩, heq', hr, h⟩ := (setupkvm_sim hk).exists_ok heq
    obtain rfl : r = some pg.frame := hr
    refine .inr ⟨pg.frame, k', heq', funext fun n => ?_⟩
    rw [Holds.flat h, hset.entry_eq n n.isLt]
    rfl

/-- **Page tables refine a flat map.**  `walkpgdir` leaves it alone; `mappages` returns, and if it returns `0`,
it has added the pages of its range; `clearpteu` takes one flag from one page; `setupkvm` yields the ranges of
`kmap`, if there is memory for them. -/
theorem pageTables_refine (ld : Linker) {pgdir : ℕ} (h : Tables k pgdir) :
    (∀ va < 2 ^ 32, flat (walkpgdir k pgdir va true).2 pgdir = flat k pgdir) ∧
    (∀ va size pa perm, 1 ≤ size → va + (size - 1) < 2 ^ 32 → pa < 2 ^ 32 → PGSIZE ∣ pa →
      mappages k pgdir va size pa perm ≠ .error .blocked ∧
      ∀ k', mappages k pgdir va size pa perm = .ok (true, k') →
        (∀ n : Fin NPAGES, va / PGSIZE ≤ n → n ≤ (va + (size - 1)) / PGSIZE → flat k pgdir n = none) ∧
        flat k' pgdir = (flat k pgdir).mapRange (va / PGSIZE) ((va + (size - 1)) / PGSIZE)
          (pa / PGSIZE) (perm ||| PTE_P)) ∧
    (∀ uva < 2 ^ 32, ∀ k', clearpteu k pgdir uva = .ok k' →
      flat k' pgdir = (flat k pgdir).clearU (uva / PGSIZE)) ∧
    (k.Good ld →
      (∃ k', setupkvm ld k = .ok (none, k') ∧ k.avail < 65) ∨
      ∃ d k', setupkvm ld k = .ok (some d, k') ∧ flat k' d = FlatMap.kernel ld) := by
  refine ⟨fun va _ => ?_, fun va size pa perm hsize hend hpa halign => ?_, fun uva huva k' hclear => ?_,
    setupkvm_cases⟩
  · obtain ⟨k', heq, -, hpage⟩ | ⟨t, k', heq, -, -, hentry⟩ := walkpgdir_cases h va
    · rw [heq]
      exact funext fun n => entryAt_congr hpage
    · rw [heq]
      exact funext fun n => hentry ..
  · have hlast : va / PGSIZE + ((va + (size - 1)) / PGSIZE - va / PGSIZE) = (va + (size - 1)) / PGSIZE :=
      Nat.add_sub_cancel' (Nat.div_le_div_right (by omega))
    obtain ⟨k₁, heq⟩ | heq | ⟨k₁, heq, hm⟩ := mappages_cases h hsize hend hpa halign perm
    · rw [heq]
      exact ⟨nofun, nofun⟩
    · rw [heq]
      exact ⟨nofun, nofun⟩
    · rw [heq]
      refine ⟨nofun, fun k' hk' => ?_⟩
      cases hk'
      rw [← hlast]
      exact ⟨hm.absent, hm.flat_eq⟩
  · exact clearpteu_flat h huva hclear

/-- Zeroed memory with a free page. -/
def zeroed : Kmem := ⟨[5], [], fun _ _ => 0⟩

theorem tables_zeroed : Tables zeroed 3 := by
  have htable : ∀ x, tableAt zeroed 3 x = none := by
    intro x
    rw [tableAt, Kmem.word_zero rfl]
    rfl
  refine ⟨fun x y t hx => ?_, fun x hx => ?_, nodup_singleton 5, fun f hf => ?_⟩
  · rw [htable] at hx
    cases hx
  · rw [htable] at hx
    cases hx
  · rw [mem_singleton.mp hf]
    refine ⟨by decide, by decide, fun x hx => ?_⟩
    rw [htable] at hx
    cases hx

/-- A page table is made for the first page, which is as absent as before. -/
theorem pageTables_refine_first : (walkpgdir zeroed 3 0 true).1 = some (5, 0) ∧
    flat (walkpgdir zeroed 3 0 true).2 3 = flat zeroed 3 ∧ flat zeroed 3 0 = none := by
  have hmake : (walkpgdir zeroed 3 0 true).1 = some (5, 0) := by
    unfold walkpgdir
    dsimp only
    rw [Kmem.word_zero rfl, if_neg (by decide)]
    rfl
  refine ⟨hmake, (pageTables_refine ⟨KERNLINK + PGSIZE, KERNLINK + 2 * PGSIZE, rfl, by decide, by decide,
    by decide⟩ tables_zeroed).1 0 (by decide), ?_⟩
  rw [flat, entryAt, tableAt, Kmem.word_zero rfl]
  rfl

end PageWords
