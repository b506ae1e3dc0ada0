/-
# Page faults

`trap.c` has two handlers for page faults.  With `LAZY` a zeroed page is mapped at the faulting address; with
`LOCALITY` the two pages after it are mapped as well.  Neither looks at the page table first, and `mappages`
panics when a page is already there.

* `faultServed_iff`: in every state that a process can reach, a fault is served exactly when its page is absent or
  there is no memory.
* `localityServed_iff`: with memory for all three pages, the second handler is fine exactly when the two pages after
  the faulting one are absent.
-/
import Xv6.ArgStack

namespace ProcMem

open Pgdir Outcome List

variable {ld : Linker} {p q : ProcMem}

/-! ## The lazy handler -/

/-- `trap` with `T_PGFLT` from user code, up to its return or to `exit`.  The first process must not exit. -/
def lazyTrap (ld : Linker) (p : ProcMem) (initproc : Bool) (va : ℕ) : Except Stop ProcMem := do
  let (ok, q) ← p.mapFault ld (pgrounddown va)
  if ok then
    return q
  else if initproc then
    .error (.panic "init exiting")
  else
    return q.bad

/-- The handler does not panic: it maps a zeroed page at the faulting address, or the process is killed. -/
def FaultServed (ld : Linker) (p : ProcMem) (initproc : Bool) (va : ℕ) : Prop :=
  ∃ q, p.lazyTrap ld initproc va = .ok q ∧
    ((∃ f, q.pgdir.entry (va / PGSIZE) = some ⟨f, ⟨true, true⟩⟩ ∧ q.kmem.page f = fun _ => 0) ∨ q.killed = true)

/-- The handler in a sound address space. -/
theorem faultServed_of_sound (hs : Sound ld p) (initproc : Bool) {va : ℕ} (hva : va < 2 ^ 32) :
    FaultServed ld p initproc va ↔
      (p.pgdir.entry (va / PGSIZE) = none ∨ p.kmem.avail = 0) ∧ (initproc = true → p.Room (va / PGSIZE)) := by
  have hn : va / PGSIZE < NPAGES := by
    unfold PGSIZE NPAGES at *
    omega
  unfold FaultServed lazyTrap pgrounddown
  rcases mapFault_cases hs hn with ⟨k, heq, href⟩ | ⟨heq, hsome, hpos⟩ | ⟨q, f, heq, hun, hroom, hadd⟩
  · -- memory is short: the process is killed, which the first process must not be
    simp only [heq, bind, Except.bind]
    cases initproc with
    | true =>
      refine ⟨fun ⟨q, hq, _⟩ => (by cases hq), fun h => absurd (h.2 rfl) href.room⟩
    | false =>
      exact ⟨fun _ => ⟨href.why, fun h => (by cases h)⟩, fun _ => ⟨_, rfl, .inr rfl⟩⟩
  · simp only [heq, bind, Except.bind]
    refine ⟨fun ⟨q, hq, _⟩ => (by cases hq), fun ⟨h, _⟩ => ?_⟩
    rcases h with hnone | h0
    · rw [hnone] at hsome
      cases hsome
    · omega
  · simp only [heq, bind, Except.bind]
    refine ⟨fun _ => ⟨.inl hun, fun _ => hroom⟩, fun _ => ⟨q, rfl, .inl ⟨f, ?_, hadd.zero⟩⟩⟩
    rw [hadd.entry_eq _ hn, if_pos rfl]

/-- **Page faults in every reachable state**: the handler maps a zeroed page or kills the process exactly when the
page is absent or the allocator is empty, and the first process is not the one to be killed. -/
theorem faultServed_iff {k : Kmem} {init : List UInt8} {ops : List Op} (hk : k.Good ld)
    (hinit : userinit ld k init = .ok p) (hrun : Runs.run (step ld) p ops = some q) (initproc : Bool) {va : ℕ}
    (hva : va < 2 ^ 32) :
    FaultServed ld q initproc va ↔
      (q.pgdir.entry (va / PGSIZE) = none ∨ q.kmem.avail = 0) ∧ (initproc = true → q.Room (va / PGSIZE)) :=
  faultServed_of_sound (run_sound hk hinit hrun) initproc hva

/-- After `exec` the process has its old image, or one with a guard page. -/
theorem exec_stackPages (hs : Sound ld p) {path : Option File} (heq : p.exec ld path [] = .ok q) :
    q.sz = p.sz ∧ q.pgdir = p.pgdir ∨ Exec.StackPages q.pgdir q.sz := by
  unfold exec at heq
  obtain ⟨⟨img, k⟩, hx, heq⟩ := bind_eq_ok.mp heq
  cases img with
  | none =>
    cases heq
    exact .inl ⟨rfl, rfl⟩
  | some img =>
    obtain ⟨n, k₁, pg₁, hload, hstack⟩ := Exec.exec_some hs.toGood hx
    have hpages := (Exec.addStack_stacked hload (fun s h => absurd h not_mem_nil) hstack).1
    obtain ⟨k₂, -, heq⟩ := bind_eq_ok.mp heq
    cases heq
    exact .inr hpages

/-- The first process after `exec` has a guard page at address `0`. -/
theorem exists_guard : ∃ p q f, userinit bootLinker bootKmem [] = .ok p ∧
    step bootLinker p (.exec (some emptyProgram) []) = some q ∧ Sound bootLinker q ∧
    q.pgdir.entry 0 = some ⟨f, ⟨true, false⟩⟩ ∧ 0 < q.kmem.avail := by
  obtain ⟨p, q, hinit, hexec, hs, hsized, hsz, havail⟩ := exists_loaded
  obtain ⟨p', hinit', hs', -, hsz', -⟩ := exists_boot
  obtain rfl : p = p' := by
    rw [hinit] at hinit'
    exact Except.ok.inj hinit'
  rcases exec_stackPages hs' (toOption_eq_some.mp hexec) with ⟨hsame, -⟩ | hst
  · rw [hsz, hsz'] at hsame
    exact absurd hsame (by decide)
  · obtain ⟨f, hf⟩ := hst.guard
    rw [hsz] at hf
    exact ⟨p, q, f, hinit, hexec, hs, hf, by omega⟩

/-- **A program that touches its guard page brings the kernel down.** -/
theorem not_faultServed_guard : ∃ p q f, userinit bootLinker bootKmem [] = .ok p ∧
    Runs.run (step bootLinker) p [.exec (some emptyProgram) []] = some q ∧
    q.pgdir.entry 0 = some ⟨f, ⟨true, false⟩⟩ ∧ ¬ FaultServed bootLinker q false 0 := by
  obtain ⟨p, q, f, hinit, hexec, hs, hf, hpos⟩ := exists_guard
  refine ⟨p, q, f, hinit, ?_, hf, fun h => ?_⟩
  · rw [Runs.run_cons, hexec]
    rfl
  · rcases ((faultServed_of_sound hs false (by decide)).mp h).1 with hnone | h0
    · rw [Nat.zero_div, hf] at hnone
      cases hnone
    · omega

/-- The first process can touch the page at `0x5000`. -/
theorem faultServed_boot : ∃ p, userinit bootLinker bootKmem [] = .ok p ∧ FaultServed bootLinker p true 0x5000 := by
  obtain ⟨p, hinit, -, hsized, hsz, havail⟩ := exists_boot
  have habs : p.pgdir.entry (0x5000 / PGSIZE) = none := by
    rw [← Option.not_isSome_iff_eq_none, hsized.present _ (by decide), hsz]
    decide
  refine ⟨p, hinit, (faultServed_iff bootKmem_good hinit (show Runs.run (step bootLinker) p [] = some p from rfl)
    true (by decide)).mpr ⟨.inl habs, fun _ => .inl ?_⟩⟩
  omega

/-! ## The handler that maps three pages -/

/-- `con_pages` of `trap`. -/
abbrev con_pages : ℕ := 3

/-- Zeroed pages at some addresses, one after the other; `false` for `goto bad`. -/
def mapFaults (ld : Linker) : List ℕ → ProcMem → Except Stop (Bool × ProcMem)
  | [], p => .ok (true, p)
  | a :: rest, p => do
    let (ok, q) ← p.mapFault ld a
    if ok then mapFaults ld rest q else return (false, q)

/-- `trap` with `T_PGFLT` when it is compiled with `LOCALITY`. -/
def localityFault (ld : Linker) (p : ProcMem) (va : ℕ) : Except Stop ProcMem := do
  let start_addr := pgrounddown va
  let (ok, q) ← mapFaults ld ((range con_pages).map fun i => u32 (start_addr + i * PGSIZE)) p
  return if ok then q else q.bad

/-- There is memory for these pages, and for the page tables that they lack. -/
def Enough (p : ProcMem) (ns : List ℕ) : Prop :=
  ns.length + ((ns.map (· / 1024)).toFinset \ tables p.pgdir).card ≤ p.kmem.avail

variable {ns : List ℕ}

theorem Enough.room {n : ℕ} (hn : n < NPAGES) (h : p.Enough (n :: ns)) : p.Room n := by
  unfold Enough at h
  rw [length_cons, map_cons, toFinset_cons] at h
  by_cases ht : p.pgdir.hasTable n
  · exact .inr ⟨by omega, ht⟩
  · have hmem : n / 1024 ∈ insert (n / 1024) (ns.map (· / 1024)).toFinset \ tables p.pgdir :=
      Finset.mem_sdiff.mpr ⟨Finset.mem_insert_self _ _, mt (mem_tables hn).mp ht⟩
    have hpos := Finset.card_pos.mpr ⟨_, hmem⟩
    exact .inl (by omega)

theorem insert_sdiff_eq {R T : Finset ℕ} (x : ℕ) (hx : x ∉ T) : insert x R \ T = insert x (R \ insert x T) := by
  ext y
  by_cases hy : y = x
  · subst hy
    simp [hx]
  · simp [hy]

variable {n f : ℕ}

/-- What is left after the first page is enough for the others. -/
theorem Enough.tail (h : p.Enough (n :: ns)) (ha : Added ld p n f q) : q.Enough ns := by
  unfold Enough at *
  have hb := ha.budget_eq
  unfold budget at hb
  rw [ha.tables_eq] at hb ⊢
  rw [length_cons, map_cons, toFinset_cons] at h
  by_cases hmem : n / 1024 ∈ tables p.pgdir
  · rw [Finset.insert_eq_of_mem hmem] at hb ⊢
    rw [Finset.insert_sdiff_of_mem _ hmem] at h
    omega
  · -- the region of this page is one of those that lack a page table
    rw [Finset.card_insert_of_notMem hmem] at hb
    rw [insert_sdiff_eq _ hmem, Finset.card_insert_of_notMem
      fun hx => (Finset.mem_sdiff.mp hx).2 (Finset.mem_insert_self _ _)] at h
    omega

/-- Some pages have been added to an address space, each with a zeroed frame. -/
structure AddedAll (ld : Linker) (p : ProcMem) (ns : List ℕ) (q : ProcMem) : Prop where
  sound : Sound ld q
  new : ∀ n ∈ ns, ∃ f, q.pgdir.entry n = some ⟨f, ⟨true, true⟩⟩ ∧ q.kmem.page f = fun _ => 0
  old : ∀ j < NPAGES, j ∉ ns → q.pgdir.entry j = p.pgdir.entry j
  page_eq : ∀ g, g ∉ p.kmem.freelist → q.kmem.page g = p.kmem.page g
  avail_le : p.kmem.avail ≤ q.kmem.avail + 2 * ns.length

/-- A page takes at most one more for its page table. -/
theorem Added.avail_le (h : Added ld p n f q) : p.kmem.avail ≤ q.kmem.avail + 2 := by
  have hb := h.budget_eq
  unfold budget at hb
  rw [h.tables_eq] at hb
  have := Finset.card_insert_le (n / 1024) (tables p.pgdir)
  omega

/-- The first page is left alone by the rounds after it. -/
theorem Added.cons {r : ProcMem} (hn : n < NPAGES) (hnot : n ∉ ns) (ha : Added ld p n f q)
    (h : AddedAll ld q ns r) : AddedAll ld p (n :: ns) r where
  sound := h.sound
  new := by
    intro m hm
    rcases mem_cons.mp hm with rfl | hm
    · refine ⟨f, ?_, ?_⟩
      · rw [h.old _ hn hnot, ha.entry_eq _ hn, if_pos rfl]
      · rw [h.page_eq f ha.used, ha.zero]
    · exact h.new m hm
  old := by
    intro j hj hmem
    rw [mem_cons, not_or] at hmem
    rw [h.old j hj hmem.2, ha.entry_eq j hj, if_neg hmem.1]
  page_eq := fun g hg => by
    rw [h.page_eq g (fun hq => hg (ha.free_sub g hq)), ha.page_eq g hg]
  avail_le := by
    have h1 := ha.avail_le
    have h2 := h.avail_le
    rw [length_cons]
    omega

/-- **Several pages**: with enough memory they are all added, or one of them is there already and the kernel
panics. -/
theorem mapFaults_cases : ∀ {p : ProcMem}, Sound ld p → (∀ n ∈ ns, n < NPAGES) → ns.Nodup →
    p.Enough ns →
    ((∀ n ∈ ns, p.pgdir.entry n = none) ∧
      ∃ q, mapFaults ld (ns.map (· * PGSIZE)) p = .ok (true, q) ∧ AddedAll ld p ns q) ∨
    (¬ (∀ n ∈ ns, p.pgdir.entry n = none) ∧
      mapFaults ld (ns.map (· * PGSIZE)) p = .error (.panic "remap")) := by
  induction ns with
  | nil =>
    intro p hs _ _ _
    exact .inl ⟨fun n hn => absurd hn not_mem_nil, p, rfl, hs, fun n hn => absurd hn not_mem_nil,
      fun j _ _ => rfl, fun g _ => rfl, le_rfl⟩
  | cons n ns ih =>
    intro p hs hlt hnd henough
    have hn := hlt n mem_cons_self
    obtain ⟨hnot, hnd'⟩ := nodup_cons.mp hnd
    simp only [map_cons, mapFaults, forall_mem_cons]
    rcases mapFault_cases hs hn with ⟨k, -, href⟩ | ⟨heq, hsome, -⟩ | ⟨q, f, heq, hun, -, hadd⟩
    · exact absurd (henough.room hn) href.room
    · refine .inr ⟨fun h => ?_, ?_⟩
      · rw [h.1] at hsome
        cases hsome
      · rw [heq]
        rfl
    · -- the pages after it are absent now if they were before
      have hiff : (∀ m ∈ ns, q.pgdir.entry m = none) ↔ ∀ m ∈ ns, p.pgdir.entry m = none := by
        refine forall₂_congr fun m hm => ?_
        rw [hadd.entry_eq m (hlt m (mem_cons_of_mem _ hm)), if_neg (by rintro rfl; exact hnot hm)]
      rcases ih hadd.sound (fun m hm => hlt m (mem_cons_of_mem _ hm)) hnd' (henough.tail hadd) with
        ⟨habs, r, hr, hall⟩ | ⟨habs, hr⟩
      · refine .inl ⟨⟨hun, hiff.mp habs⟩, r, ?_, hadd.cons hn hnot hall⟩
        simp only [heq, bind, Except.bind, if_true, hr]
      · refine .inr ⟨fun h => habs (hiff.mpr h.2), ?_⟩
        simp only [heq, bind, Except.bind, if_true, hr]

/-- The pages that the handler maps for a fault on page `n`; after the last page of the address space comes the
first. -/
def following (n : ℕ) : List ℕ := [n, (n + 1) % NPAGES, (n + 2) % NPAGES]

/-- The handler returns; the faulting page is mapped to a zeroed frame, every page that was present keeps its frame
and flags, and no frame that was in use changes. -/
def LocalityServed (ld : Linker) (p : ProcMem) (va : ℕ) : Prop :=
  ∃ q, p.localityFault ld va = .ok q ∧
    (∃ f, q.pgdir.entry (va / PGSIZE) = some ⟨f, ⟨true, true⟩⟩ ∧ q.kmem.page f = fun _ => 0) ∧
    (∀ j < NPAGES, ∀ e, p.pgdir.entry j = some e → q.pgdir.entry j = some e) ∧
    ∀ g, g ∉ p.kmem.freelist → q.kmem.page g = p.kmem.page g

/-- The addresses of the loop are those of the pages. -/
theorem map_following {va : ℕ} (hva : va < 2 ^ 32) :
    ((range con_pages).map fun i => u32 (pgrounddown va + i * PGSIZE)) =
      (following (va / PGSIZE)).map (· * PGSIZE) := by
  have hround : ∀ i, u32 (va / PGSIZE * PGSIZE + i * PGSIZE) = (va / PGSIZE + i) % NPAGES * PGSIZE := by
    intro i
    rw [← Nat.add_mul, u32, show 2 ^ 32 = NPAGES * PGSIZE by decide, Nat.mul_mod_mul_right]
  have h0 : (va / PGSIZE + 0) % NPAGES = va / PGSIZE := Nat.mod_eq_of_lt (by unfold PGSIZE NPAGES at *; omega)
  show [u32 (pgrounddown va + 0 * PGSIZE), u32 (pgrounddown va + 1 * PGSIZE), u32 (pgrounddown va + 2 * PGSIZE)] = _
  rw [pgrounddown, hround, hround, hround, h0]
  rfl

theorem nodup_following (n : ℕ) : (following n).Nodup := by
  unfold following NPAGES
  simp only [nodup_cons, mem_cons, not_mem_nil, or_false, not_false_eq_true, nodup_nil, and_true]
  omega

theorem following_lt {n m : ℕ} (hn : n < NPAGES) (hm : m ∈ following n) : m < NPAGES := by
  simp only [following, mem_cons, not_mem_nil, or_false] at hm
  rcases hm with rfl | rfl | rfl
  · exact hn
  · exact Nat.mod_lt _ (by decide)
  · exact Nat.mod_lt _ (by decide)

/-- **The handler that maps three pages**: when the faulting page is absent and memory suffices, it does what it is
for exactly when the next two pages are absent, too. -/
theorem localityServed_iff (hs : Sound ld p) {va : ℕ} (hva : va < 2 ^ 32)
    (hun : p.pgdir.entry (va / PGSIZE) = none) (henough : p.Enough (following (va / PGSIZE))) :
    LocalityServed ld p va ↔
      p.pgdir.entry ((va / PGSIZE + 1) % NPAGES) = none ∧ p.pgdir.entry ((va / PGSIZE + 2) % NPAGES) = none := by
  have hn : va / PGSIZE < NPAGES := by
    unfold PGSIZE NPAGES at *
    omega
  have hiff : (∀ n ∈ following (va / PGSIZE), p.pgdir.entry n = none) ↔
      p.pgdir.entry ((va / PGSIZE + 1) % NPAGES) = none ∧
        p.pgdir.entry ((va / PGSIZE + 2) % NPAGES) = none := by
    simp only [following, forall_mem_cons, not_mem_nil, false_imp_iff, implies_true, and_true, hun,
      true_and]
  unfold LocalityServed localityFault
  simp only [map_following hva]
  rcases mapFaults_cases hs (fun m => following_lt hn) (nodup_following _) henough with ⟨habs, q, hq, hall⟩ | ⟨hpres, hr⟩
  · refine ⟨fun _ => hiff.mp habs, fun _ => ⟨q, ?_, hall.new _ mem_cons_self, fun j hj e he => ?_,
      hall.page_eq⟩⟩
    · simp only [hq, bind, Except.bind]
      rfl
    · rw [hall.old j hj fun hmem => ?_, he]
      rw [habs j hmem] at he
      cases he
  · refine ⟨fun ⟨q, hq, _⟩ => ?_, fun h => absurd (hiff.mpr h) hpres⟩
    simp only [hr, bind, Except.bind] at hq
    cases hq

/-- Two pages for each page are enough. -/
theorem enough_of_le (h : 2 * ns.length ≤ p.kmem.avail) : p.Enough ns := by
  have h1 := Finset.card_le_card (Finset.sdiff_subset (s := (ns.map (· / 1024)).toFinset) (t := tables p.pgdir))
  have h2 := toFinset_card_le (ns.map (· / 1024))
  rw [length_map] at h2
  unfold Enough
  omega

/-- The first process has its first page only. -/
theorem exists_boot_absent : ∃ p, userinit bootLinker bootKmem [] = .ok p ∧ Sound bootLinker p ∧
    (∀ n, 0 < n → n < UPAGES → p.pgdir.entry n = none) ∧ p.kmem.avail = 232 := by
  obtain ⟨p, hinit, hs, hsized, hsz, havail⟩ := exists_boot
  refine ⟨p, hinit, hs, fun n hpos hn => ?_, havail⟩
  rw [← Option.not_isSome_iff_eq_none, hsized.present _ hn, hsz, show npages PGSIZE = 1 by decide]
  omega

/-- A fault in the middle of nowhere. -/
theorem localityServed_boot : ∃ p, userinit bootLinker bootKmem [] = .ok p ∧ LocalityServed bootLinker p 0x5000 := by
  obtain ⟨p, hinit, hs, habs, havail⟩ := exists_boot_absent
  refine ⟨p, hinit, (localityServed_iff hs (by decide) (habs _ (by decide) (by decide)) (enough_of_le ?_)).mpr
    ⟨habs _ (by decide) (by decide), habs _ (by decide) (by decide)⟩⟩
  rw [havail]
  decide

/-- **A fault just below a page that is there**: the first process touches `0x5000` and then `0x4000`, with plenty
of memory left; the second fault brings the kernel down. -/
theorem not_localityServed_below : ∃ p q, userinit bootLinker bootKmem [] = .ok p ∧
    p.localityFault bootLinker 0x5000 = .ok q ∧ Sound bootLinker q ∧ q.pgdir.entry (0x4000 / PGSIZE) = none ∧
    q.Enough (following (0x4000 / PGSIZE)) ∧ ¬ LocalityServed bootLinker q 0x4000 := by
  obtain ⟨p, hinit, hs, habs, havail⟩ := exists_boot_absent
  have hns : following (0x5000 / PGSIZE) = [5, 6, 7] := by decide
  have hall : ∀ n ∈ following (0x5000 / PGSIZE), p.pgdir.entry n = none := by
    rw [hns]
    intro n hn
    exact habs n (by revert n; decide) (by revert n; decide)
  rcases mapFaults_cases hs (fun m => following_lt (by decide)) (nodup_following (0x5000 / PGSIZE))
      (enough_of_le (by rw [havail]; decide)) with ⟨-, q, hq, hadd⟩ | ⟨hpres, -⟩
  · have hfault : p.localityFault bootLinker 0x5000 = .ok q := by
      unfold localityFault
      simp only [map_following (show 0x5000 < 2 ^ 32 by decide), hq, bind, Except.bind]
      rfl
    have hle := hadd.avail_le
    have habs' : q.pgdir.entry (0x4000 / PGSIZE) = none := by
      rw [hadd.old _ (by decide) (by decide)]
      exact habs _ (by decide) (by decide)
    have hmem : q.Enough (following (0x4000 / PGSIZE)) := by
      refine enough_of_le ?_
      rw [hns] at hle
      simp only [length_cons, length_nil, following] at hle ⊢
      omega
    refine ⟨p, q, hinit, hfault, hadd.sound, habs', hmem, fun h => ?_⟩
    obtain ⟨f, hf, -⟩ := hadd.new 5 (by decide)
    rcases mapFaults_cases hadd.sound (fun m => following_lt (by decide)) (nodup_following (0x4000 / PGSIZE)) hmem with
      ⟨hnone, -⟩ | ⟨-, herr⟩
    · have := hnone 5 (by decide)
      rw [hf] at this
      cases this
    · obtain ⟨r, hr, -⟩ := h
      unfold localityFault at hr
      simp only [map_following (show 0x4000 < 2 ^ 32 by decide), herr, bind, Except.bind] at hr
      cases hr
  · exact absurd hall hpres

end ProcMem
