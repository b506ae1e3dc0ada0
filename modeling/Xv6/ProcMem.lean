/-
# The memory of a process over its life

The process state that `exec`, `fork`, `sbrk` and page faults work on, with the page fault handler
of the lazy allocator (`trap.c`).  Other processes take and free pages in between.  In every run
the address space stays `Sound`: none of its frames is used twice or free.
-/
import Xv6.Exec
import Xv6.Runs

open Outcome Option List

/-- The memory of a process, together with the page allocator. -/
structure ProcMem where
  kmem : Kmem
  pgdir : Pgdir
  sz : ℕ
  eip : ℕ
  esp : ℕ
  killed : Bool

namespace ProcMem

/-! ## System calls and page faults -/

/-- Set up the first user process. -/
def userinit (ld : Linker) (k : Kmem) (init : List UInt8) : Except Stop ProcMem :=
  match k.kalloc with
  | (none, _) => .error .nullDeref
  | (some _, k) => do
    match ← Pgdir.setupkvm ld k with
    | (none, _) => .error (.panic "userinit: out of memory?")
    | (some pg, k) =>
      let (k, pg) ← Pgdir.inituvm k pg init
      return ⟨k, pg, PGSIZE, 0, PGSIZE, false⟩

/-- Replace the image of the process; a failed call leaves it as it was. -/
def exec (ld : Linker) (p : ProcMem) (path : Option File) (argv : List (List UInt8)) :
    Except Stop ProcMem := do
  match ← Exec.exec ld p.kmem path argv with
  | (none, k) => return { p with kmem := k }
  | (some img, k) =>
    let k ← Pgdir.freevm ld k p.pgdir
    return ⟨k, img.pgdir, img.sz, img.eip, img.esp, p.killed⟩

/-- Create a child; `slot` tells whether there is an unused slot in the process table.  The first
component is the child, `none` for the result `-1`. -/
def fork (ld : Linker) (p : ProcMem) (slot : Bool) : Except Stop (Option ProcMem × ProcMem) :=
  if slot then
    match p.kmem.kalloc with
    | (none, k) => .ok (none, { p with kmem := k })
    | (some kstack, k) => do
      match ← Pgdir.copyuvm ld k p.pgdir p.sz with
      | (none, k) =>
        let k ← k.kfree ld kstack
        return (none, { p with kmem := k })
      | (some d, k) => return (some ⟨k, d, p.sz, p.eip, p.esp, false⟩, { p with kmem := k })
  else
    .ok (none, p)

/-- `sys_sbrk`: the size changes and nothing else. -/
def sbrk (p : ProcMem) (n : ℤ) : ProcMem := { p with sz := ((p.sz + n) % 2 ^ 32).toNat }

/-- A zeroed page at the address `a`: `true` when it is mapped, `false` for `goto bad`. -/
def mapFault (ld : Linker) (p : ProcMem) (a : ℕ) : Except Stop (Bool × ProcMem) :=
  match p.kmem.kalloc with
  | (none, k) => .ok (false, { p with kmem := k })
  | (some mem, k) => do
    let (ok, k, pg) ← Pgdir.mappages (k.setPage mem fun _ => 0) p.pgdir a PGSIZE (mem * PGSIZE)
      ⟨true, true⟩
    if ok then
      return (true, { p with kmem := k, pgdir := pg })
    else
      let k ← k.kfree ld mem
      return (false, { p with kmem := k, pgdir := pg })

/-- The label `bad` of `trap`. -/
def bad (p : ProcMem) : ProcMem := { p with killed := true }

/-- `trap` with `T_PGFLT` at the address `va`. -/
def pageFault (ld : Linker) (p : ProcMem) (va : ℕ) : Except Stop ProcMem := do
  let (ok, q) ← p.mapFault ld (pgrounddown va)
  return if ok then q else q.bad

/-- The byte at a user address.  A page that is not there yet is zeroed when it is touched. -/
def read (p : ProcMem) (va : ℕ) : UInt8 := Pgdir.pageOf p.kmem p.pgdir (va / PGSIZE) (va % PGSIZE)

/-- A store by user code to a page that is there and open to it. -/
def store (p : ProcMem) (va : ℕ) (b : UInt8) : ProcMem :=
  match p.pgdir.lookup va with
  | some e =>
    if e.perm.u ∧ e.perm.w then
      { p with kmem := p.kmem.setPage e.frame
                 (Function.update (p.kmem.page e.frame) (va % PGSIZE) b) }
    else p
  | none => p

/-- The process uses the frame `f`. -/
def Uses (p : ProcMem) (f : ℕ) : Prop :=
  f = p.pgdir.frame ∨ (∃ x, (p.pgdir.pde x).map PageTable.frame = some f) ∨
    ∃ n < UPAGES, (p.pgdir.entry n).map Pte.frame = some f

instance (p : ProcMem) (f : ℕ) : Decidable (p.Uses f) := by
  unfold Uses
  infer_instance

/-- Other processes left the allocator with another free list, and other bytes in pages that are
not of this process. -/
def others (p : ProcMem) (k : Kmem) : ProcMem :=
  { p with kmem := { k with page := fun f => if p.Uses f then p.kmem.page f else k.page f } }

/-- What can happen to a process. -/
inductive Op where
  | exec (path : Option File) (argv : List (List UInt8))
  /-- `child` tells whether the run goes on with the child. -/
  | fork (slot child : Bool)
  | sbrk (n : ℤ)
  | fault (va : ℕ)
  | store (va : ℕ) (b : UInt8)
  | others (k : Kmem)

/-- The state after a step; `none` if the step is impossible or the kernel stops in it. -/
def step (ld : Linker) (p : ProcMem) : Op → Option ProcMem
  | .exec path argv => (p.exec ld path argv).toOption
  | .fork slot child =>
    (p.fork ld slot).toOption.bind fun r => if child then r.1 else some r.2
  | .sbrk n => if -2 ^ 31 ≤ n ∧ n < 2 ^ 31 then some (p.sbrk n) else none
  | .fault va => if va < 2 ^ 32 then (p.pageFault ld va).toOption else none
  | .store va b => some (p.store va b)
  | .others k =>
    if k.freelist.Nodup ∧ ∀ f ∈ k.freelist, Kmem.Freeable ld f ∧ ¬ p.Uses f then some (p.others k)
    else none

/-! ## Soundness -/

open Pgdir

variable {ld : Linker} {p q : ProcMem}

/-- The address space of the process is sound. -/
abbrev Sound (ld : Linker) (p : ProcMem) : Prop := Pgdir.Sound ld p.kmem p.pgdir

theorem uses_iff {f : ℕ} : p.Uses f ↔ ∃ u, p.pgdir.frameOf u = some f := by
  constructor
  · rintro (rfl | ⟨x, hx⟩ | ⟨n, hn, hf⟩)
    · exact ⟨.dir, rfl⟩
    · exact ⟨.table x, hx⟩
    · exact ⟨.page n, by rw [frameOf, if_pos hn, hf]⟩
  · rintro ⟨u, hu⟩
    cases u with
    | dir => exact .inl (some.inj hu).symm
    | table x => exact .inr (.inl ⟨x, hu⟩)
    | page n =>
      rw [frameOf] at hu
      split at hu
      · exact .inr (.inr ⟨n, ‹_›, hu⟩)
      · cases hu

/-- The frames of the process do not become free by a call that works on free frames only. -/
theorem Sound.of_subset {k' : Kmem} (hs : Sound ld p) (hk : k'.Good ld)
    (hsub : ∀ f ∈ k'.freelist, f ∈ p.kmem.freelist) : Pgdir.Sound ld k' p.pgdir :=
  hs.of_free hk fun f hf u hu => (hs.used u f hu).2 (hsub f hf)

/-- **`exec`** leaves the address space as it was, or it has a new one as long as its size says. -/
theorem exec_post (hs : Sound ld p) (path : Option File) (argv : List (List UInt8)) :
    Post (p.exec ld path argv)
      (fun q => Sound ld q ∧ (q.pgdir = p.pgdir ∧ q.sz = p.sz ∨ Sized q.pgdir q.sz))
      fun _ => True := by
  refine (Exec.exec_post hs.toGood path argv).seq ?_
  rintro ⟨img, k⟩ hr
  cases img with
  | none => exact ⟨hs.of_subset hr.1 fun f hf => (hr.2 f).mp hf, .inl ⟨rfl, rfl⟩⟩
  | some img =>
    -- the old frames were not free before the call, so the new image does not use them
    have hload : Loaded ld {f | f ∈ p.kmem.freelist} k img.pgdir img.sz := hr
    have hsub : ∀ f ∈ frames k img.pgdir, f ∈ p.kmem.freelist := by
      intro f hf
      rwa [hload.frames_eq] at hf
    have hold : Pgdir.Sound ld k p.pgdir :=
      hs.of_subset hload.sound.toGood fun f hf => hsub f (.inl hf)
    obtain ⟨k', hfree, hgood, hmem, -⟩ := freevm_spec hold
    simp only [hfree]
    refine ⟨hload.sound.of_free hgood fun f hf u hu => ?_, .inr hload.toSized⟩
    rcases (hmem f).mp hf with hk | ⟨v, hv⟩
    · exact (hload.sound.used u f hu).2 hk
    · exact (hs.used v f hv).2 (hsub f (.inr ⟨u, hu⟩))

/-! ### `fork` -/

/-- The pages that `fork` takes to get past the first `n` user pages: the kernel stack of the child,
and what `copyuvm` takes. -/
def forkCost (n : ℕ) : ℕ := 1 + copyCost n

/-- Every page below `sz` is present, or memory runs out before the first absent one is met. -/
def ForkSafe (p : ProcMem) (slot : Bool) : Prop :=
  slot → ∀ n, n * PGSIZE < p.sz → p.pgdir.entry n = none → p.kmem.avail < forkCost n

/-- The child of a `fork`: its address space is as long as its size says, and each of its pages has
the flags and bytes of the parent's. -/
structure Child (ld : Linker) (p c : ProcMem) : Prop where
  sound : Sound ld c
  sized : Sized c.pgdir c.sz
  sz_eq : c.sz = p.sz
  present : ∀ j < npages p.sz, (p.pgdir.entry j).isSome
  copy : ∀ j < npages p.sz, ∃ f, c.pgdir.entry j = some ⟨f, permOf p.pgdir j⟩ ∧
    c.kmem.page f = pageOf p.kmem p.pgdir j

/-- The parent after a `fork`. -/
structure Parent (ld : Linker) (p q : ProcMem) : Prop where
  sound : Sound ld q
  pgdir_eq : q.pgdir = p.pgdir
  sz_eq : q.sz = p.sz

theorem copyCost_mono {m n : ℕ} (h : m ≤ n) : copyCost m ≤ copyCost n := by
  unfold copyCost
  omega

variable {k : Kmem}

/-- The parent keeps its frames while a call works on free frames only. -/
theorem Parent.of_subset (hs : Sound ld p) (hk : k.Good ld)
    (hsub : ∀ f ∈ k.freelist, f ∈ p.kmem.freelist) : Parent ld p { p with kmem := k } :=
  ⟨hs.of_subset hk hsub, rfl, rfl⟩

/-- The kernel stack is given back when `copyuvm` fails. -/
theorem fork_fail {kstack : ℕ} {k₁ k₂ : Kmem} (hs : Sound ld p)
    (heq : p.kmem.kalloc = (some kstack, k₁)) (hfree : p.kmem.freelist = kstack :: k₁.freelist)
    (hcopy : copyuvm ld k₁ p.pgdir p.sz = .ok (none, k₂)) (hgood : k₂.Good ld)
    (hmem : ∀ f, f ∈ k₂.freelist ↔ f ∈ k₁.freelist) :
    ∃ q, p.fork ld true = .ok (none, q) ∧ Parent ld p q := by
  obtain ⟨hs₁, hfb, hf, -⟩ := Pgdir.Sound.take hs hfree
  have hs₂ : Pgdir.Sound ld k₂ p.pgdir :=
    hs₁.of_free hgood fun f hf u hu => (hs₁.used u f hu).2 ((hmem f).mp hf)
  have hf₂ : kstack ∉ frames k₂ p.pgdir := by
    rintro (hk | hu)
    · exact hf (.inl ((hmem _).mp hk))
    · exact hf (.inr hu)
  refine ⟨{ p with kmem := freed k₂ kstack }, ?_, (hs₂.give hf₂ hfb rfl).1, rfl, rfl⟩
  simp only [fork, if_true, heq, hcopy, bind, Except.bind, kfree_ok hfb]
  rfl

/-- The child of a successful `copyuvm`. -/
theorem Child.of_copy {k k₁ k' : Kmem} {d₁ d' : Pgdir} (hk : k.page = p.kmem.page)
    (hsz : p.sz ≤ KERNBASE) (hpres : ∀ j < npages p.sz, (p.pgdir.entry j).isSome)
    (hset : Setup ld k k₁ d₁)
    (hg : Grown ld k₁ d₁ 0 (npages p.sz) (pageOf k p.pgdir) (permOf p.pgdir) k' d') :
    Child ld p ⟨k', d', p.sz, p.eip, p.esp, false⟩ where
  sound := hg.sound
  sized := by
    have hmax := npages_le hsz
    refine ⟨hsz, fun j hj => ?_, fun j hj hjn e he => ?_⟩
    · by_cases hin : j < npages p.sz
      · obtain ⟨f, he, -⟩ := hg.new j (Nat.zero_le j) hin
        simp [he, hin]
      · rw [hg.old j (by unfold UPAGES NPAGES at *; omega) (fun h => hin h.2), hset.user hj]
        simp [hin]
    · rw [hg.old j hjn (by omega)] at he
      exact hset.perm hjn he
  sz_eq := rfl
  present := hpres
  copy := by
    intro j hj
    obtain ⟨f, he, hpage⟩ := hg.new j (Nat.zero_le j) hj
    refine ⟨f, he, ?_⟩
    show k'.page f = _
    rw [hpage]
    unfold pageOf
    rw [hk]

/-- **What `fork` does**: it panics exactly when it is not safe, and otherwise returns `-1` or a
child. -/
theorem fork_cases (hs : Sound ld p) (slot : Bool) :
    (∃ q, p.fork ld slot = .ok (none, q) ∧ Parent ld p q ∧ p.ForkSafe slot) ∨
    (∃ c q, p.fork ld slot = .ok (some c, q) ∧ Parent ld p q ∧ Child ld p c ∧ p.ForkSafe slot ∧
      ∀ f, p.Uses f → q.kmem.page f = p.kmem.page f) ∨
    ∃ msg, p.fork ld slot = .error (.panic msg) ∧ ¬ p.ForkSafe slot := by
  cases slot with
  | false => exact .inl ⟨p, rfl, ⟨hs, rfl, rfl⟩, fun h => by cases h⟩
  | true =>
    obtain ⟨k₁, heq, hfree, -, havail⟩ | ⟨kstack, k₁, heq, hfree, hpage, havail⟩ :=
      p.kmem.kalloc_cases
    · refine .inl ⟨{ p with kmem := k₁ }, ?_, ⟨Pgdir.Sound.congr hs hfree rfl, rfl, rfl⟩,
        fun _ n _ _ => ?_⟩
      · simp only [fork, if_true, heq]
      · unfold forkCost
        omega
    obtain ⟨hs₁, hfb, hf, -⟩ := Pgdir.Sound.take hs hfree
    have hsub₁ : ∀ f ∈ k₁.freelist, f ∈ p.kmem.freelist := by
      intro f hf
      rw [hfree]
      exact mem_cons_of_mem _ hf
    have hown : ∀ j < UPAGES, ∀ e, p.pgdir.entry j = some e → e.frame ∉ k₁.freelist := by
      intro j hj e he
      exact (hs₁.used (.page j) e.frame (by simp [frameOf, hj, he])).2
    rcases Pgdir.Sound.first_absent hs p.sz with ⟨t, htn, htu, habs, hpres⟩ | ⟨hsz, hpres⟩
    · -- page `t` is the first absent one: `copyuvm` stops before it or panics at it
      by_cases hcost : copyCost t ≤ k₁.avail
      · obtain ⟨msg, hcopy⟩ := copyuvm_panic hs₁.toGood htu.le htn hpres
          (fun j hj => hown j (by omega)) habs hcost
        refine .inr (.inr ⟨msg, ?_, fun hsafe => ?_⟩)
        · simp only [fork, if_true, heq, hcopy, bind, Except.bind]
        · have := hsafe rfl t (lt_npages.mp htn) habs
          unfold forkCost at this
          omega
      · rcases copyuvm_until hs₁.toGood htu.le htn.le hpres
            (fun j hj => hown j (by omega)) with ⟨k₂, hcopy, hgood, hmem, -⟩ | ⟨hle, -⟩
        · obtain ⟨q, hq, hpar⟩ := fork_fail hs heq hfree hcopy hgood hmem
          refine .inl ⟨q, hq, hpar, fun _ n hn hnone => ?_⟩
          have hge : t ≤ n := by
            by_contra hlt
            have := hpres n (by omega)
            rw [hnone] at this
            cases this
          have := copyCost_mono hge
          unfold forkCost
          omega
        · exact absurd hle hcost
    · have hmax := npages_le hsz
      have hsafe : p.ForkSafe true := by
        intro _ n hn hnone
        have := hpres n (lt_npages.mpr hn)
        rw [hnone] at this
        cases this
      rcases copyuvm_ok hs₁.toGood hsz hpres (fun j hj => hown j (by omega)) with
        ⟨k₂, hcopy, hgood, hmem⟩ | ⟨k₂, d₂, k', d', hset, hg, hcopy⟩
      · obtain ⟨q, hq, hpar⟩ := fork_fail hs heq hfree hcopy hgood hmem
        exact .inl ⟨q, hq, hpar, hsafe⟩
      · have hsub₂ : ∀ f ∈ k₂.freelist, f ∈ p.kmem.freelist := by
          intro f hf
          have hf' : f ∈ frames k₂ d₂ := .inl hf
          rw [hset.frames_eq] at hf'
          exact hsub₁ f hf'
        refine .inr (.inl ⟨⟨k', d', p.sz, p.eip, p.esp, false⟩, { p with kmem := k' }, ?_,
          .of_subset hs hg.sound.toGood fun f hf => hsub₂ f (hg.free_sub f hf),
          .of_copy hpage hsz hpres hset hg, hsafe, fun f hf => ?_⟩)
        · simp only [fork, if_true, heq, hcopy, bind, Except.bind]
          rfl
        · obtain ⟨u, hu⟩ := uses_iff.mp hf
          show k'.page f = _
          rw [hg.page_eq f fun hmem => (hs.used u f hu).2 (hsub₂ f hmem), hset.page_eq, hpage]

/-! ### Page faults -/

/-- The allocator can give a page for page `n`, and another one for its page table if that is
missing. -/
def Room (p : ProcMem) (n : ℕ) : Prop := 2 ≤ p.kmem.avail ∨ 1 ≤ p.kmem.avail ∧ p.pgdir.hasTable n

/-- Page `n` has been added to an address space, zeroed, in frame `f`. -/
structure Added (ld : Linker) (p : ProcMem) (n f : ℕ) (q : ProcMem) : Prop where
  sound : Sound ld q
  sz_eq : q.sz = p.sz
  entry_eq : ∀ j < NPAGES, q.pgdir.entry j = if j = n then some ⟨f, ⟨true, true⟩⟩ else p.pgdir.entry j
  zero : q.kmem.page f = fun _ => 0
  page_eq : ∀ g, g ∉ p.kmem.freelist → q.kmem.page g = p.kmem.page g
  free_sub : ∀ g ∈ q.kmem.freelist, g ∈ p.kmem.freelist
  used : f ∉ q.kmem.freelist
  tables_eq : tables q.pgdir = insert (n / 1024) (tables p.pgdir)
  budget_eq : budget p.kmem p.pgdir = budget q.kmem q.pgdir + 1

/-- The allocator has no page left, or none for the page table. -/
structure Refused (ld : Linker) (p : ProcMem) (n : ℕ) (k : Kmem) : Prop where
  sound : Pgdir.Sound ld k p.pgdir
  page_eq : ∀ g, g ∉ p.kmem.freelist → k.page g = p.kmem.page g
  room : ¬ p.Room n
  why : p.pgdir.entry n = none ∨ p.kmem.avail = 0

/-- **One page of a page fault**: it is mapped, or memory is short, or it is there already. -/
theorem mapFault_cases (hs : Sound ld p) {n : ℕ} (hn : n < NPAGES) :
    (∃ k, p.mapFault ld (n * PGSIZE) = .ok (false, { p with kmem := k }) ∧ Refused ld p n k) ∨
    (p.mapFault ld (n * PGSIZE) = .error (.panic "remap") ∧ (p.pgdir.entry n).isSome ∧
      0 < p.kmem.avail) ∨
    ∃ q f, p.mapFault ld (n * PGSIZE) = .ok (true, q) ∧ p.pgdir.entry n = none ∧ p.Room n ∧
      Added ld p n f q := by
  obtain ⟨k₁, heq, hfree, hpage, havail⟩ | ⟨mem, k₁, heq, hfree, hpage, havail⟩ :=
    p.kmem.kalloc_cases
  · refine .inl ⟨k₁, by simp only [mapFault, heq],
      ⟨Pgdir.Sound.congr hs hfree rfl, fun g _ => by rw [hpage], ?_, .inr havail⟩⟩
    unfold Room
    omega
  obtain ⟨hs₁, hfb, hmem, -⟩ := Pgdir.Sound.take hs hfree
  have hs₁' : Pgdir.Sound ld (k₁.setPage mem fun _ => 0) p.pgdir := hs₁.congr rfl rfl
  have hsub : ∀ g ∈ k₁.freelist, g ∈ p.kmem.freelist := by
    intro g hg
    rw [hfree]
    exact mem_cons_of_mem _ hg
  have hne : ∀ g, g ∉ p.kmem.freelist → g ≠ mem := by
    rintro g hg rfl
    exact hg (by rw [hfree]; exact mem_cons_self)
  cases hun : p.pgdir.entry n with
  | some e =>
    refine .inr (.inl ⟨?_, rfl, by omega⟩)
    simp only [mapFault, heq, mappages_page_remap hn hun, bind, Except.bind]
  | none =>
    obtain ⟨k₂, heq₂, hfree₂, hpage₂, havail₂, hnot⟩ | ⟨k₂, pg₂, heq₂, hm⟩ :=
      mappages_page_cases hs₁' hn hun mem ⟨true, true⟩
    · have hfr₂ : frames k₂ p.pgdir = frames k₁ p.pgdir := frames_congr hfree₂ rfl
      obtain ⟨hs₃, -⟩ := (hs₁.congr hfree₂ rfl).give (by rwa [hfr₂]) hfb
        (show (freed k₂ mem).freelist = _ from rfl)
      refine .inl ⟨freed k₂ mem, ?_, hs₃, fun g hg => ?_, ?_, .inl hun⟩
      · simp only [mapFault, heq, heq₂, bind, Except.bind, Bool.false_eq_true, if_false, kfree_ok hfb]
        rfl
      · show (k₂.setPage mem fun _ => 1).page g = _
        rw [Kmem.setPage_page_of_ne _ _ (hne g hg), hpage₂, Kmem.setPage_page_of_ne _ _ (hne g hg), hpage]
      · rw [Kmem.setPage_avail] at havail₂
        rintro (h2 | ⟨-, ht⟩)
        · omega
        · exact hnot ((mem_tables hn).mpr ht)
    · have hb := hm.budget_eq
      have hb₁ : budget (k₁.setPage mem fun _ => 0) p.pgdir + 1 = budget p.kmem p.pgdir := by
        unfold budget
        rw [Kmem.setPage_avail]
        omega
      refine .inr (.inr ⟨{ p with kmem := k₂, pgdir := pg₂ }, mem, ?_, rfl, ?_, ?_⟩)
      · simp only [mapFault, heq, heq₂, bind, Except.bind, if_true]
        rfl
      · -- a missing page table was paid for with another page
        by_cases ht : p.pgdir.hasTable n
        · exact .inr ⟨by omega, ht⟩
        · unfold budget at hb
          rw [hm.tables_eq, Finset.card_insert_of_notMem (mt (mem_tables hn).mp ht),
            Kmem.setPage_avail] at hb
          exact .inl (by omega)
      · refine ⟨?_, rfl, hm.entry_eq, ?_, fun g hg => ?_, fun g hg => hsub g (hm.free_sub g hg),
          fun hused => hmem (.inl (hm.free_sub mem hused)), hm.tables_eq, ?_⟩
        · by_cases hu : n < UPAGES
          · exact (hm.user hu hmem hfb).1
          · exact (hm.kernel (not_lt.mp hu)).1
        · show k₂.page mem = _
          rw [hm.page_eq, Kmem.setPage_page_self]
        · show k₂.page g = _
          rw [hm.page_eq, Kmem.setPage_page_of_ne _ _ (hne g hg), hpage]
        · show budget p.kmem p.pgdir = budget k₂ pg₂ + 1
          rw [hb, hb₁]

/-- A page fault at `va` was handled. -/
structure Faulted (ld : Linker) (p : ProcMem) (va : ℕ) (q : ProcMem) : Prop where
  sound : Sound ld q
  sz_eq : q.sz = p.sz
  /-- The page of `va` is added, if there is room. -/
  entry_eq : ∀ j < NPAGES, q.pgdir.entry j = p.pgdir.entry j ∨
    j = va / PGSIZE ∧ p.pgdir.entry j = none ∧ p.Room j
  mapped : p.Room (va / PGSIZE) → ∃ f, q.pgdir.entry (va / PGSIZE) = some ⟨f, ⟨true, true⟩⟩
  /-- What user code reads is the same before and after. -/
  read_eq : ∀ a < KERNBASE, q.read a = p.read a

/-- The frame of a user page is in use. -/
theorem Sound.notMem_freelist (hs : Sound ld p) {j : ℕ} {e : Pte} (hj : j < UPAGES)
    (he : p.pgdir.entry j = some e) : e.frame ∉ p.kmem.freelist :=
  (hs.used (.page j) e.frame (by simp [frameOf, hj, he])).2

variable {va : ℕ}

/-- The handler fails: the process is killed, and its pages are those of before. -/
theorem Refused.faulted (hs : Sound ld p) (h : Refused ld p (va / PGSIZE) k) :
    Faulted ld p va (bad { p with kmem := k }) where
  sound := h.sound
  sz_eq := rfl
  entry_eq := fun _ _ => .inl rfl
  mapped := fun hroom => absurd hroom h.room
  read_eq := by
    intro a ha
    have hn : a / PGSIZE < UPAGES := by
      unfold KERNBASE PGSIZE UPAGES at *
      omega
    unfold read pageOf bad
    simp only
    cases he : p.pgdir.entry (a / PGSIZE) with
    | none => rfl
    | some e =>
      simp only
      rw [h.page_eq e.frame (hs.notMem_freelist hn he)]

/-- The handler maps a zeroed page. -/
theorem Added.faulted {va f : ℕ} (hs : Sound ld p) (hun : p.pgdir.entry (va / PGSIZE) = none)
    (hroom : p.Room (va / PGSIZE)) (hva : va / PGSIZE < NPAGES) (h : Added ld p (va / PGSIZE) f q) :
    Faulted ld p va q where
  sound := h.sound
  sz_eq := h.sz_eq
  entry_eq := by
    intro j hj
    rw [h.entry_eq j hj]
    by_cases hjn : j = va / PGSIZE
    · exact .inr ⟨hjn, by rw [hjn, hun], by rwa [hjn]⟩
    · exact .inl (if_neg hjn)
  mapped := fun _ => ⟨f, by rw [h.entry_eq _ hva, if_pos rfl]⟩
  read_eq := by
    intro a ha
    have hn : a / PGSIZE < UPAGES := by
      unfold KERNBASE PGSIZE UPAGES at *
      omega
    unfold read pageOf
    rw [h.entry_eq _ (by unfold UPAGES NPAGES at *; omega)]
    by_cases heq : a / PGSIZE = va / PGSIZE
    · -- the page that was touched: absent before, zeroed after
      rw [if_pos heq, heq, hun]
      simp only [h.zero]
    · rw [if_neg heq]
      cases he : p.pgdir.entry (a / PGSIZE) with
      | none => rfl
      | some e =>
        simp only
        rw [h.page_eq e.frame (hs.notMem_freelist hn he)]

/-- **A page fault** maps a zeroed page, or kills the process, or panics at a page that is there. -/
theorem pageFault_post (hs : Sound ld p) (hva : va < 2 ^ 32) :
    Post (p.pageFault ld va) (Faulted ld p va)
      fun e => e = .panic "remap" ∧ (p.pgdir.entry (va / PGSIZE)).isSome := by
  have hn : va / PGSIZE < NPAGES := by
    unfold PGSIZE NPAGES at *
    omega
  unfold pageFault pgrounddown
  rcases mapFault_cases hs hn with ⟨k, heq, href⟩ | ⟨heq, hsome, -⟩ | ⟨q, f, heq, hun, hroom, hadd⟩
  · rw [heq]
    exact href.faulted hs
  · rw [heq]
    exact ⟨rfl, hsome⟩
  · rw [heq]
    exact hadd.faulted hs hun hroom hn

/-! ### The first process -/

/-- Every page that is there, in the user part or open to user code, lies below the size. -/
def Within (pg : Pgdir) (sz : ℕ) : Prop :=
  ∀ j < NPAGES, ∀ e, pg.entry j = some e → (j < UPAGES ∨ e.perm.u = true) → j * PGSIZE < pgroundup sz

theorem within_of_sized {pg : Pgdir} {sz : ℕ} (h : Sized pg sz) : Within pg sz := by
  intro j hj e he hopen
  rw [pgroundup_eq h.sz_le]
  by_cases hju : j < UPAGES
  · have := (h.present j hju).mp (by rw [he]; rfl)
    unfold PGSIZE
    omega
  · rcases hopen with hlt | hu
    · exact absurd hlt hju
    · rw [h.perm j (not_lt.mp hju) hj e he] at hu
      cases hu

/-- `inituvm` in a new page directory maps page `0`, if there are pages for it and its page
table. -/
theorem inituvm_post {k k' : Kmem} {d : Pgdir} (hset : Setup ld k k' d) (init : List UInt8) :
    Post (inituvm k' d init)
      (fun r => Pgdir.Sound ld r.1 r.2 ∧ Within r.2 PGSIZE ∧
        (2 ≤ k'.avail → Sized r.2 PGSIZE ∧ k'.avail = r.1.avail + 2))
      fun _ => PGSIZE ≤ init.length ∨ k'.avail = 0 := by
  have hun : d.entry 0 = none := hset.user (by decide)
  have hclosed : ∀ j < NPAGES, ∀ e, d.entry j = some e → ¬ (j < UPAGES ∨ e.perm.u = true) := by
    intro j hj e he hopen
    have := within_of_sized hset.loaded.toSized j hj e he hopen
    rw [show pgroundup 0 = 0 by decide] at this
    exact Nat.not_lt_zero _ this
  unfold inituvm
  split
  · exact .inl ‹_›
  · obtain ⟨k₁, heq, -, -, havail⟩ | ⟨mem, k₁, heq, hfree, -, havail⟩ := k'.kalloc_cases
    · rw [heq]
      exact .inr havail
    · obtain ⟨hs₁, hfb, hmem, -⟩ := hset.sound.take hfree
      rw [heq]
      have hcall := mappages_page_cases hs₁ (show 0 < NPAGES by decide) hun mem ⟨true, true⟩
      rw [Nat.zero_mul] at hcall
      obtain ⟨k₂, heq₂, hfree₂, -, havail₂, -⟩ | ⟨k₂, pg₂, heq₂, hm⟩ := hcall
      · simp only [heq₂, bind, Except.bind]
        exact ⟨hs₁.congr hfree₂ rfl, fun j hj e he hopen => absurd hopen (hclosed j hj e he),
          fun h2 => absurd h2 (by omega)⟩
      · simp only [heq₂, bind, Except.bind]
        have hsized : Sized pg₂ PGSIZE := by
          refine ⟨by decide, fun j hj => ?_, fun j hj hjn e he => ?_⟩
          · rw [hm.entry_eq j (by unfold UPAGES NPAGES at *; omega), hset.user hj,
              show npages PGSIZE = 1 by decide]
            by_cases hj0 : j = 0
            · simp [hj0]
            · rw [if_neg hj0]
              simp only [isSome_none, Bool.false_eq_true, false_iff]
              omega
          · rw [hm.entry_eq j hjn, if_neg (by unfold UPAGES at hj; omega)] at he
            exact hset.perm hjn he
        refine ⟨(hm.user (by decide) hmem hfb).1.congr rfl rfl, within_of_sized hsized,
          fun _ => ⟨hsized, ?_⟩⟩
        -- one page for the program, one for its page table
        have hnot : 0 / 1024 ∉ tables d := by
          rw [hset.tables_eq, kernelTables, Finset.mem_union, Finset.mem_Icc, Finset.mem_Icc]
          omega
        have hb := hm.budget_eq
        unfold budget at hb
        rw [hm.tables_eq, Finset.card_insert_of_notMem hnot] at hb
        rw [Kmem.setPage_avail]
        omega

/-- **The first process** has at most the page that `inituvm` maps; with 68 pages it is there. -/
theorem userinit_post (hk : k.Good ld) (init : List UInt8) :
    Post (userinit ld k init)
      (fun p => Sound ld p ∧ Within p.pgdir p.sz ∧ p.sz = PGSIZE ∧
        (68 ≤ k.avail → Sized p.pgdir p.sz ∧ k.avail = p.kmem.avail + 68))
      fun _ => PGSIZE ≤ init.length ∨ k.avail < 68 := by
  obtain ⟨k₁, heq, -, -, havail⟩ | ⟨kstack, k₁, heq, hfree, -, havail⟩ := k.kalloc_cases
  · simp only [userinit, heq]
    exact .inr (by omega)
  have hk₁ : k₁.Good ld := by
    have hnd := hk.nodup
    rw [hfree, nodup_cons] at hnd
    exact ⟨hnd.2, fun f hf => hk.freeable f (by rw [hfree]; exact mem_cons_of_mem _ hf)⟩
  simp only [userinit, heq]
  rcases setupkvm_spec hk₁ with ⟨k₂, heq₂, -, -, -, hlt⟩ | ⟨k₂, d, heq₂, hset⟩
  · rw [heq₂]
    exact .inr (by omega)
  · have havail₂ := hset.avail_eq
    rw [heq₂]
    refine (inituvm_post hset init).bind ?_ ?_
    · rintro ⟨k₃, pg₃⟩ ⟨hs, hwithin, hsized⟩
      refine ⟨hs, hwithin, rfl, fun hge => ?_⟩
      obtain ⟨h1, h2⟩ := hsized (by omega)
      refine ⟨h1, ?_⟩
      show k.avail = k₃.avail + 68
      simp only at h2
      omega
    · rintro e (hlen | h0)
      · exact .inl hlen
      · exact .inr (by omega)

/-- With 68 pages the first process is set up. -/
theorem exists_userinit {init : List UInt8} (hk : k.Good ld) (havail : 68 ≤ k.avail)
    (hlen : init.length < PGSIZE) :
    ∃ p, userinit ld k init = .ok p ∧ Sound ld p ∧ Sized p.pgdir p.sz ∧ p.sz = PGSIZE ∧
      k.avail = p.kmem.avail + 68 := by
  obtain ⟨p, heq, hs, -, hsz, hsized⟩ := (userinit_post hk init).exists_ok (by
    rintro e (hge | hlt)
    · exact absurd hlen (not_lt.mpr hge)
    · omega)
  obtain ⟨h1, h2⟩ := hsized havail
  exact ⟨p, heq, hs, h1, hsz, h2⟩

/-! ### Runs -/

theorem store_sound (hs : Sound ld p) (va : ℕ) (b : UInt8) : Sound ld (p.store va b) := by
  unfold store
  split
  · split
    · exact Pgdir.Sound.congr hs rfl rfl
    · exact hs
  · exact hs

theorem store_sz (p : ProcMem) (va : ℕ) (b : UInt8) : (p.store va b).sz = p.sz := by
  unfold store
  split
  · split <;> rfl
  · rfl

theorem store_pgdir (p : ProcMem) (va : ℕ) (b : UInt8) : (p.store va b).pgdir = p.pgdir := by
  unfold store
  split
  · split <;> rfl
  · rfl

/-- The steps of a `fork`, followed by the child or by the parent. -/
theorem step_fork {slot child : Bool} (hstep : step ld p (.fork slot child) = some q)
    (hs : Sound ld p) : Parent ld p q ∨ Child ld p q := by
  obtain ⟨r, hr, hq⟩ := bind_eq_some_iff.mp hstep
  have hok := toOption_eq_some.mp hr
  rcases fork_cases hs slot with ⟨q', heq, hpar, -⟩ | ⟨c, q', heq, hpar, hchild, -⟩ | ⟨msg, heq, -⟩
  · rw [heq] at hok
    cases hok
    cases child with
    | true => cases hq
    | false => exact .inl (some.inj hq ▸ hpar)
  · rw [heq] at hok
    cases hok
    cases child with
    | true => exact .inr (some.inj hq ▸ hchild)
    | false => exact .inl (some.inj hq ▸ hpar)
  · rw [heq] at hok
    cases hok

theorem step_fault (hstep : step ld p (.fault va) = some q) (hs : Sound ld p) :
    Faulted ld p va q := by
  obtain ⟨hva, hq⟩ := ite_none_right_eq_some.mp hstep
  exact (pageFault_post hs hva).of_ok (toOption_eq_some.mp hq)

/-- Every step keeps the address space sound. -/
theorem step_sound {op : Op} (hstep : step ld p op = some q) (hs : Sound ld p) : Sound ld q := by
  cases op with
  | exec path argv => exact ((exec_post hs path argv).of_ok (toOption_eq_some.mp hstep)).1
  | fork slot child =>
    rcases step_fork hstep hs with h | h
    · exact h.sound
    · exact h.sound
  | sbrk n =>
    obtain ⟨-, hq⟩ := ite_none_right_eq_some.mp hstep
    rw [← some.inj hq]
    exact hs
  | fault va => exact (step_fault hstep hs).sound
  | store va b =>
    rw [← some.inj hstep]
    exact store_sound hs va b
  | others k =>
    obtain ⟨hguard, hq⟩ := ite_none_right_eq_some.mp hstep
    rw [← some.inj hq]
    have hsub : Pgdir.Sound ld k p.pgdir := hs.of_free ⟨hguard.1, fun f hf => (hguard.2 f hf).1⟩
      fun f hf u hu => (hguard.2 f hf).2 (uses_iff.mpr ⟨u, hu⟩)
    exact hsub.congr rfl rfl

/-- **Every run from the first process** keeps the address space sound. -/
theorem run_sound {init : List UInt8} {ops : List Op} (hk : k.Good ld)
    (hinit : userinit ld k init = .ok p) (hrun : Runs.run (step ld) p ops = some q) :
    Sound ld q :=
  Runs.run_invariant (I := Sound ld) (fun _ _ _ => step_sound) hrun
    ((userinit_post hk init).of_ok hinit).1

end ProcMem
