/-
# `fork` under lazy allocation

`sbrk` grows a process without mapping anything, but `copyuvm` expects every page below the size
to be present.  In every state that a process can reach, `fork` returns `-1` or a faithful copy
exactly when no absent page below `sz` is met before memory runs out; otherwise it panics.
-/
import Xv6.ProcMem

namespace ProcMem

open Pgdir Outcome Finset

variable {ld : Linker} {p q : ProcMem}

/-- `fork` does not panic; it returns `-1`, or a child that reads the same bytes as the parent
below `sz`, where the parent reads what it read before. -/
def ForkOk (ld : Linker) (p : ProcMem) (slot : Bool) : Prop :=
  match p.fork ld slot with
  | .error _ => False
  | .ok (none, _) => True
  | .ok (some c, q) => ∀ va < p.sz, c.read va = p.read va ∧ q.read va = p.read va

/-- The pages of the child read like those of the parent. -/
theorem Child.read_eq {c : ProcMem} (h : Child ld p c) {va : ℕ} (hva : va < p.sz) :
    c.read va = p.read va := by
  have hj : va / PGSIZE < npages p.sz := by
    rw [lt_npages]
    exact lt_of_le_of_lt (Nat.div_mul_le_self va PGSIZE) hva
  obtain ⟨f, he, hpage⟩ := h.copy _ hj
  unfold read
  rw [pageOf_of_entry he, hpage]

/-- The parent reads what it read before, because its frames keep their bytes. -/
theorem Parent.read_eq (h : Parent ld p q) (hpage : ∀ f, p.Uses f → q.kmem.page f = p.kmem.page f)
    {va : ℕ} (hva : va < KERNBASE) : q.read va = p.read va := by
  have hn : va / PGSIZE < UPAGES := by
    unfold KERNBASE PGSIZE UPAGES at *
    omega
  unfold read pageOf
  rw [h.pgdir_eq]
  cases he : p.pgdir.entry (va / PGSIZE) with
  | none => rfl
  | some e =>
    simp only
    rw [hpage e.frame (.inr (.inr ⟨_, hn, by rw [he]; rfl⟩))]

/-- `fork` in a sound address space. -/
theorem forkOk_of_sound (hs : Sound ld p) (slot : Bool) : ForkOk ld p slot ↔ p.ForkSafe slot := by
  unfold ForkOk
  rcases fork_cases hs slot with ⟨q, heq, -, hsafe⟩ | ⟨c, q, heq, hpar, hchild, hsafe, hpage⟩ |
    ⟨msg, heq, hnot⟩
  · rw [heq]
    exact ⟨fun _ => hsafe, fun _ => trivial⟩
  · rw [heq]
    refine ⟨fun _ => hsafe, fun _ va hva => ⟨hchild.read_eq hva, hpar.read_eq hpage ?_⟩⟩
    have := hchild.sized.sz_le
    rw [hchild.sz_eq] at this
    omega
  · rw [heq]
    exact ⟨fun h => h.elim, fun h => hnot h⟩

/-- **`fork` in every reachable state**: it returns `-1` or a faithful copy exactly when it meets
no absent page below `sz` before memory runs out. -/
theorem forkOk_iff {k : Kmem} {init : List UInt8} {ops : List Op} (hk : k.Good ld)
    (hinit : userinit ld k init = .ok p) (hrun : Runs.run (step ld) p ops = some q) (slot : Bool) :
    ForkOk ld q slot ↔ q.ForkSafe slot :=
  forkOk_of_sound (run_sound hk hinit hrun) slot

/-! ## Two processes -/

/-- A kernel of some 84 kilobytes. -/
def bootLinker : Linker where
  data := 0x80107000
  kend := 0x80115000
  aligned := by decide
  text_lt := by decide
  data_lt := by decide
  kend_le := by decide

/-- An allocator with 300 free pages. -/
def bootKmem : Kmem := ⟨List.range' 1000 300, [], fun _ _ => 0⟩

theorem bootKmem_good : bootKmem.Good bootLinker := by
  refine ⟨List.nodup_range', fun f hf => ?_⟩
  obtain ⟨h1, h2⟩ := List.mem_range'_1.mp hf
  unfold Kmem.Freeable bootLinker KERNBASE PHYSTOP PGSIZE
  constructor
  · show 0x80115000 ≤ _
    omega
  · omega

theorem bootKmem_avail : bootKmem.avail = 300 := by
  unfold Kmem.avail bootKmem
  rw [List.length_range']
  rfl

/-- The first process of this kernel. -/
theorem exists_boot : ∃ p, userinit bootLinker bootKmem [] = .ok p ∧ Sound bootLinker p ∧
    Sized p.pgdir p.sz ∧ p.sz = PGSIZE ∧ p.kmem.avail = 232 := by
  have havail := bootKmem_avail
  obtain ⟨p, heq, hs, hsized, hsz, h68⟩ := exists_userinit bootKmem_good (by omega)
    (show [].length < PGSIZE by rw [List.length_nil]; decide)
  exact ⟨p, heq, hs, hsized, hsz, by omega⟩

/-- An executable without program segments. -/
def emptyProgram : File :=
  ⟨52, fun o => if o = 0 then 0x7F else if o = 1 then 0x45 else if o = 2 then 0x4C
    else if o = 3 then 0x46 else 0⟩

/-- The first pages of a new page directory take one page table. -/
theorem allocuvm_first {k k₁ : Kmem} {d : Pgdir} (hset : Setup ld k k₁ d) {newsz : ℕ} (hpos : 0 < newsz)
    (hle : newsz ≤ 1024 * PGSIZE) (havail : npages newsz + 1 ≤ k₁.avail) :
    ∃ k₂ pg₂, Pgdir.allocuvm ld k₁ d 0 newsz = .ok (newsz, k₂, pg₂) ∧
      GrownZero ld k₁ d 0 (npages newsz) k₂ pg₂ ∧ k₁.avail = k₂.avail + (npages newsz + 1) := by
  have hnot : 0 ∉ kernelTables := by
    rw [kernelTables, mem_union, mem_Icc, mem_Icc]
    omega
  have hpages : 1 ≤ npages newsz ∧ npages newsz ≤ 1024 := by
    unfold npages PGSIZE at *
    omega
  have hlt : newsz < KERNBASE := by
    unfold PGSIZE KERNBASE at *
    omega
  rcases allocuvm_spec hset.sound (Nat.zero_le _) hlt
      (fun j _ hj => hset.user (lt_of_lt_of_le hj (npages_le hlt.le))) with
    ⟨-, -, -, -, -, -, -, hshort⟩ | ⟨k₂, pg₂, heq, hg⟩
  · exfalso
    have := hshort (insert 0 kernelTables)
      (by rw [hset.tables_eq]; exact subset_insert _ _)
      (fun j _ hj => mem_insert.mpr (.inl (by omega)))
    rw [budget, hset.tables_eq, card_insert_of_notMem hnot, card_kernelTables,
      show npages 0 = 0 by decide] at this
    omega
  · rw [show npages 0 = 0 by decide] at hg
    refine ⟨k₂, pg₂, heq, hg, ?_⟩
    have htab : tables pg₂ = insert 0 kernelTables := by
      ext x
      rw [hg.tables_eq, hset.tables_eq, mem_insert, or_comm]
      refine or_congr_left ⟨?_, fun hx => ⟨0, le_rfl, by omega, hx.symm⟩⟩
      rintro ⟨j, -, hj, rfl⟩
      omega
    have hb := hg.budget_eq
    rw [budget, budget, htab, hset.tables_eq, card_insert_of_notMem hnot,
      card_kernelTables] at hb
    omega

/-- The stack of these arguments fits into the upper of the two pages. -/
def StackFits (argv : List (List UInt8)) (sp : ℕ) : Prop :=
  ∀ (k : Kmem) (pg : Pgdir) (e : Pte), pg.entry 1 = some e → e.perm.u = true →
    ∃ k', Exec.buildStack pg argv k (2 * PGSIZE) = .ok (some sp, k') ∧ k'.avail = k.avail

/-- The stack of a program without arguments is four words. -/
theorem stackFits_nil : StackFits [] (2 * PGSIZE - 16) := by
  intro k pg e he hu
  have hsp : u32 (2 * PGSIZE + 2 ^ 32 - (3 + ([] : List ℕ).length + 1) * 4) = 1 * PGSIZE + 4080 := by
    decide
  let buf := Exec.words ([0xffffffff, ([] : List ℕ).length,
    u32 (2 * PGSIZE + 2 ^ 32 - (([] : List ℕ).length + 1) * 4)] ++ [] ++ [0])
  have hcopy := copyout_one (k := k) he hu (show 0 < buf.length by decide)
    (show 4080 + buf.length ≤ PGSIZE by decide)
  rw [← hsp] at hcopy
  refine ⟨k.setPage e.frame (storeBytes (k.page e.frame) 4080 buf), ?_, rfl⟩
  unfold Exec.buildStack
  simp only [Exec.pushArgs, bind, Except.bind, hcopy, buf]
  rfl

/-- The guard page and the stack page. -/
theorem addStack_empty {argv : List (List UInt8)} {sp : ℕ} (hfits : StackFits argv sp) {k k₁ : Kmem}
    {d : Pgdir} (hset : Setup ld k k₁ d) (h3 : 3 ≤ k₁.avail) :
    ∃ k' pg', Exec.addStack ld argv k₁ d 0 = .ok (some (2 * PGSIZE, sp), k', pg') ∧
      k₁.avail = k'.avail + 3 := by
  have hpages : npages (2 * PGSIZE) = 2 := by decide
  obtain ⟨k₂, pg₂, heq, hg, havail⟩ := allocuvm_first hset (show 0 < 2 * PGSIZE by decide) (by decide)
    (by omega)
  rw [hpages] at hg havail
  obtain ⟨f₀, he₀, -⟩ := hg.new 0 le_rfl (by omega)
  obtain ⟨f₁, he₁, -⟩ := hg.new 1 (by omega) (by omega)
  -- page 0 becomes the guard, page 1 stays open
  have hclear := clearpteu_eq he₀
  have he₁' := entry_setPte (e := some ⟨f₀, ⟨true, false⟩⟩) (show 0 < NPAGES by decide)
    (show 1 < NPAGES by decide) (hasTable_of_entry he₀)
  rw [if_neg (by omega), he₁] at he₁'
  obtain ⟨k', hstack, havail'⟩ := hfits k₂ _ _ he₁' rfl
  refine ⟨k', pg₂.setPte (0 * PGSIZE) (some ⟨f₀, ⟨true, false⟩⟩), ?_,
    by rw [havail, havail']⟩
  unfold Exec.addStack
  rw [show u32 (0 + 2 * PGSIZE) = 2 * PGSIZE by decide, heq]
  simp only [bind, Except.bind]
  rw [if_neg (by decide), show u32 (2 * PGSIZE + 2 ^ 32 - 2 * PGSIZE) = 0 * PGSIZE by decide, hclear]
  simp only [hstack]
  rfl

/-- `exec` of a program without segments. -/
theorem exec_emptyProgram {argv : List (List UInt8)} {sp : ℕ} (hfits : StackFits argv sp) {k : Kmem}
    (hk : k.Good ld) (havail : 68 ≤ k.avail) :
    ∃ img k', Exec.exec ld k (some emptyProgram) argv = .ok (some img, k') ∧ img.sz = 2 * PGSIZE ∧
      k.avail = k'.avail + 68 := by
  rcases setupkvm_spec hk with ⟨-, -, -, -, -, hlt⟩ | ⟨k₁, d, heq, hset⟩
  · omega
  have h65 := hset.avail_eq
  obtain ⟨k₂, pg₂, hstack, h3⟩ := addStack_empty hfits hset (by omega)
  refine ⟨⟨pg₂, 2 * PGSIZE, emptyProgram.field 24 4, sp⟩, k₂, ?_, rfl, by omega⟩
  have hload : Exec.loadProgram ld emptyProgram (emptyProgram.field 44 2) (emptyProgram.field 28 4)
      k₁ d 0 = .ok (some 0, k₁, d) := rfl
  have hbuild : Exec.build ld emptyProgram argv k₁ d = .ok (some (2 * PGSIZE, sp), k₂, pg₂) := by
    unfold Exec.build
    rw [hload]
    exact hstack
  unfold Exec.exec
  simp only [show ¬ emptyProgram.size < 52 by decide,
    show ¬ emptyProgram.field 0 4 ≠ ELF_MAGIC by decide, if_false, heq, bind, Except.bind]
  unfold Exec.load
  rw [hbuild]
  rfl

/-- The first process after `exec` of that program. -/
theorem exists_exec (hs : Sound ld p) (havail : 68 ≤ p.kmem.avail) :
    ∃ q, p.exec ld (some emptyProgram) [] = .ok q ∧ q.sz = 2 * PGSIZE ∧
      p.kmem.avail ≤ q.kmem.avail + 68 := by
  obtain ⟨img, k₁, heq, hsz, h68⟩ := exec_emptyProgram stackFits_nil hs.toGood havail
  have hload : Loaded ld {f | f ∈ p.kmem.freelist} k₁ img.pgdir img.sz :=
    (Exec.exec_post hs.toGood _ _).of_ok heq
  have hold : Pgdir.Sound ld k₁ p.pgdir := hs.of_subset hload.sound.toGood fun f hf => by
    have : f ∈ frames k₁ img.pgdir := .inl hf
    rwa [hload.frames_eq] at this
  obtain ⟨k₂, hfree, -, -, -, hle⟩ := freevm_spec hold
  refine ⟨⟨k₂, img.pgdir, img.sz, img.eip, img.esp, p.killed⟩, ?_, hsz, by
    show p.kmem.avail ≤ k₂.avail + 68
    omega⟩
  simp only [exec, heq, hfree, bind, Except.bind]
  rfl

/-- The kernel of this example after the first process has replaced its image. -/
theorem exists_loaded : ∃ p q, userinit bootLinker bootKmem [] = .ok p ∧
    step bootLinker p (.exec (some emptyProgram) []) = some q ∧ Sound bootLinker q ∧
    Sized q.pgdir (2 * PGSIZE) ∧ q.sz = 2 * PGSIZE ∧ 164 ≤ q.kmem.avail := by
  obtain ⟨p, hinit, hs, -, hsz, havail⟩ := exists_boot
  obtain ⟨q, hexec, hsz', havail'⟩ := exists_exec hs (by omega)
  obtain ⟨hs', hsame | hsized⟩ := (exec_post hs _ _).of_ok hexec
  · rw [hsame.2, hsz] at hsz'
    exact absurd hsz' (by decide)
  · refine ⟨p, q, hinit, ?_, hs', hsz' ▸ hsized, hsz', by omega⟩
    show (p.exec bootLinker (some emptyProgram) []).toOption = some q
    rw [hexec]
    rfl

/-- **A process that grows by one byte cannot fork**: `copyuvm` panics at the page that nobody has
touched yet. -/
theorem not_forkOk_grown : ∃ p q, userinit bootLinker bootKmem [] = .ok p ∧
    Runs.run (step bootLinker) p [.exec (some emptyProgram) [], .sbrk 1] = some q ∧
    ¬ ForkOk bootLinker q true := by
  obtain ⟨p, q, hinit, hexec, hs, hsized, hsz, havail⟩ := exists_loaded
  refine ⟨p, q.sbrk 1, hinit, ?_, ?_⟩
  · rw [Runs.run_cons, hexec]
    rfl
  · have habs : q.pgdir.entry 2 = none := by
      rw [← Option.not_isSome_iff_eq_none, hsized.present 2 (by decide)]
      decide
    have hlt : 2 * PGSIZE < (q.sbrk 1).sz := by
      show 2 * PGSIZE < ((q.sz + 1 : ℤ) % 2 ^ 32).toNat
      rw [hsz]
      decide
    have hs' : Sound bootLinker (q.sbrk 1) := hs
    rw [forkOk_of_sound hs']
    intro hsafe
    have hless : q.kmem.avail < forkCost 2 := hsafe rfl 2 hlt habs
    rw [show forkCost 2 = 69 by decide] at hless
    omega

/-- Before it grows, it can. -/
theorem forkOk_loaded : ∃ p q, userinit bootLinker bootKmem [] = .ok p ∧
    Runs.run (step bootLinker) p [.exec (some emptyProgram) []] = some q ∧
    ForkOk bootLinker q true := by
  obtain ⟨p, q, hinit, hexec, -, hsized, hsz, -⟩ := exists_loaded
  have hrun : Runs.run (step bootLinker) p [.exec (some emptyProgram) []] = some q := by
    rw [Runs.run_cons, hexec]
    rfl
  refine ⟨p, q, hinit, hrun, (forkOk_iff bootKmem_good hinit hrun true).mpr fun _ n hn habs => ?_⟩
  rw [hsz] at hn
  have hpages : n < npages (2 * PGSIZE) := lt_npages.mpr hn
  have := (hsized.present n (lt_of_lt_of_le hpages (by decide))).mpr hpages
  rw [habs] at this
  cases this

end ProcMem
