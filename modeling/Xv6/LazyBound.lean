/-
# Where pages can be under lazy allocation

The page fault handler maps a page at any address, and `sbrk` unmaps nothing.  So the pages of a
process lie below its size in those runs only in which faults stay below it and nothing that was
given back had been touched.
-/
import Xv6.LazyFork

namespace ProcMem

open Pgdir Option

variable {ld : Linker} {p q : ProcMem}

/-- The pages open to user code lie below the size rounded up, and beyond it the user part is
unmapped and reads as zero. -/
structure Bounded (p : ProcMem) : Prop where
  user : ∀ j < NPAGES, ∀ e, p.pgdir.entry j = some e → e.perm.u = true →
    j * PGSIZE < pgroundup p.sz
  unmapped : ∀ va < KERNBASE, pgroundup p.sz ≤ va → p.pgdir.lookup va = none ∧ p.read va = 0

/-- The step keeps to the size: a fault is below it, unless there is no room for a page, and of the
pages that `sbrk` gives back, from the new size rounded up to the old one, none is there, but for
pages of the kernel. -/
def KeepsToSize (p : ProcMem) : Op → Prop
  | .fault va => va < pgroundup p.sz ∨ ¬ p.Room (va / PGSIZE)
  | .sbrk n => ∀ j, pgroundup ((p.sz + n) % 2 ^ 32).toNat ≤ j * PGSIZE → j * PGSIZE < pgroundup p.sz →
      ∀ e, p.pgdir.entry j = some e → UPAGES ≤ j ∧ e.perm.u = false
  | _ => True

theorem bounded_of_within (h : Within p.pgdir p.sz) : p.Bounded where
  user := fun j hj e he hu => h j hj e he (.inr hu)
  unmapped := by
    intro va hva hge
    have hn : va / PGSIZE < UPAGES := by
      unfold KERNBASE PGSIZE UPAGES at *
      omega
    have habs : p.pgdir.entry (va / PGSIZE) = none := by
      by_contra hne
      obtain ⟨e, he⟩ := ne_none_iff_exists'.mp hne
      have hlt := h _ (by unfold UPAGES NPAGES at *; omega) e he (.inl hn)
      -- both bounds are whole pages
      unfold pgroundup at hlt hge
      unfold PGSIZE at *
      omega
    refine ⟨by rw [lookup_eq_entry, habs], ?_⟩
    unfold read pageOf
    rw [habs]

/-- Every step that keeps to the size keeps the pages below it. -/
theorem step_within {op : Op} (hstep : step ld p op = some q) (hop : p.KeepsToSize op)
    (hs : Sound ld p) (h : Within p.pgdir p.sz) : Within q.pgdir q.sz := by
  cases op with
  | exec path argv =>
    rcases ((exec_post hs path argv).of_ok (Outcome.toOption_eq_some.mp hstep)).2 with hsame | hsized
    · rw [hsame.1, hsame.2]
      exact h
    · exact within_of_sized hsized
  | fork slot child =>
    rcases step_fork hstep hs with hpar | hchild
    · rw [hpar.pgdir_eq, hpar.sz_eq]
      exact h
    · exact within_of_sized hchild.sized
  | sbrk n =>
    obtain ⟨-, hq⟩ := ite_none_right_eq_some.mp hstep
    rw [← some.inj hq]
    intro j hj e he hopen
    by_contra hge
    -- the page was below the old size, so it is one of those given back
    obtain ⟨hkernel, huser⟩ := hop j (not_lt.mp hge) (h j hj e he hopen) e he
    rcases hopen with hlt | hu
    · exact absurd hlt (not_lt.mpr hkernel)
    · rw [huser] at hu
      cases hu
  | fault va =>
    have hf := step_fault hstep hs
    intro j hj e he hopen
    rw [hf.sz_eq]
    rcases hf.entry_eq j hj with hsame | ⟨hjn, -, hroom⟩
    · rw [hsame] at he
      exact h j hj e he hopen
    · rcases hop with hlt | hnot
      · rw [hjn]
        exact lt_of_le_of_lt (Nat.div_mul_le_self va PGSIZE) hlt
      · exact absurd (hjn ▸ hroom) hnot
  | store va b =>
    rw [← some.inj hstep, store_pgdir, store_sz]
    exact h
  | others k =>
    obtain ⟨-, hq⟩ := ite_none_right_eq_some.mp hstep
    rw [← some.inj hq]
    exact h

/-- **The pages of a process lie below its size**, in every run whose steps keep to the size. -/
theorem bounded_run {k : Kmem} {init : List UInt8} {ops : List Op} (hk : k.Good ld)
    (hinit : userinit ld k init = .ok p) (hrun : Runs.run (step ld) p ops = some q)
    (hops : Runs.Meets (step ld) KeepsToSize p ops) : q.Bounded := by
  obtain ⟨hs, hwithin, -⟩ := (userinit_post hk init).of_ok hinit
  have hinv := Runs.run_invariant_of_meets (I := fun p => Sound ld p ∧ Within p.pgdir p.sz)
    (fun s op s' hstep hop h => ⟨step_sound hstep h.1, step_within hstep hop h.1 h.2⟩) hrun hops
    ⟨hs, hwithin⟩
  exact bounded_of_within hinv.2

/-- **A fault beyond the size is answered with a page**: a process of one page reaches for its sixth
one and gets it. -/
theorem not_bounded_fault : ∃ p q, userinit bootLinker bootKmem [] = .ok p ∧
    Runs.run (step bootLinker) p [.fault 0x5000] = some q ∧ ¬ q.Bounded := by
  obtain ⟨p, hinit, hs, hsized, hsz, havail⟩ := exists_boot
  have habs : p.pgdir.entry (0x5000 / PGSIZE) = none := by
    rw [← not_isSome_iff_eq_none, hsized.present _ (by decide), hsz]
    decide
  obtain ⟨q, hq, hf⟩ := (pageFault_post hs (show 0x5000 < 2 ^ 32 by decide)).exists_ok (by
    rintro e ⟨-, hsome⟩
    rw [habs] at hsome
    cases hsome)
  obtain ⟨f, he⟩ := hf.mapped (.inl (by omega))
  refine ⟨p, q, hinit, ?_, fun hb => ?_⟩
  · rw [Runs.run_cons]
    show ((if 0x5000 < 2 ^ 32 then (p.pageFault bootLinker 0x5000).toOption else none).bind _) = _
    rw [if_pos (by decide), hq]
    rfl
  · have hlt := hb.user _ (by decide) _ he rfl
    rw [hf.sz_eq, hsz] at hlt
    exact absurd hlt (by decide)

/-- A process that grows by a page keeps its pages below its size. -/
theorem bounded_grown : ∃ p q, userinit bootLinker bootKmem [] = .ok p ∧
    Runs.run (step bootLinker) p [.sbrk 4096] = some q ∧ q.Bounded := by
  obtain ⟨p, hinit, -, -, hsz, -⟩ := exists_boot
  have hrun : Runs.run (step bootLinker) p [.sbrk 4096] = some (p.sbrk 4096) := rfl
  refine ⟨p, p.sbrk 4096, hinit, hrun,
    bounded_run bootKmem_good hinit hrun ⟨fun j hge hlt => ?_, fun _ _ => trivial⟩⟩
  -- a process that grows gives nothing back
  rw [hsz] at hge hlt
  exact absurd (hge.trans_lt hlt) (by decide)

end ProcMem
