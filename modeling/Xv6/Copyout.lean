/-
# Copying to user memory

`copyout` walks from page to page of a range of user addresses and asks `uva2ka` for the frame behind each.
`uva2ka` reads the page table entry without asking whether there is a page table, and the address after the last
page of the address space is `0`.  So it does what it is for exactly when the first page that is not open to user
code has a page table, and a range that runs off the top meets such a page.
-/
import Xv6.Exec

open List

namespace Pgdir

variable {k k' : Kmem} {pg : Pgdir}

/-! ## Places -/

/-- The frame behind page `n`, if the page is present and open to user code. -/
def userFrame (pg : Pgdir) (n : ℕ) : Option ℕ :=
  (pg.entry n).bind fun e => if e.perm.u then some e.frame else none

/-- The byte of physical memory behind a user address. -/
def place (pg : Pgdir) (va : ℕ) : Option (ℕ × ℕ) := (pg.userFrame (va / PGSIZE)).map fun f => (f, va % PGSIZE)

theorem place_eq_some {va f o : ℕ} :
    pg.place va = some (f, o) ↔ pg.userFrame (va / PGSIZE) = some f ∧ o = va % PGSIZE := by
  unfold place
  rw [Option.map_eq_some_iff]
  constructor
  · rintro ⟨g, hg, heq⟩
    cases heq
    exact ⟨hg, rfl⟩
  · rintro ⟨hf, rfl⟩
    exact ⟨f, hf, rfl⟩

variable {va : ℕ}

theorem place_eq_none : pg.place va = none ↔ pg.userFrame (va / PGSIZE) = none :=
  Option.map_eq_none_iff

/-- `uva2ka` at the start of a page. -/
theorem uva2ka_page (pg : Pgdir) (n : ℕ) :
    (pg.hasTable n → pg.uva2ka (n * PGSIZE) = .ok (pg.userFrame n)) ∧
      (¬ pg.hasTable n → pg.uva2ka (n * PGSIZE) = .error .nullDeref) := by
  unfold hasTable uva2ka userFrame
  cases ht : pg.pde (pdx (n * PGSIZE)) with
  | none => exact ⟨fun h => (by cases h), fun _ => rfl⟩
  | some t =>
    refine ⟨fun _ => ?_, fun h => absurd rfl h⟩
    rw [entry_of_pde ht]
    cases he : t.pte (ptx (n * PGSIZE)) with
    | none => simp only [he, Option.bind_none]
    | some e => simp only [he, Option.bind_some]

theorem hasTable_of_userFrame {n f : ℕ} (h : pg.userFrame n = some f) : pg.hasTable n := by
  obtain ⟨e, he, -⟩ := Option.bind_eq_some_iff.mp h
  exact hasTable_of_entry he

/-! ## What is stored -/

/-- The bytes `buf` were stored at the user addresses from `va` on, and nothing else was changed.  Two addresses
may have one place; the byte there is the last one stored. -/
structure Stored (pg : Pgdir) (va : ℕ) (buf : List UInt8) (k k' : Kmem) : Prop where
  freelist_eq : k'.freelist = k.freelist
  refuse_eq : k'.refuse = k.refuse
  kept : ∀ f o, (∀ i < buf.length, pg.place (u32 (va + i)) ≠ some (f, o)) → k'.page f o = k.page f o
  set : ∀ i < buf.length, ∀ f o, pg.place (u32 (va + i)) = some (f, o) →
    (∀ j, i < j → j < buf.length → pg.place (u32 (va + j)) ≠ some (f, o)) → k'.page f o = buf.getD i 0

theorem Stored.nil (va : ℕ) : Stored pg va [] k k where
  freelist_eq := rfl
  refuse_eq := rfl
  kept := fun _ _ _ => rfl
  set := fun i hi => absurd hi (Nat.not_lt_zero i)

/-- Within a page, the page of an address stays and its offset advances. -/
theorem u32_within {va i : ℕ} (hva : va < 2 ^ 32) (hi : i < PGSIZE - va % PGSIZE) :
    u32 (va + i) / PGSIZE = va / PGSIZE ∧ u32 (va + i) % PGSIZE = va % PGSIZE + i := by
  unfold u32 PGSIZE at *
  omega

/-- The address after the end of the page. -/
theorem u32_after (i : ℕ) :
    u32 (va + (PGSIZE - va % PGSIZE + i)) = u32 (u32 (va / PGSIZE * PGSIZE + PGSIZE) + i) := by
  unfold u32 PGSIZE
  omega

variable {buf : List UInt8}

/-- The part of a range in its first page is stored, and then the rest. -/
theorem Stored.cons {va f : ℕ} {m : ℕ} (hva : va < 2 ^ 32)
    (hf : pg.userFrame (va / PGSIZE) = some f) (hm : m = min (PGSIZE - va % PGSIZE) buf.length)
    (h : Stored pg (u32 (va / PGSIZE * PGSIZE + PGSIZE)) (buf.drop m)
      (k.setPage f (storeBytes (k.page f) (va % PGSIZE) (buf.take m))) k') :
    Stored pg va buf k k' := by
  have hlen : (buf.take m).length = m := by
    rw [length_take]
    omega
  -- an address in this page has its place in the frame, one after it is an address of the rest
  have hin : ∀ i < m, pg.place (u32 (va + i)) = some (f, va % PGSIZE + i) := by
    intro i hi
    obtain ⟨h1, h2⟩ := u32_within hva (show i < PGSIZE - va % PGSIZE by omega)
    rw [place_eq_some, h1, h2]
    exact ⟨hf, rfl⟩
  have hafter : ∀ i, m ≤ i → i < buf.length →
      u32 (va + i) = u32 (u32 (va / PGSIZE * PGSIZE + PGSIZE) + (i - m)) := by
    intro i h1 h2
    rw [← u32_after]
    congr 1
    omega
  refine ⟨h.freelist_eq, h.refuse_eq, fun g o hout => ?_, fun i hi g o hplace hlast => ?_⟩
  · rw [h.kept g o fun i hi => ?_]
    · by_cases hg : g = f
      · subst hg
        rw [Kmem.setPage_page_self, storeBytes, hlen, if_neg]
        rintro ⟨h1, h2⟩
        refine hout (o - va % PGSIZE) (by omega) ?_
        rw [hin _ (by omega), Nat.add_sub_cancel' h1]
      · rw [Kmem.setPage_page_of_ne _ _ hg]
    · rw [length_drop] at hi
      have := hout (i + m) (by omega)
      rwa [hafter _ (by omega) (by omega), Nat.add_sub_cancel] at this
  · by_cases him : i < m
    · -- a byte of this page; what comes later leaves it alone
      have hplace' := hin i him
      rw [hplace] at hplace'
      cases hplace'
      rw [h.kept _ _ fun j hj => ?_]
      · rw [Kmem.setPage_page_self, storeBytes, hlen, if_pos (by omega), Nat.add_sub_cancel_left]
        rw [getD_eq_getElem _ _ (by omega), getD_eq_getElem _ _ hi, getElem_take]
      · rw [length_drop] at hj
        have := hlast (j + m) (by omega) (by omega)
        rwa [hafter _ (by omega) (by omega), Nat.add_sub_cancel] at this
    · rw [hafter i (by omega) hi] at hplace
      rw [h.set (i - m) (by rw [length_drop]; omega) g o hplace fun j h1 h2 => ?_]
      · rw [getD_eq_getElem _ _ (by rw [length_drop]; omega), getD_eq_getElem _ _ hi,
          getElem_drop]
        congr 1
        omega
      · rw [length_drop] at h2
        have := hlast (j + m) (by omega) (by omega)
        rwa [hafter _ (by omega) (by omega), Nat.add_sub_cancel] at this

/-! ## The loop -/

/-- Every address of the range, with wrap-around, is open to user code. -/
def AllOpen (pg : Pgdir) (va len : ℕ) : Prop := ∀ i < len, (pg.place (u32 (va + i))).isSome

/-- `i` is the first address of the range that is not open to user code. -/
def FirstShut (pg : Pgdir) (va len i : ℕ) : Prop :=
  i < len ∧ AllOpen pg va i ∧ pg.place (u32 (va + i)) = none

/-- One round at a page that is open to user code. -/
theorem copyoutLoop_open {va f : ℕ} (fuel : ℕ) (hbuf : 0 < buf.length)
    (hf : pg.userFrame (va / PGSIZE) = some f) :
    copyoutLoop pg (fuel + 1) k va buf =
      copyoutLoop pg fuel (k.setPage f (storeBytes (k.page f) (va % PGSIZE)
        (buf.take (min (PGSIZE - va % PGSIZE) buf.length)))) (u32 (va / PGSIZE * PGSIZE + PGSIZE))
        (buf.drop (min (PGSIZE - va % PGSIZE) buf.length)) := by
  have hoff : va - pgrounddown va = va % PGSIZE := by
    unfold pgrounddown PGSIZE
    omega
  rw [copyoutLoop, if_pos hbuf]
  simp only [hoff]
  rw [show pgrounddown va = va / PGSIZE * PGSIZE from rfl,
    (uva2ka_page pg (va / PGSIZE)).1 (hasTable_of_userFrame hf), hf]
  rfl

/-- **The loop of `copyout`** ends within its fuel: it stores the whole range, or stops at the first page that is
not open to user code; without a page table for that page it goes through a null pointer. -/
theorem copyoutLoop_cases (fuel : ℕ) : ∀ (k : Kmem) (va : ℕ) (buf : List UInt8), va < 2 ^ 32 →
    va % PGSIZE + buf.length ≤ fuel * PGSIZE →
    (AllOpen pg va buf.length ∧ ∃ k', copyoutLoop pg (fuel + 1) k va buf = .ok (true, k') ∧
      Stored pg va buf k k') ∨
    ∃ i, FirstShut pg va buf.length i ∧
      (pg.hasTable (u32 (va + i) / PGSIZE) → ∃ k', copyoutLoop pg (fuel + 1) k va buf = .ok (false, k')) ∧
      (¬ pg.hasTable (u32 (va + i) / PGSIZE) → copyoutLoop pg (fuel + 1) k va buf = .error .nullDeref) := by
  induction fuel with
  | zero =>
    intro k va buf hva hfuel
    have hbuf : buf = [] := length_eq_zero_iff.mp (by omega)
    rw [hbuf]
    exact .inl ⟨fun i hi => absurd hi (Nat.not_lt_zero i), k, rfl, .nil va⟩
  | succ fuel ih =>
    intro k va buf hva hfuel
    by_cases hbuf : buf = []
    · rw [hbuf]
      exact .inl ⟨fun i hi => absurd hi (Nat.not_lt_zero i), k, rfl, .nil va⟩
    have hpos : 0 < buf.length := length_pos_iff.mpr hbuf
    cases hf : pg.userFrame (va / PGSIZE) with
    | none =>
      have hva' : u32 (va + 0) = va := by
        rw [Nat.add_zero]
        exact Nat.mod_eq_of_lt hva
      refine .inr ⟨0, ⟨hpos, fun i hi => absurd hi (Nat.not_lt_zero i), ?_⟩, fun ht => ?_, fun ht => ?_⟩
      · rw [hva', place_eq_none, hf]
      · rw [hva'] at ht
        refine ⟨k, ?_⟩
        rw [copyoutLoop, if_pos hpos]
        simp only
        rw [show pgrounddown va = va / PGSIZE * PGSIZE from rfl, (uva2ka_page pg _).1 ht, hf]
        rfl
      · rw [hva'] at ht
        rw [copyoutLoop, if_pos hpos]
        simp only
        rw [show pgrounddown va = va / PGSIZE * PGSIZE from rfl, (uva2ka_page pg _).2 ht]
        rfl
    | some f =>
      rw [copyoutLoop_open (fuel + 1) hpos hf]
      obtain ⟨m, hm⟩ : ∃ m, m = min (PGSIZE - va % PGSIZE) buf.length := ⟨_, rfl⟩
      rw [← hm]
      have hin : ∀ i < m, (pg.place (u32 (va + i))).isSome := by
        intro i hi
        obtain ⟨h1, h2⟩ := u32_within hva (show i < PGSIZE - va % PGSIZE by omega)
        rw [place_eq_some.mpr ⟨by rw [h1, hf], rfl⟩]
        rfl
      have hafter : ∀ i, m ≤ i → i < buf.length →
          u32 (va + i) = u32 (u32 (va / PGSIZE * PGSIZE + PGSIZE) + (i - m)) := by
        intro i h1 h2
        rw [← u32_after]
        congr 1
        omega
      have hlen : (buf.drop m).length = buf.length - m := length_drop ..
      have hnext : u32 (va / PGSIZE * PGSIZE + PGSIZE) % PGSIZE = 0 := by
        unfold u32 PGSIZE
        omega
      rcases ih _ (u32 (va / PGSIZE * PGSIZE + PGSIZE)) (buf.drop m) (Nat.mod_lt _ (by decide)) (by
          rw [hlen, hnext]
          unfold PGSIZE at *
          omega) with ⟨hopen, k', heq, hst⟩ | ⟨i, ⟨hi, hopen, hshut⟩, hthere, hnot⟩
      · refine .inl ⟨fun i hi => ?_, k', heq, hst.cons hva hf hm⟩
        by_cases him : i < m
        · exact hin i him
        · rw [hafter i (by omega) hi]
          exact hopen (i - m) (by rw [hlen]; omega)
      · rw [hlen] at hi
        have hi' : u32 (va + (m + i)) = u32 (u32 (va / PGSIZE * PGSIZE + PGSIZE) + i) := by
          rw [hafter (m + i) (by omega) (by omega), Nat.add_sub_cancel_left]
        refine .inr ⟨m + i, ⟨by omega, fun j hj => ?_, by rw [hi', hshut]⟩, by rwa [hi'], by rwa [hi']⟩
        by_cases hjm : j < m
        · exact hin j hjm
        · rw [hafter j (by omega) (by omega)]
          exact hopen (j - m) (by omega)

/-- **`copyout`** stores the whole range, or stops at the first page that is not open to user code. -/
theorem copyout_cases (k : Kmem) (pg : Pgdir) (hva : va < 2 ^ 32) (buf : List UInt8) :
    (AllOpen pg va buf.length ∧ ∃ k', copyout k pg va buf = .ok (true, k') ∧ Stored pg va buf k k') ∨
    ∃ i, FirstShut pg va buf.length i ∧
      (pg.hasTable (u32 (va + i) / PGSIZE) → ∃ k', copyout k pg va buf = .ok (false, k')) ∧
      (¬ pg.hasTable (u32 (va + i) / PGSIZE) → copyout k pg va buf = .error .nullDeref) :=
  copyoutLoop_cases (buf.length / PGSIZE + 2) k va buf hva (by unfold PGSIZE; omega)

/-- What a successful `copyout` says. -/
theorem copyout_true (hva : va < 2 ^ 32) (h : copyout k pg va buf = .ok (true, k')) :
    AllOpen pg va buf.length ∧ Stored pg va buf k k' := by
  rcases copyout_cases k pg hva buf with ⟨hopen, k'', heq, hst⟩ | ⟨i, -, hthere, hnot⟩
  · rw [heq] at h
    cases h
    exact ⟨hopen, hst⟩
  · by_cases ht : pg.hasTable (u32 (va + i) / PGSIZE)
    · obtain ⟨k'', heq⟩ := hthere ht
      rw [heq] at h
      cases h
    · rw [hnot ht] at h
      cases h

/-! ## Totality -/

/-- Every page of the range `[va, va + len)` is present and open to user code, and the range does not run off the
top of the address space. -/
def InUser (pg : Pgdir) (va len : ℕ) : Prop := va + len ≤ 2 ^ 32 ∧ ∀ i < len, (pg.place (va + i)).isSome

/-- `copyout` returns; it returns `0` exactly when the whole range is in user memory, and has then stored the
bytes and changed nothing else. -/
def CopiesOut (k : Kmem) (pg : Pgdir) (va : ℕ) (buf : List UInt8) : Prop :=
  ∃ ok k', copyout k pg va buf = .ok (ok, k') ∧ (ok = true ↔ InUser pg va buf.length) ∧
    (ok = true → Stored pg va buf k k')

/-- The first page that is not open to user code has a page table, and a range that runs off the top has such a
page. -/
def Walkable (pg : Pgdir) (va len : ℕ) : Prop :=
  (∀ i, FirstShut pg va len i → pg.hasTable (u32 (va + i) / PGSIZE)) ∧
    (2 ^ 32 < va + len → ¬ AllOpen pg va len)

/-- Without wrap-around the two readings of a range agree. -/
theorem inUser_iff {va len : ℕ} : InUser pg va len ↔ va + len ≤ 2 ^ 32 ∧ AllOpen pg va len := by
  refine and_congr_right fun hle => forall_congr' fun i => forall_congr' fun hi => ?_
  rw [show u32 (va + i) = va + i from Nat.mod_eq_of_lt (by omega)]

/-- **`copyout` is total and exact** exactly on these ranges. -/
theorem copiesOut_iff (k : Kmem) (pg : Pgdir) {va : ℕ} (hva : va < 2 ^ 32) (buf : List UInt8) :
    CopiesOut k pg va buf ↔ Walkable pg va buf.length := by
  rcases copyout_cases k pg hva buf with ⟨hopen, k', heq, hst⟩ | ⟨i, hshut, hthere, hnot⟩
  · -- the whole range is stored: right unless it wraps around
    constructor
    · rintro ⟨ok, k'', heq', hiff, -⟩
      rw [heq] at heq'
      cases heq'
      have hin := (inUser_iff.mp (hiff.mp rfl)).1
      refine ⟨fun i hshut => ?_, fun hwrap => absurd hin (not_le.mpr hwrap)⟩
      have := hopen i hshut.1
      rw [hshut.2.2] at this
      cases this
    · rintro ⟨-, hwrap⟩
      refine ⟨true, k', heq, ⟨fun _ => inUser_iff.mpr ⟨?_, hopen⟩, fun _ => rfl⟩, fun _ => hst⟩
      exact not_lt.mp fun h => hwrap h hopen
  · have hnotopen : ¬ AllOpen pg va buf.length := by
      intro hopen
      have := hopen i hshut.1
      rw [hshut.2.2] at this
      cases this
    constructor
    · rintro ⟨ok, k'', heq', -⟩
      refine ⟨fun j hj => ?_, fun _ => hnotopen⟩
      -- there is only one first address
      have hij : j = i := by
        rcases lt_trichotomy j i with hlt | rfl | hlt
        · have := hshut.2.1 j hlt
          rw [hj.2.2] at this
          cases this
        · rfl
        · have := hj.2.1 i hlt
          rw [hshut.2.2] at this
          cases this
      rw [hij]
      by_contra ht
      rw [hnot ht] at heq'
      cases heq'
    · rintro ⟨hfirst, -⟩
      obtain ⟨k', heq⟩ := hthere (hfirst i hshut)
      refine ⟨false, k', heq, ⟨fun h => (by cases h), fun hin => ?_⟩, fun h => (by cases h)⟩
      exact absurd (inUser_iff.mp hin).2 hnotopen

/-- A page directory with one page, at address `0`. -/
def onePage : Pgdir :=
  ⟨1, fun x => if x = 0 then some ⟨2, fun y => if y = 0 then some ⟨3, ⟨true, true⟩⟩ else none⟩ else none⟩

/-- Physical memory that holds zeros. -/
def zeroPages : Kmem := ⟨[], [], fun _ _ => 0⟩

/-- A range over the end of the page: the next one is absent, but it has a page table. -/
theorem copiesOut_onePage : CopiesOut zeroPages onePage 4095 [1, 2] := by
  rw [copiesOut_iff zeroPages onePage (by decide)]
  refine ⟨fun i hi => ?_, fun h => absurd h (by decide)⟩
  have hlt : i < 2 := hi.1
  interval_cases i
  · rfl
  · rfl

/-- **A region without a page table**: `copyout` to the address 4 MB goes through a null pointer. -/
theorem not_copiesOut_region : ¬ CopiesOut zeroPages onePage (2 ^ 22) [1] := by
  rintro ⟨ok, k', heq, -⟩
  have hnull : copyout zeroPages onePage (2 ^ 22) [1] = .error .nullDeref := rfl
  rw [hnull] at heq
  cases heq

end Pgdir
