/-
# A child has a copy of its own

`copyuvm` of `vm.c`.  Every frame of the new address space comes from the free list.  So as long as no page of the
source is free, the copy shares no frame with it, and the two processes cannot see each other's writes, in whatever
order these happen.

* `Copied` says what the new directory is like.
* `Isolated` says that what is read through one of the two address spaces depends on the writes through it only.
-/
import Xv6.Dealloc
import Xv6.ArgStack
import Xv6.Views

namespace Pgdir

open Function Exec Option

variable {ld : Linker} {k k' : Kmem} {par d : Pgdir} {sz : ℕ}

/-! ## The statement -/

/-- A page of the user part, or one that is open to user code. -/
def UserPage (pg : Pgdir) (j : ℕ) (e : Pte) : Prop :=
  j < NPAGES ∧ pg.entry j = some e ∧ (j < UPAGES ∨ e.perm.u = true)

/-- No user page of the address space is on the free list. -/
def NoneFree (k : Kmem) (pg : Pgdir) : Prop := ∀ j e, pg.UserPage j e → e.frame ∉ k.freelist

/-- The frame `f` serves page `j` of `d` and nothing else in the two address spaces, and it is not free. -/
structure Only (k : Kmem) (par d : Pgdir) (j f : ℕ) : Prop where
  free : f ∉ k.freelist
  dir : f ≠ d.frame
  table : ∀ x, (d.pde x).map PageTable.frame ≠ some f
  copy : ∀ i e, d.UserPage i e → e.frame = f → i = j
  source : ∀ i e, par.UserPage i e → e.frame ≠ f

/-- `d` is a copy of the first `sz` bytes of `par`, rounded up to pages. -/
structure Copied (ld : Linker) (k : Kmem) (par : Pgdir) (sz : ℕ) (k' : Kmem) (d : Pgdir) : Prop where
  /-- Each address is translated to a frame of its page alone, with the flags and the byte of the source. -/
  page : ∀ va < pgroundup sz, ∃ e f, par.entry (va / PGSIZE) = some e ∧ d.entry (va / PGSIZE) = some ⟨f, e.perm⟩ ∧
    k'.page f (va % PGSIZE) = k.page e.frame (va % PGSIZE) ∧ Only k' par d (va / PGSIZE) f
  /-- There is no other user page. -/
  only : ∀ j e, d.UserPage j e → j * PGSIZE < pgroundup sz
  /-- The kernel part is what `setupkvm` makes. -/
  kernel : ∀ (k₀ k₁ : Kmem) (d₀ : Pgdir), k₀.Good ld → setupkvm ld k₀ = .ok (some d₀, k₁) →
    ∀ j, UPAGES ≤ j → j < NPAGES → d.entry j = d₀.entry j
  /-- The pages of the source hold what they held. -/
  source : ∀ j e, par.UserPage j e → k'.page e.frame = k.page e.frame

/-- A write of one byte through an address space, by user code or by the kernel on its behalf. -/
def poke (k : Kmem) (pg : Pgdir) (va : ℕ) (b : UInt8) : Kmem :=
  match pg.place (u32 va) with
  | some (f, o) => k.setPage f (update (k.page f) o b)
  | none => k

/-- Writes of two processes, one after the other; the first component of a write says through which of the two
address spaces it goes. -/
def pokes (spaces : Bool → Pgdir) (k : Kmem) (ws : List (Bool × ℕ × UInt8)) : Kmem :=
  ws.foldl (fun k w => poke k (spaces w.1) w.2.1 w.2.2) k

/-- What is read at a user page of either address space after any sequence of writes is what is read there after
the writes that went through the same address space. -/
def Isolated (k : Kmem) (spaces : Bool → Pgdir) : Prop :=
  ∀ (ws : List (Bool × ℕ × UInt8)) (i : Bool) (va : ℕ) (e : Pte),
    (spaces i).UserPage (va / PGSIZE) e →
    peek (pokes spaces k ws) (spaces i) va = peek (pokes spaces k (ws.filter fun w => w.1 = i)) (spaces i) va

/-! ## Writes and views -/

/-- The bytes of physical memory by frame and offset. -/
def bytes (k : Kmem) (p : ℕ × ℕ) : UInt8 := k.page p.1 p.2

theorem bytes_poke (k : Kmem) (pg : Pgdir) (va : ℕ) (b : UInt8) :
    bytes (poke k pg va b) = Views.write (fun va => pg.place (u32 va)) (bytes k) va b := by
  unfold poke Views.write
  beta_reduce
  cases pg.place (u32 va) with
  | none => rfl
  | some p =>
    funext q
    obtain ⟨f, o⟩ := p
    obtain ⟨g, r⟩ := q
    show (k.setPage f _).page g r = update (bytes k) (f, o) b (g, r)
    by_cases hg : g = f
    · subst hg
      rw [Kmem.setPage_page_self]
      by_cases hr : r = o
      · rw [hr, update_self, update_self]
      · rw [update_of_ne hr, update_of_ne fun h => hr (Prod.mk.inj h).2]
        rfl
    · rw [Kmem.setPage_page_of_ne _ _ hg, update_of_ne fun h => hg (Prod.mk.inj h).1]
      rfl

theorem bytes_pokes (spaces : Bool → Pgdir) (ws : List (Bool × ℕ × UInt8)) : ∀ k : Kmem,
    bytes (pokes spaces k ws) = Views.writes (fun i va => (spaces i).place (u32 va)) (bytes k) ws := by
  induction ws with
  | nil => exact fun k => rfl
  | cons w ws ih =>
    intro k
    have := ih (poke k (spaces w.1) w.2.1 w.2.2)
    rw [bytes_poke] at this
    exact this

/-- The place behind an address is in a user page. -/
theorem userPage_of_place {pg : Pgdir} {va f o : ℕ} (h : pg.place (u32 va) = some (f, o)) :
    ∃ j e, pg.UserPage j e ∧ e.frame = f := by
  obtain ⟨hf, -⟩ := place_eq_some.mp h
  obtain ⟨e, he, hu⟩ := bind_eq_some_iff.mp hf
  split at hu
  · refine ⟨_, e, ⟨?_, he, .inr ‹_›⟩, some.inj hu⟩
    unfold u32 PGSIZE NPAGES
    omega
  · cases hu

/-- **Address spaces that share no frame are isolated.** -/
theorem isolated_of_disjoint {spaces : Bool → Pgdir}
    (h : ∀ i j, i ≠ j → ∀ m e n e', (spaces i).UserPage m e → (spaces j).UserPage n e' → e.frame ≠ e'.frame) :
    Isolated k spaces := by
  intro ws i va e he
  have hread : ∀ k : Kmem, peek k (spaces i) va = bytes k (e.frame, va % PGSIZE) := by
    intro k
    unfold peek
    rw [pageOf_of_entry he.2.1]
    rfl
  rw [hread, hread, bytes_pokes, bytes_pokes]
  refine Views.writes_own (fun j hj a hplace => ?_) ws rfl
  obtain ⟨n, e', he', hf⟩ := userPage_of_place hplace
  exact h j i hj n e' _ e he' he hf

/-! ## `copyuvm` -/

theorem NoneFree.own (h : NoneFree k par) (hsz : sz ≤ KERNBASE) {j : ℕ} (hj : j < npages sz) {e : Pte}
    (he : par.entry j = some e) : e.frame ∉ k.freelist := by
  have hmax := npages_le hsz
  exact h j e ⟨by unfold UPAGES NPAGES at *; omega, he, .inl (by omega)⟩

/-- `copyuvm` returns a directory only if all pages are present. -/
theorem copyuvm_present (hk : k.Good ld) (hown : NoneFree k par) (hsz : sz ≤ KERNBASE)
    (heq : copyuvm ld k par sz = .ok (some d, k')) : ∀ j < npages sz, (par.entry j).isSome := by
  by_contra hnot
  push Not at hnot
  -- the first absent page
  obtain ⟨t, ⟨htn, habs⟩, hmin⟩ : ∃ t, (t < npages sz ∧ ¬ (par.entry t).isSome) ∧
      ∀ j < t, ¬ (j < npages sz ∧ ¬ (par.entry j).isSome) :=
    ⟨Nat.find hnot, Nat.find_spec hnot, fun j hj => Nat.find_min hnot hj⟩
  have hpres : ∀ j < t, (par.entry j).isSome := by
    intro j hj
    by_contra hj'
    exact hmin j hj ⟨by omega, hj'⟩
  have htu : t ≤ UPAGES := le_trans htn.le (npages_le hsz)
  have hsrc : ∀ j < t, ∀ e, par.entry j = some e → e.frame ∉ k.freelist := fun j hj e =>
    hown.own hsz (by omega)
  by_cases hcost : copyCost t ≤ k.avail
  · obtain ⟨msg, hpanic⟩ := copyuvm_panic hk htu htn hpres hsrc (not_isSome_iff_eq_none.mp habs) hcost
    rw [hpanic] at heq
    cases heq
  · rcases copyuvm_until hk htu htn.le hpres hsrc with ⟨k₁, hnone, -⟩ | ⟨hle, -⟩
    · rw [hnone] at heq
      cases heq
    · exact hcost hle

/-- Every user page of the copy is below `sz`, in a frame that was free. -/
theorem fresh_of_grown {k₁ : Kmem} {d₁ : Pgdir} (hset : Setup ld k k₁ d₁) (hsz : sz ≤ KERNBASE) {c : ℕ → ℕ → UInt8}
    {perm : ℕ → Perm} (hg : Grown ld k₁ d₁ 0 (npages sz) c perm k' d) {j : ℕ} {e : Pte} (he : d.UserPage j e) :
    j < npages sz ∧ d.frameOf (.page j) = some e.frame ∧ e.frame ∈ k.freelist := by
  have hmax := npages_le hsz
  obtain ⟨hj, hent, hopen⟩ := he
  have hlt : j < npages sz := by
    by_contra hge
    rw [hg.old j hj (by omega)] at hent
    rcases hopen with hu | hu
    · rw [hset.user hu] at hent
      cases hent
    · rw [hset.perm hj hent] at hu
      cases hu
  have huse : d.frameOf (.page j) = some e.frame := by
    rw [frameOf, if_pos (by omega), hent]
    rfl
  have hmem : e.frame ∈ frames k' d := .inr ⟨.page j, huse⟩
  rw [hg.frames_eq, hset.frames_eq] at hmem
  exact ⟨hlt, huse, hmem⟩

open ProcMem in
/-- With plenty of memory, a source of one page is copied into a frame that was free. -/
theorem copyuvm_onePage {e : Pte} (he : par.entry 0 = some e) :
    ∃ d k' f, copyuvm bootLinker bootKmem par PGSIZE = .ok (some d, k') ∧ d.entry 0 = some ⟨f, e.perm⟩ ∧
      f ∈ bootKmem.freelist := by
  have havail := bootKmem_avail
  obtain ⟨pt, hpt⟩ := isSome_iff_exists.mp (hasTable_of_entry he)
  have hpte : pt.pte (ptx (0 * PGSIZE)) = some e := by rw [← entry_of_pde hpt, he]
  rcases setupkvm_spec bootKmem_good with ⟨-, -, -, -, -, hlt⟩ | ⟨k₁, d₁, heq, hset⟩
  · omega
  have h65 := hset.avail_eq
  rw [copyuvm_eq heq, copyLoop, if_pos (by decide), ← Nat.zero_mul PGSIZE, hpt]
  simp only [hpte]
  rcases growPage_cases hset.sound (show 0 < UPAGES by decide) (hset.user (by decide)) (fun k => k.page e.frame)
      (fun k' hk' => by simp only [hk']) e.perm with
    ⟨-, -, -, -, -, h0⟩ | ⟨-, -, -, -, -, -, -, -, -, -, h1, -⟩ | ⟨f, k₂, k₃, d₃, hal, hmap, hg⟩
  · omega
  · omega
  · obtain ⟨g, hd, -⟩ := hg.new 0 le_rfl Nat.zero_lt_one
    have hmem : g ∈ frames k₃ d₃ := .inr ⟨.page 0, by rw [frameOf, if_pos (by decide), hd]; rfl⟩
    rw [hg.frames_eq, hset.frames_eq] at hmem
    refine ⟨d₃, k₃, g, ?_, hd, hmem⟩
    rw [hal]
    simp only [hmap, bind, Except.bind, if_true]
    rfl

/-- A directory whose one page is in use. -/
theorem noneFree_singlePage : NoneFree ProcMem.bootKmem (singlePage 2000) := by
  rintro j e ⟨-, hent, -⟩
  have hframe : e.frame = 2000 := by
    simp only [entry, lookup, singlePage] at hent
    split_ifs at hent
    · simp only [bind_some] at hent
      split_ifs at hent
      rw [← some.inj hent]
    · cases hent
  rw [hframe]
  intro hmem
  have := List.mem_range'_1.mp hmem
  omega

/-- A page directory that maps pages of the free list. -/
def freePages : Pgdir :=
  ⟨1, fun x => if x = 0 then some ⟨2, fun y => if y < 300 then some ⟨1000 + y, ⟨true, true⟩⟩ else none⟩ else none⟩

theorem entry_freePages {j : ℕ} (hj : j < 300) : freePages.entry j = some ⟨1000 + j, ⟨true, true⟩⟩ := by
  have hd : pdx (j * PGSIZE) = 0 := by
    apply Fin.ext
    rw [pdx_page]
    show j / 1024 % 1024 = 0
    omega
  have hp : (ptx (j * PGSIZE) : ℕ) = j := by
    rw [ptx_page]
    omega
  have hlt : ptx (j * PGSIZE) < 300 := by
    rw [Fin.lt_def, hp]
    exact hj
  simp only [entry, lookup, freePages]
  rw [if_pos hd]
  simp only [bind_some]
  rw [if_pos hlt, hp]

end Pgdir
