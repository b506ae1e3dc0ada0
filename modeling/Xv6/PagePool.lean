/-
# Pages are conserved

Any number of address spaces share one page allocator.  Every call of `vm.c` that takes or frees pages works
on one of them and on the free list, and hands the same frames out again (`Exchange`); so in every run each page
is free or has one use, whichever calls of `kalloc` fail.
-/
import Xv6.LazyFork

open Pgdir ProcMem Option List

/-! ## Address spaces and their calls -/

/-- The page allocator and the address spaces, by number. -/
structure Pool where
  kmem : Kmem
  space : ℕ → Option Pgdir

namespace Pool

/-- The calls.  Each comes with the calls of `kalloc` that fail in it. -/
inductive Op where
  | setupkvm (i : ℕ) (refuse : List Bool)
  | allocuvm (i oldsz newsz : ℕ) (refuse : List Bool)
  | deallocuvm (i oldsz newsz : ℕ)
  /-- Copy the address space `i` to `j`. -/
  | copyuvm (i j sz : ℕ) (refuse : List Bool)
  | freevm (i : ℕ)

/-- The allocator, with the coming calls of `kalloc` that fail. -/
def refusing (s : Pool) (refuse : List Bool) : Kmem := { s.kmem with refuse := refuse }

/-- The pool after a call that left `kmem` and the address space `i` as `pg`. -/
def put (s : Pool) (i : ℕ) (kmem : Kmem) (pg : Option Pgdir) : Pool :=
  ⟨kmem, Function.update s.space i pg⟩

/-- **The calls**; `none` if the address space is not there, a number is taken, or the kernel stops. -/
def step (ld : Linker) (s : Pool) : Op → Option Pool
  | .setupkvm i refuse =>
    if (s.space i).isNone then
      (Pgdir.setupkvm ld (s.refusing refuse)).toOption.map fun r => s.put i r.2 r.1
    else none
  | .allocuvm i oldsz newsz refuse =>
    (s.space i).bind fun pg =>
      (Pgdir.allocuvm ld (s.refusing refuse) pg oldsz newsz).toOption.map fun r =>
        s.put i r.2.1 (some r.2.2)
  | .deallocuvm i oldsz newsz =>
    (s.space i).bind fun pg =>
      (Pgdir.deallocuvm ld s.kmem pg oldsz newsz).toOption.map fun r => s.put i r.2.1 (some r.2.2)
  | .copyuvm i j sz refuse =>
    (s.space i).bind fun pg =>
      if (s.space j).isNone then
        (Pgdir.copyuvm ld (s.refusing refuse) pg sz).toOption.map fun r => s.put j r.2 r.1
      else none
  | .freevm i =>
    (s.space i).bind fun pg =>
      (Pgdir.freevm ld s.kmem pg).toOption.map fun kmem => s.put i kmem none

/-- No page from `oldsz` up to `newsz` is mapped. -/
def Unmapped (pg : Pgdir) (oldsz newsz : ℕ) : Prop :=
  ∀ n < NPAGES, pgroundup oldsz ≤ n * PGSIZE → n * PGSIZE < newsz → pg.entry n = none

/-- How `allocuvm` and `deallocuvm` are called. -/
def Called (s : Pool) : Op → Prop
  | .allocuvm i oldsz newsz _ => ∀ pg, s.space i = some pg → Unmapped pg oldsz newsz
  | .deallocuvm _ oldsz _ => oldsz ≤ KERNBASE
  | _ => True

/-! ## Where a page is -/

/-- What a page is used for. -/
inductive Place where
  | free
  | used (i : ℕ) (u : Use)

/-- The frame `f` is at a place. -/
def At (s : Pool) : Place → ℕ → Prop
  | .free, f => f ∈ s.kmem.freelist
  | .used i u, f => (s.space i).bind (fun pg => pg.frameOf u) = some f

/-- **The pages `all` are conserved**: each is in one place, on the free list at most once. -/
structure Conserved (all : Set ℕ) (s : Pool) : Prop where
  nodup : s.kmem.freelist.Nodup
  place : ∀ f ∈ all, ∃! p, s.At p f
  only : ∀ p f, s.At p f → f ∈ all

/-! ## One address space -/

/-- An address space or none is sound. -/
def LocalSound (ld : Linker) (k : Kmem) : Option Pgdir → Prop
  | none => k.Good ld
  | some pg => Sound ld k pg

/-- The frames that are free or in use by the address space, if there is one. -/
def localFrames (k : Kmem) (pg : Option Pgdir) : Set ℕ :=
  {f | f ∈ k.freelist ∨ ∃ u, pg.bind (fun pg => pg.frameOf u) = some f}

/-- The call handed out the frames that it got. -/
structure Exchange (ld : Linker) (k : Kmem) (pg : Option Pgdir) (k' : Kmem) (pg' : Option Pgdir) :
    Prop where
  sound : LocalSound ld k' pg'
  frames_eq : localFrames k' pg' = localFrames k pg

variable {ld : Linker} {all : Set ℕ} {s s' : Pool} {k k' : Kmem} {i : ℕ}

variable {pg : Option Pgdir}

theorem LocalSound.good (h : LocalSound ld k pg) : k.Good ld := by
  cases pg with
  | none => exact h
  | some pg => exact h.toGood

variable {f : ℕ}

theorem LocalSound.inj (h : LocalSound ld k pg) {u v : Use}
    (hu : pg.bind (fun pg => pg.frameOf u) = some f)
    (hv : pg.bind (fun pg => pg.frameOf v) = some f) :
    u = v := by
  cases pg with
  | none => cases hu
  | some pg => exact Sound.inj h u v f hu hv

theorem LocalSound.used (h : LocalSound ld k pg) {u : Use}
    (hu : pg.bind (fun pg => pg.frameOf u) = some f) : f ∉ k.freelist := by
  cases pg with
  | none => cases hu
  | some pg => exact (Sound.used h u f hu).2

theorem LocalSound.of_free (h : LocalSound ld k pg) (hk : k'.Good ld)
    (hfree : ∀ f ∈ k'.freelist, ∀ u, pg.bind (fun pg => pg.frameOf u) ≠ some f) :
    LocalSound ld k' pg := by
  cases pg with
  | none => exact hk
  | some pg => exact Sound.of_free h hk hfree

/-! ## All address spaces -/

/-- Every address space is sound, and no frame is in two of them. -/
structure Inv (ld : Linker) (all : Set ℕ) (s : Pool) : Prop where
  sound : ∀ i, LocalSound ld s.kmem (s.space i)
  apart : ∀ i j u v f, s.At (.used i u) f → s.At (.used j v) f → i = j
  mem_iff : ∀ f, f ∈ all ↔ f ∈ s.kmem.freelist ∨ ∃ i u, s.At (.used i u) f

theorem Inv.conserved (h : Inv ld all s) : Conserved all s where
  nodup := (h.sound 0).good.nodup
  place := by
    intro f hf
    obtain hfree | ⟨i, u, hu⟩ := (h.mem_iff f).mp hf
    · refine ⟨.free, hfree, fun p hp => ?_⟩
      cases p with
      | free => rfl
      | used i u => exact absurd hfree ((h.sound i).used hp)
    · refine ⟨.used i u, hu, fun p hp => ?_⟩
      cases p with
      | free => exact absurd hp ((h.sound i).used hu)
      | used j v =>
        obtain rfl := h.apart j i v u f hp hu
        rw [(h.sound j).inj hp hu]
  only := by
    intro p f hp
    cases p with
    | free => exact (h.mem_iff f).mpr (.inl hp)
    | used i u => exact (h.mem_iff f).mpr (.inr ⟨i, u, hp⟩)

theorem put_space (s : Pool) (i : ℕ) (k : Kmem) (pg : Option Pgdir) : (s.put i k pg).space i = pg :=
  Function.update_self ..

/-- **An exchange keeps the invariant**: what the call works with is in no other address space. -/
theorem Inv.exchange {pg' : Option Pgdir} (h : Inv ld all s)
    (hx : Exchange ld s.kmem (s.space i) k' pg') : Inv ld all (s.put i k' pg') := by
  have hself : (s.put i k' pg').space i = pg' := put_space ..
  have hother : ∀ j, j ≠ i → (s.put i k' pg').space j = s.space j := fun j hj =>
    Function.update_of_ne hj ..
  have hat : ∀ u f, (s.put i k' pg').At (.used i u) f ↔
      pg'.bind (fun pg => pg.frameOf u) = some f := fun u f => by
    unfold At
    dsimp only
    rw [hself]
  have hat' : ∀ j u f, j ≠ i → ((s.put i k' pg').At (.used j u) f ↔ s.At (.used j u) f) :=
    fun j u f hj => by
      unfold At
      dsimp only
      rw [hother j hj]
  have hmem : ∀ f, (f ∈ k'.freelist ∨ ∃ u, pg'.bind (fun pg => pg.frameOf u) = some f) ↔
      f ∈ s.kmem.freelist ∨ ∃ u, s.At (.used i u) f := fun f => by
    have := congrArg (f ∈ ·) hx.frames_eq
    exact iff_of_eq this
  -- a frame of another address space is not among those of the call
  have hforeign : ∀ j v f, j ≠ i → s.At (.used j v) f →
      ¬ (f ∈ k'.freelist ∨ ∃ u, pg'.bind (fun pg => pg.frameOf u) = some f) := by
    intro j v f hj hv hin
    obtain hfree | ⟨u, hu⟩ := (hmem f).mp hin
    · exact (h.sound j).used hv hfree
    · exact hj (h.apart j i v u f hv hu)
  refine ⟨fun j => ?_, fun j l u v f hu hv => ?_, fun f => ?_⟩
  · by_cases hj : j = i
    · rw [hj, hself]
      exact hx.sound
    · rw [hother j hj]
      exact (h.sound j).of_free hx.sound.good fun f hf u hu => hforeign j u f hj hu (.inl hf)
  · by_cases hj : j = i <;> by_cases hl : l = i
    · rw [hj, hl]
    · rw [hj, hat] at hu
      rw [hat' l v f hl] at hv
      exact absurd (.inr ⟨u, hu⟩) (hforeign l v f hl hv)
    · rw [hl, hat] at hv
      rw [hat' j u f hj] at hu
      exact absurd (.inr ⟨v, hv⟩) (hforeign j u f hj hu)
    · rw [hat' j u f hj] at hu
      rw [hat' l v f hl] at hv
      exact h.apart j l u v f hu hv
  · rw [h.mem_iff f]
    constructor
    · rintro (hfree | ⟨j, u, hu⟩)
      · exact ((hmem f).mpr (.inl hfree)).imp_right fun ⟨u, hu⟩ => ⟨i, u, (hat u f).mpr hu⟩
      · by_cases hj : j = i
        · subst hj
          exact ((hmem f).mpr (.inr ⟨u, hu⟩)).imp_right fun ⟨u, hu⟩ => ⟨j, u, (hat u f).mpr hu⟩
        · exact .inr ⟨j, u, (hat' j u f hj).mpr hu⟩
    · rintro (hfree | ⟨j, u, hu⟩)
      · exact ((hmem f).mp (.inl hfree)).imp_right fun ⟨u, hu⟩ => ⟨i, u, hu⟩
      · by_cases hj : j = i
        · subst hj
          exact ((hmem f).mp (.inr ⟨u, (hat u f).mp hu⟩)).imp_right fun ⟨u, hu⟩ => ⟨j, u, hu⟩
        · exact .inr ⟨j, u, (hat' j u f hj).mp hu⟩

/-! ## The calls exchange pages -/

theorem localFrames_some (k : Kmem) (pg : Pgdir) : localFrames k (some pg) = frames k pg := rfl

theorem localFrames_none (k : Kmem) : localFrames k none = {f | f ∈ k.freelist} := by
  unfold localFrames
  simp

/-- Which calls of `kalloc` fail is not part of the free list. -/
theorem good_refusing (refuse : List Bool) (h : s.kmem.Good ld) : (s.refusing refuse).Good ld :=
  ⟨h.nodup, h.freeable⟩

variable {pg : Pgdir}

theorem sound_refusing (refuse : List Bool) (h : Sound ld s.kmem pg) :
    Sound ld (s.refusing refuse) pg := h.congr rfl rfl

theorem Exchange.of_refusing {pg pg' : Option Pgdir} {refuse : List Bool}
    (h : Exchange ld (s.refusing refuse) pg k' pg') : Exchange ld s.kmem pg k' pg' :=
  ⟨h.sound, h.frames_eq⟩

/-- A call that leaves its address space out and the same pages free. -/
theorem Exchange.of_free (hk : k'.Good ld) (h : ∀ f, f ∈ k'.freelist ↔ f ∈ k.freelist) :
    Exchange ld k none k' none := by
  refine ⟨hk, ?_⟩
  rw [localFrames_none, localFrames_none]
  exact Set.ext h

theorem setupkvm_exchange (hk : k.Good ld) :
    ∃ r, setupkvm ld k = .ok r ∧ Exchange ld k none r.2 r.1 ∧
      (r.1 = none → ∀ f, f ∈ r.2.freelist ↔ f ∈ k.freelist) := by
  obtain ⟨k', heq, hgood, hmem, -⟩ | ⟨k', d, heq, hset⟩ := setupkvm_spec hk
  · exact ⟨_, heq, .of_free hgood hmem, fun _ => hmem⟩
  · refine ⟨_, heq, ⟨hset.sound, ?_⟩, nofun⟩
    rw [localFrames_some, localFrames_none, hset.frames_eq]

theorem freevm_exchange (hs : Sound ld k pg) :
    ∃ k', freevm ld k pg = .ok k' ∧ Exchange ld k (some pg) k' none ∧
      ∀ u f, pg.frameOf u = some f → f ∈ k'.freelist := by
  obtain ⟨k', heq, hgood, hmem, -⟩ := freevm_spec hs
  refine ⟨k', heq, ⟨hgood, ?_⟩, fun u f hu => (hmem f).mpr (.inr ⟨u, hu⟩)⟩
  rw [localFrames_some, localFrames_none]
  exact Set.ext hmem

theorem deallocuvm_exchange {oldsz : ℕ} (newsz : ℕ) (hs : Sound ld k pg) (hold : oldsz ≤ KERNBASE) :
    ∃ r, deallocuvm ld k pg oldsz newsz = .ok r ∧ Exchange ld k (some pg) r.2.1 (some r.2.2) := by
  by_cases hlt : newsz < oldsz
  · obtain ⟨k', pg', heq, hd⟩ := deallocuvm_spec hs hold hlt
    exact ⟨_, heq, hd.sound, hd.frames_eq⟩
  · exact ⟨_, if_pos (not_lt.mp hlt), hs, rfl⟩

theorem allocuvm_exchange {oldsz newsz : ℕ} (hs : Sound ld k pg) (hun : Unmapped pg oldsz newsz) :
    ∃ r, allocuvm ld k pg oldsz newsz = .ok r ∧ Exchange ld k (some pg) r.2.1 (some r.2.2) ∧
      (r.1 = 0 → ∀ n < NPAGES, r.2.2.entry n = pg.entry n) := by
  by_cases hmax : newsz ≥ KERNBASE
  · refine ⟨(0, k, pg), ?_, ⟨hs, rfl⟩, fun _ _ _ => rfl⟩
    unfold allocuvm
    rw [if_pos hmax]
  by_cases hlt : newsz < oldsz
  · refine ⟨(oldsz, k, pg), ?_, ⟨hs, rfl⟩, fun _ _ _ => rfl⟩
    unfold allocuvm
    rw [if_neg hmax, if_pos hlt]
  have hun' : ∀ j, npages oldsz ≤ j → j < npages newsz → pg.entry j = none := by
    intro j h1 h2
    have h3 := lt_npages.mp h2
    refine hun j ?_ ?_ h3
    · unfold PGSIZE KERNBASE NPAGES at *
      omega
    · rw [pgroundup_eq (by omega)]
      exact Nat.mul_le_mul_right PGSIZE h1
  obtain ⟨k', pg', heq, hs', hfr, -, hentry, -⟩ | ⟨k', pg', heq, hg⟩ :=
    allocuvm_spec hs (not_lt.mp hlt) (not_le.mp hmax) hun'
  · exact ⟨_, heq, ⟨hs', hfr⟩, fun _ => hentry⟩
  · refine ⟨_, heq, ⟨hg.sound, hg.frames_eq⟩, fun hzero n hn => hg.old n hn ?_⟩
    -- a new size of zero has no pages
    obtain rfl : newsz = 0 := hzero
    rintro ⟨-, h⟩
    exact absurd (lt_npages.mp h) (Nat.not_lt_zero _)

theorem copyuvm_exchange {sz : ℕ} {r : Option Pgdir × Kmem} (hs : Sound ld k pg)
    (hr : copyuvm ld k pg sz = .ok r) :
    Exchange ld k none r.2 r.1 ∧ (r.1 = none → ∀ f, f ∈ r.2.freelist ↔ f ∈ k.freelist) := by
  have hown : ∀ j < UPAGES, ∀ e, pg.entry j = some e → e.frame ∉ k.freelist := by
    intro j hj e he
    exact (hs.used (.page j) e.frame (by simp [frameOf, hj, he])).2
  obtain ⟨t, htn, htu, habs, hpres⟩ | ⟨hsz, hpres⟩ := hs.first_absent sz
  · -- page `t` is absent, so the call ran out of memory before it
    have hcost : ¬ copyCost t ≤ k.avail := fun hcost => by
      obtain ⟨msg, hpanic⟩ := copyuvm_panic hs.toGood htu.le htn hpres
        (fun j hj => hown j (by omega)) habs hcost
      rw [hpanic] at hr
      cases hr
    obtain ⟨k', heq, hgood, hmem, -⟩ | ⟨hle, -⟩ := copyuvm_until hs.toGood htu.le htn.le hpres
      fun j hj => hown j (by omega)
    · rw [heq] at hr
      cases hr
      exact ⟨.of_free hgood hmem, fun _ => hmem⟩
    · exact absurd hle hcost
  · have hmax := npages_le hsz
    obtain ⟨k', heq, hgood, hmem⟩ | ⟨k₁, d₁, k', d', hset, hg, heq⟩ :=
      copyuvm_ok hs.toGood hsz hpres fun j hj => hown j (by omega)
    · rw [heq] at hr
      cases hr
      exact ⟨.of_free hgood hmem, fun _ => hmem⟩
    · rw [heq] at hr
      cases hr
      refine ⟨⟨hg.sound, ?_⟩, by simp⟩
      rw [localFrames_some, localFrames_none, hg.frames_eq, hset.frames_eq]

/-! ## Runs -/

theorem Inv.sound_some (h : Inv ld all s) (hpg : s.space i = some pg) :
    Sound ld s.kmem pg := by
  have hsound := h.sound i
  rwa [hpg] at hsound

/-- **What a call does**: it exchanges pages with one address space. -/
theorem exchange_of_step {op : Op} (h : Inv ld all s) (hcalled : s.Called op)
    (hstep : s.step ld op = some s') :
    ∃ i k' pg', s' = s.put i k' pg' ∧ Exchange ld s.kmem (s.space i) k' pg' := by
  cases op with
  | setupkvm i refuse =>
    obtain ⟨hnone, hstep⟩ := ite_none_right_eq_some.mp hstep
    obtain ⟨r, heq, hx, -⟩ := setupkvm_exchange (good_refusing refuse (h.sound i).good)
    rw [heq] at hstep
    cases hstep
    refine ⟨i, r.2, r.1, rfl, ?_⟩
    rw [isNone_iff_eq_none.mp hnone]
    exact hx.of_refusing
  | allocuvm i oldsz newsz refuse =>
    obtain ⟨pg, hpg, hstep⟩ := bind_eq_some_iff.mp hstep
    obtain ⟨r, heq, hx, -⟩ := allocuvm_exchange (sound_refusing refuse (h.sound_some hpg))
      (hcalled pg hpg)
    rw [heq] at hstep
    cases hstep
    exact ⟨i, r.2.1, some r.2.2, rfl, hpg ▸ hx.of_refusing⟩
  | deallocuvm i oldsz newsz =>
    obtain ⟨pg, hpg, hstep⟩ := bind_eq_some_iff.mp hstep
    obtain ⟨r, heq, hx⟩ := deallocuvm_exchange newsz (h.sound_some hpg) hcalled
    rw [heq] at hstep
    cases hstep
    exact ⟨i, r.2.1, some r.2.2, rfl, hpg ▸ hx⟩
  | copyuvm i j sz refuse =>
    obtain ⟨pg, hpg, hstep⟩ := bind_eq_some_iff.mp hstep
    obtain ⟨hnone, hstep⟩ := ite_none_right_eq_some.mp hstep
    obtain ⟨r, hr, rfl⟩ := map_eq_some_iff.mp hstep
    refine ⟨j, r.2, r.1, rfl, ?_⟩
    rw [isNone_iff_eq_none.mp hnone]
    exact (copyuvm_exchange (sound_refusing refuse (h.sound_some hpg)) (Outcome.toOption_eq_some.mp hr)).1.of_refusing
  | freevm i =>
    obtain ⟨pg, hpg, hstep⟩ := bind_eq_some_iff.mp hstep
    obtain ⟨k', heq, hx, -⟩ := freevm_exchange (h.sound_some hpg)
    rw [heq] at hstep
    cases hstep
    exact ⟨i, k', none, rfl, hpg ▸ hx⟩

theorem Inv.step {op : Op} (h : Inv ld all s) (hcalled : s.Called op) (hstep : s.step ld op = some s') :
    Inv ld all s' := by
  obtain ⟨i, k', pg', rfl, hx⟩ := exchange_of_step h hcalled hstep
  exact h.exchange hx

/-- The pool before the first address space. -/
def boot (k : Kmem) : Pool := ⟨k, fun _ => none⟩

theorem inv_boot (hk : k.Good ld) : Inv ld {f | f ∈ k.freelist} (boot k) where
  sound _ := hk
  apart _ _ _ _ _ hu := by cases hu
  mem_iff f := by
    refine ⟨.inl, ?_⟩
    rintro (hf | ⟨i, u, hu⟩)
    · exact hf
    · cases hu

/-- **Pages are conserved** in every run of the calls, from any free list, whichever calls of `kalloc` fail.  In
every state reached `setupkvm`, `allocuvm`, `deallocuvm` and `freevm` return; `setupkvm` and `copyuvm` that
return `0` leave the same pages free, `allocuvm` that returns `0` leaves the address space as it was, and
`freevm` frees every page of it. -/
theorem pages_conserved {ops : List Op} (hk : k.Good ld)
    (hrun : Runs.run (step ld) (boot k) ops = some s) (hcalled : Runs.Meets (step ld) Called (boot k) ops) :
    Conserved {f | f ∈ k.freelist} s ∧
    (∀ refuse, ∃ r, Pgdir.setupkvm ld (s.refusing refuse) = .ok r ∧
      (r.1 = none → ∀ f, f ∈ r.2.freelist ↔ f ∈ s.kmem.freelist)) ∧
    ∀ i pg, s.space i = some pg →
      (∀ oldsz newsz refuse, Unmapped pg oldsz newsz →
        ∃ r, Pgdir.allocuvm ld (s.refusing refuse) pg oldsz newsz = .ok r ∧
          (r.1 = 0 → ∀ n < NPAGES, r.2.2.entry n = pg.entry n)) ∧
      (∀ oldsz newsz, oldsz ≤ KERNBASE → ∃ r, Pgdir.deallocuvm ld s.kmem pg oldsz newsz = .ok r) ∧
      (∀ sz refuse k', Pgdir.copyuvm ld (s.refusing refuse) pg sz = .ok (none, k') →
        ∀ f, f ∈ k'.freelist ↔ f ∈ s.kmem.freelist) ∧
      ∃ k', Pgdir.freevm ld s.kmem pg = .ok k' ∧ ∀ u f, pg.frameOf u = some f → f ∈ k'.freelist := by
  have h : Inv ld {f | f ∈ k.freelist} s := Runs.run_invariant_of_meets
    (fun _ _ _ hstep hcalled h => h.step hcalled hstep) hrun hcalled (inv_boot hk)
  refine ⟨h.conserved, fun refuse => ?_, fun i pg hpg => ⟨fun oldsz newsz refuse hun => ?_,
    fun oldsz newsz hold => ?_, fun sz refuse k' hcopy => ?_, ?_⟩⟩
  · obtain ⟨r, heq, -, hfree⟩ := setupkvm_exchange (good_refusing refuse (h.sound 0).good)
    exact ⟨r, heq, hfree⟩
  · obtain ⟨r, heq, -, hentry⟩ := allocuvm_exchange (sound_refusing refuse (h.sound_some hpg)) hun
    exact ⟨r, heq, hentry⟩
  · obtain ⟨r, heq, -⟩ := deallocuvm_exchange newsz (h.sound_some hpg) hold
    exact ⟨r, heq⟩
  · exact (copyuvm_exchange (sound_refusing refuse (h.sound_some hpg)) hcopy).2 rfl
  · obtain ⟨k', heq, -, hfree⟩ := freevm_exchange (h.sound_some hpg)
    exact ⟨k', heq, hfree⟩

/-! ### Freeing pages of the kernel part -/

/-- A range of the pages of physical memory from `a` to `e`. -/
theorem entry_direct {a e : ℕ} {perm : Perm} (ha : a ≤ f) (hae : a < e) (he : e ≤ 57344) :
    Kmap.entry ⟨(UPAGES + a) * PGSIZE, a * PGSIZE, e * PGSIZE, perm⟩ (UPAGES + f) =
      if f < e then some ⟨f, perm⟩ else none := by
  unfold Kmap.entry
  split_ifs with h
  all_goals simp only [Kmap.first, Kmap.pages, Kmap.size, u32, UPAGES, PGSIZE] at h ⊢
  · congr 2
    omega
  · omega
  · omega

/-- The kernel part maps physical memory in one piece. -/
theorem rangesEntry_direct (ld : Linker) (hf : f * PGSIZE < PHYSTOP) :
    ∃ perm, rangesEntry (kmap ld) (UPAGES + f) = some ⟨f, perm⟩ := by
  obtain ⟨d, hlo, hhi, heq⟩ := kmap_eq ld
  have hf' : f < 57344 := by
    unfold PGSIZE PHYSTOP at hf
    omega
  rw [heq]
  unfold rangesEntry
  have hlow : Kmap.entry ⟨UPAGES * PGSIZE, 0, 256 * PGSIZE, ⟨true, false⟩⟩ (UPAGES + f) = _ :=
    entry_direct (a := 0) f.zero_le (by decide) (by decide)
  rw [findSome?_cons, hlow]
  by_cases h₁ : f < 256
  · rw [if_pos h₁]
    exact ⟨_, rfl⟩
  rw [if_neg h₁, findSome?_cons, entry_direct (by omega) hlo hhi.le]
  by_cases h₂ : f < d
  · rw [if_pos h₂]
    exact ⟨_, rfl⟩
  rw [if_neg h₂, findSome?_cons, entry_direct (by omega) hhi le_rfl, if_pos hf']
  exact ⟨_, rfl⟩

/-- `deallocuvm` of a page of the kernel part frees the frame behind it, whoever uses it. -/
theorem deallocuvm_kernel {perm : Perm} (hf : Kmem.Freeable ld f)
    (he : pg.entry (UPAGES + f) = some ⟨f, perm⟩) :
    ∃ pg', deallocuvm ld k pg (KERNBASE + (f + 1) * PGSIZE) (KERNBASE + f * PGSIZE) =
      .ok (KERNBASE + f * PGSIZE, freed k f, pg') := by
  have hlt := hf.2
  have hpage : KERNBASE + f * PGSIZE = (UPAGES + f) * PGSIZE := by
    unfold KERNBASE UPAGES PGSIZE
    omega
  have hend : KERNBASE + (f + 1) * PGSIZE = (UPAGES + f + 1) * PGSIZE := by
    rw [Nat.add_one_mul, ← Nat.add_assoc, hpage, Nat.add_one_mul]
  have hround : pgroundup ((UPAGES + f) * PGSIZE) = (UPAGES + f) * PGSIZE := by
    unfold pgroundup u32 UPAGES PGSIZE PHYSTOP at *
    omega
  have hnext : u32 ((UPAGES + f) * PGSIZE + PGSIZE) = (UPAGES + f + 1) * PGSIZE :=
    u32_next (by unfold UPAGES PGSIZE PHYSTOP NPAGES at *; omega)
  obtain ⟨t, ht⟩ := isSome_iff_exists.mp (hasTable_of_entry he)
  have hpte : t.pte (ptx ((UPAGES + f) * PGSIZE)) = some ⟨f, perm⟩ := by rw [← entry_of_pde ht, he]
  -- one round, then the end of the range
  have hloop : ∀ fuel, deallocLoop ld ((UPAGES + f + 1) * PGSIZE) (fuel + 2) k pg ((UPAGES + f) * PGSIZE) =
      .ok (freed k f, pg.setPte ((UPAGES + f) * PGSIZE) none) := by
    intro fuel
    rw [deallocLoop, if_pos (Nat.mul_lt_mul_of_pos_right (Nat.lt_succ_self _) (by decide)), ht]
    simp only [hpte, if_neg (ld.freeable_pos hf), kfree_ok hf, hnext]
    show deallocLoop ld _ (fuel + 1) (freed k f) _ _ = _
    rw [deallocLoop, if_neg (lt_irrefl _)]
  refine ⟨pg.setPte ((UPAGES + f) * PGSIZE) none, ?_⟩
  rw [hpage, hend, deallocuvm, if_neg (by unfold PGSIZE; omega), hround, hloop]
  rfl

theorem step_deallocuvm {oldsz newsz : ℕ} {r : ℕ × Kmem × Pgdir} (hi : s.space i = some pg)
    (heq : Pgdir.deallocuvm ld s.kmem pg oldsz newsz = .ok r) :
    s.step ld (.deallocuvm i oldsz newsz) = some (s.put i r.2.1 (some r.2.2)) := by
  simp only [step, hi, heq, bind_some]
  rfl

/-- The first address space. -/
theorem exists_setup : ∃ s d,
    Runs.run (step bootLinker) (boot bootKmem) [.setupkvm 0 []] = some s ∧
    s.space 0 = some d ∧ Setup bootLinker bootKmem s.kmem d := by
  obtain ⟨-, -, -, -, -, havail⟩ | ⟨k', d, heq, hset⟩ := setupkvm_spec bootKmem_good
  · rw [bootKmem_avail] at havail
    omega
  · have hrefuse : (boot bootKmem).refusing [] = bootKmem := rfl
    have hstep : (boot bootKmem).step bootLinker (.setupkvm 0 []) =
        some ((boot bootKmem).put 0 k' (some d)) := by
      simp only [step, hrefuse, heq]
      rfl
    refine ⟨(boot bootKmem).put 0 k' (some d), d, ?_, put_space .., hset⟩
    rw [Runs.run_cons, hstep]
    rfl

/-- After `setupkvm` every page is in one place. -/
theorem pages_conserved_first : ∃ s,
    Runs.run (step bootLinker) (boot bootKmem) [.setupkvm 0 []] = some s ∧
    (s.space 0).isSome ∧ Conserved {f | f ∈ bootKmem.freelist} s := by
  obtain ⟨s, d, hrun, hd, -⟩ := exists_setup
  refine ⟨s, hrun, by rw [hd]; rfl, (pages_conserved bootKmem_good hrun ⟨trivial, fun _ _ => trivial⟩).1⟩

/-- `deallocuvm` above `KERNBASE` puts a page on the free list that is on it already. -/
theorem not_pages_conserved_kernel : ∃ f s,
    Runs.run (step bootLinker) (boot bootKmem)
      [.setupkvm 0 [], .deallocuvm 0 (KERNBASE + (f + 1) * PGSIZE) (KERNBASE + f * PGSIZE)] = some s ∧
    ¬ Conserved {f | f ∈ bootKmem.freelist} s := by
  obtain ⟨s, d, hrun, hd, hset⟩ := exists_setup
  obtain ⟨f, hf⟩ : ∃ f, f ∈ s.kmem.freelist := by
    refine exists_mem_of_ne_nil _ fun hnil => ?_
    have hzero := Kmem.avail_of_nil hnil
    have havail := hset.avail_eq
    rw [bootKmem_avail] at havail
    omega
  have hfree := hset.sound.freeable f hf
  obtain ⟨perm, hperm⟩ := rangesEntry_direct bootLinker hfree.2
  have hentry : d.entry (UPAGES + f) = some ⟨f, perm⟩ := by
    rw [hset.entry_eq _ ?_, hperm]
    have hlt := hfree.2
    unfold UPAGES NPAGES PHYSTOP PGSIZE at *
    omega
  obtain ⟨d', hdealloc⟩ := deallocuvm_kernel (k := s.kmem) hfree hentry
  refine ⟨f, s.put 0 (freed s.kmem f) (some d'), ?_, fun h => ?_⟩
  · have hsplit : ∀ a b : Op, [a, b] = [a] ++ [b] := fun _ _ => rfl
    rw [hsplit, Runs.run_append, hrun, bind_some, Runs.run_cons, step_deallocuvm hd hdealloc]
    rfl
  · exact (nodup_cons.mp h.nodup).1 hf

end Pool
