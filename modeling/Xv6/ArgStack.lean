/-
# The arguments of a new program

`exec` pushes the argument strings on the stack of the new program, below them the array of their addresses, and
below that the words that `main` is called with.  There is one page for all of it, and under it the guard page;
nothing counts the bytes.  What stops a stack that is too long is that each copy is a contiguous range that ends
near the place where the last one began: one that starts below the page has to cross the guard.

* `decode` is how a program reads its stack.
* `Placed` says where strings lie, from a top address downwards.
* `argument_stack` is the result: whenever `exec` succeeds, the new stack is read as the list of strings that was
  passed, and its pieces are apart from each other, aligned, and inside the stack page.
-/
import Xv6.Copyout
import Xv6.LazyFork

open Outcome List

namespace Exec

open Pgdir

/-! ## How a program reads its stack -/

/-- The byte at a user address. -/
def peek (k : Kmem) (pg : Pgdir) (va : ℕ) : UInt8 := pageOf k pg (va / PGSIZE) (va % PGSIZE)

/-- The word at an address. -/
def word (byte : ℕ → UInt8) (a : ℕ) : ℕ := leValue 4 fun i => byte (a + i)

/-- The string at an address, up to a NUL. -/
def cstring (byte : ℕ → UInt8) : ℕ → ℕ → List UInt8
  | 0, _ => []
  | fuel + 1, a => if byte a = 0 then [] else byte a :: cstring byte fuel (a + 1)

/-- The array of pointers at an address, up to a null pointer. -/
def pointers (byte : ℕ → UInt8) : ℕ → ℕ → List ℕ
  | 0, _ => []
  | fuel + 1, a => if word byte a = 0 then [] else word byte a :: pointers byte fuel (a + 4)

/-- What `main` is called with. -/
structure Start where
  /-- The return PC. -/
  pc : ℕ
  argc : ℕ
  argv : List (List UInt8)

/-- The array of pointers to the arguments. -/
def argvOf (byte : ℕ → UInt8) (sp : ℕ) : List ℕ := pointers byte PGSIZE (word byte (sp + 8))

/-- The stack from `sp` on, as a program reads it. -/
def decode (byte : ℕ → UInt8) (sp : ℕ) : Start :=
  ⟨word byte sp, word byte (sp + 4), (argvOf byte sp).map (cstring byte PGSIZE)⟩

/-- The pieces of the stack, each an address and a length: the header, the array of pointers, the strings. -/
def pieces (byte : ℕ → UInt8) (sp : ℕ) (argv : List (List UInt8)) : List (ℕ × ℕ) :=
  (sp, 12) :: (word byte (sp + 8), 4 * (argv.length + 1)) ::
    zipWith (fun a s => (a, s.length + 1)) (argvOf byte sp) argv

/-- Two pieces have no byte in common. -/
def Apart (p q : ℕ × ℕ) : Prop := p.1 + p.2 ≤ q.1 ∨ q.1 + q.2 ≤ p.1

variable {byte : ℕ → UInt8}

/-- A string that is stored with its NUL is read back. -/
theorem cstring_eq {s : List UInt8} : ∀ {a fuel : ℕ}, 0 ∉ s → s.length < fuel →
    (∀ j ≤ s.length, byte (a + j) = (s ++ [0]).getD j 0) → cstring byte fuel a = s := by
  induction s with
  | nil =>
    intro a fuel hs hfuel hbyte
    obtain ⟨fuel, rfl⟩ : ∃ r, fuel = r + 1 := ⟨fuel - 1, by omega⟩
    have h0 : byte a = 0 := hbyte 0 le_rfl
    rw [cstring, if_pos h0]
  | cons c s ih =>
    intro a fuel hs hfuel hbyte
    obtain ⟨fuel, rfl⟩ : ∃ r, fuel = r + 1 := ⟨fuel - 1, by omega⟩
    have h0 : byte a = c := hbyte 0 (Nat.zero_le _)
    have hc : c ≠ 0 := fun hc => hs (hc ▸ mem_cons_self)
    rw [cstring, h0, if_neg hc, ih (fun h => hs (mem_cons_of_mem _ h)) (by simpa using hfuel)]
    intro j hj
    have := hbyte (j + 1) (by simpa using hj)
    rw [Nat.add_assoc, Nat.add_comm 1 j, this]
    rfl

variable {addrs : List ℕ}

/-- Pointers that are stored with a null pointer after them are read back. -/
theorem pointers_eq : ∀ {a fuel : ℕ}, (∀ x ∈ addrs, x ≠ 0) →
    addrs.length < fuel → (∀ i ≤ addrs.length, word byte (a + 4 * i) = (addrs ++ [0]).getD i 0) →
    pointers byte fuel a = addrs := by
  induction addrs with
  | nil =>
    intro a fuel hs hfuel hword
    obtain ⟨fuel, rfl⟩ : ∃ r, fuel = r + 1 := ⟨fuel - 1, by omega⟩
    have h0 : word byte a = 0 := hword 0 le_rfl
    rw [pointers, if_pos h0]
  | cons x addrs ih =>
    intro a fuel hs hfuel hword
    obtain ⟨fuel, rfl⟩ : ∃ r, fuel = r + 1 := ⟨fuel - 1, by omega⟩
    have h0 : word byte a = x := hword 0 (Nat.zero_le _)
    rw [pointers, h0, if_neg (hs x mem_cons_self),
      ih (fun y hy => hs y (mem_cons_of_mem _ hy)) (by simpa using hfuel)]
    intro i hi
    have := hword (i + 1) (by simpa using hi)
    rw [show a + 4 + 4 * i = a + 4 * (i + 1) by omega, this]
    rfl

/-! ## Where the strings lie -/

/-- The strings lie at these addresses, each below the one before, from `top` down to `bottom`. -/
def Placed (byte : ℕ → UInt8) : ℕ → List (List UInt8) → List ℕ → ℕ → Prop
  | top, [], [], bottom => bottom = top
  | top, s :: rest, a :: addrs, bottom =>
    a % 4 = 0 ∧ a + s.length + 1 ≤ top ∧ (∀ j ≤ s.length, byte (a + j) = (s ++ [0]).getD j 0) ∧
      Placed byte a rest addrs bottom
  | _, _, _, _ => False

variable {argv : List (List UInt8)} {addrs : List ℕ} {top bottom : ℕ}

theorem Placed.length_eq (h : Placed byte top argv addrs bottom) : addrs.length = argv.length := by
  fun_induction Placed byte top argv addrs bottom with
  | case1 => rfl
  | case2 _ _ _ _ _ _ ih => rw [length_cons, length_cons, ih h.2.2.2]
  | case3 => exact h.elim

/-- The strings as pieces of the stack. -/
abbrev spans (addrs : List ℕ) (argv : List (List UInt8)) : List (ℕ × ℕ) :=
  zipWith (fun a s => (a, s.length + 1)) addrs argv

/-- Each string is between `bottom` and `top`, aligned, and apart from the others. -/
theorem Placed.spans (h : Placed byte top argv addrs bottom) :
    bottom ≤ top ∧ (∀ p ∈ Exec.spans addrs argv, bottom ≤ p.1 ∧ p.1 + p.2 ≤ top ∧ p.1 % 4 = 0) ∧
      (Exec.spans addrs argv).Pairwise Apart := by
  fun_induction Placed byte top argv addrs bottom with
  | case1 => exact ⟨le_of_eq h, fun p hp => absurd hp not_mem_nil, .nil⟩
  | case2 top s rest a addrs bottom ih =>
    obtain ⟨halign, hfit, -, hrest⟩ := h
    obtain ⟨hle, hin, hpair⟩ := ih hrest
    refine ⟨by omega, fun p hp => ?_, ?_⟩
    · rcases mem_cons.mp hp with rfl | hp
      · exact ⟨hle, by simpa [Nat.add_assoc] using hfit, halign⟩
      · obtain ⟨h1, h2, h3⟩ := hin p hp
        exact ⟨h1, by omega, h3⟩
    · exact pairwise_cons.mpr ⟨fun p hp => .inr (hin p hp).2.1, hpair⟩
  | case3 => exact h.elim

/-- Each string takes at least a byte. -/
theorem Placed.length_le (h : Placed byte top argv addrs bottom) : bottom + argv.length ≤ top := by
  fun_induction Placed byte top argv addrs bottom with
  | case1 => exact le_of_eq h
  | case2 _ _ _ _ _ _ ih =>
    have := ih h.2.2.2
    have := h.2.1
    rw [length_cons]
    omega
  | case3 => exact h.elim

/-- The strings are read back. -/
theorem Placed.map_cstring (h : Placed byte top argv addrs bottom) (hs : ∀ s ∈ argv, 0 ∉ s)
    (hfit : top - bottom ≤ PGSIZE) : addrs.map (cstring byte PGSIZE) = argv := by
  fun_induction Placed byte top argv addrs bottom with
  | case1 => rfl
  | case2 top s rest a addrs bottom ih =>
    obtain ⟨-, hfit', hbyte, hrest⟩ := h
    have hle := hrest.spans.1
    rw [map_cons, cstring_eq (hs s mem_cons_self) (by omega) hbyte,
      ih hrest (fun t ht => hs t (mem_cons_of_mem _ ht)) (by omega)]
  | case3 => exact h.elim

/-- Only the bytes between `bottom` and `top` matter. -/
theorem Placed.congr {byte byte' : ℕ → UInt8} (h : Placed byte top argv addrs bottom)
    (hsame : ∀ a, bottom ≤ a → a < top → byte' a = byte a) : Placed byte' top argv addrs bottom := by
  fun_induction Placed byte top argv addrs bottom with
  | case1 => exact h
  | case2 top s rest a addrs bottom ih =>
    obtain ⟨halign, hfit, hbyte, hrest⟩ := h
    have hle := hrest.spans.1
    refine ⟨halign, hfit, fun j hj => ?_, ih hrest fun x h1 h2 => hsame x h1 (by omega)⟩
    rw [hsame _ (by omega) (by omega), hbyte j hj]
  | case3 => exact h.elim

/-! ## The stack page and its guard -/

/-- Page `n` is the guard, page `n + 1` is the stack, in frame `f`; the last page of the address space is the
kernel's. -/
structure Guarded (pg : Pgdir) (n f : ℕ) : Prop where
  guard : pg.userFrame n = none
  stack : pg.entry (n + 1) = some ⟨f, ⟨true, true⟩⟩
  le : (n + 2) * PGSIZE ≤ KERNBASE
  top : pg.userFrame (NPAGES - 1) = none

variable {ld : Linker} {k k' : Kmem} {pg : Pgdir} {n f : ℕ}

/-- **What is pushed stays in the stack page**: a range that ends at most three bytes below `sp` and is open to user
code does not start below the page. -/
theorem Guarded.inside (h : Guarded pg n f) {sp len : ℕ} (hlo : (n + 1) * PGSIZE ≤ sp)
    (hhi : sp ≤ (n + 2) * PGSIZE) (hpos : 0 < len) (hlen : len < 2 ^ 32)
    (hopen : AllOpen pg (u32 (sp + 2 ^ 32 - len) / 4 * 4) len) :
    len ≤ sp ∧ u32 (sp + 2 ^ 32 - len) / 4 * 4 = (sp - len) / 4 * 4 ∧
      (n + 1) * PGSIZE ≤ (sp - len) / 4 * 4 := by
  have hmax := h.le
  have hshut : ∀ {i j : ℕ}, i < len → pg.userFrame j = none →
      u32 (u32 (sp + 2 ^ 32 - len) / 4 * 4 + i) / PGSIZE ≠ j := by
    intro i j hi hj heq
    have := hopen i hi
    rw [place_eq_none.mpr (heq ▸ hj)] at this
    cases this
  by_cases hle : len ≤ sp
  · have hsub : u32 (sp + 2 ^ 32 - len) = sp - len := by
      unfold u32 PGSIZE KERNBASE at *
      omega
    rw [hsub] at hshut ⊢
    refine ⟨hle, rfl, not_lt.mp fun hlt => ?_⟩
    -- the range starts in the guard page, or has to cross it
    by_cases hguard : n * PGSIZE ≤ (sp - len) / 4 * 4
    · refine hshut hpos h.guard ?_
      unfold u32 PGSIZE KERNBASE at *
      omega
    · refine hshut (i := n * PGSIZE - (sp - len) / 4 * 4) ?_ h.guard ?_
      · unfold PGSIZE at *
        omega
      · unfold u32 PGSIZE KERNBASE at *
        omega
  · -- the address wraps around, and the range crosses the last page of the address space
    exfalso
    have hsub : u32 (sp + 2 ^ 32 - len) = sp + 2 ^ 32 - len := by
      unfold u32
      omega
    rw [hsub] at hshut
    refine hshut (i := 2 ^ 32 - 1 - (sp + 2 ^ 32 - len) / 4 * 4) ?_ h.top ?_
    · unfold PGSIZE at *
      omega
    · unfold u32 PGSIZE NPAGES at *
      omega

/-- The bytes of the stack page are those of its frame. -/
theorem Guarded.peek_eq (h : Guarded pg n f) {a : ℕ} (hlo : (n + 1) * PGSIZE ≤ a) (hhi : a < (n + 2) * PGSIZE) :
    peek k pg a = k.page f (a % PGSIZE) := by
  have hpage : a / PGSIZE = n + 1 := by
    unfold PGSIZE at *
    omega
  unfold peek
  rw [hpage, pageOf_of_entry h.stack]

/-- A range of the stack page holds what was stored there, and the rest of the page what it held before. -/
theorem Guarded.peek_stored (h : Guarded pg n f) {va : ℕ} {buf : List UInt8} (hst : Stored pg va buf k k')
    (hlo : (n + 1) * PGSIZE ≤ va) (hhi : va + buf.length ≤ (n + 2) * PGSIZE) {a : ℕ}
    (halo : (n + 1) * PGSIZE ≤ a) (hahi : a < (n + 2) * PGSIZE) :
    peek k' pg a = if va ≤ a ∧ a < va + buf.length then buf.getD (a - va) 0 else peek k pg a := by
  have hmax := h.le
  have hplace : ∀ i < buf.length, pg.place (u32 (va + i)) = some (f, (va + i) % PGSIZE) := by
    intro i hi
    have hva : u32 (va + i) = va + i := Nat.mod_eq_of_lt (by unfold KERNBASE PGSIZE at *; omega)
    have hpage : (va + i) / PGSIZE = n + 1 := by
      unfold PGSIZE at *
      omega
    rw [hva, place_eq_some, hpage]
    exact ⟨by rw [userFrame, h.stack]; rfl, rfl⟩
  -- within one page, different addresses have different places
  have hinj : ∀ i < buf.length, (va + i) % PGSIZE = a % PGSIZE → va + i = a := by
    intro i hi heq
    unfold PGSIZE at *
    omega
  rw [h.peek_eq halo hahi, h.peek_eq halo hahi]
  split
  · rename_i hin
    refine hst.set (a - va) (by omega) f (a % PGSIZE) ?_ fun j h1 h2 heq => ?_
    · rw [hplace _ (by omega), Nat.add_sub_cancel' hin.1]
    · rw [hplace j h2] at heq
      have := hinj j h2 (Prod.mk.inj (Option.some.inj heq)).2
      omega
  · rename_i hout
    refine hst.kept f (a % PGSIZE) fun i hi heq => hout ?_
    rw [hplace i hi] at heq
    have := hinj i hi (Prod.mk.inj (Option.some.inj heq)).2
    omega

/-! ## Pushing the arguments -/

/-- What the loop over the arguments leaves. -/
structure Pushed (k : Kmem) (pg : Pgdir) (n top : ℕ) (argv : List (List UInt8)) (addrs : List ℕ) (sp : ℕ) (k' : Kmem) :
    Prop where
  placed : Placed (peek k' pg) top argv addrs sp
  lo : (n + 1) * PGSIZE ≤ sp
  kept : ∀ a, (n + 1) * PGSIZE ≤ a → a < (n + 2) * PGSIZE → a < sp ∨ top ≤ a → peek k' pg a = peek k pg a
  aligned : top % 4 = 0 → sp % 4 = 0
  nonzero : ∀ a ∈ addrs, 0 < a ∧ a < 2 ^ 32

/-- **The loop over the arguments**: by induction on them; a string that is pushed later is below. -/
theorem Guarded.pushArgs (h : Guarded pg n f) : ∀ {argc : ℕ} {k k' : Kmem} {top sp : ℕ}
    {addrs : List ℕ}, (∀ s ∈ argv, s.length + 1 < 2 ^ 32) → (n + 1) * PGSIZE ≤ top → top ≤ (n + 2) * PGSIZE →
    Exec.pushArgs pg argv argc k top = .ok (some (addrs, sp), k') → Pushed k pg n top argv addrs sp k' := by
  have hmax := h.le
  induction argv with
  | nil =>
    intro argc k k' top sp addrs hlen hlo hhi heq
    cases heq
    exact ⟨rfl, hlo, fun _ _ _ _ => rfl, fun h => h, fun a ha => absurd ha not_mem_nil⟩
  | cons s rest ih =>
    intro argc k k' top sp addrs hlen hlo hhi heq
    rw [Exec.pushArgs] at heq
    split at heq
    · cases heq
    set va := u32 (top + 2 ^ 32 - (s.length + 1)) / 4 * 4 with hva
    have hva32 : va < 2 ^ 32 := by
      rw [hva]
      unfold u32
      omega
    obtain ⟨⟨ok, k₁⟩, hcopy, heq⟩ := bind_eq_ok.mp heq
    cases ok with
    | false => cases heq
    | true =>
      obtain ⟨hopen, hst⟩ := copyout_true hva32 hcopy
      have hlen' : (s ++ [0]).length = s.length + 1 := by simp
      rw [hlen'] at hopen
      obtain ⟨hle, hsub, hin⟩ := h.inside hlo hhi (Nat.succ_pos _) (hlen s mem_cons_self) hopen
      rw [← hva] at hsub
      rw [← hsub] at hin
      have hend : va + s.length + 1 ≤ top := by omega
      have hvale : va ≤ top := by omega
      obtain ⟨⟨r, k₂⟩, hrest, heq⟩ := bind_eq_ok.mp heq
      cases r with
      | none => cases heq
      | some r =>
        obtain ⟨addrs', sp'⟩ := r
        cases heq
        have hp := ih (fun t ht => hlen t (mem_cons_of_mem _ ht)) hin (by omega) hrest
        have hle' := hp.placed.spans.1
        have hbyte := fun {a} => h.peek_stored (a := a) hst hin (by omega)
        refine ⟨⟨by omega, hend, fun j hj => ?_, hp.placed⟩, hp.lo, fun a h1 h2 h3 => ?_,
          fun _ => hp.aligned (by omega), fun a ha => ?_⟩
        · have h1 : (n + 1) * PGSIZE ≤ va + j := le_trans hin (Nat.le_add_right va j)
          have h2 : va + j < (n + 2) * PGSIZE := lt_of_lt_of_le (by omega) hhi
          rw [hp.kept (va + j) h1 h2 (.inr (Nat.le_add_right va j)), hbyte h1 h2,
            if_pos ⟨Nat.le_add_right va j, by rw [hlen']; omega⟩, Nat.add_sub_cancel_left]
        · rw [hp.kept a h1 h2 (h3.imp_right hvale.trans), hbyte h1 h2, if_neg]
          rw [hlen']
          rintro ⟨h4, h5⟩
          rcases h3 with h3 | h3
          · exact absurd h4 (not_le.mpr (lt_of_lt_of_le h3 hle'))
          · exact absurd h5 (not_lt.mpr (le_trans hend h3))
        · rcases mem_cons.mp ha with rfl | ha
          · unfold PGSIZE at *
            omega
          · exact hp.nonzero a ha

/-! ## The words below the strings -/

theorem length_words (ws : List ℕ) : (words ws).length = 4 * ws.length := by
  induction ws with
  | nil => rfl
  | cons w ws ih =>
    rw [words, flatMap_cons, length_append, ← words, ih, length_cons, length_map,
      length_range]
    omega

/-- The bytes of the words, one after the other. -/
theorem getD_words {ws : List ℕ} : ∀ {i j : ℕ}, i < ws.length → j < 4 →
    (words ws).getD (4 * i + j) 0 = leByte (ws.getD i 0) j := by
  induction ws with
  | nil => exact fun hi => absurd hi (Nat.not_lt_zero _)
  | cons w ws ih =>
    intro i j hi hj
    have hlen : ((range 4).map (leByte w)).length = 4 := by simp
    rw [words, flatMap_cons, ← words]
    cases i with
    | zero =>
      rw [Nat.mul_zero, Nat.zero_add, getD_append _ _ _ _ (by omega),
        getD_eq_getElem _ _ (by omega), getElem_map, getElem_range]
      rfl
    | succ i =>
      rw [getD_append_right _ _ _ _ (by omega), hlen, show 4 * (i + 1) + j - 4 = 4 * i + j by omega,
        ih (by simpa using hi) hj]
      rfl

/-- The words that `exec` pushes below the strings. -/
def ustack (addrs : List ℕ) (sp : ℕ) : List ℕ :=
  [0xffffffff, addrs.length, u32 (sp + 2 ^ 32 - (addrs.length + 1) * 4)] ++ addrs ++ [0]

theorem ustack_eq (addrs : List ℕ) (sp : ℕ) : ustack addrs sp =
    0xffffffff :: addrs.length :: u32 (sp + 2 ^ 32 - (addrs.length + 1) * 4) :: (addrs ++ [0]) := by
  rw [ustack, append_assoc, cons_append, cons_append, cons_append, nil_append]

/-- The words are `uint`s. -/
theorem ustack_lt {sp : ℕ} (haddrs : ∀ a ∈ addrs, a < 2 ^ 32) (hlen : addrs.length < 2 ^ 32) :
    ∀ w ∈ ustack addrs sp, w < 256 ^ 4 := by
  intro w hw
  rw [ustack_eq, mem_cons, mem_cons, mem_cons, mem_append, mem_singleton] at hw
  rcases hw with rfl | rfl | rfl | hw | rfl
  · decide
  · exact hlen
  · exact Nat.mod_lt _ (by decide)
  · exact haddrs w hw
  · decide

/-- A stack with its pieces. -/
structure Stacked (byte : ℕ → UInt8) (sz sp : ℕ) (argv : List (List UInt8)) : Prop where
  decode_eq : decode byte sp = ⟨0xffffffff, argv.length, argv⟩
  apart : (pieces byte sp argv).Pairwise Apart
  aligned : ∀ p ∈ pieces byte sp argv, p.1 % 4 = 0
  inside : ∀ p ∈ pieces byte sp argv, sz - PGSIZE ≤ p.1 ∧ p.1 + p.2 ≤ sz

/-- The strings, and below them the words that describe them, make a stack. -/
theorem Stacked.of_placed {sz bottom sp : ℕ} (hpl : Placed byte sz argv addrs bottom)
    (hs : ∀ s ∈ argv, 0 ∉ s) (haddrs : ∀ a ∈ addrs, 0 < a ∧ a < 2 ^ 32)
    (hsp : sp + 4 * (argv.length + 4) = bottom) (hbottom : bottom % 4 = 0) (hlo : sz - PGSIZE ≤ sp)
    (hlt : sz < 2 ^ 32)
    (hword : ∀ i < argv.length + 4, word byte (sp + 4 * i) = (ustack addrs bottom).getD i 0) :
    Stacked byte sz sp argv := by
  have hlen := hpl.length_eq
  obtain ⟨hle, hin, hpair⟩ := hpl.spans
  -- the header
  have hpc : word byte sp = 0xffffffff := by
    have := hword 0 (by omega)
    rwa [Nat.mul_zero, Nat.add_zero, ustack_eq, getD_cons_zero] at this
  have hargc : word byte (sp + 4) = argv.length := by
    have := hword 1 (by omega)
    rwa [Nat.mul_one, ustack_eq, getD_cons_succ, getD_cons_zero, hlen] at this
  have hargv : word byte (sp + 8) = sp + 12 := by
    have := hword 2 (by omega)
    rw [show 4 * 2 = 8 from rfl, ustack_eq, getD_cons_succ, getD_cons_succ, getD_cons_zero,
      hlen] at this
    rw [this]
    unfold u32
    omega
  -- the array of pointers
  have hptrs : argvOf byte sp = addrs := by
    unfold argvOf
    rw [hargv]
    refine pointers_eq (fun a ha => (haddrs a ha).1.ne') (by omega) fun i hi => ?_
    rw [show sp + 12 + 4 * i = sp + 4 * (i + 3) by omega, hword (i + 3) (by omega), ustack_eq,
      getD_cons_succ, getD_cons_succ, getD_cons_succ]
  have hpieces : pieces byte sp argv = (sp, 12) :: (sp + 12, 4 * (argv.length + 1)) :: spans addrs argv := by
    unfold pieces
    rw [hargv, hptrs]
  have hall : ∀ p ∈ pieces byte sp argv, p = (sp, 12) ∨ p = (sp + 12, 4 * (argv.length + 1)) ∨
      p ∈ spans addrs argv := by
    intro p hp
    rwa [hpieces, mem_cons, mem_cons] at hp
  refine ⟨?_, ?_, fun p hp => ?_, fun p hp => ?_⟩
  · unfold decode
    rw [hpc, hargc, hptrs, hpl.map_cstring hs (by omega)]
  · rw [hpieces, pairwise_cons, pairwise_cons]
    refine ⟨fun p hp => .inl ?_, fun p hp => .inl ?_, hpair⟩
    · rcases mem_cons.mp hp with rfl | hp
      · exact le_rfl
      · have := (hin p hp).1
        show sp + 12 ≤ p.1
        omega
    · have := (hin p hp).1
      show sp + 12 + 4 * (argv.length + 1) ≤ p.1
      omega
  · rcases hall p hp with rfl | rfl | hp
    · show sp % 4 = 0
      omega
    · show (sp + 12) % 4 = 0
      omega
    · exact (hin p hp).2.2
  · rcases hall p hp with rfl | rfl | hp
    · exact ⟨hlo, by show sp + 12 ≤ sz; omega⟩
    · exact ⟨by show sz - PGSIZE ≤ sp + 12; omega, by show sp + 12 + 4 * (argv.length + 1) ≤ sz; omega⟩
    · obtain ⟨h1, h2, -⟩ := hin p hp
      exact ⟨by omega, h2⟩

/-- **The stack that `exec` builds.** -/
theorem Guarded.buildStack (h : Guarded pg n f) (hargv : ∀ s ∈ argv, 0 ∉ s ∧ s.length + 1 < 2 ^ 32)
    {sp : ℕ} (heq : Exec.buildStack pg argv k ((n + 2) * PGSIZE) = .ok (some sp, k')) :
    Stacked (peek k' pg) ((n + 2) * PGSIZE) sp argv := by
  have hmax := h.le
  unfold Exec.buildStack at heq
  obtain ⟨⟨r, k₁⟩, hpush, heq⟩ := bind_eq_ok.mp heq
  cases r with
  | none => cases heq
  | some r =>
    obtain ⟨addrs, bottom⟩ := r
    have hp := h.pushArgs (fun s hs => (hargv s hs).2) (Nat.mul_le_mul_right _ (by omega)) le_rfl hpush
    have hlen := hp.placed.length_eq
    have hle := hp.placed.spans.1
    have hbottom : bottom % 4 = 0 := hp.aligned (by unfold PGSIZE; omega)
    have hlo := hp.lo
    dsimp only at heq
    rw [show [0xffffffff, addrs.length, u32 (bottom + 2 ^ 32 - (addrs.length + 1) * 4)] ++ addrs ++ [0] =
      ustack addrs bottom from rfl] at heq
    have hwords : (words (ustack addrs bottom)).length = (3 + addrs.length + 1) * 4 := by
      rw [length_words, ustack_eq]
      simp only [length_cons, length_append, length_nil]
      omega
    obtain ⟨va, hva⟩ : ∃ va, va = u32 (bottom + 2 ^ 32 - (3 + addrs.length + 1) * 4) := ⟨_, rfl⟩
    rw [← hva] at heq
    obtain ⟨⟨ok, k₂⟩, hcopy, heq⟩ := bind_eq_ok.mp heq
    cases ok with
    | false => cases heq
    | true =>
      cases heq
      have hcount := hp.placed.length_le
      have hlen32 : addrs.length < 2 ^ 32 :=
        lt_of_le_of_lt (hlen.le.trans ((Nat.le_add_left _ _).trans (hcount.trans hmax))) (by decide)
      have hva32 : sp < 2 ^ 32 := by
        rw [hva]
        exact Nat.mod_lt _ (by decide)
      obtain ⟨hopen, hst⟩ := copyout_true hva32 hcopy
      -- the words end at the strings, on a multiple of four
      have hround : sp / 4 * 4 = sp := by
        rw [hva]
        unfold u32
        omega
      rw [← hround, hva, hwords] at hopen
      obtain ⟨hfit, hsub, hin⟩ := h.inside hlo hle (by omega) (by unfold PGSIZE at *; omega) hopen
      rw [← hva, hround] at hsub
      rw [← hsub] at hin
      have hsp : sp + 4 * (argv.length + 4) = bottom := by omega
      have hend : sp + (words (ustack addrs bottom)).length = bottom := by
        rw [hwords]
        omega
      have hbyte := fun {a} => h.peek_stored (a := a) hst hin (hend.trans_le hle)
      rw [hend] at hbyte
      refine .of_placed (hp.placed.congr fun a h1 h2 => ?_) (fun s hs => (hargv s hs).1) hp.nonzero hsp
        hbottom ?_ (lt_of_le_of_lt hmax (by decide)) fun i hi => ?_
      · rw [hbyte (le_trans hlo h1) h2, if_neg (by omega)]
      · refine le_trans (le_of_eq ?_) hin
        unfold PGSIZE
        omega
      · have hu : i < (ustack addrs bottom).length := by
          rw [length_words] at hwords
          omega
        have hw : ∀ j < 4, peek k₂ pg (sp + 4 * i + j) = leByte ((ustack addrs bottom).getD i 0) j := by
          intro j hj
          have hge : sp ≤ sp + 4 * i + j := by omega
          have hlt : sp + 4 * i + j < bottom := by omega
          rw [hbyte (hin.trans hge) (hlt.trans_le hle), if_pos ⟨hge, hlt⟩,
            show sp + 4 * i + j - sp = 4 * i + j by omega, getD_words hu hj]
        unfold word
        rw [leValue_congr hw, leValue_leByte, getD_eq_getElem _ _ hu]
        exact Nat.mod_eq_of_lt (ustack_lt (fun a ha => (hp.nonzero a ha).2) hlen32 _
          (getElem_mem hu))

/-! ## The stack of a new image -/

/-- The last two pages of an address space of `sz` bytes: a page that is closed to user code, and the stack. -/
structure StackPages (pg : Pgdir) (sz : ℕ) : Prop where
  aligned : sz % PGSIZE = 0
  two : 2 * PGSIZE ≤ sz
  guard : ∃ f, pg.entry (sz / PGSIZE - 2) = some ⟨f, ⟨true, false⟩⟩
  stack : ∃ f, pg.entry (sz / PGSIZE - 1) = some ⟨f, ⟨true, true⟩⟩

variable {F : Set ℕ}

/-- `addStack` allocates two pages, closes the lower one, and builds the stack in the upper one. -/
theorem addStack_stacked (h : Loaded ld F k pg (n * PGSIZE))
    (hargv : ∀ s ∈ argv, 0 ∉ s ∧ s.length + 1 < 2 ^ 32) {sz sp : ℕ} {pg' : Pgdir}
    (heq : addStack ld argv k pg (n * PGSIZE) = .ok (some (sz, sp), k', pg')) :
    StackPages pg' sz ∧ Stacked (peek k' pg') sz sp argv := by
  have hle := h.sz_le
  have hsum : u32 (n * PGSIZE + 2 * PGSIZE) = (n + 2) * PGSIZE := by
    unfold u32 PGSIZE KERNBASE at *
    omega
  unfold addStack at heq
  rw [hsum] at heq
  obtain ⟨r, k₁, pg₁, hal, -, -, hgrown⟩ := h.allocuvm ((n + 2) * PGSIZE)
  rw [hal] at heq
  simp only [bind, Except.bind] at heq
  by_cases hr : r = 0
  · rw [if_pos hr] at heq
    cases heq
  · obtain ⟨hmax, hload, hg⟩ := hgrown hr
    rw [max_eq_right (Nat.mul_le_mul_right _ (Nat.le_add_right n 2))] at hmax
    subst hmax
    have hn : npages (n * PGSIZE) = n := by
      unfold npages PGSIZE
      omega
    have hn2 : npages ((n + 2) * PGSIZE) = n + 2 := by
      unfold npages PGSIZE
      omega
    have hmax : n + 2 ≤ UPAGES := by
      rw [← hn2]
      exact npages_le hload.sz_le
    have hup : UPAGES < NPAGES := by decide
    rw [hn, hn2] at hg
    obtain ⟨f₀, he₀, -⟩ := hg.new n le_rfl (by omega)
    obtain ⟨f₁, he₁, -⟩ := hg.new (n + 1) (by omega) (by omega)
    have hentry : ∀ j < NPAGES, (pg₁.setPte (n * PGSIZE) (some ⟨f₀, ⟨true, false⟩⟩)).entry j =
        if j = n then some ⟨f₀, ⟨true, false⟩⟩ else pg₁.entry j :=
      fun j hj => entry_setPte (by omega) hj (hasTable_of_entry he₀)
    rw [if_neg hr, guard_eq h.sz_le, clearpteu_eq he₀] at heq
    simp only at heq
    generalize pg₁.setPte (n * PGSIZE) (some ⟨f₀, ⟨true, false⟩⟩) = pg₂ at heq hentry
    have he₀' : pg₂.entry n = some ⟨f₀, ⟨true, false⟩⟩ := by
      rw [hentry n (by omega), if_pos rfl]
    have he₁' : pg₂.entry (n + 1) = some ⟨f₁, ⟨true, true⟩⟩ := by
      rw [hentry (n + 1) (by omega), if_neg (by omega), he₁]
    have hgd : Guarded pg₂ n f₁ := by
      refine ⟨by rw [userFrame, he₀']; rfl, he₁', hload.sz_le, ?_⟩
      -- the last page of the address space belongs to the kernel
      rw [userFrame, hentry _ (by decide), if_neg (by omega), hg.old _ (by decide) (by omega)]
      cases he : pg.entry (NPAGES - 1) with
      | none => rfl
      | some e =>
        have hu := h.perm _ (by decide) (by decide) e he
        rw [Option.bind_some, hu]
        rfl
    obtain ⟨⟨r, k₂⟩, hb, heq⟩ := bind_eq_ok.mp heq
    cases r with
    | none => cases heq
    | some sp' =>
      cases heq
      have hdiv : (n + 2) * PGSIZE / PGSIZE = n + 2 := Nat.mul_div_cancel _ (by decide)
      refine ⟨⟨Nat.mul_mod_left _ _, Nat.mul_le_mul_right _ (by omega), ⟨f₀, ?_⟩, f₁, ?_⟩,
        hgd.buildStack hargv hb⟩
      · rw [hdiv]
        exact he₀'
      · rw [hdiv]
        exact he₁'

/-- What a successful `exec` has gone through: the program is loaded, and the stack added on top. -/
theorem exec_some (hk : k.Good ld) {path : Option File} {img : UserImage}
    (heq : exec ld k path argv = .ok (some img, k')) :
    ∃ n k₁ pg₁, Loaded ld {f | f ∈ k.freelist} k₁ pg₁ (n * PGSIZE) ∧
      addStack ld argv k₁ pg₁ (n * PGSIZE) = .ok (some (img.sz, img.esp), k', img.pgdir) := by
  unfold exec at heq
  cases path with
  | none => cases heq
  | some ip =>
    simp only at heq
    split at heq
    · cases heq
    split at heq
    · cases heq
    rcases setupkvm_spec hk with ⟨k₁, hset, -⟩ | ⟨k₁, d, hset, hs⟩
    · rw [hset] at heq
      cases heq
    · rw [hset] at heq
      have heq : load ld ip argv k₁ d = .ok (some img, k') := heq
      obtain ⟨⟨r, k₃, pg₃⟩, hbuild, heq⟩ := bind_eq_ok.mp heq
      cases r with
      | none =>
        obtain ⟨k₄, -, heq⟩ := bind_eq_ok.mp heq
        cases heq
      | some q =>
        cases heq
        obtain ⟨⟨r, k₂, pg₂⟩, hl, ha⟩ := bind_eq_ok.mp hbuild
        obtain ⟨-, hload⟩ := (loadProgram_post ip _ hs.loaded).of_ok hl
        cases r with
        | none => cases ha
        | some sz =>
          have hround := (hload sz rfl).roundUp
          dsimp only at ha
          rw [pgroundup_eq (hload sz rfl).sz_le] at hround ha
          exact ⟨npages sz, k₂, pg₂, hround, ha⟩

/-- **Arguments round-trip**: whenever `exec` succeeds, the new program reads from its stack the list of strings
that was passed.  The header, the array of pointers and the strings are pairwise disjoint, aligned, and inside the
one stack page, and the page below that is closed to user code. -/
theorem argument_stack (hk : k.Good ld) {path : Option File} {argv : List (List UInt8)}
    (hargv : ∀ s ∈ argv, 0 ∉ s ∧ s.length + 1 < 2 ^ 32) {img : UserImage}
    (heq : exec ld k path argv = .ok (some img, k')) :
    StackPages img.pgdir img.sz ∧ Stacked (peek k' img.pgdir) img.sz img.esp argv := by
  obtain ⟨n, k₁, pg₁, hload, hstack⟩ := exec_some hk heq
  exact addStack_stacked hload hargv hstack

/-- The string `echo`. -/
def echo : List UInt8 := [101, 99, 104, 111]

/-- Five words and the string `echo` fit into a page. -/
theorem stackFits_echo : ProcMem.StackFits [echo] 8164 := by
  intro k pg e he hu
  have hcopy := copyout_one (k := k) he hu (show 0 < (echo ++ [0]).length by decide)
    (show 4088 + (echo ++ [0]).length ≤ PGSIZE by decide)
  obtain ⟨k₁, hk₁⟩ : ∃ k₁, k₁ = k.setPage e.frame (storeBytes (k.page e.frame) 4088 (echo ++ [0])) :=
    ⟨_, rfl⟩
  have hfree : k₁.avail = k.avail := by
    rw [hk₁]
    rfl
  rw [← hk₁] at hcopy
  let buf := words ([0xffffffff, [8184].length, u32 (8184 + 2 ^ 32 - ([8184].length + 1) * 4)] ++ [8184] ++ [0])
  have hcopy' := copyout_one (k := k₁) he hu (show 0 < buf.length by decide)
    (show 4068 + buf.length ≤ PGSIZE by decide)
  refine ⟨k₁.setPage e.frame (storeBytes (k₁.page e.frame) 4068 buf), ?_, hfree⟩
  have hpush : pushArgs pg [echo] 0 k (2 * PGSIZE) = .ok (some ([8184], 8184), k₁) := by
    simp only [pushArgs]
    rw [if_neg (by decide), show u32 (2 * PGSIZE + 2 ^ 32 - (echo.length + 1)) / 4 * 4 =
      1 * PGSIZE + 4088 by decide]
    simp only [hcopy, bind, Except.bind, if_true]
    rfl
  unfold Exec.buildStack
  rw [hpush]
  simp only [bind, Except.bind]
  rw [show u32 (8184 + 2 ^ 32 - (3 + [8184].length + 1) * 4) = 1 * PGSIZE + 4068 by decide]
  simp only [hcopy', buf]
  rfl

/-- `exec` of a program with the argument `echo`. -/
theorem argument_stack_echo : ∃ img k',
    exec ProcMem.bootLinker ProcMem.bootKmem (some ProcMem.emptyProgram) [echo] =
      .ok (some img, k') ∧
    StackPages img.pgdir img.sz ∧ Stacked (peek k' img.pgdir) img.sz img.esp [echo] := by
  have havail := ProcMem.bootKmem_avail
  obtain ⟨img, k', heq, -, -⟩ := ProcMem.exec_emptyProgram stackFits_echo ProcMem.bootKmem_good (by omega)
  exact ⟨img, k', heq, argument_stack ProcMem.bootKmem_good (by decide) heq⟩

end Exec
