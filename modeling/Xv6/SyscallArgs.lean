/-
# System call arguments

`fetchint`, `fetchstr`, `argint`, `argptr` and `argstr` of `syscall.c` compare addresses with the
size of the process.  They keep kernel memory out as long as the size is at most `KERNBASE`, and
that is so in every run in which no `sbrk` goes beyond it: `sbrk` itself does not check.
-/
import Xv6.LazyFork

open Option

namespace Syscall

/-- The value of an `int` converted to `uint`. -/
def uint (i : ℤ) : ℕ := (i % 2 ^ 32).toNat

/-- Fetch the `int` at `addr`. -/
def fetchint (sz : ℕ) (mem : ℕ → UInt8) (addr : ℕ) : Option ℤ :=
  if addr ≥ sz ∨ u32 (addr + 4) > sz then none
  else some (cint (leValue 4 fun i => mem (addr + i)))

/-- The loop of `fetchstr`: `left` bytes from `s` on, `len` bytes behind. -/
def scan (mem : ℕ → UInt8) : ℕ → ℕ → ℕ → Option ℕ
  | 0, _, _ => none
  | left + 1, s, len => if mem s = 0 then some len else scan mem left (s + 1) (len + 1)

/-- The length of the nul-terminated string at `addr`. -/
def fetchstr (sz : ℕ) (mem : ℕ → UInt8) (addr : ℕ) : Option ℕ :=
  if addr ≥ sz then none else scan mem (sz - addr) addr 0

/-- Fetch system call argument `n`. -/
def argint (sz : ℕ) (mem : ℕ → UInt8) (esp n : ℕ) : Option ℤ :=
  fetchint sz mem (u32 (esp + 4 + 4 * n))

/-- Fetch argument `n` as a pointer to a block of `size` bytes. -/
def argptr (sz : ℕ) (mem : ℕ → UInt8) (esp n : ℕ) (size : ℤ) : Option ℕ :=
  match argint sz mem esp n with
  | none => none
  | some i => if size < 0 ∨ uint i ≥ sz ∨ uint (uint i + size) > sz then none else some (uint i)

/-- Fetch argument `n` as a string: its address and length. -/
def argstr (sz : ℕ) (mem : ℕ → UInt8) (esp n : ℕ) : Option (ℕ × ℕ) :=
  match argint sz mem esp n with
  | none => none
  | some addr => (fetchstr sz mem (uint addr)).map fun len => (uint addr, len)

/-! ## What the checks accept -/

variable {sz : ℕ} {mem : ℕ → UInt8}

theorem scan_eq_some {left s len m : ℕ} (h : scan mem left s len = some m) :
    ∃ i < left, m = len + i ∧ mem (s + i) = 0 := by
  induction left generalizing s len with
  | zero => cases h
  | succ left ih =>
    rw [scan] at h
    split at h
    · rename_i h0
      exact ⟨0, by omega, by rw [← some.inj h]; rfl, h0⟩
    · obtain ⟨i, hi, hm, h0⟩ := ih h
      refine ⟨i + 1, by omega, by omega, ?_⟩
      rw [← h0]
      congr 1
      omega

/-- What a system call may take from a process of `sz` bytes lies below `KERNBASE`, and the sums in
the checks do not wrap around. -/
structure ArgsSafe (sz : ℕ) : Prop where
  sz_le : sz ≤ KERNBASE
  word : ∀ mem addr v, fetchint sz mem addr = some v →
    u32 (addr + 4) = addr + 4 ∧ addr + 4 ≤ KERNBASE
  string : ∀ mem addr len, fetchstr sz mem addr = some len →
    mem (addr + len) = 0 ∧ addr + len < KERNBASE
  block : ∀ mem esp n size ptr, size < 2 ^ 31 → argptr sz mem esp n size = some ptr →
    0 ≤ size ∧ uint (ptr + size) = ptr + size.toNat ∧ ptr + size.toNat ≤ KERNBASE

/-- **The checks keep kernel memory out** of a process that ends at or below `KERNBASE`. -/
theorem argsSafe_of_le (h : sz ≤ KERNBASE) : ArgsSafe sz where
  sz_le := h
  word := by
    intro mem addr v hv
    unfold fetchint at hv
    split at hv
    · cases hv
    · unfold u32 KERNBASE at *
      omega
  string := by
    intro mem addr len hlen
    unfold fetchstr at hlen
    split at hlen
    · cases hlen
    · obtain ⟨i, hi, hm, h0⟩ := scan_eq_some hlen
      rw [Nat.zero_add] at hm
      rw [hm]
      exact ⟨h0, by omega⟩
  block := by
    intro mem esp n size ptr hsize hptr
    unfold argptr at hptr
    split at hptr
    · cases hptr
    · split at hptr
      · cases hptr
      · rename_i i hi hcheck
        have hp := some.inj hptr
        rw [hp] at hcheck
        unfold uint KERNBASE at *
        omega

end Syscall

namespace ProcMem

open Pgdir Syscall

variable {ld : Linker} {p q : ProcMem}

/-- A `sbrk` stays between `0` and `KERNBASE`; at size `0` the largest decrease comes out at
`KERNBASE`. -/
def SbrkBounded (p : ProcMem) : Op → Prop
  | .sbrk n => 0 ≤ p.sz + n ∧ p.sz + n ≤ KERNBASE ∨ p.sz = 0 ∧ n = -2 ^ 31
  | _ => True

/-- Every step that meets the condition keeps the size. -/
theorem step_sz_le {op : Op} (hstep : step ld p op = some q) (hop : p.SbrkBounded op)
    (hs : Sound ld p) (hsz : p.sz ≤ KERNBASE) : q.sz ≤ KERNBASE := by
  cases op with
  | exec path argv =>
    rcases ((exec_post hs path argv).of_ok (Outcome.toOption_eq_some.mp hstep)).2 with hsame | hsized
    · rw [hsame.2]
      exact hsz
    · exact hsized.sz_le
  | fork slot child =>
    rcases step_fork hstep hs with h | h
    · rw [h.sz_eq]
      exact hsz
    · exact h.sized.sz_le
  | sbrk n =>
    obtain ⟨hint, hq⟩ := ite_none_right_eq_some.mp hstep
    rw [← some.inj hq]
    unfold sbrk SbrkBounded KERNBASE at *
    simp only
    omega
  | fault va =>
    rw [(step_fault hstep hs).sz_eq]
    exact hsz
  | store va b =>
    rw [← some.inj hstep, store_sz]
    exact hsz
  | others k =>
    obtain ⟨-, hq⟩ := ite_none_right_eq_some.mp hstep
    rw [← some.inj hq]
    exact hsz

/-- **System call arguments never designate kernel memory**, in every run whose calls of `sbrk`
stay between `0` and `KERNBASE`. -/
theorem argsSafe_run {k : Kmem} {init : List UInt8} {ops : List Op} (hk : k.Good ld)
    (hinit : userinit ld k init = .ok p) (hrun : Runs.run (step ld) p ops = some q)
    (hops : Runs.Meets (step ld) SbrkBounded p ops) : ArgsSafe q.sz := by
  obtain ⟨hs, -, hsz, -⟩ := (userinit_post hk init).of_ok hinit
  have hinv := Runs.run_invariant_of_meets (I := fun p => Sound ld p ∧ p.sz ≤ KERNBASE)
    (fun s op s' hstep hop h => ⟨step_sound hstep h.1, step_sz_le hstep hop h.1 h.2⟩) hrun hops
    ⟨hs, by rw [hsz]; decide⟩
  exact argsSafe_of_le hinv.2

/-- A stack whose words are all `0x80000000`. -/
def highWords : ℕ → UInt8 := fun a => if a % 4 = 3 then 0x80 else 0

/-- **One call of `sbrk` opens kernel memory**: afterwards `argptr` accepts the address
`KERNBASE`. -/
theorem not_argsSafe_grown : ∃ p q, userinit bootLinker bootKmem [] = .ok p ∧
    Runs.run (step bootLinker) p [.sbrk 0x7fffffff] = some q ∧
    argptr q.sz highWords 0 0 1 = some KERNBASE ∧ ¬ ArgsSafe q.sz := by
  obtain ⟨p, hinit, -, -, hsz, -⟩ := exists_boot
  have hsz' : (p.sbrk 0x7fffffff).sz = 0x80000fff := by
    show ((p.sz + 0x7fffffff : ℤ) % 2 ^ 32).toNat = _
    rw [hsz]
    rfl
  refine ⟨p, p.sbrk 0x7fffffff, hinit, rfl, ?_, fun h => ?_⟩
  · rw [hsz']
    decide
  · have := h.sz_le
    rw [hsz'] at this
    exact absurd this (by decide)

/-- A call of `sbrk` that stays below. -/
theorem argsSafe_page : ∃ p q, userinit bootLinker bootKmem [] = .ok p ∧
    Runs.run (step bootLinker) p [.sbrk 4096] = some q ∧ ArgsSafe q.sz := by
  obtain ⟨p, hinit, -, -, hsz, -⟩ := exists_boot
  have hrun : Runs.run (step bootLinker) p [.sbrk 4096] = some (p.sbrk 4096) := rfl
  refine ⟨p, p.sbrk 4096, hinit, hrun,
    argsSafe_run bootKmem_good hinit hrun ⟨?_, fun _ _ => trivial⟩⟩
  show 0 ≤ (p.sz : ℤ) + 4096 ∧ (p.sz : ℤ) + 4096 ≤ KERNBASE ∨ _
  rw [hsz]
  exact .inl (by decide)

end ProcMem
