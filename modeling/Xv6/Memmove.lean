/-
# Moving memory

`memmove` of the kernel (`string.c`) and of user programs (`ulib.c`), over a memory of bytes with 32-bit
addresses.  The kernel copies from the end where the ranges overlap upwards, so that it copies as if through
a temporary (`kernel_memmove`).  User programs always copy from the front: where the ranges overlap upwards
the first bytes are repeated, at the distance of the two ranges (`copyUp_of_lt`).
-/
import Xv6.Fs

open Function

namespace Memmove

/-- The memory: a byte at every address. -/
abbrev Mem := ℕ → UInt8

/-- `while(n-- > 0) *d++ = *s++;` -/
def copyUp : ℕ → Mem → ℕ → ℕ → Mem
  | 0, m, _, _ => m
  | n + 1, m, d, s => copyUp n (update m d (m s)) (u32 (d + 1)) (u32 (s + 1))

/-- `--p`. -/
def before (p : ℕ) : ℕ := if p = 0 then 2 ^ 32 - 1 else p - 1

/-- `while(n-- > 0) *--d = *--s;` -/
def copyDown : ℕ → Mem → ℕ → ℕ → Mem
  | 0, m, _, _ => m
  | n + 1, m, d, s => copyDown n (update m (before d) (m (before s))) (before d) (before s)

/-- `memmove` of `string.c`. -/
def Kernel.memmove (m : Mem) (dst src n : ℕ) : Mem :=
  if src < dst ∧ dst < u32 (src + n) then copyDown n m (u32 (dst + n)) (u32 (src + n))
  else copyUp n m dst src

/-- `memmove` of `ulib.c`. -/
def User.memmove (m : Mem) (dst src : ℕ) (n : ℤ) : Mem := copyUp n.toNat m dst src

/-- The memory with `n` bytes from `dst` on replaced, the `k`-th by `f k`. -/
def moved (m : Mem) (dst n : ℕ) (f : ℕ → UInt8) : Mem :=
  fun a => if dst ≤ a ∧ a < dst + n then f (a - dst) else m a

variable {m : Mem} {d s n : ℕ}

/-- One byte more at the end. -/
theorem moved_succ (f : ℕ → UInt8) :
    moved m d (n + 1) f = update (moved m d n f) (d + n) (f n) := by
  funext a
  unfold moved
  by_cases ha : a = d + n
  · rw [ha, update_self, if_pos (by omega), Nat.add_sub_cancel_left]
  · rw [update_of_ne ha]
    exact if_congr (by omega) rfl rfl

theorem moved_at (f : ℕ → UInt8) {k : ℕ} (hk : k < n) : moved m d n f (d + k) = f k := by
  unfold moved
  rw [if_pos (by omega), Nat.add_sub_cancel_left]

theorem moved_off (f : ℕ → UInt8) {a : ℕ} (ha : a < d ∨ d + n ≤ a) : moved m d n f a = m a :=
  if_neg (by omega)

/-! ## Copying from the front -/

/-- The last round of the loop. -/
theorem copyUp_succ : copyUp (n + 1) m (u32 d) (u32 s) =
    update (copyUp n m (u32 d) (u32 s)) (u32 (d + n)) (copyUp n m (u32 d) (u32 s) (u32 (s + n))) := by
  have hstep : ∀ a b, u32 (u32 a + b) = u32 (a + b) := fun a b => Nat.mod_add_mod a (2 ^ 32) b
  induction n generalizing m d s with
  | zero => rfl
  | succ n ih =>
    rw [copyUp, hstep, hstep, ih, copyUp, hstep, hstep, Nat.add_assoc, Nat.add_comm 1 n, Nat.add_assoc s,
      Nat.add_comm 1 n]

/-- The loop goes on with the byte that the rounds before have left at its source. -/
theorem copyUp_eq_moved {f : ℕ → UInt8} (hd : d + n ≤ 2 ^ 32) (hs : s + n ≤ 2 ^ 32)
    (hf : ∀ k < n, moved m d k f (s + k) = f k) : copyUp n m d s = moved m d n f := by
  induction n with
  | zero =>
    funext a
    exact (moved_off f (by omega)).symm
  | succ n ih =>
    have hu : ∀ a < 2 ^ 32, u32 a = a := fun a ha => Nat.mod_eq_of_lt ha
    have hrest := ih (by omega) (by omega) fun k hk => hf k (by omega)
    have hlast := copyUp_succ (m := m) (d := d) (s := s) (n := n)
    rw [hu d (by omega), hu s (by omega), hu (d + n) (by omega), hu (s + n) (by omega)] at hlast
    rw [hlast, hrest, moved_succ, hf n (Nat.lt_succ_self n)]

/-- Copying downwards from the front reads every byte before it is overwritten. -/
theorem copyUp_of_le (hd : d + n ≤ 2 ^ 32) (hs : s + n ≤ 2 ^ 32) (hds : d ≤ s) :
    copyUp n m d s = moved m d n fun k => m (s + k) :=
  copyUp_eq_moved hd hs fun k _ => moved_off _ (by omega)

/-- **Copying upwards from the front** repeats the bytes between `s` and `d`. -/
theorem copyUp_of_lt (hd : d + n ≤ 2 ^ 32) (hs : s + n ≤ 2 ^ 32) (hsd : s < d) :
    copyUp n m d s = moved m d n fun k => m (s + k % (d - s)) := by
  refine copyUp_eq_moved hd hs fun k _ => ?_
  by_cases hk : s + k < d
  · rw [moved_off _ (.inl hk), Nat.mod_eq_of_lt (by omega)]
  · -- the byte has been written in round `k - (d - s)`
    obtain ⟨j, hj⟩ : ∃ j, k = j + (d - s) := ⟨k - (d - s), by omega⟩
    rw [show s + k = d + j by omega, moved_at _ (by omega), hj, Nat.add_mod_right]

/-! ## The kernel -/

/-- Copying from the end upwards reads every byte before it is overwritten. -/
theorem copyDown_eq (hd : d + n ≤ 2 ^ 32) (hsd : s ≤ d) :
    copyDown n m (u32 (d + n)) (u32 (s + n)) = moved m d n fun k => m (s + k) := by
  have hback : ∀ a < 2 ^ 32, before (u32 (a + 1)) = a := by
    intro a ha
    unfold before u32
    split <;> omega
  induction n generalizing m with
  | zero =>
    funext a
    exact (moved_off _ (by omega)).symm
  | succ n ih =>
    rw [copyDown, ← Nat.add_assoc, ← Nat.add_assoc, hback _ (by omega), hback _ (by omega)]
    have hrest := ih (m := update m (d + n) (m (s + n))) (by omega)
    rw [show u32 (d + n) = d + n from Nat.mod_eq_of_lt (by omega),
      show u32 (s + n) = s + n from Nat.mod_eq_of_lt (by omega)] at hrest
    rw [hrest, moved_succ]
    funext a
    unfold moved
    by_cases ha : a = d + n
    · rw [ha, update_self, if_neg (by omega), update_self]
    · rw [update_of_ne ha, update_of_ne ha]
      split
      · dsimp only
        rw [update_of_ne (by omega)]
      · rfl

theorem kernel_eq_moved (hd : d + n ≤ 2 ^ 32) (hs : s + n ≤ 2 ^ 32) :
    Kernel.memmove m d s n = moved m d n fun k => m (s + k) := by
  unfold Kernel.memmove
  split
  next hover => exact copyDown_eq hd hover.1.le
  next hover =>
    by_cases hds : d ≤ s
    · exact copyUp_of_le hd hs hds
    · -- the ranges are apart: `s + n` does not wrap, since the range from `d` on ends higher
      have hu : u32 (s + n) = s + n ∨ n = 0 := by
        by_cases hn : n = 0
        · exact .inr hn
        · exact .inl (Nat.mod_eq_of_lt (by omega))
      refine copyUp_eq_moved hd hs fun k hk => moved_off _ (.inl ?_)
      omega

/-- **`memmove` of the kernel copies as if through a temporary**: the bytes at `dst` are those that were at
`src`, and no other byte has changed. -/
theorem kernel_memmove (m : Mem) {dst src n : ℕ} (hdst : dst + n ≤ 2 ^ 32) (hsrc : src + n ≤ 2 ^ 32) :
    (∀ k < n, Kernel.memmove m dst src n (dst + k) = m (src + k)) ∧
      ∀ a, ¬ (dst ≤ a ∧ a < dst + n) → Kernel.memmove m dst src n a = m a := by
  rw [kernel_eq_moved hdst hsrc]
  exact ⟨fun k hk => moved_at _ hk, fun a ha => if_neg ha⟩

/-- Ranges that overlap by one byte, up to the end of memory. -/
theorem kernel_memmove_end :
    Kernel.memmove UInt8.ofNat 4294967294 4294967293 2 (4294967294 + 1) = UInt8.ofNat (4294967293 + 1) :=
  (kernel_memmove _ (by norm_num) (by norm_num)).1 1 (by decide)

/-! ## Both -/

/-- **`memmove` of `ulib.c` leaves the same memory as that of `string.c`** exactly if it does not move bytes
upwards, or the bytes moved repeat at the distance of the ranges. -/
theorem user_eq_kernel_iff (m : Mem) {dst src : ℕ} {n : ℤ} (hn : 0 ≤ n) (hdst : dst + n ≤ 2 ^ 32)
    (hsrc : src + n ≤ 2 ^ 32) : User.memmove m dst src n = Kernel.memmove m dst src n.toNat ↔
      dst ≤ src ∨ ∀ k < n.toNat, m (src + k % (dst - src)) = m (src + k) := by
  obtain ⟨n, rfl⟩ := Int.eq_ofNat_of_zero_le hn
  have hd : dst + n ≤ 2 ^ 32 := by omega
  have hs : src + n ≤ 2 ^ 32 := by omega
  rw [User.memmove, Int.toNat_natCast, kernel_eq_moved hd hs]
  by_cases hle : dst ≤ src
  · exact iff_of_true (copyUp_of_le hd hs hle) (.inl hle)
  · rw [copyUp_of_lt hd hs (not_le.mp hle), or_iff_right hle]
    constructor
    · intro heq k hk
      have hat := congrFun heq (dst + k)
      rwa [moved_at _ hk, moved_at _ hk] at hat
    · intro hrep
      funext a
      unfold moved
      split
      · exact hrep _ (by omega)
      · rfl

/-- Two bytes are moved up by two. -/
theorem user_eq_kernel_apart :
    User.memmove UInt8.ofNat 2 0 2 = Kernel.memmove UInt8.ofNat 2 0 2 :=
  (user_eq_kernel_iff _ (by norm_num) (by norm_num) (by norm_num)).mpr (.inr (by decide))

/-- **Two bytes are moved up by one**: user programs copy the first byte twice. -/
theorem not_user_eq_kernel :
    User.memmove UInt8.ofNat 1 0 2 2 = 0 ∧ Kernel.memmove UInt8.ofNat 1 0 2 2 = 1 := by
  decide +kernel

end Memmove
