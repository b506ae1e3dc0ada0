/-
# Little-endian numbers in a stream of bytes

`leByte w k` is byte `k` of the number `w`, least significant byte first, and
`leValue n f` is the number whose `n` bytes are `f 0, …, f (n - 1)`.  The two are inverse to
each other, up to the truncation `% 256 ^ n` that storing a number in `n` bytes performs.
Arithmetic on four bytes is `u32`.
-/
import Mathlib

/-- Byte `k` of `w`, least significant byte first. -/
def leByte (w k : ℕ) : UInt8 := UInt8.ofNat (w / 256 ^ k)

/-- The number held by the `n` bytes `f 0, …, f (n - 1)`. -/
def leValue : ℕ → (ℕ → UInt8) → ℕ
  | 0, _ => 0
  | n + 1, f => (f 0).toNat + 256 * leValue n (fun k => f (k + 1))

/-- Only the first `n` bytes count. -/
theorem leValue_congr {n : ℕ} {f g : ℕ → UInt8} (h : ∀ k, k < n → f k = g k) :
    leValue n f = leValue n g := by
  induction n generalizing f g with
  | zero => rfl
  | succ n ih =>
    rw [leValue, leValue, h 0 (by omega),
      ih (f := fun k => f (k + 1)) (g := fun k => g (k + 1)) (fun k hk => h (k + 1) (by omega))]

/-- `n` bytes hold a number below `256 ^ n`. -/
theorem leValue_lt (n : ℕ) (f : ℕ → UInt8) : leValue n f < 256 ^ n := by
  induction n generalizing f with
  | zero => simp [leValue]
  | succ n ih =>
    have hhead : (f 0).toNat < 256 := UInt8.toNat_lt (f 0)
    have htail := ih (fun k => f (k + 1))
    rw [leValue, pow_succ]
    omega

/-- The bytes of a shifted number are the higher bytes of the number. -/
theorem leByte_div (w k : ℕ) : leByte (w / 256) k = leByte w (k + 1) := by
  unfold leByte
  rw [Nat.div_div_eq_div_mul, pow_succ, mul_comm 256]

/-- **Storing then loading** truncates to the width stored. -/
theorem leValue_leByte (n w : ℕ) : leValue n (leByte w) = w % 256 ^ n := by
  induction n generalizing w with
  | zero => simp [leValue, Nat.mod_one]
  | succ n ih =>
    have htail : leValue n (fun k => leByte w (k + 1)) = w / 256 % 256 ^ n := by
      rw [← ih (w / 256)]
      exact leValue_congr (fun k _ => (leByte_div w k).symm)
    have hhead : (leByte w 0).toNat = w % 256 := by
      simp [leByte]
    rw [leValue, htail, hhead, pow_succ, mul_comm (256 ^ n), Nat.mod_mul]

/-- **Loading then storing** gives the bytes back. -/
theorem leByte_leValue {n k : ℕ} (f : ℕ → UInt8) (hk : k < n) :
    leByte (leValue n f) k = f k := by
  induction n generalizing k f with
  | zero => omega
  | succ n ih =>
    have hhead : (f 0).toNat < 256 := UInt8.toNat_lt (f 0)
    cases k with
    | zero =>
      apply UInt8.toNat_inj.mp
      simp only [leByte, leValue, pow_zero, Nat.div_one, UInt8.toNat_ofNat']
      omega
    | succ k =>
      rw [← leByte_div, leValue,
        show ((f 0).toNat + 256 * leValue n (fun k => f (k + 1))) / 256
          = leValue n (fun k => f (k + 1)) from by omega]
      exact ih (fun k => f (k + 1)) (by omega)

/-- A number that fits `n` bytes is the one they hold exactly when they are its bytes. -/
theorem leValue_eq_iff {n w : ℕ} {f : ℕ → UInt8} (hw : w < 256 ^ n) :
    leValue n f = w ↔ ∀ k, k < n → f k = leByte w k := by
  constructor
  · rintro rfl k hk
    rw [leByte_leValue f hk]
  · intro h
    rw [leValue_congr h, leValue_leByte, Nat.mod_eq_of_lt hw]

/-- The value of a `uint` expression. -/
def u32 (n : ℕ) : ℕ := n % 2 ^ 32

/-- The value of a `uint` returned as an `int`. -/
def cint (n : ℕ) : ℤ := if u32 n < 2 ^ 31 then (u32 n : ℤ) else (u32 n : ℤ) - 2 ^ 32
