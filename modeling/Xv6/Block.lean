/-
# Disk blocks

A disk block is `BSIZE` bytes (`fs.h`).  The kernel reads it as bytes, as C structures and as
an array of words, and changes it with `memmove`; the words and fields are little-endian, as
on the x86.  Every access below is one of two primitives: `Block.byte`, a byte of the block,
and `Block.memmove`, a copy of `n` bytes to offset `off`.
-/
import Xv6.LittleEndian

/-- Block size (`fs.h`). -/
abbrev BSIZE : ℕ := 512

/-- The contents of one disk block. -/
def Block : Type := Fin BSIZE → UInt8

/-- A disk, or the disk as seen through the buffer cache: the contents of each block number. -/
abbrev Disk := ℕ → Block

namespace Block

/-! ## Bytes -/

/-- Byte `i` of the block. -/
def byte (b : Block) (i : ℕ) : UInt8 := if h : i < BSIZE then b ⟨i, h⟩ else 0

/-- The block of zero bytes left by `memset(bp->data, 0, BSIZE)`. -/
def zero : Block := fun _ => 0

@[simp] theorem byte_zero (i : ℕ) : zero.byte i = 0 := by
  unfold byte zero
  split <;> rfl

/-- `memmove(b->data + off, src, n)`, the source given byte by byte. -/
def memmove (b : Block) (off n : ℕ) (src : ℕ → UInt8) : Block :=
  fun i => if off ≤ i.val ∧ i.val < off + n then src (i.val - off) else b i

theorem byte_memmove (b : Block) (off n : ℕ) (src : ℕ → UInt8) (i : ℕ) :
    (b.memmove off n src).byte i =
      if off ≤ i ∧ i < off + n ∧ i < BSIZE then src (i - off) else b.byte i := by
  unfold byte memmove
  by_cases hi : i < BSIZE
  · simp [hi]
  · simp [hi]

/-- The bytes copied. -/
theorem byte_memmove_of_mem (b : Block) {off n i : ℕ} (src : ℕ → UInt8)
    (hlo : off ≤ i) (hhi : i < off + n) (hi : i < BSIZE) :
    (b.memmove off n src).byte i = src (i - off) := by
  rw [byte_memmove, if_pos ⟨hlo, hhi, hi⟩]

/-- The bytes off the range copied to. -/
theorem byte_memmove_of_not_mem (b : Block) {off n i : ℕ} (src : ℕ → UInt8)
    (h : i < off ∨ off + n ≤ i) : (b.memmove off n src).byte i = b.byte i := by
  rw [byte_memmove, if_neg (by omega)]

/-- Only the `n` bytes copied matter. -/
theorem memmove_congr (b : Block) {off n : ℕ} {f g : ℕ → UInt8} (h : ∀ k, k < n → f k = g k) :
    b.memmove off n f = b.memmove off n g := by
  funext i
  unfold memmove
  split
  · next hi => exact h _ (by omega)
  · rfl

/-- Only the first `n` bytes of a list matter. -/
theorem memmove_take (b : Block) (off : ℕ) {n : ℕ} {src : List UInt8} (hn : n ≤ src.length) :
    (b.memmove off n fun k => src.getD k 0) =
      b.memmove off (src.take n).length fun k => (src.take n).getD k 0 := by
  rw [List.length_take, min_eq_left hn]
  refine memmove_congr b fun k hk => ?_
  rw [List.getD_eq_getElem?_getD, List.getD_eq_getElem?_getD, List.getElem?_take_of_lt hk]

/-- Two copies to adjacent ranges are one copy. -/
theorem memmove_append (b : Block) (off n n' : ℕ) (f g : ℕ → UInt8) :
    (b.memmove off n f).memmove (off + n) n' g =
      b.memmove off (n + n') fun k => if k < n then f k else g (k - n) := by
  funext i
  unfold memmove
  by_cases hlo : off ≤ i.val ∧ i.val < off + n
  · simp only [if_neg (show ¬(off + n ≤ i.val ∧ i.val < off + n + n') by omega), if_pos hlo,
      if_pos (show off ≤ i.val ∧ i.val < off + (n + n') by omega),
      if_pos (show i.val - off < n by omega)]
  · by_cases hhi : off + n ≤ i.val ∧ i.val < off + n + n'
    · simp only [if_pos hhi, if_pos (show off ≤ i.val ∧ i.val < off + (n + n') by omega),
        if_neg (show ¬ i.val - off < n by omega), Nat.sub_add_eq]
    · simp only [if_neg hhi, if_neg hlo,
        if_neg (show ¬(off ≤ i.val ∧ i.val < off + (n + n')) by omega)]

/-! ## Fields and words -/

/-- The `n`-byte little-endian number at offset `off`. -/
def get (b : Block) (off n : ℕ) : ℕ := leValue n (fun k => b.byte (off + k))

/-- Store `w` as an `n`-byte little-endian number at offset `off`. -/
def set (b : Block) (off n w : ℕ) : Block := b.memmove off n (leByte w)

theorem get_lt (b : Block) (off n : ℕ) : b.get off n < 256 ^ n := leValue_lt n _

/-- Loading the number just stored. -/
theorem get_set (b : Block) {off n : ℕ} (w : ℕ) (h : off + n ≤ BSIZE) :
    (b.set off n w).get off n = w % 256 ^ n := by
  rw [← leValue_leByte]
  apply leValue_congr
  intro k hk
  rw [set, byte_memmove_of_mem b _ (by omega) (by omega) (by omega), Nat.add_sub_cancel_left]

/-- A `memmove` elsewhere leaves a number as it was. -/
theorem get_memmove_of_disjoint (b : Block) {off n off' n' : ℕ} (src : ℕ → UInt8)
    (h : off' + n' ≤ off ∨ off + n ≤ off') :
    (b.memmove off n src).get off' n' = b.get off' n' := by
  apply leValue_congr
  intro k hk
  rw [byte_memmove_of_not_mem b src (by omega)]

/-- Loading a number from bytes just copied. -/
theorem get_memmove_of_mem (b : Block) {off n off' n' : ℕ} (src : ℕ → UInt8)
    (hlo : off ≤ off') (hhi : off' + n' ≤ off + n) (h : off' + n' ≤ BSIZE) :
    (b.memmove off n src).get off' n' = leValue n' (fun k => src (off' - off + k)) := by
  apply leValue_congr
  intro k hk
  rw [byte_memmove_of_mem b src (by omega) (by omega) (by omega)]
  congr 1
  omega

@[simp] theorem get_zero (off n : ℕ) : zero.get off n = 0 := by
  have h : leValue n (leByte 0) = 0 := by rw [leValue_leByte, Nat.zero_mod]
  rw [← h]
  apply leValue_congr
  intro k _
  simp [leByte]

/-- `((uint*)b->data)[i]`. -/
def word (b : Block) (i : ℕ) : ℕ := b.get (4 * i) 4

/-- `((uint*)b->data)[i] = w`. -/
def setWord (b : Block) (i w : ℕ) : Block := b.set (4 * i) 4 w

@[simp] theorem word_zero (i : ℕ) : zero.word i = 0 := get_zero _ _

theorem word_setWord_self (b : Block) {i w : ℕ} (hi : i < 128) (hw : w < 2 ^ 32) :
    (b.setWord i w).word i = w := by
  unfold word setWord
  have hfit : 4 * i + 4 ≤ BSIZE := by unfold BSIZE; omega
  rw [get_set b w hfit, Nat.mod_eq_of_lt (by norm_num at hw ⊢; exact hw)]

theorem word_setWord_of_ne (b : Block) {i j : ℕ} (w : ℕ) (h : j ≠ i) :
    (b.setWord i w).word j = b.word j := by
  unfold word setWord set
  exact get_memmove_of_disjoint b _ (by omega)

/-- A word array changes only at the word stored. -/
theorem word_setWord (b : Block) {i w : ℕ} (hi : i < 128) (hw : w < 2 ^ 32) (j : ℕ) :
    (b.setWord i w).word j = if j = i then w else b.word j := by
  split
  · next h => rw [h, word_setWord_self b hi hw]
  · next h => rw [word_setWord_of_ne b w h]

end Block
