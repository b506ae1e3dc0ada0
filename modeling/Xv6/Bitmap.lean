/-
# The free map

The bitmap blocks of `fs.c`: a bit of a block, and `marked`, the bit of a block number.  A
block number is taken by setting its bit and given back by clearing it; each changes the mark
of that block only and the number of free blocks by one.
-/
import Xv6.Inode

open Function Finset

/-- Bitmap bits per block. -/
abbrev BPB : ℕ := 4096

/-- `BBLOCK(b, sb)`: block of free map containing the bit for block `b`. -/
def bblock (sb : Superblock) (b : ℕ) : ℕ := b / BPB + sb.bmapstart

/-! ## Bits of a block -/

/-- `1 << (bi % 8)`. -/
def bmask (bi : ℕ) : UInt8 := 1 <<< UInt8.ofNat (bi % 8)

namespace Block

/-- `(data[bi/8] & m) != 0`. -/
def bit (b : Block) (bi : ℕ) : Bool := b.byte (bi / 8) &&& bmask bi != 0

/-- `data[bi/8] |= m`. -/
def setBit (b : Block) (bi : ℕ) : Block :=
  b.memmove (bi / 8) 1 fun _ => b.byte (bi / 8) ||| bmask bi

/-- `data[bi/8] &= ~m`. -/
def clearBit (b : Block) (bi : ℕ) : Block :=
  b.memmove (bi / 8) 1 fun _ => b.byte (bi / 8) &&& ~~~ bmask bi

end Block

theorem toNat_bmask (bi : ℕ) : (bmask bi).toNat = 2 ^ (bi % 8) := by
  unfold bmask
  have h : bi % 8 < 8 := Nat.mod_lt _ (by norm_num)
  generalize bi % 8 = k at h
  interval_cases k <;> rfl

theorem toNat_not_bmask (bi : ℕ) : (~~~ bmask bi).toNat = 2 ^ 8 - (2 ^ (bi % 8) + 1) := by
  unfold bmask
  have h : bi % 8 < 8 := Nat.mod_lt _ (by norm_num)
  generalize bi % 8 = k at h
  interval_cases k <;> rfl

/-- The test of a bit, as a bit of the number the byte stands for. -/
theorem and_bmask (x : UInt8) (bi : ℕ) :
    (x &&& bmask bi != 0) = x.toNat.testBit (bi % 8) := by
  have hand : (x &&& bmask bi).toNat = (x.toNat.testBit (bi % 8)).toNat * 2 ^ (bi % 8) := by
    rw [UInt8.toNat_and, toNat_bmask, Nat.and_two_pow]
  have hpos : 0 < 2 ^ (bi % 8) := by positivity
  cases h : x.toNat.testBit (bi % 8) with
  | false =>
    have hzero : x &&& bmask bi = 0 := by
      apply UInt8.toNat_inj.mp
      simp [hand, h]
    simp [hzero]
  | true =>
    have hne : x &&& bmask bi ≠ 0 := by
      intro hzero
      rw [hzero, h, Bool.toNat_true, one_mul] at hand
      exact hpos.ne hand
    simpa using hne

namespace Block

theorem bit_eq_testBit (b : Block) (bi : ℕ) :
    b.bit bi = (b.byte (bi / 8)).toNat.testBit (bi % 8) := and_bmask _ _

/-- Setting a bit changes that bit only. -/
theorem bit_setBit (b : Block) {i : ℕ} (hi : i < BPB) (j : ℕ) :
    (b.setBit i).bit j = (decide (j = i) || b.bit j) := by
  have hfit : i / 8 < BSIZE := by
    unfold BPB at hi
    unfold BSIZE
    omega
  rw [bit_eq_testBit, bit_eq_testBit, setBit]
  by_cases hbyte : j / 8 = i / 8
  · rw [hbyte, byte_memmove_of_mem b _ le_rfl (by omega) hfit, UInt8.toNat_or,
      toNat_bmask, Nat.testBit_or, Nat.testBit_two_pow, Bool.or_comm]
    congr 1
    exact decide_eq_decide.mpr ⟨fun h => by omega, fun h => by rw [h]⟩
  · rw [byte_memmove_of_not_mem b _ (by omega)]
    have hj : j ≠ i := fun h => hbyte (by rw [h])
    simp [hj]

/-- Clearing a bit changes that bit only. -/
theorem bit_clearBit (b : Block) {i : ℕ} (hi : i < BPB) (j : ℕ) :
    (b.clearBit i).bit j = (!decide (j = i) && b.bit j) := by
  have hfit : i / 8 < BSIZE := by
    unfold BPB at hi
    unfold BSIZE
    omega
  have hmask : 2 ^ (i % 8) < 2 ^ 8 := Nat.pow_lt_pow_right (by norm_num) (by omega)
  have hmod : j % 8 < 8 := Nat.mod_lt _ (by norm_num)
  rw [bit_eq_testBit, bit_eq_testBit, clearBit]
  by_cases hbyte : j / 8 = i / 8
  · rw [hbyte, byte_memmove_of_mem b _ le_rfl (by omega) hfit, UInt8.toNat_and,
      toNat_not_bmask, Nat.testBit_and, Nat.testBit_two_pow_sub_succ hmask,
      Nat.testBit_two_pow, Bool.and_comm]
    have heq : i % 8 = j % 8 ↔ j = i := ⟨fun h => by omega, fun h => by rw [h]⟩
    simp [hmod, heq]
  · rw [byte_memmove_of_not_mem b _ (by omega)]
    have hj : j ≠ i := fun h => hbyte (by rw [h])
    simp [hj]

end Block

/-! ## Marks -/

/-- Block `b` is marked in use in the bitmap. -/
def marked (sb : Superblock) (d : Disk) (b : ℕ) : Bool := (d (bblock sb b)).bit (b % BPB)

variable {sb : Superblock} {d d' : Disk}

/-- The bitmap is all `marked` reads. -/
theorem marked_congr {b : ℕ} (h : d' (bblock sb b) = d (bblock sb b)) : marked sb d' b = marked sb d b := by
  unfold marked
  rw [h]

/-- Two block numbers with their bit in the same place are equal. -/
theorem eq_of_bblock {b c : ℕ} (hblock : bblock sb c = bblock sb b) (hbit : c % BPB = b % BPB) : c = b := by
  unfold bblock at hblock
  unfold BPB at hblock hbit
  omega

/-- Setting the bit of a block marks that block only. -/
theorem marked_setBit (sb : Superblock) (d : Disk) (b c : ℕ) :
    marked sb (update d (bblock sb b) ((d (bblock sb b)).setBit (b % BPB))) c =
      (decide (c = b) || marked sb d c) := by
  have hlt : b % BPB < BPB := Nat.mod_lt _ (by norm_num)
  unfold marked
  by_cases hblock : bblock sb c = bblock sb b
  · rw [hblock, update_self, Block.bit_setBit _ hlt]
    congr 1
    exact decide_eq_decide.mpr ⟨eq_of_bblock hblock, fun h => by rw [h]⟩
  · have hc : c ≠ b := fun h => hblock (by rw [h])
    rw [update_of_ne hblock]
    simp [hc]

/-- Clearing the bit of a block unmarks that block only. -/
theorem marked_clearBit (sb : Superblock) (d : Disk) (b c : ℕ) :
    marked sb (update d (bblock sb b) ((d (bblock sb b)).clearBit (b % BPB))) c =
      (!decide (c = b) && marked sb d c) := by
  have hlt : b % BPB < BPB := Nat.mod_lt _ (by norm_num)
  unfold marked
  by_cases hblock : bblock sb c = bblock sb b
  · rw [hblock, update_self, Block.bit_clearBit _ hlt]
    congr 2
    exact decide_eq_decide.mpr ⟨eq_of_bblock hblock, fun h => by rw [h]⟩
  · have hc : c ≠ b := fun h => hblock (by rw [h])
    rw [update_of_ne hblock]
    simp [hc]

/-! ## Free blocks -/

/-- How many blocks `balloc` can still hand out. -/
def freeBlocks (sb : Superblock) (d : Disk) : ℕ :=
  ((range sb.size).filter fun b => marked sb d b = false).card

theorem freeBlocks_congr (h : ∀ b, b < sb.size → marked sb d' b = marked sb d b) :
    freeBlocks sb d' = freeBlocks sb d := by
  unfold freeBlocks
  congr 1
  apply filter_congr
  intro b hb
  rw [h b (mem_range.mp hb)]

/-- Marking a free block leaves one block fewer. -/
theorem freeBlocks_mark {b : ℕ} (hb : b < sb.size) (hfree : marked sb d b = false)
    (h : ∀ c, c < sb.size → marked sb d' c = (decide (c = b) || marked sb d c)) :
    freeBlocks sb d' + 1 = freeBlocks sb d := by
  have hmem : b ∈ (range sb.size).filter fun c => marked sb d c = false := by
    simp [hb, hfree]
  have herase : ((range sb.size).filter fun c => marked sb d' c = false) =
      ((range sb.size).filter fun c => marked sb d c = false).erase b := by
    ext c
    simp only [mem_filter, mem_range, mem_erase]
    constructor
    · rintro ⟨hc, hm⟩
      rw [h c hc, Bool.or_eq_false_iff, decide_eq_false_iff_not] at hm
      exact ⟨hm.1, hc, hm.2⟩
    · rintro ⟨hne, hc, hm⟩
      refine ⟨hc, ?_⟩
      rw [h c hc, hm]
      simp [hne]
  unfold freeBlocks
  rw [herase, card_erase_of_mem hmem]
  exact Nat.sub_add_cancel (card_pos.mpr ⟨b, hmem⟩)

/-- There is a free block when the count is not zero. -/
theorem freeBlocks_eq_zero_iff {d : Disk} :
    freeBlocks sb d = 0 ↔ ∀ b, b < sb.size → marked sb d b = true := by
  unfold freeBlocks
  rw [card_eq_zero, filter_eq_empty_iff]
  simp only [mem_range, Bool.not_eq_false]
