/-
# Printing and reading numbers

`printint` of `printf.c` and `atoi` of `ulib.c`.  Repeated division gives the digits in reverse, those of
`Nat.digits` with one zero for the number zero (`emit_eq`); the buffer is read backwards.  `atoi` adds them
up in wrapping arithmetic, where the sum may leave the range of `int` before `'0'` is taken off.
-/
import Mathlib

open List

namespace Printint

/-! ## The programs -/

def digits : List Char :=
  ['0', '1', '2', '3', '4', '5', '6', '7', '8', '9', 'A', 'B', 'C', 'D', 'E', 'F']

/-- `digits[d]`. -/
def digit (d : ℕ) : Char := digits.getD d '0'

/-- The `do` loop, which appends to `buf`.  A `uint` has 32 bits, so 32 rounds are enough. -/
def emit (base : ℕ) : ℕ → ℕ → List Char → List Char
  | 0, _, buf => buf
  | rounds + 1, x, buf =>
    if x / base = 0 then buf ++ [digit (x % base)]
    else emit base rounds (x / base) (buf ++ [digit (x % base)])

/-- The characters that `printint` writes. -/
def printint (xx : Int32) (base : ℕ) (sgn : Bool) : List Char :=
  if sgn = true ∧ xx < 0 then (emit base 32 (-xx).toUInt32.toNat [] ++ ['-']).reverse
  else (emit base 32 xx.toUInt32.toNat []).reverse

/-- The loop of `atoi`, up to the end of the string. -/
def atoiLoop (n : Int32) : List Char → Int32
  | [] => n
  | c :: s => if '0' ≤ c ∧ c ≤ '9' then atoiLoop (n * 10 + Int32.ofNat c.toNat - 48) s else n

def atoi (s : List Char) : Int32 := atoiLoop 0 s

/-! ## Numerals -/

/-- The value of a digit. -/
def value (c : Char) : ℕ := digits.idxOf c

/-- **The canonical numeral** of `v`. -/
structure Numeral (base : ℕ) (s : List Char) (v : ℕ) : Prop where
  nonempty : s ≠ []
  digits : ∀ c ∈ s, value c < base
  leading : ∀ s', s = '0' :: s' → s' = []
  value : Nat.ofDigits base (s.reverse.map value) = v

/-- The argument of `printint`, as a signed or an unsigned number. -/
def argument (xx : Int32) (sgn : Bool) : ℤ := if sgn = true then xx.toInt else xx.toUInt32.toNat

/-- The digits of a number, at least one. -/
def places (base x : ℕ) : List ℕ := if x = 0 then [0] else Nat.digits base x

theorem value_digit : ∀ d < 16, value (digit d) = d := by decide

variable {base x : ℕ}

theorem places_eq (hbase : 1 < base) : places base x =
    x % base :: if x / base = 0 then [] else places base (x / base) := by
  unfold places
  by_cases hx : x = 0
  · simp [hx]
  rw [if_neg hx, Nat.digits_def' hbase (Nat.pos_of_ne_zero hx)]
  by_cases hzero : x / base = 0
  · rw [if_pos hzero, hzero, Nat.digits_zero]
  · rw [if_neg hzero, if_neg hzero]

theorem emit_eq (hbase : 1 < base) {rounds : ℕ} (hx : x < 2 ^ (rounds + 1)) (buf : List Char) :
    emit base (rounds + 1) x buf = buf ++ (places base x).map digit := by
  induction rounds generalizing x buf with
  | zero =>
    have hzero : x / base = 0 := Nat.div_eq_of_lt (by omega)
    rw [emit, places_eq hbase, if_pos hzero, if_pos hzero]
    rfl
  | succ rounds ih =>
    rw [emit, places_eq hbase]
    split
    · rfl
    · rw [ih, append_assoc]
      · rfl
      · refine Nat.div_lt_of_lt_mul (hx.trans_le ?_)
        rw [pow_succ, Nat.mul_comm]
        exact Nat.mul_le_mul_right _ hbase

theorem places_lt (hbase : 1 < base) : ∀ d ∈ places base x, d < base := by
  intro d hd
  unfold places at hd
  split at hd
  · rw [mem_singleton.mp hd]
    omega
  · exact Nat.digits_lt_base hbase hd

theorem ofDigits_places : Nat.ofDigits base (places base x) = x := by
  unfold places
  split
  next h => simp [h]
  next => exact Nat.ofDigits_digits base x

/-- What the loop leaves in the buffer is a numeral, read backwards. -/
theorem numeral_places (hbase : 1 < base) (hle : base ≤ 16) :
    Numeral base ((places base x).map digit).reverse x := by
  have hvalue : ∀ d ∈ places base x, value (digit d) = d := fun d hd =>
    value_digit d ((places_lt hbase d hd).trans_le hle)
  refine ⟨?_, fun c hc => ?_, fun s' hs' => ?_, ?_⟩
  · rw [places_eq hbase]
    simp
  · obtain ⟨d, hd, rfl⟩ := mem_map.mp (mem_reverse.mp hc)
    rw [hvalue d hd]
    exact places_lt hbase d hd
  · by_cases hx : x = 0
    · simpa [places, hx] using congrArg length hs'
    · -- the leading digit is the last one found
      have hplaces : places base x = Nat.digits base x := if_neg hx
      have hne : Nat.digits base x ≠ [] := Nat.digits_ne_nil_iff_ne_zero.mpr hx
      have hhead := congrArg head? hs'
      rw [head?_reverse, getLast?_map, hplaces, getLast?_eq_some_getLast hne] at hhead
      rw [hplaces] at hvalue
      refine absurd (hvalue _ (getLast_mem hne)).symm ?_
      rw [Option.some.inj hhead]
      exact Nat.getLast_digit_ne_zero base hx
  · rw [reverse_reverse, map_map, map_congr_left (f := value ∘ digit) (g := id) hvalue,
      map_id, ofDigits_places]

theorem length_places (hbase : 10 ≤ base) (hx : x < 2 ^ 32) : (places base x).length ≤ 10 := by
  unfold places
  split
  · decide
  · refine (Nat.digits_length_le_iff (by omega) x).mpr (hx.trans_le ?_)
    exact le_trans (by decide) (Nat.pow_le_pow_left hbase 10)

/-! ## Arguments -/

theorem toInt_eq (xx : Int32) : xx.toInt =
    if 2 * xx.toUInt32.toNat < 2 ^ 32 then (xx.toUInt32.toNat : ℤ) else xx.toUInt32.toNat - 2 ^ 32 := by
  have h := BitVec.toInt_eq_toNat_cond xx.toBitVec
  rwa [Int32.toNat_toBitVec] at h

theorem neg_iff (xx : Int32) : xx < 0 ↔ xx.toInt < 0 := Int32.lt_iff_toInt_lt

/-- The wrapped negation is right for the smallest number, too. -/
theorem natAbs_argument (xx : Int32) (sgn : Bool) : (argument xx sgn).natAbs =
    if sgn = true ∧ xx < 0 then (-xx).toUInt32.toNat else xx.toUInt32.toNat := by
  have heq := toInt_eq xx
  have hlt := xx.toUInt32.toNat_lt
  rw [Int32.toUInt32_neg, UInt32.toNat_neg]
  simp only [neg_iff]
  unfold argument UInt32.size
  cases sgn with
  | false => simp
  | true =>
    simp only [if_true, true_and]
    split_ifs at heq ⊢ <;> omega

theorem argument_neg_iff (xx : Int32) (sgn : Bool) : argument xx sgn < 0 ↔ sgn = true ∧ xx < 0 := by
  unfold argument
  rw [neg_iff]
  cases sgn <;> simp

/-- **What `printint` writes**, with the digits of the absolute value. -/
theorem printint_eq (hbase : 1 < base) (xx : Int32) (sgn : Bool) : printint xx base sgn =
    (if argument xx sgn < 0 then ['-'] else []) ++
      ((places base (argument xx sgn).natAbs).map digit).reverse := by
  rw [natAbs_argument]
  unfold printint
  by_cases h : sgn = true ∧ xx < 0
  · rw [if_pos h, if_pos h, if_pos ((argument_neg_iff xx sgn).mpr h), reverse_append,
      emit_eq hbase (UInt32.toNat_lt _)]
    rfl
  · rw [if_neg h, if_neg h, if_neg fun hlt => h ((argument_neg_iff xx sgn).mp hlt),
      emit_eq hbase (UInt32.toNat_lt _)]
    rfl

/-! ## Reading -/

/-- `atoi` adds the digits up. -/
theorem atoiLoop_eq (ds : List ℕ) (hds : ∀ d ∈ ds, d < 10) (a : ℕ) :
    atoiLoop (Int32.ofNat a) (ds.map digit) = Int32.ofNat (ds.foldl (fun v d => d + 10 * v) a) := by
  have hdigit : ∀ d < 10, ('0' ≤ digit d ∧ digit d ≤ '9') ∧ (digit d).toNat = d + 48 := by decide
  induction ds generalizing a with
  | nil => rfl
  | cons d ds ih =>
    obtain ⟨hrange, hchar⟩ := hdigit d (hds d mem_cons_self)
    have hstep : Int32.ofNat a * 10 + Int32.ofNat (d + 48) - 48 = Int32.ofNat (d + 10 * a) := by
      rw [Int32.ofNat_add d 48, ← Int32.add_assoc, show Int32.ofNat 48 = 48 from rfl, Int32.add_sub_cancel,
        Nat.add_comm d, Nat.mul_comm 10, Int32.ofNat_add, Int32.ofNat_mul]
      rfl
    rw [map_cons, atoiLoop, if_pos hrange, hchar, hstep, foldl_cons]
    exact ih (fun d' hd' => hds d' (mem_cons_of_mem _ hd')) _

theorem atoi_places (x : ℕ) : atoi ((places 10 x).map digit).reverse = Int32.ofNat x := by
  have hread := atoiLoop_eq (places 10 x).reverse
    (fun d hd => places_lt (by decide) d (mem_reverse.mp hd)) 0
  have hvalue := Nat.ofDigits_eq_foldr (10 : ℕ) (places 10 x)
  rw [ofDigits_places] at hvalue
  rw [map_reverse, foldl_reverse] at hread
  exact hread.trans (congrArg Int32.ofNat hvalue.symm)

/-- **Numbers are printed and read back**: `printint` writes at most 16 characters, the canonical numeral of
its argument with a sign exactly if that is negative, and `atoi` of the decimal numeral is the number. -/
theorem printint_atoi (hbase : base = 10 ∨ base = 16) (xx : Int32) (sgn : Bool) :
    (printint xx base sgn).length ≤ 16 ∧
    (∃ s, Numeral base s (argument xx sgn).natAbs ∧
      printint xx base sgn = (if argument xx sgn < 0 then ['-'] else []) ++ s) ∧
    (base = 10 → 0 ≤ xx → atoi (printint xx base sgn) = xx) := by
  have hone : 1 < base := by omega
  have habs := natAbs_argument xx sgn
  have hlen : (places base (argument xx sgn).natAbs).length ≤ 10 := by
    refine length_places (by omega) ?_
    rw [habs]
    split
    · exact UInt32.toNat_lt _
    · exact UInt32.toNat_lt _
  rw [printint_eq hone]
  refine ⟨?_, ⟨_, numeral_places hone (by omega), rfl⟩, fun hb hle => ?_⟩
  · rw [length_append, length_reverse, length_map]
    have hsign : (if argument xx sgn < 0 then ['-'] else []).length ≤ 1 := by split <;> decide
    omega
  · have hpos : ¬ (sgn = true ∧ xx < 0) := fun h => absurd h.2 (Int32.not_lt.mpr hle)
    rw [if_neg hpos] at habs
    rw [if_neg fun hlt => hpos ((argument_neg_iff xx sgn).mp hlt), nil_append, habs, hb, atoi_places,
      ← UInt32.toInt32_ofNat', UInt32.ofNat_toNat, Int32.toInt32_toUInt32]

/-- The most negative number. -/
theorem printint_atoi_min : (printint Int32.minValue 10 true).length ≤ 16 ∧
    ∃ s, Numeral 10 s 2147483648 ∧ printint Int32.minValue 10 true = '-' :: s :=
  have h := printint_atoi (.inl rfl) Int32.minValue true
  ⟨h.1, h.2.1⟩

end Printint
