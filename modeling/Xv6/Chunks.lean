/-
# Chunks of memory

A chunk is a number of units of memory from an address on.  Chunks are cut in two and joined
again; what stays the same is every *additive* weight of them, such as the number of units, or
whether a certain byte is in them.  Two lists of chunks with the same weights (`Recut`) are the
same memory cut differently: if the chunks of the one do not overlap, those of the other do not
either, and every unit of the one is a unit of exactly one chunk of the other.
-/
import Mathlib

open List

/-- `units` units of memory from the address `start` on. -/
@[ext]
structure Chunk where
  start : ℕ
  units : ℕ
deriving DecidableEq

namespace Chunk

variable {u : ℕ} {w : Chunk → ℕ} {l l' l₁ l₂ : List Chunk} {c d : Chunk} {a m n x : ℕ}

/-- The address behind a chunk of units of `u` bytes. -/
def stop (u : ℕ) (c : Chunk) : ℕ := c.start + u * c.units

/-! ## Additive weights -/

/-- The weight of a chunk is the sum of the weights of two parts of it. -/
def Additive (u : ℕ) (w : Chunk → ℕ) : Prop :=
  ∀ a m n, w ⟨a, m + n⟩ = w ⟨a, m⟩ + w ⟨a + u * m, n⟩

theorem Additive.empty (hw : Additive u w) (a : ℕ) : w ⟨a, 0⟩ = 0 := by
  have h := hw a 0 0
  rw [Nat.mul_zero, Nat.add_zero, Nat.add_zero] at h
  omega

/-- The weight of a list of chunks. -/
def weigh (w : Chunk → ℕ) (l : List Chunk) : ℕ := (l.map w).sum

@[simp] theorem weigh_nil : weigh w [] = 0 := rfl

@[simp] theorem weigh_cons : weigh w (c :: l) = w c + weigh w l := by
  simp [weigh]

@[simp] theorem weigh_append : weigh w (l₁ ++ l₂) = weigh w l₁ + weigh w l₂ := by
  simp [weigh]

theorem le_weigh (hc : c ∈ l) : w c ≤ weigh w l := by
  induction l with
  | nil => cases hc
  | cons d l ih =>
    rw [weigh_cons]
    rcases mem_cons.mp hc with rfl | hc
    · exact Nat.le_add_right _ _
    · exact (ih hc).trans (Nat.le_add_left _ _)

/-- Two chunks of a list weigh no more than the list. -/
theorem add_le_weigh (hc : c ∈ l) (hd : d ∈ l) (hne : c ≠ d) : w c + w d ≤ weigh w l := by
  induction l with
  | nil => cases hc
  | cons e l ih =>
    rw [weigh_cons]
    rcases mem_cons.mp hc with rfl | hcl
    · rcases mem_cons.mp hd with rfl | hdl
      · exact absurd rfl hne
      · exact Nat.add_le_add_left (le_weigh hdl) _
    · rcases mem_cons.mp hd with rfl | hdl
      · rw [Nat.add_comm]
        exact Nat.add_le_add_left (le_weigh hcl) _
      · exact (ih hcl hdl).trans (Nat.le_add_left _ _)

/-! ## The same memory -/

/-- The two lists are the same memory, cut differently. -/
def Recut (u : ℕ) (l l' : List Chunk) : Prop := ∀ w, Additive u w → weigh w l = weigh w l'

namespace Recut

theorem refl (u : ℕ) (l : List Chunk) : Recut u l l := fun _ _ => rfl

theorem symm (h : Recut u l l') : Recut u l' l := fun w hw => (h w hw).symm

theorem trans (h : Recut u l l₁) (h' : Recut u l₁ l₂) : Recut u l l₂ := fun w hw =>
  (h w hw).trans (h' w hw)

/-- **Two chunks that meet are one.** -/
theorem join (a m n : ℕ) (l : List Chunk) :
    Recut u (⟨a, m⟩ :: ⟨a + u * m, n⟩ :: l) (⟨a, m + n⟩ :: l) := by
  intro w hw
  rw [weigh_cons, weigh_cons, weigh_cons, hw a m n, Nat.add_assoc]

/-- An empty chunk is nothing. -/
theorem empty (a : ℕ) (l : List Chunk) : Recut u (⟨a, 0⟩ :: l) l := by
  intro w hw
  rw [weigh_cons, hw.empty, Nat.zero_add]

end Recut

/-! ## Bytes -/

/-- `1` if byte `x` is in the chunk. -/
def hasByte (u x : ℕ) (c : Chunk) : ℕ := if c.start ≤ x ∧ x < c.stop u then 1 else 0

theorem additive_hasByte (u x : ℕ) : Additive u (hasByte u x) := by
  intro a m n
  have hmul : u * (m + n) = u * m + u * n := Nat.mul_add _ _ _
  unfold hasByte stop
  dsimp only
  split_ifs <;> omega

/-- A byte of the one list is a byte of the other. -/
theorem Recut.exists_byte (h : Recut u l l') (hc : c ∈ l) (hx : c.start ≤ x ∧ x < c.stop u) :
    ∃ d ∈ l', d.start ≤ x ∧ x < d.stop u := by
  by_contra hnone
  push Not at hnone
  have hone : hasByte u x c = 1 := if_pos hx
  have hzero : weigh (hasByte u x) l' = 0 := by
    refine sum_eq_zero fun k hk => ?_
    obtain ⟨d, hd, rfl⟩ := mem_map.mp hk
    exact if_neg fun hxd => absurd (hnone d hd hxd.1) (not_le.mpr hxd.2)
  have hle := le_weigh (w := hasByte u x) hc
  rw [h _ (additive_hasByte u x)] at hle
  omega

/-- The chunks do not overlap. -/
def Apart (u : ℕ) (c d : Chunk) : Prop := c.stop u ≤ d.start ∨ d.stop u ≤ c.start

theorem weigh_hasByte_le_one (h : l.Pairwise (Apart u)) (x : ℕ) : weigh (hasByte u x) l ≤ 1 := by
  induction l with
  | nil => exact Nat.zero_le _
  | cons c l ih =>
    obtain ⟨hc, hl⟩ := pairwise_cons.mp h
    rw [weigh_cons]
    by_cases hx : c.start ≤ x ∧ x < c.stop u
    · -- the byte is in no other chunk
      have hrest : weigh (hasByte u x) l = 0 := by
        refine sum_eq_zero fun k hk => ?_
        obtain ⟨d, hd, rfl⟩ := mem_map.mp hk
        refine if_neg fun hx' => ?_
        rcases hc d hd with h | h <;> omega
      rw [hrest]
      unfold hasByte
      rw [if_pos hx]
    · have hzero : hasByte u x c = 0 := if_neg hx
      rw [hzero, Nat.zero_add]
      exact ih hl

theorem pairwise_apart (hpos : ∀ c ∈ l, 0 < u * c.units)
    (h : ∀ x, weigh (hasByte u x) l ≤ 1) : l.Pairwise (Apart u) := by
  induction l with
  | nil => exact List.Pairwise.nil
  | cons c l ih =>
    have hc := hpos c mem_cons_self
    refine pairwise_cons.mpr ⟨fun d hd => ?_, ih (fun d hd =>
      hpos d (mem_cons_of_mem _ hd)) fun x => ?_⟩
    · have hd' := hpos d (mem_cons_of_mem _ hd)
      by_contra hover
      unfold Apart stop at hover
      push Not at hover
      -- the start of the one that starts later is in both
      have hx := h (max c.start d.start)
      rw [weigh_cons] at hx
      have hone : hasByte u (max c.start d.start) c = 1 := if_pos ⟨le_max_left _ _, by
        unfold stop
        exact max_lt (by omega) (by omega)⟩
      have hother : hasByte u (max c.start d.start) d = 1 := if_pos ⟨le_max_right _ _, by
        unfold stop
        exact max_lt (by omega) (by omega)⟩
      have hle := le_weigh (w := hasByte u (max c.start d.start)) hd
      omega
    · have hx := h x
      rw [weigh_cons] at hx
      omega

/-- **Chunks do not overlap**, however the memory is cut. -/
theorem Recut.pairwise_apart (h : Recut u l l') (hl' : l'.Pairwise (Apart u))
    (hpos : ∀ c ∈ l, 0 < u * c.units) : l.Pairwise (Apart u) :=
  Chunk.pairwise_apart hpos fun x => by
    rw [h _ (additive_hasByte u x)]
    exact weigh_hasByte_le_one hl' x

/-! ## Units -/

/-- Address `x` is that of a unit of the chunk. -/
def HasUnit (u x : ℕ) (c : Chunk) : Prop := ∃ j < c.units, x = c.start + u * j

/-- `1` if `x` is the address of a unit of the chunk. -/
noncomputable def countUnit (u x : ℕ) (c : Chunk) : ℕ :=
  open Classical in if HasUnit u x c then 1 else 0

theorem hasUnit_add :
    HasUnit u x ⟨a, m + n⟩ ↔ HasUnit u x ⟨a, m⟩ ∨ HasUnit u x ⟨a + u * m, n⟩ := by
  constructor
  · rintro ⟨j, hj, rfl⟩
    by_cases hjm : j < m
    · exact Or.inl ⟨j, hjm, rfl⟩
    · refine Or.inr ⟨j - m, by dsimp only at hj ⊢; omega, ?_⟩
      have hsum : u * j = u * m + u * (j - m) := by
        rw [← Nat.mul_add]
        congr 1
        omega
      dsimp only
      omega
  · rintro (⟨j, hj, rfl⟩ | ⟨j, hj, rfl⟩)
    · exact ⟨j, Nat.lt_add_right _ hj, rfl⟩
    · refine ⟨m + j, Nat.add_lt_add_left hj _, ?_⟩
      dsimp only
      rw [Nat.mul_add, Nat.add_assoc]

theorem HasUnit.byte (hu : 0 < u) (h : HasUnit u x c) : c.start ≤ x ∧ x < c.stop u := by
  obtain ⟨j, hj, rfl⟩ := h
  exact ⟨Nat.le_add_right _ _, Nat.add_lt_add_left (Nat.mul_lt_mul_of_pos_left hj hu) _⟩

theorem additive_countUnit (hu : 0 < u) (x : ℕ) : Additive u (countUnit u x) := by
  intro a m n
  unfold countUnit
  by_cases hm : HasUnit u x ⟨a, m⟩
  · have hn : ¬ HasUnit u x ⟨a + u * m, n⟩ := fun hn => by
      have hlt := (hm.byte hu).2
      have hle := (hn.byte hu).1
      unfold stop at hlt
      dsimp only at hlt hle
      omega
    rw [if_pos (hasUnit_add.mpr (Or.inl hm)), if_pos hm, if_neg hn]
  · by_cases hn : HasUnit u x ⟨a + u * m, n⟩
    · rw [if_pos (hasUnit_add.mpr (Or.inr hn)), if_neg hm, if_pos hn]
    · rw [if_neg fun h => (hasUnit_add.mp h).elim hm hn, if_neg hm, if_neg hn]

/-- **Every unit is in exactly one chunk**, however the memory is cut. -/
theorem Recut.existsUnique_hasUnit (hu : 0 < u) (h : Recut u l l') (hl' : l'.Pairwise (Apart u))
    (hx : ∃ c ∈ l', HasUnit u x c) : ∃! c, c ∈ l ∧ HasUnit u x c := by
  obtain ⟨r, hr, hxr⟩ := hx
  have hle : ∀ c, countUnit u x c ≤ hasByte u x c := by
    intro c
    by_cases hc : HasUnit u x c
    · unfold hasByte
      rw [if_pos (hc.byte hu)]
      unfold countUnit
      rw [if_pos hc]
    · unfold countUnit
      rw [if_neg hc]
      exact Nat.zero_le _
  have hone : weigh (countUnit u x) l = 1 := by
    rw [h _ (additive_countUnit hu x)]
    refine Nat.le_antisymm ?_ ?_
    · exact (sum_le_sum fun c _ => hle c).trans (weigh_hasByte_le_one hl' x)
    · have hr' : countUnit u x r = 1 := if_pos hxr
      exact hr'.symm.trans_le (le_weigh hr)
  have hex : ∃ c ∈ l, HasUnit u x c := by
    by_contra hnone
    push Not at hnone
    have hzero : weigh (countUnit u x) l = 0 := by
      refine sum_eq_zero fun k hk => ?_
      obtain ⟨c, hc, rfl⟩ := mem_map.mp hk
      exact if_neg (hnone c hc)
    omega
  obtain ⟨c, hc, hxc⟩ := hex
  refine ⟨c, ⟨hc, hxc⟩, fun d ⟨hd, hxd⟩ => ?_⟩
  by_contra hne
  have hsum := add_le_weigh (w := countUnit u x) hd hc hne
  have hc' : countUnit u x c = 1 := if_pos hxc
  have hd' : countUnit u x d = 1 := if_pos hxd
  omega

end Chunk
