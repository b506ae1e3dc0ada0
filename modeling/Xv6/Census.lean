/-
# Counting those who meet a condition

A counter that a program keeps by `++` and `--` is right when it equals the number of the agents that
meet some condition: the processes in an operation, the references to a buffer, the descriptors of a
file.  The agents may be infinitely many; those counted are finitely many.  One agent changes at a
time, so the counter moves by at most one.
-/
import Mathlib

open Finset

/-- Exactly `n` agents meet the condition. -/
def Census {P : Type*} (Q : P → Prop) (n : ℕ) : Prop :=
  ∃ S : Finset P, (∀ p, p ∈ S ↔ Q p) ∧ S.card = n

namespace Census

variable {P : Type*} {Q Q' : P → Prop} {n m : ℕ} {p : P}

/-- Nobody meets a condition that cannot be met. -/
theorem of_not (h : ∀ p, ¬ Q p) : Census Q 0 := ⟨∅, fun p => by simp [h p], rfl⟩

theorem congr (h : Census Q n) (hiff : ∀ p, Q' p ↔ Q p) : Census Q' n := by
  obtain ⟨S, hS, hcard⟩ := h
  exact ⟨S, fun p => (hS p).trans (hiff p).symm, hcard⟩

theorem pos (h : Census Q n) (hp : Q p) : 0 < n := by
  obtain ⟨S, hS, rfl⟩ := h
  exact card_pos.mpr ⟨p, (hS p).mpr hp⟩

theorem not_of_zero (h : Census Q 0) : ¬ Q p := fun hp => absurd (h.pos hp) (lt_irrefl 0)

theorem exists_of_pos (h : Census Q n) (hn : 0 < n) : ∃ p, Q p := by
  obtain ⟨S, hS, rfl⟩ := h
  obtain ⟨p, hp⟩ := card_pos.mp hn
  exact ⟨p, (hS p).mp hp⟩

/-- One more agent meets the condition. -/
theorem enter (h : Census Q n) (hp : ¬ Q p) (hp' : Q' p) (hrest : ∀ q, q ≠ p → (Q' q ↔ Q q)) :
    Census Q' (n + 1) := by
  classical
  obtain ⟨S, hS, rfl⟩ := h
  refine ⟨insert p S, fun q => ?_, card_insert_of_notMem fun hmem => hp ((hS p).mp hmem)⟩
  by_cases hq : q = p
  · simp [hq, hp']
  · rw [mem_insert, or_iff_right hq, hS, hrest q hq]

/-- One agent less meets the condition. -/
theorem leave (h : Census Q n) (hp : Q p) (hp' : ¬ Q' p) (hrest : ∀ q, q ≠ p → (Q' q ↔ Q q)) :
    Census Q' (n - 1) := by
  classical
  obtain ⟨S, hS, rfl⟩ := h
  refine ⟨S.erase p, fun q => ?_, card_erase_of_mem ((hS p).mpr hp)⟩
  by_cases hq : q = p
  · simp [hq, hp']
  · rw [mem_erase, and_iff_right hq, hS, hrest q hq]

/-- One agent changes, and it meets the condition after it if and only if it did before. -/
theorem stay (h : Census Q n) (hp : Q' p ↔ Q p) (hrest : ∀ q, q ≠ p → (Q' q ↔ Q q)) :
    Census Q' n := by
  refine h.congr fun q => ?_
  by_cases hq : q = p
  · rw [hq, hp]
  · exact hrest q hq

/-- **Pointers.**  Every agent points to at most one object.  When one agent changes what it points to,
the number of those that point to an object moves accordingly. -/
theorem repoint {A : Type*} [DecidableEq A] {T U : P → Option A} {a : A}
    (h : Census (fun q => T q = some a) n) (hrest : ∀ q, q ≠ p → U q = T q) :
    ∃ m : ℕ, Census (fun q => U q = some a) m ∧
      (m : ℤ) = n - (if T p = some a then 1 else 0) + if U p = some a then 1 else 0 := by
  have hrest' : ∀ q, q ≠ p → (U q = some a ↔ T q = some a) := fun q hq => by rw [hrest q hq]
  by_cases ha : T p = some a <;> by_cases hb : U p = some a
  · exact ⟨n, h.stay (iff_of_true hb ha) hrest', by simp [ha, hb]⟩
  · have hpos : 1 ≤ n := h.pos ha
    exact ⟨n - 1, h.leave ha hb hrest', by simp [ha, hb, Nat.cast_sub hpos]⟩
  · exact ⟨n + 1, h.enter ha hb hrest', by simp [ha, hb]⟩
  · exact ⟨n, h.stay (iff_of_false hb ha) hrest', by simp [ha, hb]⟩

/-- Agents of two kinds are counted separately. -/
theorem sum {P' : Type*} {Q : P ⊕ P' → Prop} (h : Census Q n) :
    ∃ m m', n = m + m' ∧ Census (fun p => Q (.inl p)) m ∧ Census (fun p => Q (.inr p)) m' := by
  obtain ⟨S, hS, rfl⟩ := h
  refine ⟨S.toLeft.card, S.toRight.card, (card_toLeft_add_card_toRight).symm,
    ⟨S.toLeft, fun p => ?_, rfl⟩, ⟨S.toRight, fun p => ?_, rfl⟩⟩
  · rw [mem_toLeft, hS]
  · rw [mem_toRight, hS]

end Census

/-! ## Counters of references -/

section Counts

variable {P A : Type*} [DecidableEq A] {ref ref' h : A → ℤ} {T U : P → Option A} {p : P} {a : A}

/-- One for what is pointed to. -/
def pointed (a : Option A) : A → ℤ := fun i => if a = some i then 1 else 0

@[simp] theorem pointed_none : pointed (none : Option A) = 0 := by
  funext i
  simp [pointed]

@[simp] theorem pointed_some (i : A) : pointed (some i) = Pi.single i 1 := by
  funext j
  simp only [pointed, Option.some.injEq, Pi.single_apply, eq_comm]

omit [DecidableEq A] in
/-- **The counters** count the agents that point to an object, and what else is held. -/
def Counts (ref h : A → ℤ) (T : P → Option A) : Prop :=
  ∀ a, ∃ n : ℕ, ref a = n + h a ∧ Census (fun q => T q = some a) n

namespace Counts

/-- An agent points elsewhere; the difference is held. -/
theorem repoint (hc : Counts ref h T) (hrest : ∀ q, q ≠ p → U q = T q) :
    Counts ref (h + pointed (T p) - pointed (U p)) U := by
  intro a
  obtain ⟨n, hn, hcensus⟩ := hc a
  obtain ⟨m, hm, hmn⟩ := hcensus.repoint hrest
  refine ⟨m, ?_, hm⟩
  rw [hn, hmn]
  simp only [Pi.add_apply, Pi.sub_apply, pointed]
  ring

/-- A counter changes, and what is held with it. -/
theorem shift {d : ℤ} (hc : Counts ref h T) (hself : ref' a = ref a + d)
    (hother : ∀ b, b ≠ a → ref' b = ref b) : Counts ref' (h + Pi.single a d) T := by
  intro b
  obtain ⟨n, hn, hcensus⟩ := hc b
  refine ⟨n, ?_, hcensus⟩
  by_cases hb : b = a
  · subst hb
    rw [hself, hn, Pi.add_apply, Pi.single_eq_same]
    ring
  · rw [hother b hb, hn, Pi.add_apply, Pi.single_eq_of_ne hb, add_zero]

end Counts

end Counts
