/-
# The first of the least

A loop over an increasing list keeps the candidate with the least key that it has met, and the first of several.

Nothing here is about particular candidates.
-/
import Mathlib

open List

namespace Selection

variable {α κ : Type*} [LinearOrder α] [LinearOrder κ] (ok : α → Prop) [DecidablePred ok] (key : α → κ)

/-- One round of the loop. -/
def select (selected : Option α) (a : α) : Option α :=
  if ok a then
    match selected with
    | none => some a
    | some b => if key a < key b then some a else some b
  else selected

/-- What is selected: of the candidates in `l` the first by its key, then by its place. -/
def Selected (l : List α) : Option α → Prop
  | none => ∀ a ∈ l, ¬ ok a
  | some b => (b ∈ l ∧ ok b) ∧ ∀ a ∈ l, ok a → toLex (key b, b) ≤ toLex (key a, a)

variable {ok key} {l : List α} {o o' : Option α}

omit [DecidablePred ok] in
theorem Selected.unique (h : Selected ok key l o) (h' : Selected ok key l o') : o = o' := by
  cases o with
  | none =>
    cases o' with
    | none => rfl
    | some b => exact absurd h'.1.2 (h b h'.1.1)
  | some a =>
    cases o' with
    | none => exact absurd h.1.2 (h' a h.1.1)
    | some b =>
      have heq := (h.2 b h'.1.1 h'.1.2).antisymm (h'.2 a h.1.1 h.1.2)
      rw [(Prod.mk.inj (toLex.injective heq)).2]

theorem selected_foldl (hl : l.Pairwise (· < ·)) : Selected ok key l (l.foldl (select ok key) none) := by
  -- from the end of the list: what the last round makes of the selection from the others
  induction l using reverseRecOn with
  | nil => nofun
  | append_singleton l a ih =>
    obtain ⟨hl, -, hla⟩ := pairwise_append.mp hl
    rw [foldl_concat]
    specialize ih hl
    generalize l.foldl (select ok key) none = selected at ih
    unfold select
    cases selected with
    | none => grind [Selected]
    | some b =>
      have hba := hla b ih.1.1 a (mem_singleton_self a)
      simp only [Selected, Prod.Lex.toLex_le_toLex] at *
      split_ifs <;> grind

/-- **The loop selects the first of the least.** -/
theorem foldl_eq_iff (hl : l.Pairwise (· < ·)) : l.foldl (select ok key) none = o ↔ Selected ok key l o :=
  ⟨fun h => h ▸ selected_foldl hl, (selected_foldl hl).unique⟩

end Selection
