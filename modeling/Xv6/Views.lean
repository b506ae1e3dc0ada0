/-
# Memory seen through translations

Several parties write to one memory, each through a translation of its own from addresses to places.  A place that
only one of them can reach holds what that party has written there, whatever the others do in between.

Nothing here is about a particular memory.
-/
import Mathlib

open Function

namespace Views

variable {I A P V : Type*} [DecidableEq I] [DecidableEq P]

/-- A write through a translation; an address without a place is ignored. -/
def write (place : A → Option P) (m : P → V) (a : A) (v : V) : P → V :=
  match place a with
  | some p => update m p v
  | none => m

/-- Writes of several parties, one after the other. -/
def writes (place : I → A → Option P) (m : P → V) (ws : List (I × A × V)) : P → V :=
  ws.foldl (fun m w => write (place w.1) m w.2.1 w.2.2) m

theorem write_congr {place : A → Option P} {m m' : P → V} {p : P} (h : m p = m' p) (a : A) (v : V) :
    write place m a v p = write place m' a v p := by
  unfold write
  cases place a with
  | none => exact h
  | some q =>
    show update m q v p = update m' q v p
    by_cases hp : p = q
    · rw [hp, update_self, update_self]
    · rw [update_of_ne hp, update_of_ne hp, h]

/-- A write through a translation that does not reach the place. -/
theorem write_of_ne {place : A → Option P} {a : A} {p : P} (h : place a ≠ some p) (m : P → V) (v : V) :
    write place m a v p = m p := by
  unfold write
  cases hq : place a with
  | none => rfl
  | some q =>
    refine update_of_ne ?_ _ _
    rintro rfl
    exact h hq

/-- **A place that only one party reaches** holds what it would hold without the others. -/
theorem writes_own {place : I → A → Option P} {i : I} {p : P} (hown : ∀ j, j ≠ i → ∀ a, place j a ≠ some p)
    (ws : List (I × A × V)) : ∀ {m m' : P → V}, m p = m' p →
    writes place m ws p = writes place m' (ws.filter fun w => w.1 = i) p := by
  induction ws with
  | nil => exact fun h => h
  | cons w ws ih =>
    intro m m' h
    by_cases hw : w.1 = i
    · rw [List.filter_cons_of_pos (by simpa using hw)]
      exact ih (write_congr h _ _)
    · rw [List.filter_cons_of_neg (by simpa using hw)]
      exact ih ((write_of_ne (hown _ hw _) _ _).trans h)

end Views
