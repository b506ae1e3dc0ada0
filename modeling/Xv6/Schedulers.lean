/-
# What the schedulers select

With `FIFO` and `PRIORITY` the scheduler goes through the whole table before it runs a process.  Both loops are
the same but for the field that they compare.
-/
import Xv6.FifoPosition
import Xv6.ProcAccounts
import Xv6.Selection

open List

variable {C κ : Type} [LinearOrder κ]

namespace ProcTable.State

/-- The loop of a scheduler that looks for the least `key`. -/
def selectedBy (s : ProcTable.State C) (key : Slot → κ) : Option Slot :=
  (finRange NPROC).foldl (Selection.select (fun p => (s.proc p).state = .runnable) key) none

/-- What comes first: the least `key` among the runnable processes, and the first entry of several. -/
def First (s : ProcTable.State C) (key : Slot → κ) : Option Slot → Prop
  | none => ∀ p, (s.proc p).state ≠ .runnable
  | some q => (s.proc q).state = .runnable ∧
      ∀ p, (s.proc p).state = .runnable → p = q ∨ key q < key p ∨ key q = key p ∧ q < p

theorem selectedBy_eq_iff (s : ProcTable.State C) (key : Slot → κ) (o : Option Slot) :
    s.selectedBy key = o ↔ s.First key o := by
  rw [selectedBy, Selection.foldl_eq_iff (pairwise_lt_finRange NPROC)]
  cases o with
  | none => simp [Selection.Selected, First]
  | some q =>
    simp only [Selection.Selected, First, mem_finRange, true_and, forall_const, Prod.Lex.toLex_le_toLex]
    refine and_congr_right fun _ => forall₂_congr fun p _ => ?_
    grind

end ProcTable.State

/-- The process that the FIFO scheduler runs next. -/
def FifoPosition.State.selected (s : FifoPosition.State C) : Option ProcTable.Slot :=
  s.table.selectedBy s.creation_time

/-- The process that the PRIORITY scheduler runs next. -/
def ProcAccounts.State.selected (s : ProcAccounts.State C) : Option ProcTable.Slot := s.table.selectedBy s.priority

/-- **The two schedulers run the first process** by its creation time or its priority, whenever there is one. -/
theorem ProcTable.schedulers_select (f : FifoPosition.State C) (a : ProcAccounts.State C)
    (o : Option Slot) :
    (f.selected = o ↔ f.table.First f.creation_time o) ∧ (a.selected = o ↔ a.table.First a.priority o) :=
  ⟨f.table.selectedBy_eq_iff f.creation_time o, a.table.selectedBy_eq_iff a.priority o⟩
