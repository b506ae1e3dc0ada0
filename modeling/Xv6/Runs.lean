/-
# Runs of a partial step function

A machine is a partial function `step : σ → α → Option σ`: `step s a` is the state after
the action `a`, and `none` when `a` is not enabled in `s`.  A run folds `step` over a list
of actions.  Induction rules are proved here, one for each shape of safety argument:

* an invariant of the state (`run_invariant`);
* an invariant that relates the state to the actions taken so far (`run_history`);
* an invariant of either kind kept by the steps that meet a side condition
  (`run_invariant_of_meets`, `run_history_of_meets`);
* a machine that stops at the first step that does not meet the condition
  (`run_not_bad_iff_meets`).
-/
import Mathlib

open List

namespace Runs

variable {σ α : Type*}

/-- The state after a list of actions; `none` when one of them was not enabled. -/
def run (step : σ → α → Option σ) : σ → List α → Option σ
  | s, [] => some s
  | s, a :: as => (step s a).bind fun s' => run step s' as

variable {step : σ → α → Option σ}

@[simp] theorem run_nil (s : σ) : run step s [] = some s := rfl

theorem run_cons (s : σ) (a : α) (as : List α) :
    run step s (a :: as) = (step s a).bind fun s' => run step s' as := rfl

variable {as : List α}

/-- A run starts with its first action. -/
theorem run_cons_eq_some {s s'' : σ} {a : α} :
    run step s (a :: as) = some s'' ↔ ∃ s', step s a = some s' ∧ run step s' as = some s'' := by
  rw [run_cons, Option.bind_eq_some_iff]

/-- Runs compose. -/
theorem run_append (s : σ) (as bs : List α) :
    run step s (as ++ bs) = (run step s as).bind fun s' => run step s' bs := by
  induction as generalizing s with
  | nil => rfl
  | cons a as ih =>
    rw [cons_append, run_cons, run_cons]
    cases step s a with
    | none => rfl
    | some s' => exact ih s'

theorem run_append_eq_some {s s'' : σ} {as bs : List α} :
    run step s (as ++ bs) = some s'' ↔
      ∃ s', run step s as = some s' ∧ run step s' bs = some s'' := by
  rw [run_append, Option.bind_eq_some_iff]

variable {s s' : σ}

/-- **State invariants.**  What every enabled step preserves, every run preserves. -/
theorem run_invariant {I : σ → Prop} (hstep : ∀ s a s', step s a = some s' → I s → I s')
    (hrun : run step s as = some s') (h : I s) : I s' := by
  induction as generalizing s with
  | nil =>
    cases hrun
    exact h
  | cons a as ih =>
    obtain ⟨t, ht, hrest⟩ := run_cons_eq_some.mp hrun
    exact ih hrest (hstep s a t ht h)

/-- **History invariants.**  The invariant may mention the actions taken so far: it is
extended on the right by one action at a time. -/
theorem run_history {I : List α → σ → Prop}
    (hstep : ∀ past s a s', step s a = some s' → I past s → I (past ++ [a]) s')
    (hrun : run step s as = some s') (h : I [] s) : I as s' := by
  suffices hpast : ∀ (as past : List α) (s : σ), run step s as = some s' → I past s →
      I (past ++ as) s' from hpast as [] s hrun h
  intro as
  induction as with
  | nil =>
    intro past s hrun h
    cases hrun
    simpa using h
  | cons a as ih =>
    intro past s hrun h
    obtain ⟨t, ht, hrest⟩ := run_cons_eq_some.mp hrun
    have hnext := ih (past ++ [a]) t hrest (hstep past s a t ht h)
    rwa [append_assoc, singleton_append] at hnext

/-- Every action of the run meets `Good` in the state in which it is taken. -/
def Meets (step : σ → α → Option σ) (Good : σ → α → Prop) : σ → List α → Prop
  | _, [] => True
  | s, a :: as => Good s a ∧ ∀ s', step s a = some s' → Meets step Good s' as

variable {Good : σ → α → Prop}

/-- **Invariants under a side condition.**  An invariant that the steps meeting `Good`
preserve holds after every run whose steps all meet it. -/
theorem run_invariant_of_meets {I : σ → Prop}
    (hstep : ∀ s a s', step s a = some s' → Good s a → I s → I s') (hrun : run step s as = some s')
    (hgood : Meets step Good s as) (h : I s) : I s' := by
  induction as generalizing s with
  | nil =>
    cases hrun
    exact h
  | cons a as ih =>
    obtain ⟨t, ht, hrest⟩ := run_cons_eq_some.mp hrun
    exact ih hrest (hgood.2 t ht) (hstep s a t ht hgood.1 h)

theorem meets_cons {a : α} (h : step s a = some s') :
    Meets step Good s (a :: as) ↔ Good s a ∧ Meets step Good s' as :=
  and_congr_right fun _ => ⟨fun hall => hall s' h, fun hm _ ht => Option.some.inj (h.symm.trans ht) ▸ hm⟩

/-- **Exact side conditions.**  If a step leads to a bad state exactly when it does not meet `Good`,
and a bad state takes no step, then a run ends in no bad state exactly when all its steps meet
`Good`. -/
theorem run_not_bad_iff_meets {I B : σ → Prop}
    (hstep : ∀ s a s', step s a = some s' → I s → (B s' ↔ ¬ Good s a) ∧ (Good s a → I s'))
    (hstuck : ∀ s a, B s → step s a = none) (hrun : run step s as = some s') (h : I s) (hs : ¬ B s) :
    ¬ B s' ↔ Meets step Good s as := by
  induction as generalizing s with
  | nil =>
    cases hrun
    exact iff_of_true hs trivial
  | cons a as ih =>
    obtain ⟨t, ht, hrest⟩ := run_cons_eq_some.mp hrun
    obtain ⟨hbad, hkeep⟩ := hstep s a t ht h
    rw [meets_cons ht]
    by_cases hgood : Good s a
    · rw [and_iff_right hgood]
      exact ih hrest (hkeep hgood) fun hb => hbad.mp hb hgood
    · have hb := hbad.mpr hgood
      refine iff_of_false (fun hnot => hnot ?_) fun hm => hgood hm.1
      -- the run ends in the bad state
      cases as with
      | nil =>
        cases hrest
        exact hb
      | cons a' as =>
        obtain ⟨u, hu, -⟩ := run_cons_eq_some.mp hrest
        rw [hstuck t a' hb] at hu
        cases hu

/-- The condition is met along a run exactly when it is met along both of its parts. -/
theorem meets_append {as bs : List α} (hrun : run step s as = some s') :
    Meets step Good s (as ++ bs) ↔ Meets step Good s as ∧ Meets step Good s' bs := by
  induction as generalizing s with
  | nil =>
    cases hrun
    exact ⟨fun h => ⟨trivial, h⟩, fun h => h.2⟩
  | cons a as ih =>
    obtain ⟨t, ht, hrest⟩ := run_cons_eq_some.mp hrun
    rw [cons_append, meets_cons ht, meets_cons ht, ih hrest, and_assoc]

/-- **History invariants under a side condition.**  The step may use that the actions taken so far
lead to the state. -/
theorem run_history_of_meets {s₀ : σ} {I : List α → σ → Prop}
    (hstep : ∀ past s a s', run step s₀ past = some s → step s a = some s' → Good s a → I past s →
      I (past ++ [a]) s') {s : σ} (hrun : run step s₀ as = some s) (hgood : Meets step Good s₀ as)
    (h : I [] s₀) : I as s := by
  induction as using reverseRecOn generalizing s with
  | nil =>
    cases hrun
    exact h
  | append_singleton as a ih =>
    obtain ⟨t, ht, hlast⟩ := run_append_eq_some.mp hrun
    obtain ⟨hpast, hgood⟩ := (meets_append ht).mp hgood
    obtain ⟨s', hs', hnil⟩ := run_cons_eq_some.mp hlast
    cases hnil
    exact hstep as t a s ht hs' hgood.1 (ih ht hpast)

end Runs
