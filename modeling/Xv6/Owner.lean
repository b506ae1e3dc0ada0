/-
# Who has a lock

A lock is recorded twice: by its owner, and by the places at which a process has it.  The two records
agree as long as a process that comes to such a place took the lock while it was free, or had it already.

Nothing here is about a particular lock.
-/
import Mathlib

namespace Owner

variable {P : Type*} {p : P} {o o' : Option P} {has has' : P → Bool}

/-- **One process moves**, and takes the lock or gives it back. -/
theorem move (h : ∀ q, o = some q ↔ has q = true) (hne : ∀ q, q ≠ p → has' q = has q)
    (ho : o' = if has' p then some p else if has p then none else o)
    (hfree : has' p = true → has p = true ∨ o = none) (q : P) : o' = some q ↔ has' q = true := by
  subst ho
  by_cases hp' : has' p = true
  · rw [if_pos hp', Option.some_inj]
    refine ⟨fun heq => by rwa [← heq], fun hq => ?_⟩
    by_contra hqp
    rw [hne q (Ne.symm hqp), ← h] at hq
    -- the owner before was `q`, so `p` neither had the lock nor found it free
    obtain hp | hnone := hfree hp'
    · exact hqp (Option.some.inj (((h p).mpr hp).symm.trans hq))
    · rw [hq] at hnone
      cases hnone
  · rw [if_neg hp']
    by_cases hqp : q = p
    · subst hqp
      refine iff_of_false (fun heq => ?_) hp'
      split at heq
      · cases heq
      next hp => exact hp ((h q).mp heq)
    · rw [hne q hqp, ← h q]
      split
      next hp =>
        rw [(h p).mpr hp, Option.some_inj]
        exact iff_of_false nofun fun heq => hqp heq.symm
      next => exact Iff.rfl

end Owner
