/-
# Which buffer `bget` recycles

`brelse` puts a buffer to the front of the list when nobody refers to it any more, and `bget` looks from
the end for one to recycle.  A `History` keeps, beside the cache, the step at which the count of each
buffer last went to 0.  Whatever buffers are held, released or dirty in between, the list is in the order
of these steps (`Ordered`), so that the buffer which is recycled is the one used least recently.
-/
import Xv6.Bcache

open Function List Option

namespace Bcache

variable {P : Type}

/-- The buffer has the block. -/
abbrev State.Has (s : State P) (dev blockno : ℕ) (b : Fin NBUF) : Prop :=
  (s.buf b).dev = dev ∧ (s.buf b).blockno = blockno

/-- The buffer can be recycled. -/
abbrev State.Free (s : State P) (b : Fin NBUF) : Prop := (s.buf b).refcnt = 0 ∧ (s.buf b).dirty = false

/-- The cache, the number of steps so far, and the last step that took the count of each buffer to 0;
`0` for a buffer that was never used. -/
structure History (P : Type) where
  state : State P
  now : ℕ
  zeroed : Fin NBUF → ℕ

namespace History

def binit (disk : ℕ → ℕ → Block) : History P := ⟨.binit disk, 0, fun _ => 0⟩

/-- The last uses after a step to `s`. -/
def next (h : History P) (s : State P) (b : Fin NBUF) : ℕ :=
  if 0 < (h.state.buf b).refcnt ∧ (s.buf b).refcnt = 0 then h.now + 1 else h.zeroed b

variable [DecidableEq P]

def step (h : History P) (e : Event P) : Option (History P) :=
  (h.state.stepAny e).map fun s => ⟨s, h.now + 1, h.next s⟩

/-- The history follows the cache. -/
theorem run_state (h : History P) (events : List (Event P)) :
    (Runs.run step h events).map state = Runs.run State.stepAny h.state events := by
  induction events generalizing h with
  | nil => rfl
  | cons e events ih =>
    rw [Runs.run_cons, Runs.run_cons, step]
    cases h.state.stepAny e with
    | none => rfl
    | some s => exact ih _

variable {h h' : History P}

/-- The first buffer was used later than the second, or neither was used. -/
def Later (z : Fin NBUF → ℕ) (b b' : Fin NBUF) : Prop := z b' < z b ∨ z b = 0 ∧ z b' = 0

/-- **The list is in the order of last use**, the latest first. -/
structure Ordered (h : History P) : Prop where
  counted : h.state.Counted
  past : ∀ b, h.zeroed b ≤ h.now
  ring : ∃ l : List (Fin NBUF), Ring.Contents h.state.links none (l.map some) ∧ (∀ b, b ∈ l) ∧
    l.Pairwise (Later h.zeroed)

omit [DecidableEq P] in
theorem ordered_binit (disk : ℕ → ℕ → Block) : (binit disk : History P).Ordered where
  counted := (State.inv_binit disk).counted
  past := fun _ => le_rfl
  ring := by
    obtain ⟨l, hring, hall⟩ := (State.inv_binit disk : (State.binit disk : State P).Inv).ring
    exact ⟨l, hring, hall, pairwise_of_forall fun _ _ => .inr ⟨rfl, rfl⟩⟩

/-- Every step keeps the order. -/
theorem Ordered.step {e : Event P} (ho : h.Ordered) (hstep : h.step e = some h') : h'.Ordered := by
  obtain ⟨s, hs, rfl⟩ := map_eq_some_iff.mp hstep
  obtain ⟨l, hring, hall, hsorted⟩ := ho.ring
  have hsteps := ho.counted.steps hs
  refine ⟨ho.counted.step hsteps, fun b => ?_, ?_⟩
  · have := ho.past b
    show h.next s b ≤ h.now + 1
    unfold next
    split <;> omega
  obtain ⟨hlinks, hnone⟩ | ⟨b, hzero, hothers, hlinks⟩ := hsteps.links ho.counted
  · refine ⟨l, hlinks ▸ hring, hall, hsorted.imp fun {x y} hxy => ?_⟩
    have hsame : ∀ b', h.next s b' = h.zeroed b' := fun b' => if_neg (hnone b')
    simpa only [Later, hsame] using hxy
  · have hkept : ∀ b', b' ≠ b → h.next s b' = h.zeroed b' := by
      intro b' hb'
      rw [next, hothers b' hb', if_neg (by omega)]
    obtain ⟨l₁, l₂, rfl⟩ := append_of_mem (hall b)
    have hnodup : (l₁ ++ b :: l₂).Nodup := .of_map some (nodup_cons.mp hring.nodup).2
    rw [map_append, map_cons] at hring
    have hmem : ∀ b', b' ∈ b :: (l₁ ++ l₂) := fun b' => by simpa [or_left_comm] using hall b'
    have hb : ∀ b' ∈ l₁ ++ l₂, b' ≠ b := by
      rintro b' hb' rfl
      exact (nodup_cons.mp (perm_middle.nodup_iff.mp hnodup)).1 hb'
    refine ⟨b :: (l₁ ++ l₂), ?_, hmem, pairwise_cons.mpr ⟨fun b' hb' => .inl ?_, ?_⟩⟩
    · rw [hlinks, map_cons, map_append]
      exact hring.moveToFront
    · show h.next s b' < h.next s b
      rw [hkept b' (hb b' hb'), next, if_pos hzero]
      exact Nat.lt_succ_of_le (ho.past b')
    · refine (hsorted.sublist (Sublist.append_left (sublist_cons_self b l₂) l₁)).imp_of_mem fun hx hy hxy => ?_
      simpa only [Later, hkept _ (hb _ hx), hkept _ (hb _ hy)] using hxy

/-- `b` is free, and of all free buffers its last use is the oldest. -/
def Oldest (h : History P) (b : Fin NBUF) : Prop :=
  h.state.Free b ∧ ∀ b', b' ≠ b → h.state.Free b' → Later h.zeroed b' b

omit [DecidableEq P] in
/-- The second loop finds the buffer that is used least recently. -/
theorem Ordered.oldest (ho : h.Ordered) {b : Fin NBUF} (hb : h.state.unused = some (some b)) : h.Oldest b := by
  obtain ⟨l, hring, hall, hsorted⟩ := ho.ring
  rw [State.unused_eq hring] at hb
  obtain ⟨_, hfind, heq⟩ := map_eq_some_iff.mp hb
  cases heq
  obtain ⟨hfree, l₁, l₂, hl, hbefore⟩ := find?_eq_some_iff_append.mp hfind
  rw [← pairwise_reverse, hl, pairwise_append, pairwise_cons] at hsorted
  refine ⟨by simpa using hfree, fun b' hne hfree' => ?_⟩
  have hmem : b' ∈ l₁ ++ b :: l₂ := hl ▸ mem_reverse.mpr (hall b')
  rw [mem_append, mem_cons] at hmem
  obtain hmem | heq | hmem := hmem
  · simpa [hfree'] using hbefore b' hmem
  · exact absurd heq hne
  · exact hsorted.2.1.1 b' hmem

/-- What `bget` does for a block: it finds the block, recycles the oldest free buffer, or panics. -/
inductive Got (h : History P) (p : P) (dev blockno : ℕ) : Option (State P) → Prop
  | hit {b : Fin NBUF} {s : State P} (hhas : h.state.Has dev blockno b) (huse : s.use p = .waiting b)
      (hsame : ∀ b, State.SameBlock h.state s b) (hlinks : s.links = h.state.links) : Got h p dev blockno (some s)
  | miss {b : Fin NBUF} {s : State P} (hnot : ∀ b, ¬ h.state.Has dev blockno b) (hold : h.Oldest b)
      (huse : s.use p = .waiting b) (hhas : s.Has dev blockno b) : Got h p dev blockno (some s)
  | panic (hnot : ∀ b, ¬ h.state.Has dev blockno b) (hnone : ∀ b, ¬ h.state.Free b) : Got h p dev blockno none

/-- **Replacement is least-recently-used**, after every history of the cache. -/
theorem bget_least_recently_used {disk : ℕ → ℕ → Block} {events : List (Event P)} {s : State P}
    (hrun : Runs.run State.stepAny (.binit disk) events = some s) :
    ∃ h, Runs.run step (binit disk) events = some h ∧ h.state = s ∧
      ∀ p dev blockno, h.Got p dev blockno (s.bget p dev blockno) := by
  rw [show State.binit disk = (binit disk : History P).state from rfl, ← run_state] at hrun
  obtain ⟨h, hh, rfl⟩ := map_eq_some_iff.mp hrun
  have ho : h.Ordered := Runs.run_invariant (fun _ _ _ hs ho => ho.step hs) hh (ordered_binit disk)
  refine ⟨h, hh, rfl, fun p dev blockno => ?_⟩
  unfold State.bget
  obtain ⟨b, hcached, hb⟩ | ⟨hcached, hnot⟩ := ho.counted.cached dev blockno
  · rw [hcached]
    refine .hit hb (by simp) (fun b' => ?_) rfl
    by_cases hb' : b' = b
    · simp [State.SameBlock, hb']
    · simp [State.SameBlock, hb']
  · rw [hcached]
    obtain ⟨b, hunused, -⟩ | ⟨hunused, hnone⟩ := ho.counted.unused
    · rw [hunused]
      exact .miss hnot (ho.oldest hunused) (by simp) (by simp [State.Has])
    · rw [hunused]
      exact .panic hnot hnone

/-- A block of device 0 is read and released, and then one of device 1 is looked for. -/
def twoDevices : List (Event ℕ) := [.bget 0 0 3, .lock 0, .fill 0, .unlock 0, .put 0, .bget 1 1 7]

theorem isSome_twoDevices : (Runs.run State.stepAny (.binit fun _ _ _ => 0) twoDevices).isSome = true := by
  decide +kernel

theorem bget_least_recently_used_twoDevices : ∃ s h,
    Runs.run State.stepAny (.binit fun _ _ _ => 0) twoDevices = some s ∧
    Runs.run step (binit fun _ _ _ => 0) twoDevices = some h ∧ h.state = s ∧
      ∀ p dev blockno, h.Got p dev blockno (s.bget p dev blockno) :=
  have hrun := (some_get isSome_twoDevices).symm
  have ⟨h, hh, hs⟩ := bget_least_recently_used hrun
  ⟨_, h, hrun, hh, hs⟩

end History

end Bcache
