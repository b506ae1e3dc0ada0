/-
# The protocol of `begin_op`, `log_write` and `end_op`

The critical sections of `log.lock` for any number of processes, each of which alternates `begin_op`
and `end_op` and calls `log_write` in between.  What `commit` writes to the disk is the subject of
`Log`; here it is a stretch of time with the lock released at whose end the header is empty.

`log_write` makes its two checks before it acquires the lock, so that other processes may add
blocks between its checks and its own critical section.
-/
import Xv6.Log

open Function Option Finset

namespace LogProtocol

/-! ## State -/

/-- Where a process is. -/
inductive Pc where
  /-- outside of an operation -/
  | out
  /-- `SLEEPING` in `begin_op` -/
  | asleep
  /-- woken up in `begin_op`, before it has the lock again -/
  | woken
  /-- between `begin_op` and `end_op` -/
  | inOp
  /-- in `log_write`, after the checks -/
  | checked (b : ℕ)
  /-- in `commit()` -/
  | commit
  /-- in `end_op`, after `commit()` -/
  | committed
deriving DecidableEq

/-- The panics of `log_write` and `end_op`. -/
inductive Panic where
  /-- "too big a transaction" -/
  | tooBig
  /-- "log_write outside of trans" -/
  | outside
  /-- "log.committing" -/
  | committing
deriving DecidableEq

/-- `struct log` and the processes.  `group` and `mine` record the blocks that have been logged since
the last commit, and by each process in its operation. -/
structure State (P : Type) where
  log : Log
  pc : P → Pc
  panicked : Option Panic
  group : Finset ℕ
  mine : P → Finset ℕ

/-- The steps: critical sections of the lock, the checks of `log_write`, and `commit`. -/
inductive Event (P : Type) where
  /-- `p` calls `begin_op`. -/
  | begin (p : P)
  /-- `p` goes on in the loop of `begin_op`. -/
  | retry (p : P)
  /-- `kill` wakes `p` up. -/
  | kill (p : P)
  /-- `p` calls `log_write` for block `b`. -/
  | check (p : P) (b : ℕ)
  /-- The critical section of `log_write`. -/
  | append (p : P)
  /-- `p` calls `end_op`. -/
  | finish (p : P)
  /-- `commit()` of `p` is done. -/
  | commit (p : P)
  /-- The second critical section of `end_op`. -/
  | leave (p : P)

variable {P : Type}

namespace State

/-- After `initlog` with a log area of `size` blocks. -/
def init (size : ℕ) : State P :=
  ⟨⟨0, size, 0, false, []⟩, fun _ => .out, none, ∅, fun _ => ∅⟩

/-- `wakeup(&log)`. -/
def wakeAll (pc : P → Pc) : P → Pc := fun q => if pc q = .asleep then .woken else pc q

variable [DecidableEq P]

/-- `p` goes to `pc`. -/
def goto (s : State P) (p : P) (pc : Pc) : State P :=
  { s with pc := update s.pc p pc }

@[simp, grind =] theorem goto_pc (s : State P) (p q : P) (pc : Pc) :
    (s.goto p pc).pc q = if q = p then pc else s.pc q := by
  simp [goto, update_apply]

/-- One round of the loop of `begin_op`. -/
def beginOp (s : State P) (p : P) : State P :=
  if s.log.committing then s.goto p .asleep
  else if s.log.lh.length + (s.log.outstanding + 1) * MAXOPBLOCKS > LOGSIZE then s.goto p .asleep
  else
    { s with
      log := { s.log with outstanding := s.log.outstanding + 1 }
      mine := update s.mine p ∅ }.goto p .inOp

/-- The checks of `log_write`. -/
def check (s : State P) (p : P) (b : ℕ) : State P :=
  if s.log.lh.length ≥ LOGSIZE ∨ s.log.lh.length + 1 ≥ s.log.size then
    { s with panicked := some .tooBig }
  else if s.log.outstanding < 1 then { s with panicked := some .outside }
  else s.goto p (.checked b)

/-- The critical section of `log_write`: the header absorbs a block that it already holds. -/
def append (s : State P) (p : P) (b : ℕ) : State P :=
  { s with
    log := { s.log with lh := if b ∈ s.log.lh then s.log.lh else s.log.lh ++ [b] }
    group := insert b s.group
    mine := update s.mine p (insert b (s.mine p)) }.goto p .inOp

/-- The first critical section of `end_op`. -/
def endOp (s : State P) (p : P) : State P :=
  let s := { s with log := { s.log with outstanding := s.log.outstanding - 1 } }
  if s.log.committing then { s with panicked := some .committing }
  else if s.log.outstanding = 0 then
    { s with log := { s.log with committing := true } }.goto p .commit
  else { s with pc := wakeAll s.pc }.goto p .out

/-- What `commit()` does to the header. -/
def commit (s : State P) (p : P) : State P :=
  { s with log := { s.log with lh := [] }, group := ∅ }.goto p .committed

/-- The second critical section of `end_op`. -/
def leave (s : State P) (p : P) : State P :=
  { s with log := { s.log with committing := false }, pc := wakeAll s.pc }.goto p .out

/-- **The steps**; `none` when a step is not possible. -/
def step (s : State P) (e : Event P) : Option (State P) :=
  if s.panicked = none then
    match e with
    | .begin p => if s.pc p = .out then some (s.beginOp p) else none
    | .retry p => if s.pc p = .woken then some (s.beginOp p) else none
    | .kill p => if s.pc p = .asleep then some (s.goto p .woken) else none
    | .check p b => if s.pc p = .inOp then some (s.check p b) else none
    | .append p =>
      match s.pc p with
      | .checked b => some (s.append p b)
      | _ => none
    | .finish p => if s.pc p = .inOp then some (s.endOp p) else none
    | .commit p => if s.pc p = .commit then some (s.commit p) else none
    | .leave p => if s.pc p = .committed then some (s.leave p) else none
  else none

/-- The rules of the steps. -/
inductive Steps (s : State P) : Event P → State P → Prop
  | begin (p : P) (hp : s.pc p = .out) : Steps s (.begin p) (s.beginOp p)
  | retry (p : P) (hp : s.pc p = .woken) : Steps s (.retry p) (s.beginOp p)
  | kill (p : P) (hp : s.pc p = .asleep) : Steps s (.kill p) (s.goto p .woken)
  | check (p : P) (b : ℕ) (hp : s.pc p = .inOp) : Steps s (.check p b) (s.check p b)
  | append (p : P) (b : ℕ) (hp : s.pc p = .checked b) : Steps s (.append p) (s.append p b)
  | finish (p : P) (hp : s.pc p = .inOp) : Steps s (.finish p) (s.endOp p)
  | commit (p : P) (hp : s.pc p = .commit) : Steps s (.commit p) (s.commit p)
  | leave (p : P) (hp : s.pc p = .committed) : Steps s (.leave p) (s.leave p)

theorem steps_of_step {s s' : State P} {e : Event P} (hstep : s.step e = some s') :
    s.panicked = none ∧ Steps s e s' := by
  obtain ⟨hnone, hs⟩ := ite_none_right_eq_some.mp hstep
  refine ⟨hnone, ?_⟩
  cases e <;> grind [Steps]

end State

/-! ## What a step does -/

/-- The process is in an operation. -/
def Pc.busy : Pc → Bool
  | .inOp | .checked _ => true
  | _ => false

/-- The process is the one that commits. -/
def Pc.commits : Pc → Bool
  | .commit | .committed => true
  | _ => false

namespace State

/-- The processes in an operation are as many as `outstanding` says, at most one process commits, and
nobody sleeps without a reason. -/
structure Inv (s : State P) : Prop where
  busy : ∃ S : Finset P, (∀ p, p ∈ S ↔ (s.pc p).busy) ∧ S.card = s.log.outstanding
  committing : s.log.committing = true ↔ ∃ p, (s.pc p).commits
  one : ∀ p q, (s.pc p).commits → (s.pc q).commits → p = q
  quiet : s.log.committing = true → s.log.outstanding = 0
  empty : s.log.outstanding = 0 → (∀ p, s.pc p ≠ .commit) → s.log.lh = []
  asleep : ∀ p, s.pc p = .asleep → s.log.committing = true ∨
    s.log.lh.length + (s.log.outstanding + 1) * MAXOPBLOCKS > LOGSIZE ∧ 0 < s.log.outstanding
  nodup : s.log.lh.Nodup
  group : ∀ b, b ∈ s.log.lh ↔ b ∈ s.group
  panics : s.panicked = none ∨ s.panicked = some .tooBig

variable {s s' : State P} {p : P}

/-- While a process is in an operation, nobody commits. -/
theorem Inv.of_busy (h : s.Inv) (hp : (s.pc p).busy) :
    0 < s.log.outstanding ∧ s.log.committing = false := by
  obtain ⟨S, hS, hcard⟩ := h.busy
  have hpos : 0 < s.log.outstanding := by
    rw [← hcard]
    exact card_pos.mpr ⟨p, (hS p).mpr hp⟩
  refine ⟨hpos, Bool.eq_false_iff.mpr fun hc => ?_⟩
  have := h.quiet hc
  omega

@[simp] theorem wakeAll_busy (pc : P → Pc) (q : P) : (wakeAll pc q).busy = (pc q).busy := by
  unfold wakeAll
  split <;> simp_all [Pc.busy]

@[simp] theorem wakeAll_commits (pc : P → Pc) (q : P) : (wakeAll pc q).commits = (pc q).commits := by
  unfold wakeAll
  split <;> simp_all [Pc.commits]

theorem wakeAll_ne_asleep (pc : P → Pc) (q : P) : wakeAll pc q ≠ .asleep := by
  unfold wakeAll
  split <;> simp_all

theorem wakeAll_eq_commit {pc : P → Pc} {q : P} : wakeAll pc q = .commit ↔ pc q = .commit := by
  unfold wakeAll
  split <;> simp_all

variable [DecidableEq P]

/-- The operations after `p` has moved. -/
theorem busy_move {S : Finset P} {pc u : P → Pc} (hS : ∀ q, q ∈ S ↔ (pc q).busy)
    (hrest : ∀ q, q ≠ p → (u q).busy = (pc q).busy) :
    ∃ S' : Finset P, (∀ q, q ∈ S' ↔ (u q).busy) ∧
      S'.card + (if (pc p).busy then 1 else 0) = S.card + if (u p).busy then 1 else 0 := by
  have hp := hS p
  by_cases hbusy : (u p).busy
  · refine ⟨insert p S, fun q => ?_, ?_⟩
    · by_cases hq : q = p
      · simp [hq, hbusy]
      · rw [mem_insert, or_iff_right hq, hS, hrest q hq]
    · by_cases hold : (pc p).busy
      · rw [insert_eq_of_mem (hp.mpr hold)]
        simp [hbusy, hold]
      · rw [card_insert_of_notMem fun hmem => hold (hp.mp hmem)]
        simp [hbusy, hold]
  · refine ⟨S.erase p, fun q => ?_, ?_⟩
    · by_cases hq : q = p
      · simp [hq, hbusy]
      · rw [mem_erase, and_iff_right hq, hS, hrest q hq]
    · by_cases hold : (pc p).busy
      · have hpos := card_pos.mpr ⟨p, hp.mpr hold⟩
        rw [card_erase_of_mem (hp.mpr hold)]
        simp only [hold, hbusy, if_true]
        simp only [Bool.false_eq_true, if_false]
        omega
      · rw [erase_eq_of_notMem fun hmem => hold (hp.mp hmem)]
        simp [hbusy, hold]

section

variable (h : s.Inv)

include h

/-- `p` moves while nobody starts or ends a commit. -/
theorem Inv.move {c : Pc} (hpc : s'.pc = update s.pc p c)
    (hout : s'.log.outstanding + (if (s.pc p).busy then 1 else 0) =
      s.log.outstanding + if c.busy then 1 else 0)
    (hcommitting : s'.log.committing = s.log.committing)
    (hcommits : c.commits = false ∧ (s.pc p).commits = false)
    (hquiet : c.busy → (s.pc p).busy ∨ s.log.committing = false)
    (hempty : s'.log.outstanding = 0 → (∀ q, s'.pc q ≠ .commit) → s'.log.lh = [])
    (hasleep : ∀ q, s'.pc q = .asleep → s'.log.committing = true ∨
      s'.log.lh.length + (s'.log.outstanding + 1) * MAXOPBLOCKS > LOGSIZE ∧ 0 < s'.log.outstanding)
    (hnodup : s'.log.lh.Nodup) (hgroup : ∀ b, b ∈ s'.log.lh ↔ b ∈ s'.group)
    (hpanics : s'.panicked = none ∨ s'.panicked = some .tooBig) : s'.Inv := by
  have hp : s'.pc p = c := by rw [hpc, update_self]
  have hne : ∀ q, q ≠ p → s'.pc q = s.pc q := fun q hq => by rw [hpc, update_of_ne hq]
  have hall : ∀ q, (s'.pc q).commits = (s.pc q).commits := by
    intro q
    by_cases hq : q = p
    · rw [hq, hp, hcommits.1, hcommits.2]
    · rw [hne q hq]
  refine ⟨?_, ?_, fun q r => ?_, fun hc => ?_, hempty, hasleep, hnodup, hgroup, hpanics⟩
  · obtain ⟨S, hS, hcard⟩ := h.busy
    obtain ⟨S', hS', hcard'⟩ := busy_move (p := p) hS fun q hq => congrArg Pc.busy (hne q hq)
    refine ⟨S', hS', ?_⟩
    rw [hp] at hcard'
    omega
  · simp only [hcommitting, hall, h.committing]
  · rw [hall, hall]
    exact h.one q r
  · rw [hcommitting] at hc
    have hzero := h.quiet hc
    have hidle : (s.pc p).busy = false := by
      by_contra hbusy
      have := (h.of_busy (Bool.not_eq_false _ ▸ hbusy)).1
      omega
    have hc' : c.busy = false := by
      by_contra hbusy
      simp_all
    simp_all

theorem Inv.beginOp (hp : s.pc p = .out ∨ s.pc p = .woken) : (s.beginOp p).Inv := by
  have hidle : (s.pc p).busy = false ∧ (s.pc p).commits = false := by
    obtain hp | hp := hp <;> simp [hp, Pc.busy, Pc.commits]
  have hne : s.pc p ≠ .commit := by
    rintro heq
    simp [heq] at hp
  unfold State.beginOp
  split
  next hc =>
    refine h.move (p := p) (c := .asleep) rfl (by rw [hidle.1]; rfl) rfl ⟨rfl, hidle.2⟩ nofun
      (fun hzero hnone => h.empty hzero fun q hq => ?_) (fun q _ => .inl hc) h.nodup h.group h.panics
    have := hnone q
    grind
  next hc =>
    have hc' := Bool.eq_false_iff.mpr hc
    have hempty : s.log.outstanding = 0 → s.log.lh = [] := by
      refine fun hzero => h.empty hzero fun q hq => hc (h.committing.mpr ⟨q, ?_⟩)
      rw [hq]
      rfl
    split
    next hfull =>
      have hpos : 0 < s.log.outstanding := by
        by_contra hzero
        have hzero' : s.log.outstanding = 0 := by omega
        rw [hempty hzero', hzero'] at hfull
        simp at hfull
      refine h.move (p := p) (c := .asleep) rfl (by rw [hidle.1]; rfl) rfl ⟨rfl, hidle.2⟩
        nofun (fun hzero _ => hempty hzero) (fun q _ => .inr ⟨hfull, hpos⟩) h.nodup h.group h.panics
    next hroom =>
      refine h.move (p := p) (c := .inOp) rfl (by rw [hidle.1]; rfl) rfl ⟨rfl, hidle.2⟩
        (fun _ => .inr hc') (fun hzero => by simp [goto] at hzero) (fun q hq => ?_) h.nodup h.group
        h.panics
      have hqp : q ≠ p := by
        rintro rfl
        simp [goto] at hq
      simp only [goto, update_of_ne hqp] at hq
      obtain hcq | ⟨hfull, -⟩ := h.asleep q hq
      · exact absurd hcq hc
      · exact absurd hfull hroom

theorem Inv.kill (hp : s.pc p = .asleep) : (s.goto p .woken).Inv := by
  refine h.move (p := p) (c := .woken) rfl (by simp [goto, hp, Pc.busy]) rfl ⟨rfl, by rw [hp]; rfl⟩
    nofun (fun hzero hnone => h.empty hzero fun q hq => ?_) (fun q hq => h.asleep q ?_) h.nodup h.group
    h.panics
  · have := hnone q
    grind
  · grind

theorem Inv.check {b : ℕ} (hp : s.pc p = .inOp) : (s.check p b).Inv := by
  have hpos := (h.of_busy (p := p) (by rw [hp]; rfl)).1
  unfold State.check
  split
  next => exact { h with panics := .inr rfl }
  next =>
    rw [if_neg (by omega)]
    refine h.move (p := p) (c := .checked b) rfl (by simp [goto, hp, Pc.busy]) rfl
      ⟨rfl, by rw [hp]; rfl⟩ (fun _ => .inl (by rw [hp]; rfl)) (fun hzero => ?_)
      (fun q hq => h.asleep q ?_) h.nodup h.group h.panics
    · simp only [goto] at hzero
      omega
    · grind

theorem Inv.append {b : ℕ} (hp : s.pc p = .checked b) : (s.append p b).Inv := by
  have hpos := (h.of_busy (p := p) (by rw [hp]; rfl)).1
  refine h.move (p := p) (c := .inOp) rfl (by simp [State.append, goto, hp, Pc.busy]) rfl
    ⟨rfl, by rw [hp]; rfl⟩ (fun _ => .inl (by rw [hp]; rfl)) (fun hzero => ?_) (fun q hq => ?_) ?_
    (fun a => ?_) h.panics
  · simp only [State.append, goto] at hzero
    omega
  · have hasleep := h.asleep q (by grind [State.append])
    simp only [State.append, goto]
    split <;> grind
  · simp only [State.append, goto]
    split
    · exact h.nodup
    next hb => simpa using h.nodup.concat hb
  · simp only [State.append, goto]
    have hgroup := h.group a
    grind

theorem Inv.endOp (hp : s.pc p = .inOp) : (s.endOp p).Inv := by
  obtain ⟨hpos, hc⟩ := h.of_busy (p := p) (by rw [hp]; rfl)
  have hnone : ∀ q, (s.pc q).commits = false := by
    intro q
    by_contra hq
    have := h.committing.mpr ⟨q, by simpa using hq⟩
    simp [hc] at this
  simp only [State.endOp, hc, Bool.false_eq_true, if_false]
  obtain ⟨S, hS, hcard⟩ := h.busy
  split
  next hlast =>
    -- `p` was the only one in an operation
    obtain ⟨S', hS', hcard'⟩ := busy_move (p := p) (u := update s.pc p .commit) hS
      fun q hq => by rw [update_of_ne hq]
    have hpc : ∀ q, (update s.pc p .commit q).commits = true ↔ q = p := by
      intro q
      by_cases hq : q = p
      · simp [hq, Pc.commits]
      · simp [hq, hnone q]
    refine ⟨⟨S', hS', ?_⟩, ?_, fun q r hq hr => ?_, fun _ => hlast, fun _ hno => ?_,
      fun q _ => .inl rfl, h.nodup, h.group, h.panics⟩
    · simp only [goto, update_self, hp, Pc.busy] at hcard' ⊢
      simp only [Bool.false_eq_true, if_false, if_true] at hcard'
      omega
    · simp [goto, hpc]
    · rw [(hpc q).mp hq, (hpc r).mp hr]
    · exact absurd (by simp [goto]) (hno p)
  next hmore =>
    obtain ⟨S', hS', hcard'⟩ := busy_move (p := p) (u := update (wakeAll s.pc) p .out) hS
      fun q hq => by rw [update_of_ne hq, wakeAll_busy]
    have hpc : ∀ q, (update (wakeAll s.pc) p .out q).commits = false := by
      intro q
      by_cases hq : q = p
      · simp [hq, Pc.commits]
      · simp [hq, hnone q]
    refine ⟨⟨S', hS', ?_⟩, ?_, fun q r hq => ?_, fun hcc => ?_, fun hzero => absurd hzero hmore,
      fun q hq => ?_, h.nodup, h.group, h.panics⟩
    · simp only [goto, update_self, hp, Pc.busy] at hcard' ⊢
      simp only [Bool.false_eq_true, if_false, if_true] at hcard'
      omega
    · simp [goto, hpc]
    · simp [goto, hpc] at hq
    · simp [goto] at hcc
    · by_cases hqp : q = p
      · simp [goto, hqp] at hq
      · simp only [goto, update_of_ne hqp] at hq
        exact absurd hq (wakeAll_ne_asleep _ _)

theorem Inv.commit (hp : s.pc p = .commit) : (s.commit p).Inv := by
  have hc : s.log.committing = true := h.committing.mpr ⟨p, by rw [hp]; rfl⟩
  have hall : ∀ q, ((s.commit p).pc q).commits = (s.pc q).commits ∧
      ((s.commit p).pc q).busy = (s.pc q).busy := by
    intro q
    by_cases hq : q = p
    · simp [State.commit, goto, hq, hp, Pc.commits, Pc.busy]
    · simp [State.commit, goto, hq]
  refine ⟨?_, ?_, fun q r => ?_, h.quiet, fun _ _ => rfl, fun q _ => .inl hc, List.nodup_nil,
    fun b => by simp [State.commit, goto], h.panics⟩
  · simp only [hall]
    exact h.busy
  · simp only [hall]
    exact h.committing
  · simp only [hall]
    exact h.one q r

theorem Inv.leave (hp : s.pc p = .committed) : (s.leave p).Inv := by
  have hcp : (s.pc p).commits = true := by rw [hp]; rfl
  have hc : s.log.committing = true := h.committing.mpr ⟨p, hcp⟩
  have hrest : ∀ q, ((s.leave p).pc q).commits = false ∧
      ((s.leave p).pc q).busy = (s.pc q).busy := by
    intro q
    by_cases hq : q = p
    · simp [State.leave, goto, hq, hp, Pc.commits, Pc.busy]
    · have hnot : (s.pc q).commits = false := by
        by_contra hcq
        exact hq (h.one q p (by simpa using hcq) hcp)
      simp [State.leave, goto, hq, hnot]
  refine ⟨?_, ?_, fun q r hq => ?_, nofun, fun hzero _ => h.empty hzero fun q hq => ?_,
    fun q hq => ?_, h.nodup, h.group, h.panics⟩
  · simp only [hrest]
    exact h.busy
  · simp only [hrest, Bool.false_eq_true, exists_false, iff_false]
    exact Bool.false_ne_true
  · simp [hrest] at hq
  · have heq := h.one q p (by rw [hq]; rfl) hcp
    rw [heq, hp] at hq
    cases hq
  · by_cases hqp : q = p
    · simp [State.leave, goto, hqp] at hq
    · simp only [State.leave, goto, update_of_ne hqp] at hq
      exact absurd hq (wakeAll_ne_asleep _ _)

/-- **Every step keeps the invariant.** -/
theorem Inv.step {e : Event P} (hstep : s.step e = some s') : s'.Inv := by
  cases (steps_of_step hstep).2 with
  | begin p hp => exact h.beginOp (.inl hp)
  | retry p hp => exact h.beginOp (.inr hp)
  | kill p hp => exact h.kill hp
  | check p b hp => exact h.check hp
  | append p b hp => exact h.append hp
  | finish p hp => exact h.endOp hp
  | commit p hp => exact h.commit hp
  | leave p hp => exact h.leave hp

end

omit [DecidableEq P] in
theorem inv_init (size : ℕ) : (init size : State P).Inv :=
  ⟨⟨∅, fun _ => by simp [init, Pc.busy], rfl⟩, by simp [init, Pc.commits],
    fun _ _ hp => by simp [init, Pc.commits] at hp, fun _ => rfl, fun _ _ => rfl,
    fun _ hp => by simp [init] at hp, List.nodup_nil, fun _ => by simp [init], .inl rfl⟩

/-- The invariant holds after every run. -/
theorem run_inv {size : ℕ} {events : List (Event P)}
    (hrun : Runs.run step (init size) events = some s) : s.Inv :=
  Runs.run_invariant (I := Inv) (fun _ _ _ hstep h => h.step hstep) hrun (inv_init size)

/-- **The transaction protocol.**  In every state reached: while a commit runs no operation does; at
most one process commits; `end_op` does not panic; without an operation and without a commit the
header is empty; and a process sleeps in `begin_op` only while a commit runs, or while there is no
room for it and some operation will end. -/
theorem protocol_run {size : ℕ} {events : List (Event P)}
    (hrun : Runs.run step (init size) events = some s) :
    (s.log.committing = true → s.log.outstanding = 0) ∧
    (∀ p q, (s.pc p).commits → (s.pc q).commits → p = q) ∧
    s.panicked ≠ some .committing ∧
    (s.log.outstanding = 0 → s.log.committing = false → s.log.lh.length = 0) ∧
    ∀ p, s.pc p = .asleep → s.log.committing = true ∨
      s.log.lh.length + (s.log.outstanding + 1) * MAXOPBLOCKS > LOGSIZE ∧ 0 < s.log.outstanding := by
  have h := run_inv hrun
  refine ⟨h.quiet, h.one, ?_, fun hzero hc => ?_, h.asleep⟩
  · obtain hnone | hbig := h.panics
    · simp [hnone]
    · simp [hbig]
  · rw [h.empty hzero fun q hq => ?_, List.length_nil]
    have := h.committing.mpr ⟨q, by rw [hq]; rfl⟩
    simp [hc] at this

/-- A process ends its operation, which logged a block, and another one waits for the commit. -/
theorem protocol_run_commit : ∃ s : State ℕ,
    Runs.run step (init LOGSIZE) [.begin 0, .check 0 7, .append 0, .finish 0, .begin 1] = some s ∧
    s.pc 1 = .asleep ∧ s.log.lh.length = 1 ∧ s.log.outstanding = 0 := by
  have hrun : Runs.run step (init LOGSIZE : State ℕ)
      [.begin 0, .check 0 7, .append 0, .finish 0, .begin 1] = some _ := rfl
  exact ⟨_, hrun, rfl, rfl, (protocol_run hrun).1 rfl⟩

/-! ## The capacity of the log -/

/-- A call of `log_write` comes while fewer than `LOGSIZE - 1` blocks have been logged since the last
commit. -/
def Spare (s : State P) : Event P → Prop
  | .check _ _ => s.group.card + 1 < LOGSIZE
  | _ => True

omit [DecidableEq P] in
/-- The header holds each block that was logged since the last commit once. -/
theorem Inv.card_group (h : s.Inv) : s.group.card = s.log.lh.length := by
  have heq : s.group = s.log.lh.toFinset := by
    ext b
    rw [List.mem_toFinset, h.group]
  rw [heq, List.toFinset_card_of_nodup h.nodup]

/-- The checks of `log_write`. -/
theorem Inv.check_panics {b : ℕ} (h : s.Inv) (hnone : s.panicked = none) (hsize : s.log.size = LOGSIZE)
    (hp : s.pc p = .inOp) :
    (s.check p b).panicked = some .tooBig ↔ ¬ s.group.card + 1 < LOGSIZE := by
  have hpos := (h.of_busy (p := p) (by rw [hp]; rfl)).1
  have hcard := h.card_group
  unfold State.check
  rw [hsize, ← hcard]
  split
  next hfull =>
    simp only [true_iff]
    omega
  next hroom =>
    rw [if_neg (by omega)]
    simp only [goto, hnone, reduceCtorEq, false_iff, not_not]
    omega

/-- Only the checks of `log_write` panic with "too big a transaction". -/
theorem Inv.step_panics {e : Event P} (h : s.Inv) (hsize : s.log.size = LOGSIZE)
    (hstep : s.step e = some s') :
    s'.log.size = LOGSIZE ∧ (s'.panicked = some .tooBig ↔ ¬ s.Spare e) := by
  obtain ⟨hnone, hs⟩ := steps_of_step hstep
  cases hs with
  | begin p | retry p =>
    unfold State.beginOp
    split
    · simp [goto, hsize, hnone, Spare]
    · split <;> simp [goto, hsize, hnone, Spare]
  | kill p | commit p | leave p => simp [State.commit, State.leave, goto, hsize, hnone, Spare]
  | check p b hp =>
    refine ⟨?_, h.check_panics hnone hsize hp⟩
    unfold State.check
    split
    · exact hsize
    · split <;> exact hsize
  | append p => simp [State.append, goto, hsize, hnone, Spare]
  | finish p =>
    simp only [State.endOp]
    split
    · simp [hsize, Spare]
    · split <;> simp [goto, hsize, hnone, Spare]

/-- A run panics with "too big a transaction" if and only if some call of `log_write` does not find
a spare entry. -/
theorem run_panics {events : List (Event P)} (h : s.Inv) (hsize : s.log.size = LOGSIZE)
    (hnone : s.panicked ≠ some .tooBig) (hrun : Runs.run step s events = some s') :
    s'.panicked ≠ some .tooBig ↔ Runs.Meets step Spare s events := by
  refine Runs.run_not_bad_iff_meets (I := fun s => s.Inv ∧ s.log.size = LOGSIZE)
    (B := fun s => s.panicked = some .tooBig)
    (fun s e s' hs hi => ?_) (fun s e hbad => ?_) hrun ⟨h, hsize⟩ hnone
  · obtain ⟨hsize', hiff⟩ := hi.1.step_panics hi.2 hs
    exact ⟨hiff, fun _ => ⟨hi.1.step hs, hsize'⟩⟩
  · unfold step
    rw [if_neg (by simp [hbad])]

/-- **The capacity of the log.**  With a log area of `LOGSIZE` blocks, header included, as `mkfs`
makes it, a run does not panic with "too big a transaction" if and only if each of its calls of
`log_write` comes while fewer than `LOGSIZE - 1` blocks have been logged since the last commit. -/
theorem capacity_iff {events : List (Event P)}
    (hrun : Runs.run step (init LOGSIZE) events = some s) :
    s.panicked ≠ some .tooBig ↔ Runs.Meets step Spare (init LOGSIZE) events :=
  run_panics (inv_init LOGSIZE) rfl nofun hrun

/-- Three operations that log ten blocks each, up to the last call. -/
def fullGroup : List (Event (Fin 3)) :=
  [.begin 0, .begin 1, .begin 2] ++
    ((List.range 29).flatMap fun b => [.check (Fin.ofNat 3 (b / 10)) b, .append (Fin.ofNat 3 (b / 10))]) ++
    [.check 2 29]

theorem fullGroup_isSome : (Runs.run step (init LOGSIZE) fullGroup).isSome := by
  decide +kernel

/-- The thirtieth block of three operations finds no room. -/
theorem not_capacity_full : ∃ s : State (Fin 3), Runs.run step (init LOGSIZE) fullGroup = some s ∧
    (∀ p, (s.mine p).card ≤ MAXOPBLOCKS) ∧ (insert 29 (s.mine 2)).card ≤ MAXOPBLOCKS ∧
    s.panicked = some .tooBig := by
  refine ⟨_, (some_get fullGroup_isSome).symm, ?_, ?_, ?_⟩
  · decide +kernel
  · decide +kernel
  · decide +kernel

/-- Two operations of which one has logged a block. -/
theorem capacity_two : ∃ s : State ℕ,
    Runs.run step (init LOGSIZE) [.begin 0, .begin 1, .check 0 7, .append 0, .check 1 8] = some s ∧
    Runs.Meets step Spare (init LOGSIZE : State ℕ)
      [.begin 0, .begin 1, .check 0 7, .append 0, .check 1 8] := by
  have hrun : Runs.run step (init LOGSIZE : State ℕ)
      [.begin 0, .begin 1, .check 0 7, .append 0, .check 1 8] = some _ := rfl
  exact ⟨_, hrun, (capacity_iff hrun).mp nofun⟩

end State

end LogProtocol
