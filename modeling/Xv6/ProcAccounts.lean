/-
# Priorities and ticks

Two fields of `struct proc` are for the schedulers and for the calls that report on a process: `priority` and
`ticks_runs`.  `fork` corrects the first one only if it is none of the three priorities, and nobody resets the
second one.  Here they are added to the machine of `ProcTable`, with the calls that change them, and it is
shown what a new process inherits from those that had its slot before.
-/
import Xv6.ProcExclusive

open Function Option

namespace ProcAccounts

open ProcTable (Op)

/-! ## State -/

abbrev HIGH : ℤ := 0
abbrev MEDIUM : ℤ := 1
abbrev LOW : ℤ := 2
abbrev NPRIORITIES : ℤ := 3

/-- The process table, and the two fields of its entries. -/
structure State (C : Type) where
  table : ProcTable.State C
  priority : ProcTable.Slot → ℤ
  ticks_runs : ProcTable.Slot → ℤ

variable {C : Type}

/-- The steps: those of the table, and the calls of the current process of a processor. -/
inductive Event (C : Type) where
  | table (op : Op C)
  | setSchedPriority (c : C) (priority : ℤ)
  /-- The commit of `exec`. -/
  | exec (c : C)

/-- What `fork` makes of the priority that it finds in its slot. -/
def startPriority (priority : ℤ) : ℤ :=
  if priority ≠ LOW ∧ priority ≠ MEDIUM ∧ priority ≠ HIGH then MEDIUM else priority

namespace State

/-- After `userinit`; the table is zeroed memory. -/
def boot : State C := ⟨.boot, fun _ => 0, fun _ => 0⟩

/-- What a step of the table does to the fields: `fork` looks at the priority before it sets the child
`RUNNABLE`, and `scheduler` counts when a process comes back from its turn. -/
def account (s : State C) : Op C → State C
  | .publish c =>
    match (s.table.cpu c).ctl with
    | .user p =>
      match (s.table.proc p).np with
      | some (q, _) =>
        { s with priority := update s.priority q (startPriority (s.priority q)) }
      | none => s
    | _ => s
  | .back c =>
    let p := (s.table.cpu c).loop
    { s with ticks_runs := update s.ticks_runs p (s.ticks_runs p + 1) }
  | _ => s

/-- The current process of `c` gets a priority. -/
def setPriority (s : State C) (c : C) (priority : ℤ) : Option (State C) :=
  match (s.table.cpu c).ctl with
  | .user p => some { s with priority := update s.priority p priority }
  | _ => none

variable [DecidableEq C]

/-- **The steps.** -/
def step (s : State C) : Event C → Option (State C)
  | .table op => (s.table.step op).map fun table => { s.account op with table := table }
  | .setSchedPriority c priority =>
    if priority < 0 ∨ NPRIORITIES - 1 < priority then some s else s.setPriority c priority
  | .exec c => s.setPriority c LOW

/-- The step is the one with which a scheduler gives `q` its turn. -/
def Dispatches (s : State C) (e : Event C) (q : ProcTable.Slot) : Prop :=
  match e with
  | .table (.scan c) => (s.table.cpu c).ctl = .scan q ∧ (s.table.proc q).state = .runnable
  | _ => False

instance (s : State C) (e : Event C) (q : ProcTable.Slot) : Decidable (s.Dispatches e q) := by
  unfold Dispatches
  split
  · exact instDecidableAnd
  · exact instDecidableFalse

/-- How often `q` gets its turn in a run. -/
def turns (q : ProcTable.Slot) : State C → List (Event C) → ℤ
  | _, [] => 0
  | s, e :: es =>
    (if s.Dispatches e q then 1 else 0) + (match s.step e with
      | some s' => turns q s' es
      | none => 0)

end State

end ProcAccounts

/-! ## What the steps of the table do -/

namespace ProcTable.State

variable {C : Type} {s s' : ProcTable.State C}

/-- The process is on a processor. -/
def Current (s : ProcTable.State C) (q : Slot) : Prop := ∃ c, (s.cpu c).proc = some q

/-- Only processes that the others can see are on a processor. -/
def Present (s : ProcTable.State C) : Prop := ∀ q, s.Current q → (s.proc q).state.Published

variable [DecidableEq C]

theorem hold_cpuProc (s : ProcTable.State C) (c d : C) (ctl : Ctl) :
    ((s.hold c ctl).cpu d).proc = (s.cpu d).proc := by
  rw [hold_cpu]
  split
  next hd => rw [hd]
  next => rfl

theorem release_cpuProc (s : ProcTable.State C) (c d : C) (ctl : Ctl) :
    ((s.release c ctl).cpu d).proc = (s.cpu d).proc := by
  rw [release_cpu]
  split
  next hd => rw [hd]
  next => rfl

variable {p : Slot}

theorem WaitRule.cpuProc {c : C} (h : WaitRule s c p s') (d : C) :
    (s'.cpu d).proc = (s.cpu d).proc := by
  cases h with
  | reap | childless => exact release_cpuProc ..
  | sleep => exact hold_cpuProc ..

/-- The scheduler gives the process at which it is its turn, or the processors stay as they are. -/
theorem scanBody_cases (s : ProcTable.State C) (c : C) (i : ℕ) :
    (∃ hi : i < NPROC, (s.proc ⟨i, hi⟩).state = .runnable ∧
      (s.scanBody c i).cpu = update s.cpu c ⟨some ⟨i, hi⟩, .resumed ⟨i, hi⟩, ⟨i, hi⟩⟩) ∨
    (∀ q : Slot, i = q → (s.proc q).state ≠ .runnable) ∧
      ∀ d, ((s.scanBody c i).cpu d).proc = (s.cpu d).proc := by
  unfold scanBody
  split
  next hi =>
    dsimp only
    split
    next hready => exact .inl ⟨hi, hready, rfl⟩
    next hready =>
      refine .inr ⟨fun q hq => ?_, fun d => hold_cpuProc ..⟩
      subst hq
      exact hready
  next hi => exact .inr ⟨fun q hq => absurd (hq ▸ q.isLt) hi, fun d => release_cpuProc ..⟩

variable {op : Op C}

/-- Only a dispatch and the end of a turn change what a processor runs. -/
theorem cpuProc_of_rule (h : Rule s op s') (d : C) :
    (s'.cpu d).proc = (s.cpu d).proc ∨
      (op = .scan d ∧ ∃ p, (s'.cpu d).proc = some p ∧ (s'.proc p).state = .running) ∨
      op = .back d ∧ (s'.cpu d).proc = none := by
  cases h with
  | @dispatch c p =>
    by_cases hd : d = c
    · subst hd
      refine .inr (.inl ⟨rfl, p, ?_, ?_⟩)
      · simp
      · simp
    · exact .inl (by simp [hd])
  | @back c =>
    by_cases hd : d = c
    · subst hd
      exact .inr (.inr ⟨rfl, by simp⟩)
    · exact .inl (by simp [hd])
  | enter | skip | leave | yield | sleep | exit => exact .inl (hold_cpuProc ..)
  | resume | finish => exact .inl (release_cpuProc ..)
  | waitOn _ hwait | wait _ _ hwait => exact .inl (hwait.cpuProc d)
  | table _ _ hcpu => exact .inl (by rw [hcpu])
  | _ => exact .inl rfl

/-- What a step can make of the state of an entry. -/
inductive Becomes (s : ProcTable.State C) (op : Op C) (q : Slot) (st : ProcState) : Prop
  | same (h : st = (s.proc q).state)
  | published (h : st.Published)
  | freed (h : st = .unused)
      (hq : (s.proc q).state = .embryo ∨ (s.proc q).state = .zombie ∧ ¬ s.Current q)
  | allocated {c : C} (hop : op = .allocproc c q) (h : (s.proc q).state = .unused)

variable {v : Proc}

omit [DecidableEq C] in
theorem becomes_setProc (hv : s.Becomes op p v.state) (q : Slot) :
    s.Becomes op q ((s.setProc p v).proc q).state := by
  rw [setProc_proc]
  split
  next hq => exact hq ▸ hv
  next => exact .same rfl

omit [DecidableEq C] in
/-- `fork` changes its slot, and where it is itself. -/
theorem becomes_fork {p r : Slot} {x : Option (Slot × Stage)} (hv : s.Becomes op r v.state)
    (q : Slot) :
    s.Becomes op q (((s.setProc r v).setProc p { s.proc p with np := x }).proc q).state := by
  rw [setProc_proc]
  split
  next hq =>
    subst hq
    exact .same rfl
  next => exact becomes_setProc hv q

/-- `wait` frees a child that is on no processor; `t` is the state before it was awake. -/
theorem WaitRule.becomes {t : ProcTable.State C} {c : C} (h : WaitRule s c p s')
    (hsame : ∀ r, (s.proc r).state = (t.proc r).state) (ht : t.Sched)
    (hctl : (t.cpu c).ctl = .user p ∧ t.lock = none ∨ (t.cpu c).ctl = .resumed p) (q : Slot) :
    t.Becomes op q (s'.proc q).state := by
  cases h with
  | @reap r hparent hzombie =>
    rw [release_proc, emit_proc, setProc_proc]
    split
    next hq =>
      have hz : (t.proc q).state = .zombie := by rw [hq, ← hsame, hzombie]
      have hnowhere := ht.nowhere hctl (q := q) (by rw [hz]; nofun)
      exact .freed rfl (.inr ⟨hz, fun ⟨d, hd⟩ => (hnowhere d).1 hd⟩)
    next => exact .same (hsame q)
  | childless => exact .same (hsame q)
  | sleep hnone =>
    rw [hold_proc, setProc_proc]
    split
    next hq => exact .published ⟨nofun, nofun⟩
    next => exact .same (hsame q)

omit [DecidableEq C] in
theorem Kept.becomes {q : Slot} (h : Kept (s.proc q) v) :
    s.Becomes op q v.state := by
  obtain heq | ⟨-, heq⟩ := h.state
  · exact .same heq
  · rw [heq]
    exact .published ⟨nofun, nofun⟩

theorem becomes_of_rule (h : Rule s op s') (hs : s.Sched) (hf : s.Forks) (q : Slot) :
    s.Becomes op q (s'.proc q).state := by
  cases h with
  | enter | skip | finish | back => exact .same rfl
  | leave | resume =>
    refine becomes_setProc ?_ q
    exact .same rfl
  | dispatch | yield | sleep =>
    refine becomes_setProc ?_ q
    exact .published ⟨nofun, nofun⟩
  | wait hctl hlock hwait => exact hwait.becomes (fun _ => rfl) hs (.inl ⟨hctl, hlock⟩) q
  | waitOn hctl hwait =>
    refine hwait.becomes (fun r => ?_) hs (.inr hctl) q
    rw [setProc_proc]
    split
    next hr => rw [hr]
    next => rfl
  | table hkept => exact Kept.becomes (hkept q)
  | @exit c p =>
    have hkept := leaveFamily_kept p q s.proc
    unfold exitBody
    generalize leaveFamily p s.proc = proc at hkept ⊢
    rw [hold_proc, emit_proc, setProc_proc]
    split
    next => exact .published ⟨nofun, nofun⟩
    next => exact Kept.becomes hkept
  | allocproc hctl hnp hstate => exact becomes_fork (.allocated rfl hstate) q
  | kstack | copyuvm | setParent =>
    refine becomes_fork ?_ q
    exact .same rfl
  | giveUp hop hctl hnp => exact becomes_fork (.freed rfl (.inl (hf.prepared _ _ _ hnp).state)) q
  | publish =>
    refine becomes_fork ?_ q
    exact .published ⟨nofun, nofun⟩

/-- Only `allocproc` makes an embryo. -/
theorem embryo_of_rule {q : Slot} (h : Rule s op s') (hs : s.Sched) (hf : s.Forks)
    (hop : ∀ c, op ≠ .allocproc c q) (hq : (s'.proc q).state = .embryo) :
    (s.proc q).state = .embryo := by
  cases becomes_of_rule h hs hf q with
  | same h => exact h.symm.trans hq
  | published h => exact absurd hq h.2
  | freed h => rw [h] at hq; cases hq
  | allocated h => exact absurd h (hop _)

/-- A process that is on a processor stays visible. -/
theorem Present.rule (hp : s.Present) (hrule : Rule s op s') (hs : s.Sched) (hf : s.Forks) : s'.Present := by
  -- what was on a processor before the step
  have hold : ∀ q, s.Current q → (s'.proc q).state.Published := by
    intro q hq
    cases becomes_of_rule hrule hs hf q with
    | same h => exact h ▸ hp q hq
    | published h => exact h
    | freed _ h =>
      obtain h | ⟨-, h⟩ := h
      · exact absurd h (hp q hq).2
      · exact absurd hq h
    | allocated _ h => exact absurd h (hp q hq).1
  rintro q ⟨d, hd⟩
  obtain hsame | ⟨-, p, hp', hrun⟩ | ⟨-, hnone⟩ := cpuProc_of_rule hrule d
  · exact hold q ⟨d, hsame.symm.trans hd⟩
  · obtain rfl : p = q := some.inj (hp'.symm.trans hd)
    rw [hrun]
    exact ⟨nofun, nofun⟩
  · rw [hnone] at hd
    cases hd

end ProcTable.State

/-! ## The two fields along a run -/

namespace ProcAccounts

open ProcTable (Op)

namespace State

variable {C : Type} {s s' t : State C} {e : Event C} {q : ProcTable.Slot}

open Classical in
/-- One while the process is on a processor: that turn is not counted yet. -/
noncomputable def onCpu (s : State C) (q : ProcTable.Slot) : ℤ := if s.table.Current q then 1 else 0

theorem onCpu_of_current (h : s.table.Current q) : s.onCpu q = 1 := if_pos h

theorem onCpu_of_not_current (h : ¬ s.table.Current q) : s.onCpu q = 0 := if_neg h

theorem onCpu_congr (h : s'.table.Current q ↔ s.table.Current q) : s'.onCpu q = s.onCpu q := by
  by_cases hq : s.table.Current q
  · rw [onCpu_of_current hq, onCpu_of_current (h.mpr hq)]
  · rw [onCpu_of_not_current hq, onCpu_of_not_current (mt h.mp hq)]

theorem account_ticks_runs {op : Op C} (hop : ∀ c, op ≠ .back c) :
    (s.account op).ticks_runs = s.ticks_runs := by
  unfold account
  split
  · split
    · split <;> rfl
    · rfl
  · exact absurd rfl (hop _)
  · rfl

/-- The priority that a step of the table leaves. -/
theorem account_priority (s : State C) (op : Op C) (q : ProcTable.Slot) :
    (s.account op).priority q = s.priority q ∨
      (s.account op).priority q = startPriority (s.priority q) ∧ ∃ c p st, op = .publish c ∧
        (s.table.cpu c).ctl = .user p ∧ (s.table.proc p).np = some (q, st) := by
  unfold account
  split
  next c =>
    split
    next p hctl =>
      split
      next r st hnp =>
        by_cases hq : q = r
        · subst hq
          exact .inr ⟨update_self .., c, p, st, rfl, hctl, hnp⟩
        · exact .inl (update_of_ne hq ..)
      next => exact .inl rfl
    next => exact .inl rfl
  · exact .inl rfl
  · exact .inl rfl

variable [DecidableEq C]

/-- What a step does. -/
inductive Steps (s : State C) : Event C → State C → Prop
  | table {op : Op C} {table : ProcTable.State C} (h : s.table.step op = some table) :
      Steps s (.table op) { s.account op with table := table }
  | refused {c : C} {priority : ℤ} : Steps s (.setSchedPriority c priority) s
  | set {e : Event C} {c : C} {p : ProcTable.Slot} {priority : ℤ} (hctl : (s.table.cpu c).ctl = .user p)
      (hpriority : HIGH ≤ priority ∧ priority ≤ LOW) (he : ∀ op, e ≠ .table op) :
      Steps s e { s with priority := update s.priority p priority }

variable {c : C}

theorem steps_of_setPriority {priority : ℤ} (h : s.setPriority c priority = some s')
    (hpriority : HIGH ≤ priority ∧ priority ≤ LOW) (he : ∀ op, e ≠ .table op) : Steps s e s' := by
  unfold setPriority at h
  split at h
  next p hctl =>
    cases h
    exact .set hctl hpriority he
  next => cases h

theorem steps_of_step (h : s.step e = some s') : Steps s e s' := by
  cases e with
  | table op =>
    obtain ⟨table, htable, rfl⟩ := map_eq_some_iff.mp h
    exact .table htable
  | setSchedPriority c priority =>
    change (if priority < 0 ∨ NPRIORITIES - 1 < priority then _ else _) = _ at h
    split at h
    next =>
      cases h
      exact .refused
    next hrange =>
      rw [not_or, not_lt, not_lt] at hrange
      exact steps_of_setPriority h hrange nofun
  | exec c => exact steps_of_setPriority h ⟨by decide, le_rfl⟩ nofun

/-- What holds in every state. -/
structure Sound (s : State C) : Prop where
  sched : s.table.Sched
  forks : s.table.Forks
  present : s.table.Present
  priority : ∀ p, HIGH ≤ s.priority p ∧ s.priority p ≤ LOW

omit [DecidableEq C] in
/-- `fork` finds nothing to correct: what it finds in its slot is a priority. -/
theorem Sound.startPriority (h : s.Sound) (p : ProcTable.Slot) :
    startPriority (s.priority p) = s.priority p := by
  obtain ⟨hlow, hhigh⟩ := h.priority p
  refine if_neg fun hnot => ?_
  simp only [HIGH, MEDIUM, LOW] at hlow hhigh hnot
  omega

theorem Sound.step (h : s.Sound) (hstep : s.step e = some s') : s'.Sound := by
  cases steps_of_step hstep with
  | @table op table htable =>
    have hrule := ProcTable.State.step_rule htable
    refine ⟨h.sched.rule h.forks hrule, h.forks.rule h.sched hrule,
      h.present.rule hrule h.sched h.forks, fun p => ?_⟩
    obtain heq | ⟨heq, -⟩ := s.account_priority op p
    · exact heq ▸ h.priority p
    · rw [h.startPriority p] at heq
      exact heq ▸ h.priority p
  | refused => exact h
  | @set _ c p priority _ hpriority =>
    refine ⟨h.sched, h.forks, h.present, fun r => ?_⟩
    dsimp only
    rw [update_apply]
    split
    next => exact hpriority
    next => exact h.priority r

omit [DecidableEq C] in
theorem sound_boot : (boot : State C).Sound where
  sched := ProcTable.State.sched_boot
  forks := ProcTable.State.forks_boot
  present := nofun
  priority _ := ⟨le_rfl, zero_le_two⟩

variable {events : List (Event C)}

theorem run_sound (hrun : Runs.run step boot events = some s) : s.Sound :=
  Runs.run_invariant (fun _ _ _ hstep h => h.step hstep) hrun sound_boot

omit [DecidableEq C] in
/-- A step that leaves the processors alone counts nothing. -/
theorem ticks_of_same (hcpu : ∀ d, (s'.table.cpu d).proc = (s.table.cpu d).proc)
    (hticks : s'.ticks_runs = s.ticks_runs) :
    s'.ticks_runs q + s'.onCpu q = s.ticks_runs q + s.onCpu q := by
  have hcur : s'.table.Current q ↔ s.table.Current q := by
    unfold ProcTable.State.Current
    simp only [hcpu]
  rw [hticks, onCpu_congr hcur]

/-- A process comes back from its turn, which is counted. -/
theorem ticks_back (h : s.Sound) (hstep : s.step (.table (.back c)) = some s') :
    s'.ticks_runs q + s'.onCpu q = s.ticks_runs q + s.onCpu q := by
  obtain ⟨table, htable, rfl⟩ := map_eq_some_iff.mp hstep
  obtain ⟨hctl, htable⟩ := ite_none_right_eq_some.mp htable
  cases htable
  have hok := h.sched.cpu c
  simp only [ProcTable.State.CpuOk, hctl] at hok
  by_cases hq : q = (s.table.cpu c).loop
  · subst hq
    -- it was on this processor only
    rw [onCpu_of_current (s := s) ⟨c, hok.1⟩, onCpu_of_not_current]
    · simp [account]
    · rintro ⟨d, hd⟩
      by_cases hdc : d = c
      · simp [hdc] at hd
      · simp only [update_of_ne hdc] at hd
        exact hdc (h.sched.unique d c _ hd hok.1)
  · rw [onCpu_congr (s := s)]
    · simp [account, update_of_ne hq]
    · refine exists_congr fun d => ?_
      by_cases hdc : d = c
      · subst hdc
        simp [hok.1, Ne.symm hq]
      · simp [hdc]

/-- A scheduler goes on, or gives a process its turn. -/
theorem ticks_scan (h : s.Sound) (hstep : s.step (.table (.scan c)) = some s') :
    s'.ticks_runs q + s'.onCpu q =
      s.ticks_runs q + s.onCpu q + if s.Dispatches (.table (.scan c)) q then 1 else 0 := by
  obtain ⟨table, htable, rfl⟩ := map_eq_some_iff.mp hstep
  cases hctl : (s.table.cpu c).ctl with
  | scan i =>
    simp only [ProcTable.State.step, hctl] at htable
    cases htable
    obtain ⟨hnone, hlock⟩ := h.sched.scanning hctl
    have hat : s.Dispatches (.table (.scan c)) q ↔
        i = q ∧ (s.table.proc q).state = .runnable := by
      simp only [Dispatches, hctl, ProcTable.Ctl.scan.injEq]
    obtain ⟨hi, hready, hcpu⟩ | ⟨hnot, hsame⟩ := s.table.scanBody_cases c i
    · have hidle : ¬ s.table.Current ⟨i, hi⟩ := by
        rintro ⟨d, hd⟩
        by_cases hdc : d = c
        · rw [hdc, hnone] at hd
          cases hd
        · obtain ⟨-, hnone'⟩ | ⟨r, -, hr, hrun⟩ := h.sched.outside (c := d) (by simp [hlock, Ne.symm hdc])
          · rw [hnone'] at hd
            cases hd
          · obtain rfl : r = ⟨i, hi⟩ := some.inj (hr.symm.trans hd)
            rw [hready] at hrun
            cases hrun
      by_cases hq : q = ⟨i, hi⟩
      · subst hq
        rw [if_pos (hat.mpr ⟨rfl, hready⟩), onCpu_of_not_current hidle, onCpu_of_current, add_zero]
        · rfl
        · exact ⟨c, by simp [hcpu]⟩
      · rw [if_neg fun hd => hq (Fin.ext (hat.mp hd).1.symm), onCpu_congr (s := s), add_zero]
        · rfl
        · refine exists_congr fun d => ?_
          by_cases hdc : d = c
          · subst hdc
            simp [hcpu, hnone, Ne.symm hq]
          · simp [hcpu, hdc]
    · rw [if_neg fun hd => hnot q (hat.mp hd).1 (hat.mp hd).2, add_zero]
      exact ticks_of_same hsame rfl
  | _ => simp [ProcTable.State.step, hctl] at htable

/-- **One step counts one turn.** -/
theorem ticks_step (h : s.Sound) (hstep : s.step e = some s') (q : ProcTable.Slot) :
    s'.ticks_runs q + s'.onCpu q =
      s.ticks_runs q + s.onCpu q + if s.Dispatches e q then 1 else 0 := by
  by_cases hscan : ∃ c, e = .table (.scan c)
  · obtain ⟨c, rfl⟩ := hscan
    exact ticks_scan h hstep
  have hnot : ¬ s.Dispatches e q := by
    unfold Dispatches
    split
    next c => exact absurd ⟨c, rfl⟩ hscan
    next => exact id
  rw [if_neg hnot, add_zero]
  cases steps_of_step hstep with
  | @table op table htable =>
    by_cases hback : ∃ c, op = .back c
    · obtain ⟨c, rfl⟩ := hback
      exact ticks_back h hstep
    · refine ticks_of_same (fun d => ?_) (account_ticks_runs fun c hc => hback ⟨c, hc⟩)
      obtain hsame | ⟨hop, -⟩ | ⟨hop, -⟩ :=
        ProcTable.State.cpuProc_of_rule (ProcTable.State.step_rule htable) d
      · exact hsame
      · exact absurd ⟨d, congrArg Event.table hop⟩ hscan
      · exact absurd ⟨d, hop⟩ hback
  | refused => rfl
  | set => exact ticks_of_same (fun _ => rfl) rfl

/-- **A run counts the turns.** -/
theorem ticks_run (h : s.Sound) (hrun : Runs.run step s events = some s') (q : ProcTable.Slot) :
    s'.ticks_runs q + s'.onCpu q = s.ticks_runs q + s.onCpu q + turns q s events := by
  induction events generalizing s with
  | nil =>
    cases hrun
    exact (add_zero _).symm
  | cons e events ih =>
    obtain ⟨t, ht, hrest⟩ := Runs.run_cons_eq_some.mp hrun
    rw [ih (h.step ht) hrest, ticks_step h ht q, turns, ht, add_assoc]

/-! ## What a new process finds in its slot -/

/-- While `fork` prepares a slot, nobody touches its two fields. -/
theorem leftover_step (h : s.Sound) (hstep : s.step e = some s')
    (he : ∀ c, e ≠ .table (.allocproc c q)) (hq : (s'.table.proc q).state = .embryo) :
    (s.table.proc q).state = .embryo ∧ s'.priority q = s.priority q ∧
      s'.ticks_runs q = s.ticks_runs q := by
  cases steps_of_step hstep with
  | @table op table htable =>
    have hembryo := ProcTable.State.embryo_of_rule (ProcTable.State.step_rule htable) h.sched
      h.forks (fun c hc => he c (congrArg Event.table hc)) hq
    refine ⟨hembryo, ?_, ?_⟩
    · obtain heq | ⟨heq, -⟩ := s.account_priority op q
      · exact heq
      · exact heq.trans (h.startPriority q)
    · by_cases hback : ∃ c, op = .back c
      · obtain ⟨c, rfl⟩ := hback
        obtain ⟨hctl, -⟩ := ite_none_right_eq_some.mp htable
        have hok := h.sched.cpu c
        simp only [ProcTable.State.CpuOk, hctl] at hok
        refine update_of_ne ?_ ..
        rintro rfl
        exact (h.present _ ⟨c, hok.1⟩).2 hembryo
      · exact congrFun (account_ticks_runs fun c hc => hback ⟨c, hc⟩) q
  | refused => exact ⟨hq, rfl, rfl⟩
  | @set _ c p priority hctl =>
    have hok := h.sched.cpu c
    simp only [ProcTable.State.CpuOk, hctl] at hok
    refine ⟨hq, update_of_ne ?_ .., rfl⟩
    rintro rfl
    cases hok.2.2.2.symm.trans hq

/-- The run leaves the slot to the `fork` that has it. -/
def Reserved (q : ProcTable.Slot) (events : List (Event C)) : Prop :=
  ∀ e ∈ events, ∀ c, e ≠ .table (.allocproc c q)

theorem leftover_run (h : s.Sound) (hrun : Runs.run step s events = some s')
    (he : Reserved q events) (hq : (s'.table.proc q).state = .embryo) :
    (s.table.proc q).state = .embryo ∧ s'.priority q = s.priority q ∧
      s'.ticks_runs q = s.ticks_runs q := by
  induction events generalizing s with
  | nil =>
    cases hrun
    exact ⟨hq, rfl, rfl⟩
  | cons e events ih =>
    obtain ⟨t, ht, hrest⟩ := Runs.run_cons_eq_some.mp hrun
    obtain ⟨hembryo, hpriority, hticks⟩ :=
      ih (h.step ht) hrest fun e' he' => he e' (List.mem_cons_of_mem e he')
    obtain ⟨hembryo', hpriority', hticks'⟩ :=
      leftover_step h ht (he e List.mem_cons_self) hembryo
    exact ⟨hembryo', hpriority.trans hpriority', hticks.trans hticks'⟩

/-- In some run a `fork` takes the slot `q` in the state `t`, and gives it to its child in the step that
leads to `s`. -/
def Creates (q : ProcTable.Slot) (t s : State C) : Prop :=
  ∃ before c during d p u, Runs.run step boot before = some t ∧
    Runs.run step t (.table (.allocproc c q) :: during) = some u ∧ Reserved q during ∧
    (u.table.cpu d).ctl = .user p ∧ (u.table.proc p).np = some (q, .parented) ∧
    u.step (.table (.publish d)) = some s

/-- The child of a `fork` has what was in its slot. -/
theorem Creates.leftover (h : Creates q t s) :
    s.Sound ∧ ¬ s.table.Current q ∧ s.priority q = t.priority q ∧ s.ticks_runs q = t.ticks_runs q := by
  obtain ⟨before, c, during, d, p, u, hbefore, hfork, hreserved, hctl, hnp, hpublish⟩ := h
  obtain ⟨t', halloc, hduring⟩ := Runs.run_cons_eq_some.mp hfork
  have ht := run_sound hbefore
  have ht' := ht.step halloc
  have hu : u.Sound := Runs.run_invariant (fun _ _ _ hstep h => h.step hstep) hduring ht'
  have hembryo := (hu.forks.prepared p q _ hnp).state
  obtain ⟨-, hpriority, hticks⟩ := leftover_run ht' hduring hreserved hembryo
  have hidle : ¬ u.table.Current q := fun hcur => (hu.present q hcur).2 hembryo
  -- `allocproc` and the last step change neither field
  have halloc' : t'.priority = t.priority ∧ t'.ticks_runs = t.ticks_runs := by
    obtain ⟨table, -, rfl⟩ := map_eq_some_iff.mp halloc
    exact ⟨rfl, rfl⟩
  obtain ⟨table, htable, rfl⟩ := map_eq_some_iff.mp hpublish
  refine ⟨hu.step hpublish, ?_, ?_, ?_⟩
  · rintro ⟨d', hd'⟩
    obtain hsame | ⟨hop, -⟩ | ⟨hop, -⟩ :=
      ProcTable.State.cpuProc_of_rule (ProcTable.State.step_rule htable) d'
    · exact hidle ⟨d', hsame.symm.trans hd'⟩
    · cases hop
    · cases hop
  · rw [← halloc'.1, ← hpriority]
    obtain heq | ⟨heq, -⟩ := u.account_priority (.publish d) q
    · exact heq
    · exact heq.trans (hu.startPriority q)
  · rw [← halloc'.2, ← hticks]
    exact congrFun (account_ticks_runs nofun) q

/-- **A new process has what the last one left in its slot.**  It starts with the priority `MEDIUM` exactly if
that is what the slot has when `fork` takes it; its ticks are the number of its own turns, while it is not in
one, exactly if those of the slot are zero; and in two runs the two fields agree exactly if those of the
slot do. -/
theorem fork_inherits (h : Creates q t s) :
    (s.priority q = MEDIUM ↔ t.priority q = MEDIUM) ∧
    ((∀ after s', Runs.run step s after = some s' → Reserved q after →
        s'.ticks_runs q + s'.onCpu q = turns q s after) ↔ t.ticks_runs q = 0) ∧
    ∀ t' s' : State C, Creates q t' s' →
      (s.priority q = s'.priority q ∧ s.ticks_runs q = s'.ticks_runs q ↔
        t.priority q = t'.priority q ∧ t.ticks_runs q = t'.ticks_runs q) := by
  obtain ⟨hsound, hidle, hpriority, hticks⟩ := h.leftover
  refine ⟨by rw [hpriority], ⟨fun hcounts => ?_, fun hzero after s' hrun _ => ?_⟩, fun t' s' h' => ?_⟩
  · have hnow := hcounts [] s rfl nofun
    rwa [onCpu_of_not_current hidle, hticks, add_zero] at hnow
  · rw [ticks_run hsound hrun q, onCpu_of_not_current hidle, hticks, hzero, add_zero, zero_add]
  · obtain ⟨-, -, hpriority', hticks'⟩ := h'.leftover
    rw [hpriority, hticks, hpriority', hticks']

/-- A run in which a `fork` of `p` takes the slot `q`, and what its child gets. -/
theorem exists_creates (before during : List (Event C)) (c d : C) {p : ProcTable.Slot} {x y : ℤ}
    (hreserved : Reserved q during)
    (hready : (Runs.run step boot (before ++ .table (.allocproc c q) :: during)).map
      (fun u => ((u.table.cpu d).ctl, (u.table.proc p).np)) = some (.user p, some (q, .parented)))
    (hchild : (Runs.run step boot
      ((before ++ .table (.allocproc c q) :: during) ++ [.table (.publish d)])).map
      (fun s => ((s.table.proc q).parent, s.priority q, s.ticks_runs q)) = some (some p, x, y)) :
    ∃ t s : State C, Creates q t s ∧ (s.table.proc q).parent = some p ∧ s.priority q = x ∧
      s.ticks_runs q = y := by
  obtain ⟨u, hu, hobserved⟩ := map_eq_some_iff.mp hready
  obtain ⟨s, hs, hfields⟩ := map_eq_some_iff.mp hchild
  obtain ⟨t, ht, hfork⟩ := Runs.run_append_eq_some.mp hu
  obtain ⟨u', hu', hlast⟩ := Runs.run_append_eq_some.mp hs
  obtain rfl : u = u' := some.inj (hu.symm.trans hu')
  obtain ⟨s', hpublish, hnil⟩ := Runs.run_cons_eq_some.mp hlast
  cases hnil
  rw [Prod.mk.injEq] at hobserved
  rw [Prod.mk.injEq, Prod.mk.injEq] at hfields
  exact ⟨t, s, ⟨before, c, during, d, p, u, ht, hfork, hreserved, hobserved.1, hobserved.2, hpublish⟩,
    hfields⟩

/-- The first process gets its first turn. -/
def firstTurn : List (Event ℕ) := [.table (.enter 0), .table (.scan 0), .table (.resume 0)]

/-- What `fork` does between `allocproc` and its end. -/
def prepare : List (Event ℕ) :=
  [.table (.kstack 0 true), .table (.copyuvm 0 true), .table (.setParent 0)]

/-- The first process forks, and waits for the child: that lowers its priority and exits in its only turn. -/
def childExits : List (Event ℕ) :=
  firstTurn ++ .table (.allocproc 0 1) :: prepare ++
    [.table (.publish 0), .table (.wait 0), .table (.leave 0), .table (.back 0), .table (.scan 0),
      .table (.resume 0), .setSchedPriority 0 LOW, .table (.exit 0), .table (.leave 0),
      .table (.back 0)] ++
    List.replicate 63 (.table (.scan 0)) ++ firstTurn

theorem reserved_prepare : Reserved 1 prepare := by
  intro e he c heq
  subst heq
  simp [prepare] at he

/-- The child of the first `fork` of all. -/
theorem exists_creates_fresh : ∃ t s : State ℕ, Creates 1 t s ∧
    (s.table.proc 1).parent = some ProcTable.State.initproc ∧ s.priority 1 = HIGH ∧
    s.ticks_runs 1 = 0 :=
  exists_creates firstTurn prepare 0 0 reserved_prepare (by decide +kernel) (by decide +kernel)

/-- The child of the same process in the same slot, after another child has had it. -/
theorem exists_creates_reused : ∃ t s : State ℕ, Creates 1 t s ∧
    (s.table.proc 1).parent = some ProcTable.State.initproc ∧ s.priority 1 = LOW ∧
    s.ticks_runs 1 = 1 :=
  exists_creates childExits prepare 0 0 reserved_prepare (by decide +kernel) (by decide +kernel)

/-- The ticks of the first child are its own. -/
theorem fork_inherits_fresh : ∃ t s : State ℕ, Creates 1 t s ∧ t.ticks_runs 1 = 0 ∧
    ∀ after s', Runs.run step s after = some s' → Reserved 1 after →
      s'.ticks_runs 1 + s'.onCpu 1 = turns 1 s after := by
  obtain ⟨t, s, h, -, -, hticks⟩ := exists_creates_fresh
  have hzero : t.ticks_runs 1 = 0 := h.leftover.2.2.2.symm.trans hticks
  exact ⟨t, s, h, hzero, (fork_inherits h).2.1.mpr hzero⟩

/-- Two children of one process in one slot: the first one starts with the priority of zeroed memory, the second
one with the priority and the turn of the first.  Neither starts at `MEDIUM`. -/
theorem not_fork_fresh_reused : ∃ t s t' s' : State ℕ, Creates 1 t s ∧ Creates 1 t' s' ∧
    (s.table.proc 1).parent = (s'.table.proc 1).parent ∧
    s.priority 1 ≠ s'.priority 1 ∧ s.ticks_runs 1 ≠ s'.ticks_runs 1 ∧
    s.priority 1 ≠ MEDIUM ∧ s'.priority 1 ≠ MEDIUM ∧ s'.ticks_runs 1 ≠ 0 := by
  obtain ⟨t, s, h, hparent, hpriority, hticks⟩ := exists_creates_fresh
  obtain ⟨t', s', h', hparent', hpriority', hticks'⟩ := exists_creates_reused
  refine ⟨t, s, t', s', h, h', hparent.trans hparent'.symm, ?_⟩
  rw [hpriority, hticks, hpriority', hticks']
  decide

end State

end ProcAccounts
