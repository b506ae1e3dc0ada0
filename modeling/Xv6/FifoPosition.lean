/-
# The position in the FIFO queue

`fifo_position` counts the processes that come before a process in the table.  The FIFO scheduler takes the
process that was created first, and of several the one that comes first in the table.  Here the creation times
are added to the machine of `ProcTable`, and it is shown when the two orders agree.
-/
import Xv6.ProcKill

open List Option

/-! ## Pids -/

namespace ProcTable.State

variable {C : Type} {s s' : ProcTable.State C}

variable {p : Slot} {v : Proc}

/-- An entry gets another pid, or keeps its own. -/
theorem pid_setProc (q : Slot) :
    ((s.setProc p v).proc q).pid = (s.proc q).pid ∨ q = p ∧ ((s.setProc p v).proc q).pid = v.pid := by
  rw [setProc_proc]
  split
  next hq => exact .inr ⟨hq, rfl⟩
  next => exact .inl rfl

theorem pid_setProc_of_eq (hv : v.pid = (s.proc p).pid) (q : Slot) :
    ((s.setProc p v).proc q).pid = (s.proc q).pid := by
  rcases pid_setProc (s := s) (p := p) (v := v) q with h | ⟨rfl, h⟩
  · exact h
  · exact h.trans hv

/-- What `fork` writes into its own entry is not the pid. -/
theorem pid_fork {p r : Slot} {np : Option (Slot × Stage)} (q : Slot) :
    (((s.setProc r v).setProc p { s.proc p with np := np }).proc q).pid = (s.proc q).pid ∨
      q = r ∧ (((s.setProc r v).setProc p { s.proc p with np := np }).proc q).pid = v.pid := by
  rw [setProc_proc]
  split
  next hq => exact .inl (by rw [hq])
  next => exact pid_setProc q

variable [DecidableEq C]

/-- `wait` clears the pid of the entry that it frees. -/
theorem WaitRule.pid {c : C} (h : WaitRule s c p s') (q : Slot) :
    (s'.proc q).pid = (s.proc q).pid ∨ (s'.proc q).pid = 0 ∧ (s'.proc q).state = .unused := by
  cases h with
  | reap =>
    rw [release_proc, emit_proc, setProc_proc]
    split
    · exact .inr ⟨rfl, rfl⟩
    · exact .inl rfl
  | childless => exact .inl rfl
  | sleep =>
    refine .inl (pid_setProc_of_eq ?_ q)
    rfl

variable {op : Op C}

/-- Only `allocproc` and `wait` change a pid. -/
theorem pid_of_rule (h : Rule s op s') (q : Slot) :
    (s'.proc q).pid = (s.proc q).pid ∨ ((s'.proc q).pid = 0 ∧ (s'.proc q).state = .unused) ∨
      (∃ c, op = .allocproc c q) ∧ (s'.proc q).pid = s.nextpid := by
  cases h with
  | enter | skip | finish | back => exact .inl rfl
  | dispatch | leave | yield | sleep | resume =>
    refine .inl (pid_setProc_of_eq ?_ q)
    rfl
  | table hkept => exact .inl (hkept q).pid
  | wait _ _ hwait => exact (hwait.pid q).imp_right .inl
  | waitOn _ hwait =>
    refine (hwait.pid q).imp (·.trans (pid_setProc_of_eq ?_ q)) .inl
    rfl
  | @exit c p =>
    have hkept := leaveFamily_kept p q s.proc
    unfold exitBody
    generalize leaveFamily p s.proc = proc at hkept ⊢
    refine .inl ((pid_setProc_of_eq (s := { s with proc := proc }) ?_ q).trans hkept.pid)
    rfl
  | allocproc => exact (pid_fork q).imp_right fun h => .inr ⟨⟨_, by rw [h.1]⟩, h.2⟩
  | kstack | copyuvm | setParent | giveUp | publish =>
    refine .inl ((pid_fork q).elim id ?_)
    rintro ⟨rfl, h⟩
    exact h

theorem waitBody_nextpid (s : ProcTable.State C) (c : C) (p : Slot) :
    (s.waitBody c p).nextpid = s.nextpid := by
  unfold waitBody
  split
  · rfl
  · split <;> rfl

/-- Only `allocproc` takes a pid. -/
theorem nextpid_of_step (h : s.step op = some s') :
    s.nextpid ≤ s'.nextpid ∧ ∀ c q, op = .allocproc c q → s'.nextpid = s.nextpid + 1 := by
  cases op <;> grind [step, locked, forking, scanBody, resumeBody, waitBody_nextpid, exitBody, hold, release,
    setProc, emit, advance, giveUp]

/-- The pids of the entries that are in use are different from each other and from zero. -/
structure Pids (s : ProcTable.State C) : Prop where
  lt : ∀ q, (s.proc q).pid < s.nextpid
  inj : ∀ q r, (s.proc q).pid = (s.proc r).pid → (s.proc q).pid ≠ 0 → q = r
  ne_zero : ∀ q, (s.proc q).state ≠ .unused → (s.proc q).pid ≠ 0

/-- The entry that `allocproc` takes gets the next pid. -/
theorem pid_allocproc {c : C} {q : Slot} (hs : s.Sched) (h : s.step (.allocproc c q) = some s') :
    (s'.proc q).pid = s.nextpid := by
  obtain ⟨hstate, hs'⟩ := ite_none_right_eq_some.mp h
  obtain ⟨p, hctl, hlock, -, rfl⟩ := locked_eq_some.mp hs'
  have hpq : q ≠ p := fun heq => hs.ne_unused (.inl hctl) (heq ▸ hstate)
  simp [advance, hpq]

theorem Pids.step (h : s.Pids) (hs : s.Sched) (hf : s.Forks) (hstep : s.step op = some s') :
    s'.Pids := by
  obtain ⟨hle, hnext⟩ := nextpid_of_step hstep
  have hpid := pid_of_rule (step_rule hstep)
  constructor
  case lt =>
    intro q
    have hq := h.lt q
    obtain heq | ⟨heq, -⟩ | ⟨⟨c, hop⟩, heq⟩ := hpid q
    · omega
    · omega
    · have := hnext c q hop
      omega
  case inj =>
    intro q r heq hne
    have hq := h.lt q
    have hr := h.lt r
    obtain hq' | ⟨hq', -⟩ | ⟨⟨c, hop⟩, hq'⟩ := hpid q
    · obtain hr' | ⟨hr', -⟩ | ⟨⟨c, hop⟩, hr'⟩ := hpid r
      · exact h.inj q r (by omega) (by omega)
      · omega
      · omega
    · omega
    · obtain hr' | ⟨hr', -⟩ | ⟨⟨d, hop'⟩, hr'⟩ := hpid r
      · omega
      · omega
      · rw [hop] at hop'
        cases hop'
        rfl
  case ne_zero =>
    intro q hq
    have hkept : (s.proc q).state ≠ .unused → (s'.proc q).pid ≠ 0 := fun hbefore => by
      obtain heq | ⟨-, heq⟩ | ⟨-, heq⟩ := hpid q
      · exact heq ▸ h.ne_zero q hbefore
      · exact absurd heq hq
      · have := h.lt q
        omega
    cases fate hs hf hstep q with
    | kept _ hstate | killed _ _ hstate | trapped _ _ hstate => exact hkept fun hb => hq (hstate.mpr hb)
    | reaped _ hstate => exact absurd hstate hq
    | created hop _ _ =>
      subst hop
      rw [pid_allocproc hs hstep]
      have := h.lt q
      omega
    | givenUp _ _ hnp _ =>
      refine hkept ?_
      rw [(hf.prepared _ _ _ hnp).state]
      nofun

omit [DecidableEq C] in
theorem pids_boot : (boot : ProcTable.State C).Pids := by
  have hproc : ∀ q, ((boot : ProcTable.State C).proc q).pid = if q = initproc then 1 else 0 := by
    intro q
    by_cases hq : q = initproc <;> simp [boot, Proc.free, hq]
  constructor
  case lt =>
    intro q
    rw [hproc]
    show _ < 2
    split <;> omega
  case inj =>
    intro q r heq hne
    rw [hproc] at heq hne
    rw [hproc] at heq
    split_ifs at heq hne with hq hr
    · rw [hq, hr]
    · omega
  case ne_zero =>
    intro q hq
    rw [hproc, if_pos]
    · simp
    · by_contra hne
      exact hq (by simp [boot, Proc.free, hne])

end ProcTable.State

/-! ## Creation times -/

namespace FifoPosition

open ProcTable (NPROC Proc Op)

/-- The process table, the creation times of its entries and the clock. -/
structure State (C : Type) where
  table : ProcTable.State C
  creation_time : ProcTable.Slot → ℕ
  ticks : ℕ

/-- The steps: those of the table, and the timer interrupt. -/
inductive Event (C : Type) where
  | table (op : Op C)
  | tick

/-- `RUNNABLE`, `RUNNING` or `SLEEPING`. -/
def Queued (v : Proc) : Prop := v.state = .runnable ∨ v.state = .running ∨ v.state = .sleeping

instance (v : Proc) : Decidable (Queued v) := inferInstanceAs (Decidable (_ ∨ _))

theorem Queued.ne_unused {v : Proc} (h : Queued v) : v.state ≠ .unused := by
  rcases h with h | h | h <;> simp [h]

namespace State

variable {C : Type}

/-- After `userinit`. -/
def boot : State C := ⟨.boot, fun _ => 0, 0⟩

/-- The creation times after a step of the table: `allocproc` sets that of its entry when the kernel stack is
there. -/
def created (s : State C) : Op C → ProcTable.Slot → ℕ
  | .kstack c true =>
    match (s.table.cpu c).ctl with
    | .user p =>
      match (s.table.proc p).np with
      | some (q, _) => Function.update s.creation_time q s.ticks
      | none => s.creation_time
    | _ => s.creation_time
  | _ => s.creation_time

/-- **The steps.** -/
def step [DecidableEq C] (s : State C) : Event C → Option (State C)
  | .table op => (s.table.step op).map fun table => { s with table := table, creation_time := s.created op }
  | .tick => some { s with ticks := (s.ticks + 1) % 2 ^ 32 }

/-- The loop of `fifo_position`, at some entry of the table. -/
def positionFrom (s : State C) (pid : ℤ) : List ProcTable.Slot → ℕ → Option ℕ
  | [], _ => none
  | p :: ps, position =>
    if Queued (s.table.proc p) then
      if ((s.table.proc p).pid : ℤ) = pid then some position else positionFrom s pid ps (position + 1)
    else positionFrom s pid ps position

def fifoPosition (s : State C) (pid : ℤ) : ℤ :=
  match s.positionFrom pid (finRange NPROC) 0 with
  | some position => position
  | none => -1

/-- The order of the FIFO scheduler. -/
def Before (s : State C) (p q : ProcTable.Slot) : Prop :=
  s.creation_time p < s.creation_time q ∨ s.creation_time p = s.creation_time q ∧ p < q

instance (s : State C) (p q : ProcTable.Slot) : Decidable (s.Before p q) :=
  inferInstanceAs (Decidable (_ ∨ _))

/-- How many other processes the FIFO scheduler ranks before `q`. -/
def rank (s : State C) (q : ProcTable.Slot) : ℕ :=
  (finRange NPROC).countP fun p => Queued (s.table.proc p) ∧ s.Before p q

/-- **The processes stand in the table in the order in which they were created.** -/
def Ordered (s : State C) : Prop :=
  ∀ p q, Queued (s.table.proc p) → Queued (s.table.proc q) → p < q → s.creation_time p ≤ s.creation_time q

instance (s : State C) : Decidable s.Ordered := by
  unfold Ordered
  infer_instance

variable {s : State C} {p q : ProcTable.Slot}

/-! ## The two orders -/

theorem Before.trans {r : ProcTable.Slot} (h : s.Before p q) (h' : s.Before q r) : s.Before p r := by
  rcases h with h | ⟨heq, h⟩
  · rcases h' with h' | ⟨heq', -⟩
    · exact .inl (h.trans h')
    · exact .inl (heq' ▸ h)
  · rcases h' with h' | ⟨heq', h'⟩
    · exact .inl (heq ▸ h')
    · exact .inr ⟨heq.trans heq', h.trans h'⟩

theorem Before.irrefl (s : State C) (p : ProcTable.Slot) : ¬ s.Before p p := by
  rintro (h | ⟨-, h⟩)
  · exact lt_irrefl _ h
  · exact lt_irrefl _ h

/-- Counting a strict order. -/
theorem countP_lt_of_before {r : ProcTable.Slot → ProcTable.Slot → Prop} [DecidableRel r]
    (htrans : ∀ p q r', r p q → r q r' → r p r') (hirrefl : ∀ p, ¬ r p p)
    (hp : Queued (s.table.proc p)) (hpq : r p q) :
    ((finRange NPROC).countP fun x => Queued (s.table.proc x) ∧ r x p) <
      (finRange NPROC).countP fun x => Queued (s.table.proc x) ∧ r x q := by
  have hcard : ∀ y, ((finRange NPROC).countP fun x => Queued (s.table.proc x) ∧ r x y) =
      (Finset.univ.filter fun x => Queued (s.table.proc x) ∧ r x y).card := by
    intro y
    rw [countP_eq_length_filter]
    rfl
  rw [hcard, hcard]
  refine Finset.card_lt_card (Finset.ssubset_iff_of_subset ?_ |>.mpr ⟨p, ?_, ?_⟩)
  · intro x hx
    obtain ⟨-, hx, hxp⟩ := Finset.mem_filter.mp hx
    exact Finset.mem_filter.mpr ⟨Finset.mem_univ x, hx, htrans x p q hxp hpq⟩
  · exact Finset.mem_filter.mpr ⟨Finset.mem_univ p, hp, hpq⟩
  · intro h
    exact hirrefl p (Finset.mem_filter.mp h).2.2

/-- The loop of `fifo_position` counts what comes before the process. -/
theorem positionFrom_eq (hpids : s.table.Pids) (hq : Queued (s.table.proc q)) (l : List ProcTable.Slot)
    (hl : l.Pairwise (· < ·)) (hmem : q ∈ l) (n : ℕ) :
    s.positionFrom (s.table.proc q).pid l n = some (n + l.countP fun p => Queued (s.table.proc p) ∧ p < q) := by
  have hnone : ∀ l : List ProcTable.Slot, (∀ p ∈ l, q < p) →
      l.countP (fun p => Queued (s.table.proc p) ∧ p < q) = 0 := by
    intro l hl
    rw [countP_eq_zero]
    intro p hp
    have hlt := hl p hp
    simp [hlt.le]
  induction l generalizing n with
  | nil => cases hmem
  | cons a l ih =>
    obtain ⟨hal, hl⟩ := pairwise_cons.mp hl
    rw [positionFrom, countP_cons]
    by_cases haq : a = q
    · subst haq
      rw [if_pos hq, if_pos rfl, hnone l hal]
      simp
    · have hmem := mem_of_ne_of_mem (Ne.symm haq) hmem
      by_cases ha : Queued (s.table.proc a)
      · have hpid : ((s.table.proc a).pid : ℤ) ≠ (s.table.proc q).pid := fun heq =>
          haq (hpids.inj a q (Int.ofNat.inj heq) (hpids.ne_zero a ha.ne_unused))
        rw [if_pos ha, if_neg hpid, ih hl hmem]
        simp [ha, hal q hmem]
        omega
      · rw [if_neg ha, ih hl hmem]
        simp [ha]

/-- `fifo_position` counts the processes before `q` in the table. -/
theorem fifoPosition_eq (hpids : s.table.Pids) (hq : Queued (s.table.proc q)) :
    s.fifoPosition (s.table.proc q).pid =
      (finRange NPROC).countP fun p => Queued (s.table.proc p) ∧ p < q := by
  rw [fifoPosition, positionFrom_eq hpids hq _ (pairwise_lt_finRange NPROC) (mem_finRange q), zero_add]

/-- In an ordered table both orders are the same. -/
theorem Ordered.before_iff (h : s.Ordered) (hp : Queued (s.table.proc p)) (hq : Queued (s.table.proc q)) :
    s.Before p q ↔ p < q := by
  constructor
  · intro hb
    by_contra hle
    rcases (not_lt.mp hle).lt_or_eq with hlt | rfl
    · have hct := h q p hq hp hlt
      rcases hb with hb | ⟨-, hb⟩
      · omega
      · exact hle hb
    · exact Before.irrefl s q hb
  · intro hlt
    rcases (h p q hp hq hlt).lt_or_eq with hct | hct
    · exact .inl hct
    · exact .inr ⟨hct, hlt⟩

variable [DecidableEq C]

/-- The pids stay different along a run. -/
theorem run_pids {events : List (Event C)} (hrun : Runs.run step boot events = some s) : s.table.Pids := by
  refine (Runs.run_invariant (I := fun s : State C => (s.table.Sched ∧ s.table.Forks) ∧ s.table.Pids)
    (fun s e s' hstep h => ?_) hrun ⟨⟨ProcTable.State.sched_boot, ProcTable.State.forks_boot⟩,
      ProcTable.State.pids_boot⟩).2
  obtain ⟨⟨hs, hf⟩, hpids⟩ := h
  cases e with
  | table op =>
    obtain ⟨table, htable, rfl⟩ := map_eq_some_iff.mp hstep
    have hrule := ProcTable.State.step_rule htable
    exact ⟨⟨hs.rule hf hrule, hf.rule hs hrule⟩, hpids.step hs hf htable⟩
  | tick =>
    cases hstep
    exact ⟨⟨hs, hf⟩, hpids⟩

/-- **`fifo_position` agrees with the FIFO scheduler** on a table that was reached if and only if the processes
stand there in the order of their creation times. -/
theorem position_eq_rank_iff {events : List (Event C)} (hrun : Runs.run step boot events = some s) :
    (∀ q, Queued (s.table.proc q) → s.fifoPosition (s.table.proc q).pid = s.rank q) ↔ s.Ordered := by
  have hpids := run_pids hrun
  constructor
  · intro heq p q hp hq hlt
    by_contra hct
    have hindex := countP_lt_of_before (s := s) (r := (· < ·)) (fun _ _ _ => lt_trans) lt_irrefl hp hlt
    have htime := countP_lt_of_before (s := s) (r := s.Before) (fun _ _ _ => Before.trans) (Before.irrefl s) hq
      (.inl (not_le.mp hct) : s.Before q p)
    have hposp := heq p hp
    have hposq := heq q hq
    rw [fifoPosition_eq hpids hp] at hposp
    rw [fifoPosition_eq hpids hq] at hposq
    unfold rank at hposp hposq
    omega
  · intro hord q hq
    rw [fifoPosition_eq hpids hq, rank]
    refine congrArg Nat.cast (countP_congr fun p _ => ?_)
    simp only [decide_eq_true_eq]
    exact and_congr_right fun hp => (hord.before_iff hp hq).symm

/-- A `fork` of the first process, up to the end. -/
def forks (q : ProcTable.Slot) : List (Event ℕ) :=
  [.table (.allocproc 0 q), .table (.kstack 0 true), .table (.copyuvm 0 true), .table (.setParent 0),
    .table (.publish 0), .tick]

/-- The first process forks twice, one tick apart. -/
def twoChildren : List (Event ℕ) :=
  [.table (.enter 0), .table (.scan 0), .table (.resume 0), .tick] ++ forks 1 ++ forks 2

theorem position_eq_rank_twoChildren : ∃ s : State ℕ, Runs.run step boot twoChildren = some s ∧
    s.Ordered ∧ ∀ q, Queued (s.table.proc q) → s.fifoPosition (s.table.proc q).pid = s.rank q := by
  have hmap : (Runs.run step boot twoChildren).map (fun s => decide s.Ordered) = some true := by
    decide +kernel
  obtain ⟨s, hrun, hord⟩ := map_eq_some_iff.mp hmap
  exact ⟨s, hrun, of_decide_eq_true hord, (position_eq_rank_iff hrun).mpr (of_decide_eq_true hord)⟩

/-- The first child exits and is waited for, and its place in the table goes to a third one. -/
def reusedSlot : List (Event ℕ) :=
  twoChildren ++ [.table (.wait 0), .table (.leave 0), .table (.back 0), .table (.scan 0), .table (.resume 0),
    .table (.exit 0), .table (.leave 0), .table (.back 0), .table (.scan 0), .table (.resume 0),
    .table (.yield 0), .table (.leave 0), .table (.back 0)] ++ replicate 62 (.table (.scan 0)) ++
    [.table (.enter 0), .table (.scan 0), .table (.resume 0)] ++ forks 1

/-- The youngest process is second in the table, and last in the order of the scheduler. -/
theorem not_position_eq_rank_reused : ∃ s : State ℕ, Runs.run step boot reusedSlot = some s ∧
    (s.table.proc 1).pid = 4 ∧ (s.table.proc 1).state = .runnable ∧ s.fifoPosition 4 = 1 ∧ s.rank 1 = 2 := by
  have hmap : (Runs.run step boot reusedSlot).map (fun s =>
      ((s.table.proc 1).pid, (s.table.proc 1).state, s.fifoPosition 4, s.rank 1)) = some (4, .runnable, 1, 2) := by
    decide +kernel
  obtain ⟨s, hrun, heq⟩ := map_eq_some_iff.mp hmap
  simp only [Prod.mk.injEq] at heq
  exact ⟨s, hrun, heq⟩

end State

end FifoPosition
