/-
# The process table and the processors

`allocproc`, `fork`, `exit`, `wait`, `scheduler`, `sched`, `yield`, `sleep`, `wakeup` and `kill` of
`proc.c`, as steps of any number of processors.  `ptable.lock` is held by a processor, not by a
thread: it is acquired by a process that calls `sched`, goes with the processor through `swtch`
into the scheduler and from there into another process, and is released by that one.

A step is a stretch of code that runs under the lock, up to the next `swtch` or `release`, or a
write to the table outside of the lock.  The writes of the second kind are those of `fork` to the
slot it has taken: to its `parent`, and to its `state` when it gives the slot up.  No stretch of
the first kind reads them, except for the loop of `allocproc`: a slot may be given up when the loop
is past it.  The step `allocproc` is therefore possible with every unused slot.
-/
import Xv6.Runs

open Function List

namespace ProcTable

/-! ## State -/

/-- Maximum number of processes. -/
abbrev NPROC : ℕ := 64

instance neZero_nproc : NeZero NPROC := ⟨by decide⟩

/-- An entry of `ptable.proc`. -/
abbrev Slot : Type := Fin NPROC

/-- `enum procstate`. -/
inductive ProcState where
  | unused
  | embryo
  | sleeping
  | runnable
  | running
  | zombie
deriving DecidableEq

/-- What a process sleeps on: `wait` uses the address of the process itself, every other caller
of `sleep` some other address. -/
inductive Chan where
  | proc (p : Slot)
  | addr (a : ℕ)
deriving DecidableEq

/-- Where the kernel thread of a process goes on when the scheduler switches to it. -/
inductive Cont where
  /-- a new process -/
  | forkret
  /-- after `sched` in `yield` -/
  | yield
  /-- after `sched` in a `sleep` with another lock than `ptable.lock` -/
  | sleep
  /-- after `sched` in the `sleep` of `wait` -/
  | wait
  /-- after `sched` in `exit` -/
  | exit
deriving DecidableEq

/-- How far a `fork` has come with the slot that `allocproc` found. -/
inductive Stage where
  /-- `allocproc` has released the lock -/
  | allocated
  /-- the kernel stack and the first context are there -/
  | stacked
  /-- the page table is copied -/
  | copied
  /-- `np->parent` is set -/
  | parented
deriving DecidableEq

/-- `struct proc`, with what the kernel thread of the process has on its stack. -/
structure Proc where
  state : ProcState
  pid : ℕ
  parent : Option Slot
  chan : Option Chan
  killed : Bool
  /-- The kernel stack and the page directory are allocated. -/
  kstack : Bool
  pgdir : Bool
  /-- `context` points to saved registers. -/
  context : Bool
  cont : Cont
  /-- The local variable `np` of a `fork` in progress. -/
  np : Option (Slot × Stage)

/-- An unused entry. -/
def Proc.free : Proc := ⟨.unused, 0, none, none, false, false, false, false, .forkret, none⟩

/-- Where a processor is. -/
inductive Ctl where
  /-- in `scheduler`, without the lock -/
  | idle
  /-- in the loop of `scheduler`, with the lock, before slot `i` -/
  | scan (i : ℕ)
  /-- in `scheduler`, with the lock, after its `swtch` -/
  | back
  /-- on the kernel stack of `p`, with the lock, before the `swtch` of `sched` -/
  | leave (p : Slot)
  /-- on the kernel stack of `p`, with the lock, after the `swtch` to it -/
  | resumed (p : Slot)
  /-- running `p`, without the lock -/
  | user (p : Slot)
deriving DecidableEq

/-- `struct cpu`. -/
structure Cpu where
  proc : Option Slot
  ctl : Ctl
  /-- The local variable `p` of `scheduler`. -/
  loop : Slot

/-- What can be observed of `exit` and `wait`. -/
inductive Event where
  | exited (p : Slot) (pid : ℕ)
  /-- `wait` of `p` returned the pid of `q`. -/
  | reaped (p q : Slot) (pid : ℕ)
  /-- `wait` of `p` returned `-1`. -/
  | childless (p : Slot)
deriving DecidableEq

/-- The process table, the processors and the lock; `events` records what happened. -/
structure State (C : Type) where
  proc : Slot → Proc
  cpu : C → Cpu
  lock : Option C
  nextpid : ℕ
  events : List Event

variable {C : Type}

namespace State

/-- The slot that `userinit` takes, the first one. -/
def initproc : Slot := 0

/-- Change an entry of the table. -/
def setProc (s : State C) (p : Slot) (v : Proc) : State C :=
  { s with proc := update s.proc p v }

/-- Record an event. -/
def emit (s : State C) (e : Event) : State C := { s with events := s.events ++ [e] }

/-- After `userinit`: the first process is runnable, and every processor enters `scheduler`. -/
def boot : State C where
  proc := update (fun _ => Proc.free) initproc
    ⟨.runnable, 1, none, none, false, true, true, true, .forkret, none⟩
  cpu := fun _ => ⟨none, .idle, 0⟩
  lock := none
  nextpid := 2
  events := []

section Simp

variable (s : State C) (p r : Slot) (v : Proc) (e : Event)

@[simp, grind =] theorem setProc_proc :
    (s.setProc p v).proc r = if r = p then v else s.proc r := by
  simp [setProc, update_apply]

theorem setProc_self : s.setProc p { s.proc p with chan := (s.proc p).chan } = s := by
  simp [setProc]

@[simp, grind =] theorem setProc_cpu : (s.setProc p v).cpu = s.cpu := rfl

@[simp, grind =] theorem setProc_lock : (s.setProc p v).lock = s.lock := rfl

@[simp, grind =] theorem setProc_events : (s.setProc p v).events = s.events := rfl

@[simp, grind =] theorem emit_proc : (s.emit e).proc = s.proc := rfl

@[simp, grind =] theorem emit_cpu : (s.emit e).cpu = s.cpu := rfl

@[simp, grind =] theorem emit_lock : (s.emit e).lock = s.lock := rfl

@[simp, grind =] theorem emit_events : (s.emit e).events = s.events ++ [e] := rfl

end Simp

/-! ## The loops over the table -/

/-- Wake up all processes sleeping on `chan`. -/
def wakeup1 (chan : Chan) (proc : Slot → Proc) : Slot → Proc := fun q =>
  if (proc q).state = .sleeping ∧ (proc q).chan = some chan then
    { proc q with state := .runnable }
  else proc q

/-- One round of the loop of `exit` over the table: a child of `p` goes to `initproc`. -/
def abandon (p : Slot) (proc : Slot → Proc) (q : Slot) : Slot → Proc :=
  if (proc q).parent = some p then
    let proc := update proc q { proc q with parent := some initproc }
    if (proc q).state = .zombie then wakeup1 (.proc initproc) proc else proc
  else proc

/-- What `exit` does to the other entries: it wakes up the parent and passes on the children. -/
def leaveFamily (p : Slot) (proc : Slot → Proc) : Slot → Proc :=
  let proc := match (proc p).parent with
    | some parent => wakeup1 (.proc parent) proc
    | none => proc
  (finRange NPROC).foldl (abandon p) proc

/-- The first exited child of `p` in the table. -/
def exitedChild (s : State C) (p : Slot) : Option Slot :=
  (finRange NPROC).find? fun q =>
    (s.proc q).parent = some p ∧ (s.proc q).state = .zombie

/-- `p` has a child. -/
def HasKids (s : State C) (p : Slot) : Prop := ∃ q, (s.proc q).parent = some p

instance (s : State C) (p : Slot) : Decidable (s.HasKids p) := by
  unfold HasKids
  infer_instance

/-- What `wait` finds is an exited child. -/
theorem exitedChild_eq_some {s : State C} {p q : Slot} (h : s.exitedChild p = some q) :
    (s.proc q).parent = some p ∧ (s.proc q).state = .zombie := by
  simpa using find?_some h

/-- The first entry with a pid. -/
def withPid (s : State C) (pid : ℕ) : Option Slot :=
  (finRange NPROC).find? fun q => (s.proc q).pid = pid

/-! ## Guards -/

/-- A step of the current process of `c` that may not be in the middle of a `fork`, with the lock
free. -/
def locked (s : State C) (c : C) (f : Slot → State C) : Option (State C) :=
  match (s.cpu c).ctl with
  | .user p => if s.lock = none ∧ (s.proc p).np = none then some (f p) else none
  | _ => none

/-- A step of the current process of `c` in the middle of a `fork` at `stage`. -/
def forking (s : State C) (c : C) (stage : Stage) (f : Slot → Slot → State C) :
    Option (State C) :=
  match (s.cpu c).ctl with
  | .user p =>
    match (s.proc p).np with
    | some (q, st) => if st = stage then some (f p q) else none
    | none => none
  | _ => none

/-- A step under the lock starts in a process that is not in the middle of a `fork`. -/
theorem locked_eq_some {s s' : State C} {c : C} {f : Slot → State C} :
    s.locked c f = some s' ↔
      ∃ p, (s.cpu c).ctl = .user p ∧ s.lock = none ∧ (s.proc p).np = none ∧ f p = s' := by
  unfold locked
  split
  next p hp => simp [hp, and_assoc]
  next hp => simpa using fun p h => absurd h (hp p)

/-- A step of `fork` starts at its stage. -/
theorem forking_eq_some {s s' : State C} {c : C} {stage : Stage} {f : Slot → Slot → State C} :
    s.forking c stage f = some s' ↔
      ∃ p q, (s.cpu c).ctl = .user p ∧ (s.proc p).np = some (q, stage) ∧ f p q = s' := by
  unfold forking
  split
  next p hp =>
      split
      next q st hq => grind
      next hq => simp [hp, hq]
  next hp =>
      simp only [reduceCtorEq, false_iff, not_exists]
      exact fun p q h => hp p h.1

/-! ## Stretches of code -/

/-- `fork` gives up the slot `q`. -/
def giveUp (s : State C) (p q : Slot) : State C :=
  (s.setProc q { s.proc q with kstack := false, state := .unused }).setProc p
    { s.proc p with np := none }

/-- The `fork` of `p` has come to `stage` with the slot `q`, which is now `v`. -/
def advance (s : State C) (p q : Slot) (v : Proc) (stage : Stage) : State C :=
  (s.setProc q v).setProc p { s.proc p with np := some (q, stage) }

variable [DecidableEq C]

/-- The processor `c` goes to `ctl` and has the lock. -/
def hold (s : State C) (c : C) (ctl : Ctl) : State C :=
  { s with lock := some c, cpu := update s.cpu c { s.cpu c with ctl := ctl } }

/-- The processor `c` goes to `ctl` and nobody has the lock. -/
def release (s : State C) (c : C) (ctl : Ctl) : State C :=
  { s with lock := none, cpu := update s.cpu c { s.cpu c with ctl := ctl } }

section Simp

variable (s : State C) (c d : C) (ctl : Ctl)

@[simp, grind =] theorem hold_proc : (s.hold c ctl).proc = s.proc := rfl

@[simp, grind =] theorem hold_cpu :
    (s.hold c ctl).cpu d = if d = c then { s.cpu c with ctl := ctl } else s.cpu d := by
  simp [hold, update_apply]

@[simp, grind =] theorem hold_lock : (s.hold c ctl).lock = some c := rfl

@[simp, grind =] theorem hold_events : (s.hold c ctl).events = s.events := rfl

@[simp, grind =] theorem release_proc : (s.release c ctl).proc = s.proc := rfl

@[simp, grind =] theorem release_cpu :
    (s.release c ctl).cpu d = if d = c then { s.cpu c with ctl := ctl } else s.cpu d := by
  simp [release, update_apply]

@[simp, grind =] theorem release_lock : (s.release c ctl).lock = none := rfl

@[simp, grind =] theorem release_events : (s.release c ctl).events = s.events := rfl

end Simp

/-- `exit` of `p` on `c`, up to `sched`. -/
def exitBody (s : State C) (c : C) (p : Slot) : State C :=
  let proc := leaveFamily p s.proc
  ((({ s with proc := proc }).setProc p { proc p with state := .zombie, cont := .exit }).emit
    (.exited p (s.proc p).pid)).hold c (.leave p)

/-- One round of the loop of `wait` in `p` on `c`, with the lock: an exited child is freed, or
there is nothing to wait for, or `p` goes to sleep. -/
def waitBody (s : State C) (c : C) (p : Slot) : State C :=
  match s.exitedChild p with
  | some q =>
    ((s.setProc q { s.proc q with
        kstack := false, pgdir := false, pid := 0, parent := none, killed := false,
        state := .unused }).emit (.reaped p q (s.proc q).pid)).release c (.user p)
  | none =>
    if ¬ s.HasKids p ∨ (s.proc p).killed then (s.emit (.childless p)).release c (.user p)
    else
      (s.setProc p { s.proc p with
        chan := some (.proc p), state := .sleeping, cont := .wait }).hold c (.leave p)

/-- The scheduler at slot `i`: it switches to a runnable process, goes on, or releases the lock. -/
def scanBody (s : State C) (c : C) (i : ℕ) : State C :=
  if h : i < NPROC then
    let p : Slot := ⟨i, h⟩
    if (s.proc p).state = .runnable then
      { s.setProc p { s.proc p with state := .running, context := false } with
        cpu := update s.cpu c ⟨some p, .resumed p, p⟩ }
    else s.hold c (.scan (i + 1))
  else s.release c .idle

/-- A process goes on where it had called `sched`; a zombie would panic. -/
def resumeBody (s : State C) (c : C) (p : Slot) : Option (State C) :=
  match (s.proc p).cont with
  | .forkret => some (s.release c (.user p))
  | .yield => some (s.release c (.user p))
  | .sleep => some ((s.setProc p { s.proc p with chan := none }).release c (.user p))
  | .wait => some ((s.setProc p { s.proc p with chan := none }).waitBody c p)
  | .exit => none

end State

/-! ## Steps -/

/-- The steps of a processor. -/
inductive Op (C : Type) where
  /-- `scheduler` acquires the lock. -/
  | enter (c : C)
  /-- One round of the loop of `scheduler`, or its end. -/
  | scan (c : C)
  /-- The `swtch` in `sched`. -/
  | leave (c : C)
  /-- `scheduler` goes on after its `swtch`. -/
  | back (c : C)
  /-- The process goes on after the `swtch` to it. -/
  | resume (c : C)
  | yield (c : C)
  /-- `sleep` on a channel with another lock than `ptable.lock`. -/
  | sleep (c : C) (chan : Chan)
  /-- `wakeup`, in a process or in an interrupt handler. -/
  | wakeup (chan : Chan)
  | kill (c : C) (pid : ℕ)
  /-- A trap sets `killed` of the current process, without the lock. -/
  | trapKill (c : C)
  | exit (c : C)
  | wait (c : C)
  /-- The part of `allocproc` under the lock, in a `fork`: the loop found `q`. -/
  | allocproc (c : C) (q : Slot)
  /-- `kalloc` of the kernel stack, without the lock. -/
  | kstack (c : C) (ok : Bool)
  /-- `copyuvm`, without the lock. -/
  | copyuvm (c : C) (ok : Bool)
  /-- `np->parent = curproc`, without the lock. -/
  | setParent (c : C)
  /-- `np->state = RUNNABLE`, under the lock. -/
  | publish (c : C)

/-- **The steps**; `none` when a step is not possible. -/
def State.step [DecidableEq C] (s : State C) : Op C → Option (State C)
  | .enter c =>
    if (s.cpu c).ctl = .idle ∧ s.lock = none then some (s.hold c (.scan 0)) else none
  | .scan c =>
    match (s.cpu c).ctl with
    | .scan i => some (s.scanBody c i)
    | _ => none
  | .leave c =>
    match (s.cpu c).ctl with
    | .leave p => some ((s.setProc p { s.proc p with context := true }).hold c .back)
    | _ => none
  | .back c =>
    if (s.cpu c).ctl = .back then
      let k := s.cpu c
      some { s with cpu := update s.cpu c ⟨none, .scan (k.loop + 1), k.loop⟩ }
    else none
  | .resume c =>
    match (s.cpu c).ctl with
    | .resumed p => s.resumeBody c p
    | _ => none
  | .yield c =>
    match (s.cpu c).ctl with
    | .user p =>
      if s.lock = none then
        some ((s.setProc p { s.proc p with state := .runnable, cont := .yield }).hold c (.leave p))
      else none
    | _ => none
  | .sleep c chan =>
    s.locked c fun p =>
      (s.setProc p { s.proc p with
        chan := some chan, state := .sleeping, cont := .sleep }).hold c (.leave p)
  | .wakeup chan =>
    if s.lock = none then some { s with proc := wakeup1 chan s.proc } else none
  | .kill c pid =>
    s.locked c fun _ =>
      match s.withPid pid with
      | some q =>
        s.setProc q { s.proc q with
          killed := true
          state := if (s.proc q).state = .sleeping then .runnable else (s.proc q).state }
      | none => s
  | .trapKill c =>
    match (s.cpu c).ctl with
    | .user p => some (s.setProc p { s.proc p with killed := true })
    | _ => none
  | .exit c =>
    match (s.cpu c).ctl with
    | .user p =>
      if s.lock = none ∧ (s.proc p).np = none ∧ p ≠ initproc then some (s.exitBody c p) else none
    | _ => none
  | .wait c => s.locked c fun p => s.waitBody c p
  | .allocproc c q =>
    if (s.proc q).state = .unused then
      s.locked c fun p =>
        { s.advance p q { s.proc q with state := .embryo, pid := s.nextpid } .allocated with
          nextpid := s.nextpid + 1 }
    else none
  | .kstack c ok =>
    s.forking c .allocated fun p q =>
      if ok then
        s.advance p q { s.proc q with kstack := true, context := true, cont := .forkret } .stacked
      else s.giveUp p q
  | .copyuvm c ok =>
    s.forking c .stacked fun p q =>
      if ok then s.advance p q { s.proc q with pgdir := true } .copied else s.giveUp p q
  | .setParent c =>
    s.forking c .copied fun p q => s.advance p q { s.proc q with parent := some p } .parented
  | .publish c =>
    if s.lock = none then
      s.forking c .parented fun p q =>
        (s.setProc q { s.proc q with state := .runnable }).setProc p { s.proc p with np := none }
    else none

end ProcTable
