/-
# The two trap handlers

`trap.c` has two versions of `trap`, one for the lazy allocator (`LAZY`) and one that maps three pages at a
page fault (`LOCALITY`).  They are meant to differ at page faults only.  But in the second one the brace that
ends the `switch` comes after the code behind it: a `break` in the case of a device leaves the function, and
the process is neither preempted by the timer nor made to exit.

A handler is a program that reads `killed`, allocates memory, and performs the actions that can be seen from
outside.  A `kill` from another processor can come before each reading of `killed`.
-/
import Xv6.Prog
import Xv6.ProcTable
import Xv6.Vm

open List

namespace Trap

open ProcTable (ProcState)
open Prog (ret_bind run_bind)

/-! ## What a handler does -/

abbrev T_PGFLT : ℕ := 14
abbrev T_IRQ0 : ℕ := 32
abbrev T_SYSCALL : ℕ := 64
abbrev IRQ_TIMER : ℕ := 0
abbrev IRQ_KBD : ℕ := 1
abbrev IRQ_COM1 : ℕ := 4
abbrev IRQ_IDE : ℕ := 14
abbrev IRQ_SPURIOUS : ℕ := 31
abbrev DPL_USER : ℕ := 3

/-- What can be seen of a handler. -/
inductive Action where
  /-- `ticks++; wakeup(&ticks);` -/
  | tick
  | ideintr
  | kbdintr
  | uartintr
  | lapiceoi
  | syscall
  /-- A page is mapped at an address. -/
  | mapped (va : ℕ)
  /-- `myproc()->killed = 1;` -/
  | setKilled
  | yield
  | exit
  | panic (msg : String)
  /-- A null pointer is used. -/
  | wild
deriving DecidableEq

/-- The operations of a handler. -/
inductive Op where
  | perform (a : Action)
  /-- An action that does not return. -/
  | stop (a : Action)
  /-- `myproc()->killed` -/
  | killed
  /-- `kalloc`, and whether it gives a page. -/
  | kalloc
  | kfree
  /-- `mappages` of one page, and whether it succeeds. -/
  | mappages (va : ℕ)

/-- What an operation answers. -/
abbrev Ans : Op → Type
  | .stop _ => Empty
  | .killed | .kalloc | .mappages _ => Bool
  | _ => Unit

abbrev M : Type → Type := Prog Op Ans

abbrev call (o : Op) : M (Ans o) := Prog.call o

def perform (a : Action) : M Unit := call (.perform a)

/-- An action that does not return. -/
def stop {α : Type} (a : Action) : M α := .op (.stop a) Empty.elim

/-- `struct trapframe`. -/
structure Frame where
  trapno : ℕ
  cs : ℕ

/-- The trap came from user space. -/
def Frame.user (tf : Frame) : Prop := tf.cs &&& 3 = DPL_USER

instance (tf : Frame) : Decidable tf.user := inferInstanceAs (Decidable (_ = _))

/-- What a handler is called with: the frame, the processor, the state of the current process if there is
one, and the faulting address. -/
structure Entry where
  tf : Frame
  cpuid : ℕ
  proc : Option ProcState
  cr2 : ℕ

/-! ## The handlers -/

variable (e : Entry)

/-- `myproc()->killed`. -/
def readKilled : M Bool :=
  match e.proc with
  | none => stop .wild
  | some _ => call .killed

/-- `if(myproc()->killed) exit();` -/
def exitIfKilled : M Unit := do
  if ← readKilled e then stop .exit

/-- The case of a system call. -/
def trapSyscall : M Unit := do
  exitIfKilled e
  perform .syscall
  exitIfKilled e

/-- The cases of the `switch` that end with `break`. -/
def device : Option (M Unit) :=
  if e.tf.trapno = T_IRQ0 + IRQ_TIMER then
    some do
      if e.cpuid = 0 then perform .tick
      perform .lapiceoi
  else if e.tf.trapno = T_IRQ0 + IRQ_IDE then
    some do
      perform .ideintr
      perform .lapiceoi
  else if e.tf.trapno = T_IRQ0 + IRQ_IDE + 1 then some (return ())
  else if e.tf.trapno = T_IRQ0 + IRQ_KBD then
    some do
      perform .kbdintr
      perform .lapiceoi
  else if e.tf.trapno = T_IRQ0 + IRQ_COM1 then
    some do
      perform .uartintr
      perform .lapiceoi
  else if e.tf.trapno = T_IRQ0 + 7 ∨ e.tf.trapno = T_IRQ0 + IRQ_SPURIOUS then
    some (perform .lapiceoi)
  else none

/-- `myproc()->killed = 1;` -/
def setKilled : M Unit :=
  match e.proc with
  | none => stop .wild
  | some _ => perform .setKilled

/-- The `default` of the `switch`, which goes on at `bad`. -/
def unexpected : M Unit := do
  if e.proc = none ∨ e.tf.cs &&& 3 = 0 then stop (.panic "trap")
  setKilled e
  setKilled e

/-- `if(myproc() && myproc()->killed && (tf->cs & 3) == DPL_USER) exit();` -/
def exitIfKilledUser : M Unit := do
  if e.proc.isSome then
    if (← call .killed) ∧ e.tf.user then stop .exit

/-- The code behind the `switch`. -/
def finish : M Unit := do
  exitIfKilledUser e
  if e.proc = some .running ∧ e.tf.trapno = T_IRQ0 + IRQ_TIMER then perform .yield
  exitIfKilledUser e

/-- A field of `myproc()` is read. -/
def deref : M Unit :=
  match e.proc with
  | none => stop .wild
  | some _ => return ()

/-- Map a new page at `va`; `false` for `goto bad`. -/
def mapPage (va : ℕ) : M Bool := do
  if (← call .kalloc) = false then return false
  deref e
  if (← call (.mappages va)) = false then
    call .kfree
    return false
  return true

/-- The loop over the pages; `false` for `goto bad`. -/
def mapPages : List ℕ → M Bool
  | [] => return true
  | va :: vas => do
    if (← mapPage e va) = false then return false
    mapPages vas

/-- **`trap`, compiled with `LAZY`.** -/
def trapLazy : M Unit := do
  if e.tf.trapno = T_SYSCALL then trapSyscall e
  else
    match device e with
    | some handler =>
      handler
      finish e
    | none =>
      if e.tf.trapno = T_PGFLT then
        if (← mapPage e (pgrounddown e.cr2)) = false then
          setKilled e
          finish e
      else
        unexpected e
        finish e

/-- **`trap`, compiled with `LOCALITY`.**  What is behind the `switch` in the other version is in its last
case here. -/
def trapLocality : M Unit := do
  if e.tf.trapno = T_SYSCALL then trapSyscall e
  else
    match device e with
    | some handler => handler
    | none =>
      if e.tf.trapno = T_PGFLT then
        let start := pgrounddown e.cr2
        deref e
        if (← mapPages e ((range 3).map fun i => (start + i * PGSIZE) % 2 ^ 32)) = false then
          setKilled e
          finish e
      else
        unexpected e
        finish e

/-! ## What is observed -/

/-- What a handler runs in. -/
structure Env where
  killed : Bool
  /-- For each reading of `killed` that is to come, whether a `kill` has come since the last one. -/
  kills : List Bool
  /-- The answers of `kalloc` and `mappages`. -/
  answers : List Bool
  /-- The actions so far. -/
  trace : List Action

namespace Env

def act (v : Env) (a : Action) : Env := { v with trace := v.trace ++ [a] }

/-- A `kill` may have come. -/
def deliver (v : Env) : Env := { v with killed := v.killed || v.kills.headD false, kills := v.kills.tail }

/-- What an operation does; an action that does not return ends the handler. -/
def exec (v : Env) : (o : Op) → Except (List Action) (Ans o × Env)
  | .perform .setKilled => .ok ((), { v.act .setKilled with killed := true })
  | .perform a => .ok ((), v.act a)
  | .stop a => .error (v.act a).trace
  | .killed => .ok (v.deliver.killed, v.deliver)
  | .kalloc => .ok (v.answers.headD false, { v with answers := v.answers.tail })
  | .kfree => .ok ((), v)
  | .mappages va =>
    .ok (v.answers.headD false,
      if v.answers.headD false then { v.act (.mapped va) with answers := v.answers.tail }
      else { v with answers := v.answers.tail })

/-- The actions of a handler. -/
def observe (v : Env) (p : M Unit) : List Action :=
  match p.run exec v with
  | .ok (_, v) => v.trace
  | .error trace => trace

end Env

/-! ## Where they agree -/

namespace Env

variable {e} {v : Env} {handler : M Unit} {st : ProcState}

/-- A device handler does its actions and returns. -/
theorem run_device (h : device e = some handler) (v : Env) :
    ∃ acts, handler.run exec v = .ok ((), { v with trace := v.trace ++ acts }) := by
  have hlist : ∀ a b : Action, v.trace ++ [a] ++ [b] = v.trace ++ [a, b] := fun a b => by simp
  unfold device at h
  split at h
  · cases h
    split
    · exact ⟨[.tick, .lapiceoi], by rw [← hlist]; rfl⟩
    · exact ⟨[.lapiceoi], rfl⟩
  split at h
  · cases h
    exact ⟨[.ideintr, .lapiceoi], by rw [← hlist]; rfl⟩
  split at h
  · cases h
    exact ⟨[], by rw [append_nil]; rfl⟩
  split at h
  · cases h
    exact ⟨[.kbdintr, .lapiceoi], by rw [← hlist]; rfl⟩
  split at h
  · cases h
    exact ⟨[.uartintr, .lapiceoi], by rw [← hlist]; rfl⟩
  split at h
  · cases h
    exact ⟨[.lapiceoi], rfl⟩
  · cases h

/-- A process in user space that has been killed exits. -/
theorem run_exitIfKilledUser (hproc : e.proc = some st) (v : Env) :
    (exitIfKilledUser e).run exec v =
      if v.deliver.killed = true ∧ e.tf.user then .error (v.trace ++ [.exit]) else .ok ((), v.deliver) := by
  unfold exitIfKilledUser
  rw [hproc, if_pos Option.isSome_some, run_bind]
  show Prog.run exec (if v.deliver.killed = true ∧ e.tf.user then stop .exit else pure ()) v.deliver = _
  split <;> rfl

/-- A `kill` is not taken back. -/
theorem killed_deliver (h : v.killed = true) : v.deliver.killed = true := by
  simp [deliver, h]

theorem observe_of_ok {p : M Unit} {v' : Env} (h : p.run exec v = .ok ((), v')) :
    v.observe p = v'.trace := by
  rw [observe, h]

theorem observe_of_error {p : M Unit} {trace : List Action} (h : p.run exec v = .error trace) :
    v.observe p = trace := by
  rw [observe, h]

/-- A handler that has returned, and what comes then. -/
theorem observe_bind {p q : M Unit} {v' : Env} (h : p.run exec v = .ok ((), v')) :
    v.observe (do p; q) = v'.observe q := by
  rw [observe, run_bind, h]
  rfl

/-- **What is behind the `switch`** does nothing exactly when there is no process, or it is not to be
preempted and not to exit. -/
theorem observe_finish_eq_iff (e : Entry) (v : Env) :
    v.observe (finish e) = v.trace ↔ (e.proc ≠ none →
      ¬ (e.proc = some .running ∧ e.tf.trapno = T_IRQ0 + IRQ_TIMER) ∧
      ¬ (e.tf.user ∧ v.deliver.deliver.killed = true)) := by
  cases hproc : e.proc with
  | none =>
    refine iff_of_true ?_ fun hne => absurd rfl hne
    rw [observe, finish, exitIfKilledUser, hproc]
    rfl
  | some st =>
    have hlong : ∀ l : List Action, l ≠ [] → v.trace ++ l ≠ v.trace := fun l hl heq =>
      hl (append_right_eq_self.mp heq)
    have hexit := run_exitIfKilledUser hproc v
    by_cases hkilled : v.deliver.killed = true ∧ e.tf.user
    · -- the process exits at once
      rw [if_pos hkilled] at hexit
      have hobs : v.observe (finish e) = v.trace ++ [.exit] := by
        rw [observe, finish, run_bind, hexit]
        rfl
      rw [hobs]
      refine iff_of_false (hlong _ nofun) fun h => (h nofun).2 ⟨hkilled.2, ?_⟩
      exact killed_deliver hkilled.1
    · rw [if_neg hkilled] at hexit
      rw [finish, observe_bind hexit, hproc]
      by_cases htimer : some st = some ProcState.running ∧ e.tf.trapno = T_IRQ0 + IRQ_TIMER
      · -- the process yields, and exits afterwards if it has been killed
        refine iff_of_false ?_ fun h => (h nofun).1 htimer
        have hyield : (perform .yield).run exec v.deliver = .ok ((), v.deliver.act .yield) := rfl
        rw [if_pos htimer, observe_bind hyield]
        have hexit' := run_exitIfKilledUser hproc (v.deliver.act .yield)
        split at hexit'
        · rw [observe_of_error hexit']
          simp [act, deliver]
        · rw [observe_of_ok hexit']
          simp [act, deliver]
      · rw [if_neg htimer]
        show v.deliver.observe (exitIfKilledUser e) = _ ↔ _
        have hexit' := run_exitIfKilledUser hproc v.deliver
        split at hexit'
        next hlate =>
          rw [observe_of_error hexit']
          exact iff_of_false (hlong _ nofun) fun h => (h nofun).2 ⟨hlate.2, hlate.1⟩
        next halive =>
          rw [observe_of_ok hexit']
          exact iff_of_true rfl fun _ => ⟨htimer, fun h => halive ⟨h.2, h.1⟩⟩

end Env

/-- The vectors of the devices. -/
def deviceVectors : List ℕ :=
  [T_IRQ0 + IRQ_TIMER, T_IRQ0 + IRQ_IDE, T_IRQ0 + IRQ_IDE + 1, T_IRQ0 + IRQ_KBD, T_IRQ0 + IRQ_COM1,
    T_IRQ0 + 7, T_IRQ0 + IRQ_SPURIOUS]

/-- The handlers agree: there is no device, no process, or nothing to do for the process. -/
def Agree (e : Entry) (v : Env) : Prop :=
  e.tf.trapno ∈ deviceVectors → e.proc ≠ none →
    ¬ (e.proc = some .running ∧ e.tf.trapno = T_IRQ0 + IRQ_TIMER) ∧
    ¬ (e.tf.user ∧
      (v.killed = true ∨ v.kills.headD false = true ∨ v.kills.tail.headD false = true))

theorem isSome_device_iff {e : Entry} : (device e).isSome = true ↔ e.tf.trapno ∈ deviceVectors := by
  simp only [device, deviceVectors, mem_cons, not_mem_nil, or_false]
  split_ifs <;> simp_all

/-- **The two handlers** perform the same actions at a trap other than a page fault exactly when it is not
from a device, or there is no current process, or the process is neither to be preempted nor to exit. -/
theorem trap_agree_iff (e : Entry) (v : Env) (htrap : e.tf.trapno ≠ T_PGFLT) :
    v.observe (trapLocality e) = v.observe (trapLazy e) ↔ Agree e v := by
  unfold trapLocality trapLazy Agree
  rw [← isSome_device_iff]
  split
  next hsys =>
    have hnone : ¬ (device e).isSome = true := by
      rw [isSome_device_iff, hsys]
      decide
    exact iff_of_true rfl fun h => absurd h hnone
  next hsys =>
    cases hdevice : device e with
    | none => exact iff_of_true rfl nofun
    | some handler =>
      obtain ⟨acts, hrun⟩ := Env.run_device hdevice v
      simp only
      rw [Env.observe_of_ok hrun, Env.observe_bind hrun, eq_comm, Env.observe_finish_eq_iff]
      simp [Env.deliver, or_assoc]

/-- A divide error in user space. -/
theorem trap_agree_divide :
    Env.observe ⟨false, [], [], []⟩ (trapLocality ⟨⟨0, 27⟩, 0, some .running, 0⟩) =
      Env.observe ⟨false, [], [], []⟩ (trapLazy ⟨⟨0, 27⟩, 0, some .running, 0⟩) :=
  (trap_agree_iff _ _ (by decide)).mpr fun h => absurd h (by decide)

/-- At a timer interrupt only the first version preempts the process. -/
theorem not_trap_agree_timer :
    Env.observe ⟨false, [], [], []⟩ (trapLazy ⟨⟨T_IRQ0 + IRQ_TIMER, 27⟩, 0, some .running, 0⟩) =
      [.tick, .lapiceoi, .yield] ∧
    Env.observe ⟨false, [], [], []⟩ (trapLocality ⟨⟨T_IRQ0 + IRQ_TIMER, 27⟩, 0, some .running, 0⟩) =
      [.tick, .lapiceoi] := by
  decide

end Trap
