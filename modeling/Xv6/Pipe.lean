/-
# Pipes

`pipewrite`, `piperead` and `pipeclose` of `pipe.c` on one pipe, by any number of processes, with `sleep`,
`wakeup` and `kill` of `proc.c`.  A step is one round of a loop, a `wakeup`, or the taking or giving back of
a spinlock.  The spinlocks are `p->lock` and `ptable.lock`, which a process that goes to sleep has until it
is marked `SLEEPING`; so a `kill` can come between any two steps, and a writer that waits lets others in.

The state has two history variables, the bytes that `pipewrite` has stored and the bytes that `piperead`
has returned.  The main result is that they are a queue: what is stored comes out once and in order, however
the calls interleave and however often the counters wrap.
-/
import Xv6.Fifo
import Xv6.LittleEndian
import Xv6.Owner
import Xv6.Runs

open Function Option

namespace Pipe

/-! ## State -/

abbrev PIPESIZE : ℕ := 512

/-- What a process sleeps on. -/
inductive Chan where
  /-- `&p->nread` -/
  | nread
  /-- `&p->nwrite` -/
  | nwrite
deriving DecidableEq

/-- A call, and how far its loop is. -/
inductive Call where
  | pipewrite (addr : ℕ → UInt8) (n : ℤ) (i : ℕ)
  | piperead (n : ℤ)
  | pipeclose (writable : Bool)

/-- What a call returns. -/
inductive Return where
  | wrote (result : ℤ)
  /-- `piperead` of `n` bytes, with the bytes it has copied. -/
  | read (n result : ℤ) (bytes : List UInt8)
  | closed

/-- Where a process is. -/
inductive Place where
  | out
  /-- before `acquire(&p->lock)`, at the beginning of the call or at the end of its `sleep` -/
  | acquire (c : Call)
  /-- at the loop of `pipewrite`, at the `while` of `piperead`, or at the first assignment of `pipeclose` -/
  | loop (c : Call)
  /-- in `pipewrite` on a full pipe, before `wakeup(&p->nread)` -/
  | full (c : Call)
  /-- at the `for` of `piperead` -/
  | copy (n : ℤ) (bytes : List UInt8)
  /-- before the last `wakeup` -/
  | notify (chan : Chan) (r : Return)
  /-- before `release(&p->lock)` and the `return` -/
  | ret (r : Return)
  /-- in `sleep`, before `acquire(&ptable.lock)` -/
  | sleep (chan : Chan) (c : Call)
  /-- in `sleep`, before the process is marked `SLEEPING` -/
  | sleepSet (chan : Chan) (c : Call)
  /-- in `sleep`, after `sched` -/
  | asleep (c : Call)

/-- The pipe, the spinlocks and the processes. -/
structure State (P : Type) where
  data : ℕ → UInt8
  nread : ℕ
  nwrite : ℕ
  readopen : Bool
  writeopen : Bool
  /-- The page has been given to `kfree`. -/
  freed : Bool
  /-- who has `p->lock` -/
  lock : Option P
  /-- who has `ptable.lock` -/
  ptable : Option P
  /-- what a `SLEEPING` process sleeps on -/
  sleeping : P → Option Chan
  killed : P → Bool
  place : P → Place
  /-- the bytes that `pipewrite` has stored so far -/
  stored : List UInt8
  /-- the bytes that `piperead` has returned so far -/
  returned : List UInt8

variable {P : Type}

namespace State

/-- After `pipealloc`. -/
def init (data : ℕ → UInt8) : State P :=
  ⟨data, 0, 0, true, true, false, none, none, fun _ => none, fun _ => false, fun _ => .out, [], []⟩

/-- `wakeup(chan)`. -/
def wakeup (s : State P) (chan : Chan) : State P :=
  { s with sleeping := fun q => if s.sleeping q = some chan then none else s.sleeping q }

/-- `p->data[p->nwrite++ % PIPESIZE] = b`. -/
def store (s : State P) (b : UInt8) : State P :=
  { s with
    data := update s.data (s.nwrite % PIPESIZE) b
    nwrite := u32 (s.nwrite + 1)
    stored := s.stored ++ [b] }

/-- `p->nread++`, after the byte has been copied. -/
def take (s : State P) : State P := { s with nread := u32 (s.nread + 1) }

/-- The assignment of `pipeclose`. -/
def close (s : State P) (writable : Bool) : State P :=
  if writable then { s with writeopen := false } else { s with readopen := false }

/-- `release(&p->lock)`, and the `kfree` of `pipeclose`. -/
def release (s : State P) (r : Return) : State P :=
  match r with
  | .wrote _ => { s with lock := none }
  | .read _ _ bytes => { s with lock := none, returned := s.returned ++ bytes }
  | .closed => { s with lock := none, freed := s.freed || !s.readopen && !s.writeopen }

variable [DecidableEq P]

/-- `p` goes to `place`. -/
def goto (s : State P) (p : P) (place : Place) : State P :=
  { s with place := update s.place p place }

/-- What `p` does next.  Nobody uses a pipe that has been freed. -/
def act (s : State P) (p : P) : Option (State P) :=
  match s.place p with
  | .out => none
  | .acquire c =>
    if s.lock = none ∧ s.freed = false then some ({ s with lock := some p }.goto p (.loop c)) else none
  | .loop (.pipewrite addr n i) =>
    if i < n then
      if s.nwrite = u32 (s.nread + PIPESIZE) then
        if s.readopen = false ∨ s.killed p = true then some (s.goto p (.ret (.wrote (-1))))
        else some (s.goto p (.full (.pipewrite addr n i)))
      else some ((s.store (addr i)).goto p (.loop (.pipewrite addr n (i + 1))))
    else some (s.goto p (.notify .nread (.wrote n)))
  | .loop (.piperead n) =>
    if s.nread = s.nwrite ∧ s.writeopen = true then
      if s.killed p = true then some (s.goto p (.ret (.read n (-1) [])))
      else some (s.goto p (.sleep .nread (.piperead n)))
    else some (s.goto p (.copy n []))
  | .loop (.pipeclose writable) =>
    some ((s.close writable).goto p (.notify (if writable then .nread else .nwrite) .closed))
  | .full c =>
    if s.ptable = none then some ((s.wakeup .nread).goto p (.sleep .nwrite c)) else none
  | .copy n bytes =>
    if bytes.length < n ∧ s.nread ≠ s.nwrite then
      some (s.take.goto p (.copy n (bytes ++ [s.data (s.nread % PIPESIZE)])))
    else some (s.goto p (.notify .nwrite (.read n bytes.length bytes)))
  | .notify chan r => if s.ptable = none then some ((s.wakeup chan).goto p (.ret r)) else none
  | .ret r => some ((s.release r).goto p .out)
  | .sleep chan c =>
    if s.ptable = none then some ({ s with lock := none, ptable := some p }.goto p (.sleepSet chan c))
    else none
  | .sleepSet chan c =>
    some ({ s with ptable := none, sleeping := update s.sleeping p (some chan) }.goto p
      (.asleep c))
  | .asleep c => if s.sleeping p = none then some (s.goto p (.acquire c)) else none

end State

/-- The steps. -/
inductive Event (P : Type) where
  /-- `p` does what is next. -/
  | act (p : P)
  | pipewrite (p : P) (addr : ℕ → UInt8) (n : ℤ)
  | piperead (p : P) (n : ℤ)
  | pipeclose (p : P) (writable : Bool)
  /-- Somebody calls `kill` for `q`. -/
  | kill (q : P)

namespace State

variable [DecidableEq P]

/-- `p` makes a call. -/
def call (s : State P) (p : P) (c : Call) : Option (State P) :=
  match s.place p with
  | .out => some (s.goto p (.acquire c))
  | _ => none

/-- **The steps**; `none` when a step is not possible. -/
def step (s : State P) : Event P → Option (State P)
  | .act p => s.act p
  | .pipewrite p addr n => s.call p (.pipewrite addr n 0)
  | .piperead p n => s.call p (.piperead n)
  | .pipeclose p writable => s.call p (.pipeclose writable)
  | .kill q =>
    if s.ptable = none then
      some { s with
        killed := update s.killed q true
        sleeping := update s.sleeping q none }
    else none

end State

/-! ## The spinlocks -/

namespace Place

/-- The process has `p->lock` here. -/
def hasLock : Place → Bool
  | .loop _ | .full _ | .copy _ _ | .notify _ _ | .ret _ | .sleep _ _ => true
  | _ => false

/-- The process has `ptable.lock` here. -/
def hasTable : Place → Bool
  | .sleepSet _ _ => true
  | _ => false

/-- No process has both. -/
theorem hasTable_of_hasLock {pl : Place} (h : pl.hasLock = true) : pl.hasTable = false := by
  cases pl with
  | sleepSet => cases h
  | _ => rfl

end Place

namespace State

variable {s s' : State P} {p q : P} {pl : Place} {r : Return} {chan : Chan} {c : Call}

/-- The spinlocks are with the processes that are at a place where they have them. -/
structure Locks (s : State P) : Prop where
  lock : ∀ p, s.lock = some p ↔ (s.place p).hasLock = true
  table : ∀ p, s.ptable = some p ↔ (s.place p).hasTable = true

theorem Locks.eq_of_hasLock (h : s.Locks) (hp : (s.place p).hasLock = true)
    (hq : (s.place q).hasLock = true) : q = p :=
  some.inj (((h.lock q).mpr hq).symm.trans ((h.lock p).mpr hp))

theorem locks_init (data : ℕ → UInt8) : (init data : State P).Locks :=
  ⟨fun _ => by simp [init, Place.hasLock], fun _ => by simp [init, Place.hasTable]⟩

variable [DecidableEq P]

/-- **One process moves**, and takes or gives back the spinlocks that tell its places apart. -/
theorem Locks.move {pl₀ : Place} (h : s.Locks) (hp₀ : s.place p = pl₀)
    (hplace : s'.place = update s.place p pl)
    (hlock : s'.lock = if pl.hasLock then some p else if pl₀.hasLock then none else s.lock)
    (hlock₀ : pl.hasLock = true → pl₀.hasLock = true ∨ s.lock = none)
    (htable : s'.ptable = if pl.hasTable then some p else if pl₀.hasTable then none else s.ptable)
    (htable₀ : pl.hasTable = true → pl₀.hasTable = true ∨ s.ptable = none) : s'.Locks := by
  subst hp₀
  have hp : s'.place p = pl := by rw [hplace, update_self]
  have hne : ∀ q, q ≠ p → s'.place q = s.place q := fun q hq => by
    rw [hplace, update_of_ne hq]
  refine ⟨Owner.move h.lock (fun q hq => by rw [hne q hq]) ?_ ?_,
    Owner.move h.table (fun q hq => by rw [hne q hq]) ?_ ?_⟩
  · rwa [hp]
  · rwa [hp]
  · rwa [hp]
  · rwa [hp]

/-- A process that keeps `p->lock`. -/
theorem Locks.stay (h : s.Locks) (hp : (s.place p).hasLock = true)
    (hplace : s'.place = update s.place p pl) (hpl : pl.hasLock = true)
    (hlock : s'.lock = s.lock) (htable : s'.ptable = s.ptable) : s'.Locks := by
  have hlk := (h.lock p).mpr hp
  have hno := Place.hasTable_of_hasLock hp
  have hno' := Place.hasTable_of_hasLock hpl
  refine h.move rfl hplace ?_ (fun _ => .inl hp) ?_ fun ht => ?_
  · rw [hlock, hlk, if_pos hpl]
  · rw [htable, hno', hno]
    rfl
  · rw [hno'] at ht
    cases ht

/-- What `p` can do next. -/
inductive Acts (s : State P) (p : P) : State P → Prop
  | acquire (c : Call) (hp : s.place p = .acquire c) (hlock : s.lock = none) (hfreed : s.freed = false) :
      Acts s p ({ s with lock := some p }.goto p (.loop c))
  | giveUp {addr : ℕ → UInt8} {n : ℤ} {i : ℕ} (hp : s.place p = .loop (.pipewrite addr n i)) (hi : i < n)
      (hfull : s.nwrite = u32 (s.nread + PIPESIZE)) (hstop : s.readopen = false ∨ s.killed p = true) :
      Acts s p (s.goto p (.ret (.wrote (-1))))
  | wait {addr : ℕ → UInt8} {n : ℤ} {i : ℕ} (hp : s.place p = .loop (.pipewrite addr n i))
      (hfull : s.nwrite = u32 (s.nread + PIPESIZE)) (hopen : s.readopen = true) :
      Acts s p (s.goto p (.full (.pipewrite addr n i)))
  | store {addr : ℕ → UInt8} {n : ℤ} {i : ℕ} (hp : s.place p = .loop (.pipewrite addr n i))
      (hroom : s.nwrite ≠ u32 (s.nread + PIPESIZE)) :
      Acts s p ((s.store (addr i)).goto p (.loop (.pipewrite addr n (i + 1))))
  | wrote {addr : ℕ → UInt8} {n : ℤ} {i : ℕ} (hp : s.place p = .loop (.pipewrite addr n i)) :
      Acts s p (s.goto p (.notify .nread (.wrote n)))
  | readKilled {n : ℤ} (hp : s.place p = .loop (.piperead n)) :
      Acts s p (s.goto p (.ret (.read n (-1) [])))
  | readWait {n : ℤ} (hp : s.place p = .loop (.piperead n)) (hempty : s.nread = s.nwrite)
      (hopen : s.writeopen = true) : Acts s p (s.goto p (.sleep .nread (.piperead n)))
  | readCopy {n : ℤ} (hp : s.place p = .loop (.piperead n))
      (hready : s.nread ≠ s.nwrite ∨ s.writeopen = false) : Acts s p (s.goto p (.copy n []))
  | close {w : Bool} (hp : s.place p = .loop (.pipeclose w)) :
      Acts s p ((s.close w).goto p (.notify (if w then .nread else .nwrite) .closed))
  | full {c : Call} (hp : s.place p = .full c) (htable : s.ptable = none) :
      Acts s p ((s.wakeup .nread).goto p (.sleep .nwrite c))
  | copy {n : ℤ} {bytes : List UInt8} (hp : s.place p = .copy n bytes) (hbyte : s.nread ≠ s.nwrite) :
      Acts s p (s.take.goto p (.copy n (bytes ++ [s.data (s.nread % PIPESIZE)])))
  | copied {n : ℤ} {bytes : List UInt8} (hp : s.place p = .copy n bytes)
      (hend : n ≤ bytes.length ∨ s.nread = s.nwrite) :
      Acts s p (s.goto p (.notify .nwrite (.read n bytes.length bytes)))
  | notify {chan : Chan} {r : Return} (hp : s.place p = .notify chan r) (htable : s.ptable = none) :
      Acts s p ((s.wakeup chan).goto p (.ret r))
  | ret {r : Return} (hp : s.place p = .ret r) : Acts s p ((s.release r).goto p .out)
  | sleep {chan : Chan} {c : Call} (hp : s.place p = .sleep chan c) (htable : s.ptable = none) :
      Acts s p ({ s with lock := none, ptable := some p }.goto p (.sleepSet chan c))
  | sleepSet {chan : Chan} {c : Call} (hp : s.place p = .sleepSet chan c) :
      Acts s p ({ s with ptable := none, sleeping := update s.sleeping p (some chan) }.goto p
        (.asleep c))
  | asleep {c : Call} (hp : s.place p = .asleep c) (hwoken : s.sleeping p = none) :
      Acts s p (s.goto p (.acquire c))

theorem acts_of_act (h : s.act p = some s') : s.Acts p s' := by
  unfold act at h
  split at h
  next => cases h
  next c hp =>
    obtain ⟨⟨hlock, hfreed⟩, h⟩ := ite_none_right_eq_some.mp h
    cases h
    exact .acquire c hp hlock hfreed
  next addr n i hp =>
    split at h
    next hi =>
      split at h
      next hfull =>
        split at h
        next hstop =>
          cases h
          exact .giveUp hp hi hfull hstop
        next hgo =>
          cases h
          exact .wait hp hfull (Bool.eq_true_of_not_eq_false fun hopen => hgo (.inl hopen))
      next hroom =>
        cases h
        exact .store hp hroom
    next =>
      cases h
      exact .wrote hp
  next n hp =>
    split at h
    next hempty =>
      split at h
      next =>
        cases h
        exact .readKilled hp
      next =>
        cases h
        exact .readWait hp hempty.1 hempty.2
    next hready =>
      cases h
      refine .readCopy hp ?_
      rw [not_and_or, Bool.not_eq_true] at hready
      exact hready
  next w hp =>
    cases h
    exact .close hp
  next c hp =>
    obtain ⟨htable, h⟩ := ite_none_right_eq_some.mp h
    cases h
    exact .full hp htable
  next n bytes hp =>
    split at h
    next hbyte =>
      cases h
      exact .copy hp hbyte.2
    next hend =>
      cases h
      refine .copied hp ?_
      rw [not_and_or, not_lt, ne_eq, not_not] at hend
      exact hend
  next chan r hp =>
    obtain ⟨htable, h⟩ := ite_none_right_eq_some.mp h
    cases h
    exact .notify hp htable
  next r hp =>
    cases h
    exact .ret hp
  next chan c hp =>
    obtain ⟨htable, h⟩ := ite_none_right_eq_some.mp h
    cases h
    exact .sleep hp htable
  next chan c hp =>
    cases h
    exact .sleepSet hp
  next c hp =>
    obtain ⟨hwoken, h⟩ := ite_none_right_eq_some.mp h
    cases h
    exact .asleep hp hwoken

theorem call_eq_some {c : Call} (h : s.call p c = some s') :
    s.place p = .out ∧ s' = s.goto p (.acquire c) := by
  unfold call at h
  split at h
  next hp =>
    cases h
    exact ⟨hp, rfl⟩
  next => cases h

/-- What a step can be: a process acts or makes a call, or somebody is killed. -/
theorem step_cases {e : Event P} (h : s.step e = some s') :
    (∃ p, e = .act p ∧ s.Acts p s') ∨
    (∃ p c, s.place p = .out ∧ s' = s.goto p (.acquire c)) ∨
    ∃ q, s.ptable = none ∧ s' = { s with
      killed := update s.killed q true
      sleeping := update s.sleeping q none } := by
  cases e with
  | act p => exact .inl ⟨p, rfl, acts_of_act h⟩
  | pipewrite p addr n | piperead p n | pipeclose p w => exact .inr (.inl ⟨p, _, call_eq_some h⟩)
  | kill q =>
    obtain ⟨htable, h⟩ := ite_none_right_eq_some.mp h
    cases h
    exact .inr (.inr ⟨q, htable, rfl⟩)

theorem Locks.acts (h : s.Locks) (hacts : s.Acts p s') : s'.Locks := by
  cases hacts with
  | acquire c hp hlock => exact h.move hp rfl rfl (fun _ => .inr hlock) rfl nofun
  | giveUp hp | wait hp | store hp | wrote hp | readKilled hp | readWait hp | readCopy hp | full hp
  | copy hp | copied hp | notify hp =>
    exact h.stay (by rw [hp]; rfl) rfl rfl rfl rfl
  | @close w hp => cases w <;> exact h.stay (by rw [hp]; rfl) rfl rfl rfl rfl
  | @ret r hp =>
    cases r with
    | wrote | read | closed =>
      exact h.move hp rfl rfl nofun rfl nofun
  | sleep hp htable => exact h.move hp rfl rfl nofun rfl fun _ => .inr htable
  | sleepSet hp | asleep hp => exact h.move hp rfl rfl nofun rfl nofun

/-- The spinlocks stay with their owners through every step. -/
theorem Locks.step {e : Event P} (h : s.Locks) (hstep : s.step e = some s') : s'.Locks := by
  obtain ⟨p, -, hacts⟩ | ⟨p, c, hp, rfl⟩ | ⟨q, -, rfl⟩ := step_cases hstep
  · exact h.acts hacts
  · exact h.move hp rfl rfl nofun rfl nofun
  · exact ⟨h.lock, h.table⟩

end State

/-! ## The bytes -/

/-- The bytes that `piperead` is about to return. -/
def Return.bytes : Return → List UInt8
  | .read _ _ bytes => bytes
  | _ => []

/-- The bytes that the process has copied and not yet returned. -/
def Place.bytes : Place → List UInt8
  | .copy _ bytes => bytes
  | .notify _ r | .ret r => r.bytes
  | _ => []

/-- `piperead` returns the number of bytes copied, or an error and no bytes; and 0 only at the end of the
stream. -/
def Return.Sound (s : State P) : Return → Prop
  | .read n result bytes => (result = bytes.length ∨ result = -1 ∧ bytes = []) ∧
      (result = 0 → 0 < n → s.nread = s.nwrite ∧ s.writeopen = false)
  | _ => True

def Place.Sound (s : State P) : Place → Prop
  | .copy _ bytes => bytes = [] → s.nread ≠ s.nwrite ∨ s.writeopen = false
  | .notify _ r | .ret r => r.Sound s
  | _ => True

namespace State

/-- The bytes that the call with `p->lock` has copied and not yet returned. -/
def copied (s : State P) : List UInt8 :=
  match s.lock with
  | some p => (s.place p).bytes
  | none => []

/-- What was stored and neither returned nor among `taken` is in the ring. -/
def Between (s : State P) (taken : List UInt8) : Prop :=
  ∃ q, Fifo.Holds PIPESIZE (2 ^ 32) s.data s.nread s.nwrite q ∧ s.stored = s.returned ++ taken ++ q

/-- **The invariant**: the spinlocks, the bytes, and what the calls know. -/
structure Inv (s : State P) : Prop extends s.Locks where
  fifo : s.Between s.copied
  sound : ∀ p, (s.place p).Sound s

variable {s s' : State P} {p q : P} {pl : Place}

theorem pipesize_lt : PIPESIZE < 2 ^ 32 := by decide

/-- The ring starts anew where the counters wrap. -/
theorem pipesize_dvd : PIPESIZE ∣ 2 ^ 32 := by decide

theorem copied_of_lock (h : s.lock = some p) : s.copied = (s.place p).bytes := by
  rw [copied, h]

theorem sound_of_hasLock_false (h : pl.hasLock = false) : pl.Sound s := by
  cases pl <;> trivial

/-- What the calls know is about the counters and the write end. -/
theorem sound_congr (h : pl.Sound s) (hnread : s'.nread = s.nread) (hnwrite : s'.nwrite = s.nwrite)
    (hopen : s'.writeopen = s.writeopen) : pl.Sound s' := by
  cases pl with
  | copy n bytes =>
    rw [Place.Sound, hnread, hnwrite, hopen]
    exact h
  | notify chan r | ret r =>
    cases r with
    | read n result bytes =>
      rw [Place.Sound, Return.Sound, hnread, hnwrite, hopen]
      exact h
    | wrote | closed => trivial
  | _ => trivial

theorem bytes_of_hasLock_false (h : pl.hasLock = false) : pl.bytes = [] := by
  cases pl <;> first | rfl | cases h

/-- The bytes on the way are those of a process at a place with `p->lock`, if there is one. -/
theorem Locks.copied_eq (h : s.Locks) (hp : ∀ q, q ≠ p → (s.place q).hasLock = false) :
    s.copied = (s.place p).bytes := by
  unfold copied
  split
  next q hlock =>
    have hq := (h.lock q).mp hlock
    by_cases hqp : q = p
    · rw [hqp]
    · rw [hp q hqp] at hq
      cases hq
  next hlock =>
    refine (bytes_of_hasLock_false (Bool.eq_false_iff.mpr fun hpl => ?_)).symm
    rw [(h.lock p).mpr hpl] at hlock
    cases hlock

/-- A byte is put into a ring that is not full. -/
theorem Between.store {taken : List UInt8} (h : s.Between taken)
    (hroom : s.nwrite ≠ u32 (s.nread + PIPESIZE)) (b : UInt8) : (s.store b).Between taken := by
  obtain ⟨q, hq, hstored⟩ := h
  have hlt : q.length < PIPESIZE :=
    lt_of_le_of_ne hq.le fun hfull => hroom ((hq.full_iff pipesize_lt).mpr hfull)
  have hpush := hq.push pipesize_dvd hlt b
  refine ⟨q ++ [b], hpush, ?_⟩
  rw [State.store, hstored, List.append_assoc]

/-- A byte is copied out of a ring that is not empty. -/
theorem Between.take {taken : List UInt8} (h : s.Between taken) (hbyte : s.nread ≠ s.nwrite) :
    s.take.Between (taken ++ [s.data (s.nread % PIPESIZE)]) := by
  obtain ⟨q, hq, hstored⟩ := h
  cases q with
  | nil => exact absurd ((hq.eq_iff pipesize_lt).mpr rfl) hbyte
  | cons b q =>
    obtain ⟨hb, hrest⟩ := hq.pop pipesize_dvd
    refine ⟨q, hrest, ?_⟩
    rw [hb, State.take, hstored]
    simp

variable [DecidableEq P]

/-- **A process with `p->lock`** moves, from `pl₀`: only its own bytes and what it knows matter. -/
theorem Inv.own {pl₀ : Place} (h : s.Inv) (hlocks : s'.Locks) (hp₀ : s.place p = pl₀)
    (hp : pl₀.hasLock = true) (hplace : s'.place = update s.place p pl)
    (hfifo : s.Between pl₀.bytes → s'.Between pl.bytes) (hsound : pl.Sound s') : s'.Inv := by
  subst hp₀
  have hp' : s'.place p = pl := by rw [hplace, update_self]
  have hother : ∀ q, q ≠ p → (s.place q).hasLock = false := fun q hqp =>
    Bool.eq_false_iff.mpr fun hq => hqp (h.eq_of_hasLock hp hq)
  have hother' : ∀ q, q ≠ p → (s'.place q).hasLock = false := fun q hqp => by
    rw [hplace, update_of_ne hqp]
    exact hother q hqp
  refine ⟨hlocks, ?_, fun q => ?_⟩
  · have hlast := h.fifo
    rw [h.copied_eq hother] at hlast
    rw [hlocks.copied_eq hother', hp']
    exact hfifo hlast
  · by_cases hqp : q = p
    · rw [hqp, hp']
      exact hsound
    · exact sound_of_hasLock_false (hother' q hqp)

/-- **A process without `p->lock`** moves, and the pipe is as it was. -/
theorem Inv.other (h : s.Inv) (hlocks : s'.Locks) (hplace : s'.place = update s.place p pl)
    (hp : (s.place p).bytes = []) (hpl : pl.bytes = []) (hsound : pl.Sound s')
    (hlock : s'.lock = s.lock ∨ s.lock = none ∧ s'.lock = some p)
    (hring : (s'.data, s'.nread, s'.nwrite, s'.writeopen) = (s.data, s.nread, s.nwrite, s.writeopen))
    (hhistory : (s'.stored, s'.returned) = (s.stored, s.returned)) : s'.Inv := by
  simp only [Prod.mk.injEq] at hring hhistory
  obtain ⟨hdata, hnread, hnwrite, hopen⟩ := hring
  have hp' : s'.place p = pl := by rw [hplace, update_self]
  have hcopied : s'.copied = s.copied := by
    obtain hsame | ⟨hnone, hsome⟩ := hlock
    · unfold copied
      rw [hsame]
      split
      next q _ =>
        by_cases hqp : q = p
        · rw [hqp, hp', hp, hpl]
        · rw [hplace, update_of_ne hqp]
      next => rfl
    · rw [copied_of_lock hsome, hp', hpl, copied, hnone]
  refine ⟨hlocks, ?_, fun q => ?_⟩
  · rw [hcopied, Between, hdata, hnread, hnwrite, hhistory.1, hhistory.2]
    exact h.fifo
  · by_cases hqp : q = p
    · rw [hqp, hp']
      exact hsound
    · rw [hplace, update_of_ne hqp]
      exact sound_congr (h.sound q) hnread hnwrite hopen

theorem Inv.acts (h : s.Inv) (hacts : s.Acts p s') : s'.Inv := by
  have hlocks := h.toLocks.acts hacts
  cases hacts with
  | acquire c hp hlock =>
    exact h.other hlocks rfl (by rw [hp]; rfl) rfl trivial (.inr ⟨hlock, rfl⟩) rfl rfl
  | giveUp hp | wait hp | wrote hp | readWait hp | full hp | sleep hp =>
    exact h.own hlocks hp rfl rfl id trivial
  | store hp hroom =>
    exact h.own hlocks hp rfl rfl (fun hfifo => hfifo.store hroom _) trivial
  | readKilled hp =>
    exact h.own hlocks hp rfl rfl id ⟨.inr ⟨rfl, rfl⟩, nofun⟩
  | readCopy hp hready =>
    exact h.own hlocks hp rfl rfl id fun _ => hready
  | @close w hp =>
    cases w with
    | true | false =>
      exact h.own hlocks hp rfl rfl id trivial
  | copy hp hbyte =>
    exact h.own hlocks hp rfl rfl (fun hfifo => hfifo.take hbyte) fun hnil => by simp at hnil
  | @copied n bytes hp hend =>
    refine h.own hlocks hp rfl rfl id ⟨.inl rfl, fun hzero hn => ?_⟩
    have hlen : bytes.length = 0 := by exact_mod_cast hzero
    have hempty : s.nread = s.nwrite := hend.resolve_left (by omega)
    have hready := h.sound p
    rw [hp] at hready
    exact ⟨hempty, (hready (List.eq_nil_of_length_eq_zero hlen)).resolve_left fun hne => hne hempty⟩
  | @notify chan r hp =>
    have hknown : (Place.ret r).Sound s := by
      have hbefore := h.sound p
      rwa [hp] at hbefore
    exact h.own hlocks hp rfl rfl id (sound_congr hknown rfl rfl rfl)
  | @ret r hp =>
    cases r with
    | wrote | closed =>
      exact h.own hlocks hp rfl rfl id trivial
    | read n result bytes =>
      refine h.own hlocks hp rfl rfl (fun hfifo => ?_) trivial
      obtain ⟨q, hq, hstored⟩ := hfifo
      refine ⟨q, hq, hstored.trans ?_⟩
      simp [goto, State.release, Place.bytes, Return.bytes]
  | sleepSet hp | asleep hp =>
    exact h.other hlocks rfl (by rw [hp]; rfl) rfl trivial (.inl rfl) rfl rfl

/-- **Every step keeps the invariant.** -/
theorem Inv.step {e : Event P} (h : s.Inv) (hstep : s.step e = some s') : s'.Inv := by
  have hlocks := h.toLocks.step hstep
  obtain ⟨p, -, hacts⟩ | ⟨p, c, hp, rfl⟩ | ⟨q, -, rfl⟩ := step_cases hstep
  · exact h.acts hacts
  · exact h.other hlocks rfl (by rw [hp]; rfl) rfl trivial (.inl rfl) rfl rfl
  · exact ⟨hlocks, h.fifo, fun p => sound_congr (h.sound p) rfl rfl rfl⟩

omit [DecidableEq P] in
theorem inv_init (data : ℕ → UInt8) : (init data : State P).Inv :=
  ⟨locks_init data, ⟨[], .empty (show 0 < 2 ^ 32 by decide) data, rfl⟩, fun _ => trivial⟩

/-- The invariant holds after every run. -/
theorem run_inv {data : ℕ → UInt8} {events : List (Event P)}
    (hrun : Runs.run step (init data) events = some s) : s.Inv :=
  Runs.run_invariant (I := Inv) (fun _ _ _ hstep h => h.step hstep) hrun (inv_init data)

/-- **Pipes are queues of bytes.**  In every state reached, what has been stored is what has been returned,
then the bytes that the `piperead` with `p->lock` has copied so far, and then the bytes between the two
counters; while `p->lock` is free nothing is on the way.  A `piperead` that is about to return gives the
number of the bytes it has copied, or an error and no bytes; and 0 for a positive `n` only at the end: the
pipe is empty and the write end closed. -/
theorem pipe_fifo {data : ℕ → UInt8} {events : List (Event P)}
    (hrun : Runs.run step (init data) events = some s) :
    (∃ between, s.stored = s.returned ++ s.copied ++ between ∧
      between.length = (s.nwrite + 2 ^ 32 - s.nread) % 2 ^ 32 ∧ between.length ≤ PIPESIZE) ∧
    (s.lock = none → s.copied = []) ∧
    ∀ p n result bytes, s.place p = .ret (.read n result bytes) →
      (result = bytes.length ∨ result = -1 ∧ bytes = []) ∧
      (result = 0 → 0 < n → s.nread = s.nwrite ∧ s.writeopen = false) := by
  have h := run_inv hrun
  refine ⟨?_, fun hlock => ?_, fun p n result bytes hp => ?_⟩
  · obtain ⟨q, hq, hstored⟩ := h.fifo
    exact ⟨q, hstored, hq.length_eq pipesize_lt, hq.le⟩
  · rw [copied, hlock]
  · have hsound := h.sound p
    rw [hp] at hsound
    exact hsound

/-- The first of two processes writes the bytes 7 and 8, and the second one reads them. -/
def writeAndRead : List (Event ℕ) :=
  [.pipewrite 0 (fun i => if i = 0 then 7 else 8) 2] ++ List.replicate 6 (.act 0) ++ [.piperead 1 5] ++
    List.replicate 7 (.act 1)

theorem pipe_fifo_writeAndRead : ∃ s,
    Runs.run step (init fun _ => 0) writeAndRead = some s ∧ s.stored = [7, 8] ∧ s.returned = [7, 8] ∧
    ∃ between, s.stored = s.returned ++ s.copied ++ between ∧
      between.length = (s.nwrite + 2 ^ 32 - s.nread) % 2 ^ 32 ∧ between.length ≤ PIPESIZE := by
  have hrun : (Runs.run step (init fun _ => 0) writeAndRead).map (fun s => (s.stored, s.returned)) =
      some ([7, 8], [7, 8]) := by
    decide +kernel
  obtain ⟨s, hs, hbytes⟩ := map_eq_some_iff.mp hrun
  obtain ⟨hstored, hreturned⟩ := Prod.mk.inj hbytes
  exact ⟨s, hs, hstored, hreturned, (pipe_fifo hs).1⟩

end State

end Pipe
