/-
# Sleep-locks

`acquiresleep`, `releasesleep` and `holdingsleep` of `sleeplock.c` for one sleep-lock, with `sleep`,
`wakeup1`, `kill`, `yield`, `sched` and the switches of `scheduler` from `proc.c`, for any number of
processes.  A step is an `acquire` or a `release` of a spinlock, a switch, or the code between two of
them.  Two spinlocks matter: the lock's own `lk->lk` and `ptable.lock`, which a process that goes to
sleep hands to the scheduler and gets from it when it goes on.

Interrupts are off while a process holds a spinlock, so it is not preempted then.
-/
import Xv6.ProcTable

open Function Option

namespace SleepLock

open ProcTable (ProcState)

/-! ## State -/

/-- What a process sleeps on: the sleep-lock, or something else. -/
inductive Chan where
  | lock
  | other (a : ℕ)
deriving DecidableEq

/-- Where a process is.  The argument of some places tells whether the process is between
`acquiresleep` and `releasesleep` there. -/
inductive Place where
  /-- in none of the functions, and without the sleep-lock -/
  | out
  /-- before `acquire(&lk->lk)` in `acquiresleep` or at the end of its `sleep` -/
  | acq
  /-- at the `while` of `acquiresleep` -/
  | test
  /-- `lk->locked` is set, before `release(&lk->lk)` -/
  | taken
  /-- in `sleep`, before `acquire(&ptable.lock)` -/
  | sleepAcq
  /-- in `sleep`, before `release(lk)` -/
  | sleepRel
  /-- in `sleep`, before the process is marked `SLEEPING` -/
  | sleepSet
  /-- in the `sleep` of `acquiresleep`, after `sched` -/
  | wake
  /-- in a `sleep` on something else, after `sched` -/
  | wakeOther (inside : Bool)
  /-- between `acquiresleep` and `releasesleep` -/
  | holds
  /-- before `acquire(&lk->lk)` in `releasesleep` -/
  | rel
  /-- before `lk->locked = 0` -/
  | relSet
  /-- in `wakeup(lk)`, before `acquire(&ptable.lock)` -/
  | relCall
  /-- in `wakeup(lk)`, before `wakeup1` -/
  | relWake
  /-- in `wakeup(lk)`, before `release(&ptable.lock)` -/
  | relWoken
  /-- before `release(&lk->lk)` in `releasesleep` -/
  | relDone
  /-- in another `wakeup` or in `kill`, before `release(&ptable.lock)` -/
  | table (inside : Bool)
  /-- before `acquire(&lk->lk)` in `holdingsleep` -/
  | ask (inside : Bool)
  /-- before `release(&lk->lk)` in `holdingsleep` -/
  | asked (inside : Bool)
deriving DecidableEq

/-- Whether a process executes. -/
inductive Ctl where
  /-- on a processor -/
  | run (place : Place)
  /-- with `ptable.lock`, before the `swtch` of `sched` -/
  | leave (place : Place)
  /-- switched out -/
  | off (place : Place)
  /-- with `ptable.lock`, after the `swtch` to the process -/
  | back (place : Place)
deriving DecidableEq

/-- Who has `ptable.lock`. -/
inductive Owner (P : Type) where
  | proc (p : P)
  | scheduler
deriving DecidableEq

/-- `struct proc`. -/
structure Proc where
  state : ProcState
  chan : Option Chan

/-- The sleep-lock, the two spinlocks and the processes. -/
structure State (P : Type) where
  /-- `lk->locked` -/
  locked : Bool
  /-- `lk->pid` -/
  pid : Option P
  /-- who has `lk->lk` -/
  lk : Option P
  /-- who has `ptable.lock` -/
  ptable : Option (Owner P)
  proc : P → Proc
  ctl : P → Ctl

variable {P : Type}

namespace Place

/-- Inside or outside of the section that the sleep-lock protects. -/
def home (inside : Bool) : Place := if inside then .holds else .out

/-- The process has `lk->lk` here. -/
def hasLk : Place → Bool
  | .test | .taken | .sleepAcq | .sleepRel | .relSet | .relCall | .relWake | .relWoken | .relDone
  | .asked _ => true
  | _ => false

/-- The process has `ptable.lock` here. -/
def hasTable : Place → Bool
  | .sleepRel | .sleepSet | .relWake | .relWoken | .table _ => true
  | _ => false

/-- The process can be preempted here. -/
def preemptible : Place → Bool
  | .out | .acq | .holds | .rel | .ask _ => true
  | _ => false

/-- A process that is switched out goes on here. -/
def resumable : Place → Bool
  | .wake | .wakeOther _ => true
  | pl => pl.preemptible

/-- The process owns the sleep-lock here. -/
def inSection : Place → Bool
  | .taken | .holds | .rel | .relSet => true
  | .wakeOther i | .table i | .ask i | .asked i => i
  | _ => false

/-- The process has found the sleep-lock taken and is about to sleep. -/
def dozing : Place → Bool
  | .sleepAcq | .sleepRel | .sleepSet => true
  | _ => false

/-- The process has cleared `lk->locked` and is about to wake the others up. -/
def notifying : Place → Bool
  | .relCall | .relWake => true
  | _ => false

end Place

/-- The place of a process. -/
def Ctl.place : Ctl → Place
  | .run pl | .leave pl | .off pl | .back pl => pl

/-- The process has `lk->lk`. -/
def Ctl.hasLk : Ctl → Bool
  | .run pl => pl.hasLk
  | _ => false

/-- A process is switched out only at some places. -/
def Ctl.ok : Ctl → Bool
  | .run .wake | .run (.wakeOther _) => false
  | .run _ => true
  | .leave pl | .off pl | .back pl => pl.resumable

/-- The process has `ptable.lock`. -/
def Ctl.hasTable : Ctl → Bool
  | .run pl => pl.hasTable
  | .leave _ | .back _ => true
  | .off _ => false

namespace State

/-- At first every process is runnable and nobody has a lock. -/
def init : State P := ⟨false, none, none, none, fun _ => ⟨.runnable, none⟩, fun _ => .off .out⟩

/-- `wakeup1`. -/
def wakeup1 (chan : Chan) (proc : P → Proc) : P → Proc := fun q =>
  if (proc q).state = .sleeping ∧ (proc q).chan = some chan then
    { proc q with state := .runnable }
  else proc q

variable [DecidableEq P]

/-- `p` goes to `ctl`. -/
def goto (s : State P) (p : P) (ctl : Ctl) : State P :=
  { s with ctl := update s.ctl p ctl }

/-- Change the entry of `p`. -/
def setProc (s : State P) (p : P) (v : Proc) : State P :=
  { s with proc := update s.proc p v }

/-- `acquire(&lk->lk)` of `p`, which spins while the lock is taken. -/
def acquireLk (s : State P) (p : P) (place : Place) : Option (State P) :=
  if s.lk = none then some ({ s with lk := some p }.goto p (.run place)) else none

/-- `acquire(&ptable.lock)` of `p`. -/
def acquireTable (s : State P) (p : P) (ctl : Ctl) : Option (State P) :=
  if s.ptable = none then some ({ s with ptable := some (.proc p) }.goto p ctl) else none

/-- What `p` does next at a place where it has no choice. -/
def act (s : State P) (p : P) : Option (State P) :=
  match s.ctl p with
  | .run .acq => s.acquireLk p .test
  | .run .test =>
    if s.locked then some (s.goto p (.run .sleepAcq))
    else some ({ s with locked := true, pid := some p }.goto p (.run .taken))
  | .run .taken => some ({ s with lk := none }.goto p (.run .holds))
  | .run .sleepAcq => s.acquireTable p (.run .sleepRel)
  | .run .sleepRel => some ({ s with lk := none }.goto p (.run .sleepSet))
  | .run .sleepSet => some ((s.setProc p ⟨.sleeping, some .lock⟩).goto p (.leave .wake))
  | .run .rel => s.acquireLk p .relSet
  | .run .relSet => some ({ s with locked := false, pid := none }.goto p (.run .relCall))
  | .run .relCall => s.acquireTable p (.run .relWake)
  | .run .relWake => some ({ s with proc := wakeup1 .lock s.proc }.goto p (.run .relWoken))
  | .run .relWoken => some ({ s with ptable := none }.goto p (.run .relDone))
  | .run .relDone => some ({ s with lk := none }.goto p (.run .out))
  | .run (.table inside) => some ({ s with ptable := none }.goto p (.run (.home inside)))
  | .run (.ask inside) => s.acquireLk p (.asked inside)
  | .run (.asked inside) => some ({ s with lk := none }.goto p (.run (.home inside)))
  | .leave pl => some ({ s with ptable := some .scheduler }.goto p (.off pl))
  | .back .wake =>
    some (({ s with ptable := none }.setProc p { s.proc p with chan := none }).goto p (.run .acq))
  | .back (.wakeOther inside) =>
    some (({ s with ptable := none }.setProc p { s.proc p with chan := none }).goto p
      (.run (.home inside)))
  | .back pl => some ({ s with ptable := none }.goto p (.run pl))
  | _ => none

/-- `holdingsleep` of `p`, at the place where it has `lk->lk`. -/
def holdingsleep (s : State P) (p : P) : Bool := s.locked && s.pid = some p

end State

/-- The steps. -/
inductive Event (P : Type) where
  /-- `p` does what is next. -/
  | act (p : P)
  /-- `p` calls `acquiresleep`, or `releasesleep` if it has the sleep-lock. -/
  | call (p : P)
  /-- `p` calls `holdingsleep`. -/
  | holding (p : P)
  /-- `p` is preempted. -/
  | yield (p : P)
  /-- `p` sleeps on something else. -/
  | sleep (p : P) (a : ℕ)
  /-- `p` calls `wakeup`. -/
  | wakeup (p : P) (chan : Chan)
  /-- `p` calls `kill` for `q`. -/
  | kill (p q : P)
  /-- A scheduler acquires `ptable.lock`. -/
  | schedAcquire
  /-- An interrupt handler, which has acquired `ptable.lock` as a scheduler does, calls `wakeup1`. -/
  | interrupt (chan : Chan)
  /-- A scheduler with `ptable.lock` switches to `p`. -/
  | dispatch (p : P)
  /-- A scheduler releases `ptable.lock`. -/
  | schedRelease

variable [DecidableEq P]

namespace State

/-- `p` calls a function from inside or outside of the section. -/
def atHome (s : State P) (p : P) (f : Bool → Option (State P)) : Option (State P) :=
  match s.ctl p with
  | .run .out => f false
  | .run .holds => f true
  | _ => none

/-- `kill` for `q`, under `ptable.lock`. -/
def wakeKilled (q : P) (proc : P → Proc) : P → Proc :=
  update proc q
    { proc q with state := if (proc q).state = .sleeping then .runnable else (proc q).state }

/-- **The steps**; `none` when a step is not possible. -/
def step (s : State P) : Event P → Option (State P)
  | .act p => s.act p
  | .call p => s.atHome p fun inside => some (s.goto p (.run (if inside then .rel else .acq)))
  | .holding p => s.atHome p fun inside => some (s.goto p (.run (.ask inside)))
  | .yield p =>
    match s.ctl p with
    | .run pl =>
      if pl.preemptible then
        (s.setProc p { s.proc p with state := .runnable }).acquireTable p (.leave pl)
      else none
    | _ => none
  | .sleep p a =>
    s.atHome p fun inside =>
      (s.setProc p ⟨.sleeping, some (.other a)⟩).acquireTable p (.leave (.wakeOther inside))
  | .wakeup p chan =>
    s.atHome p fun inside =>
      { s with proc := wakeup1 chan s.proc }.acquireTable p (.run (.table inside))
  | .kill p q =>
    s.atHome p fun inside =>
      { s with proc := wakeKilled q s.proc }.acquireTable p (.run (.table inside))
  | .schedAcquire => if s.ptable = none then some { s with ptable := some .scheduler } else none
  | .interrupt chan =>
    if s.ptable = some .scheduler then some { s with proc := wakeup1 chan s.proc } else none
  | .dispatch p =>
    match s.ctl p with
    | .off pl =>
      if s.ptable = some .scheduler ∧ (s.proc p).state = .runnable then
        some (({ s with ptable := some (.proc p) }.setProc p
          { s.proc p with state := .running }).goto p (.back pl))
      else none
    | _ => none
  | .schedRelease =>
    if s.ptable = some .scheduler then some { s with ptable := none } else none

/-! ## The invariant -/

/-- `p` sleeps on the sleep-lock or is about to. -/
def Dozes (s : State P) (p : P) : Prop :=
  (s.ctl p).place.dozing ∨ (s.proc p).state = .sleeping ∧ (s.proc p).chan = some .lock

/-- The spinlocks, the owner of the sleep-lock and those who sleep on it. -/
structure Inv (s : State P) : Prop where
  lk : ∀ p, s.lk = some p ↔ (s.ctl p).hasLk
  table : ∀ p, s.ptable = some (.proc p) ↔ (s.ctl p).hasTable
  ok : ∀ p, (s.ctl p).ok
  owner : ∀ p, (s.ctl p).place.inSection ↔ s.locked = true ∧ s.pid = some p
  dozes : ∀ p, s.Dozes p → s.locked = true ∨ ∃ r, (s.ctl r).place.notifying

variable {s s' : State P} {p : P} {c : Ctl}

variable {c₀ : Ctl}

/-- **One process moves** from `c₀` to `c`.  It suffices to look at what it has at these places:
the spinlocks, the sleep-lock, and its part in the wakeup. -/
theorem Inv.move {o : Option (Owner P)} (h : s.Inv) (h₀ : s.ctl p = c₀)
    (hctl : s'.ctl = update s.ctl p c) (hok : c.ok = true)
    (hlk : s'.lk = if c.hasLk then some p else if c₀.hasLk then none else s.lk)
    (hlk₀ : c.hasLk = true → c₀.hasLk = true ∨ s.lk = none)
    (htable : s'.ptable = if c.hasTable then some (.proc p) else if c₀.hasTable then o else s.ptable)
    (ho : ∀ q, o ≠ some (.proc q))
    (htable₀ : c.hasTable = true → c₀.hasTable = true ∨ ∀ q, s.ptable ≠ some (.proc q))
    (hsection : s'.locked = s.locked ∧ s'.pid = s.pid ∧ c.place.inSection = c₀.place.inSection ∨
      s.locked = false ∧ s'.locked = true ∧ s'.pid = some p ∧ c.place.inSection = true ∨
      s'.locked = false ∧ c.place.notifying = true ∧ c₀.place.inSection = true ∧
        c.place.inSection = false)
    (hsleep : ∀ q, (s'.proc q).state = .sleeping → (s'.proc q).chan = some .lock → s.Dozes q)
    (hdoze : c.place.dozing = true → c₀.place.dozing = true ∨ s'.locked = true)
    (hnotify : c₀.place.notifying = true → c.place.notifying = true ∨ ∀ q, ¬ s'.Dozes q) :
    s'.Inv := by
  have hp : s'.ctl p = c := by rw [hctl, update_self]
  have hne : ∀ q, q ≠ p → s'.ctl q = s.ctl q := fun q hq => by rw [hctl, update_of_ne hq]
  have hlkp := h.lk p
  have htbp := h.table p
  have howp := h.owner p
  rw [h₀] at hlkp htbp howp
  refine ⟨fun q => ?_, fun q => ?_, fun q => ?_, fun q => ?_, fun q hq => ?_⟩
  · have hlkq := h.lk q
    by_cases hqp : q = p
    · subst hqp
      rw [hp, hlk]
      grind
    · rw [hne q hqp, hlk]
      grind
  · have htbq := h.table q
    by_cases hqp : q = p
    · subst hqp
      rw [hp, htable]
      grind
    · rw [hne q hqp, htable]
      grind
  · by_cases hqp : q = p
    · rw [hqp, hp]
      exact hok
    · rw [hne q hqp]
      exact h.ok q
  · have howq := h.owner q
    by_cases hqp : q = p
    · subst hqp
      rw [hp]
      grind
    · rw [hne q hqp]
      grind
  · -- whoever dozes now dozed before, or `p` has just found the sleep-lock taken
    have hold : s.Dozes q ∨ s'.locked = true := by
      obtain hplace | ⟨hstate, hchan⟩ := hq
      · by_cases hqp : q = p
        · subst hqp
          rw [hp] at hplace
          refine (hdoze hplace).imp_left fun hd => .inl ?_
          rw [h₀]
          exact hd
        · rw [hne q hqp] at hplace
          exact .inl (.inl hplace)
      · exact .inl (hsleep q hstate hchan)
    obtain hold | hlocked := hold
    · obtain hlocked | ⟨r, hr⟩ := h.dozes q hold
      · obtain ⟨heq, -⟩ | ⟨-, hset, -⟩ | ⟨-, hnot, -⟩ := hsection
        · exact .inl (heq.trans hlocked)
        · exact .inl hset
        · exact .inr ⟨p, by rw [hp]; exact hnot⟩
      · by_cases hrp : r = p
        · subst hrp
          rw [h₀] at hr
          obtain hnot | hnone := hnotify hr
          · exact .inr ⟨r, by rw [hp]; exact hnot⟩
          · exact absurd hq (hnone q)
        · exact .inr ⟨r, by rw [hne r hrp]; exact hr⟩
    · exact .inl hlocked

omit [DecidableEq P] in
/-- A process that sleeps on the sleep-lock after `wakeup1`, `kill` or a change of another entry slept
on it before. -/
theorem dozes_of_sleeping (hproc : s'.proc = s.proc) (q : P) (hstate : (s'.proc q).state = .sleeping)
    (hchan : (s'.proc q).chan = some .lock) : s.Dozes q := by
  rw [hproc] at hstate hchan
  exact .inr ⟨hstate, hchan⟩

theorem dozes_of_setProc {v : Proc} (hproc : s'.proc = (s.setProc p v).proc)
    (hv : v.state = .sleeping → v.chan = some .lock → s.Dozes p) (q : P)
    (hstate : (s'.proc q).state = .sleeping) (hchan : (s'.proc q).chan = some .lock) :
    s.Dozes q := by
  rw [hproc, setProc] at hstate hchan
  by_cases hqp : q = p
  · subst hqp
    simp only [update_self] at hstate hchan
    exact hv hstate hchan
  · simp only [update_of_ne hqp] at hstate hchan
    exact .inr ⟨hstate, hchan⟩

omit [DecidableEq P] in
theorem wakeup1_sleeping {chan : Chan} {proc : P → Proc} {q : P}
    (h : (wakeup1 chan proc q).state = .sleeping) :
    wakeup1 chan proc q = proc q ∧ (proc q).chan ≠ some chan := by
  unfold wakeup1 at h ⊢
  split at h
  · simp at h
  next hnot =>
    rw [if_neg hnot]
    exact ⟨rfl, fun hchan => hnot ⟨h, hchan⟩⟩

omit [DecidableEq P] in
theorem dozes_of_wakeup1 {chan : Chan} {q : P} (hstate : (wakeup1 chan s.proc q).state = .sleeping)
    (hchan : (wakeup1 chan s.proc q).chan = some .lock) : s.Dozes q := by
  obtain ⟨heq, -⟩ := wakeup1_sleeping hstate
  rw [heq] at hstate hchan
  exact .inr ⟨hstate, hchan⟩

/-- A process that acquires `lk->lk` found it free. -/
theorem Inv.acquireLk {pl : Place} (h : s.Inv) (h₀ : s.ctl p = c₀)
    (hstep : s.acquireLk p pl = some s') (hok : (Ctl.run pl).ok = true) (hlk : pl.hasLk = true)
    (htable : pl.hasTable = false) (htable₀ : c₀.hasTable = false)
    (hsection : pl.inSection = c₀.place.inSection) (hdoze : pl.dozing = false)
    (hnotify : c₀.place.notifying = false) : s'.Inv := by
  obtain ⟨hnone, hs⟩ := ite_none_right_eq_some.mp hstep
  cases hs
  have hrun : (Ctl.run pl).hasTable = false := htable
  refine h.move (o := none) h₀ rfl hok ?_ (fun _ => .inr hnone) ?_ nofun ?_ (.inl ⟨rfl, rfl, hsection⟩)
    (dozes_of_sleeping rfl) ?_ ?_
  · simp [goto, Ctl.hasLk, hlk]
  · simp [goto, hrun, htable₀]
  · simp [hrun]
  · simp [Ctl.place, hdoze]
  · simp [hnotify]

/-- A process that acquires `ptable.lock` found it free. -/
theorem Inv.acquireTable {t : State P} (h : s.Inv) (h₀ : s.ctl p = c₀)
    (hstep : t.acquireTable p c = some s') (ht : t = { s with proc := t.proc }) (hok : c.ok = true)
    (htable : c.hasTable = true) (hlk : c.hasLk = c₀.hasLk)
    (hsection : c.place.inSection = c₀.place.inSection)
    (hsleep : ∀ q, (t.proc q).state = .sleeping → (t.proc q).chan = some .lock → s.Dozes q)
    (hdoze : c.place.dozing = true → c₀.place.dozing = true)
    (hnotify : c₀.place.notifying = true → c.place.notifying = true) : s'.Inv := by
  obtain ⟨hnone, hs⟩ := ite_none_right_eq_some.mp hstep
  cases hs
  rw [ht] at hnone
  have hnone' : s.ptable = none := hnone
  refine h.move (o := none) h₀ (by rw [ht]; rfl) hok ?_ (fun hc => .inl (hlk ▸ hc)) ?_ nofun
    (fun _ => .inr fun q => by simp [hnone']) (.inl ⟨by rw [ht]; rfl, by rw [ht]; rfl, hsection⟩)
    hsleep (fun hc => .inl (hdoze hc)) fun hc => .inl (hnotify hc)
  · have hlkp := h.lk p
    rw [h₀] at hlkp
    rw [ht, hlk]
    simp only [goto]
    grind
  · simp [goto, htable]

/-- Whoever is about to sleep has a spinlock. -/
theorem spinlock_of_dozing (hok : c.ok = true) (hdoze : c.place.dozing = true) :
    c.hasLk = true ∨ c.hasTable = true := by
  cases c with
  | run pl => cases pl <;> simp_all [Ctl.place, Place.dozing, Ctl.hasLk, Place.hasLk, Ctl.hasTable,
      Place.hasTable]
  | leave pl | off pl | back pl =>
    cases pl <;> simp_all [Ctl.place, Place.dozing, Ctl.ok, Place.resumable, Place.preemptible]

/-- Whoever is about to wake the others up has `lk->lk`. -/
theorem hasLk_of_notifying (hok : c.ok = true) (hnotify : c.place.notifying = true) :
    c.hasLk = true := by
  cases c with
  | run pl => cases pl <;> simp_all [Ctl.place, Place.notifying, Ctl.hasLk, Place.hasLk]
  | leave pl | off pl | back pl =>
    cases pl <;> simp_all [Ctl.place, Place.notifying, Ctl.ok, Place.resumable, Place.preemptible]

/-- What a process does next keeps the invariant. -/
theorem Inv.act (h : s.Inv) (hstep : s.act p = some s') : s'.Inv := by
  have hlkp := h.lk p
  revert hstep
  unfold State.act
  cases hctl : s.ctl p with
  | run pl =>
    cases pl with
    | acq | rel | ask inside =>
      exact fun hstep => h.acquireLk hctl hstep rfl rfl rfl rfl rfl rfl rfl
    | test =>
      have hlk : s.lk = some p := hlkp.mpr (by rw [hctl]; rfl)
      dsimp only
      split
      next hlocked =>
        rintro ⟨⟩
        exact h.move (o := none) hctl rfl rfl hlk (fun _ => .inl rfl) rfl nofun nofun
          (.inl ⟨rfl, rfl, rfl⟩) (dozes_of_sleeping rfl) (fun _ => .inr hlocked) nofun
      next hfree =>
        rintro ⟨⟩
        exact h.move (o := none) hctl rfl rfl hlk (fun _ => .inl rfl) rfl nofun nofun
          (.inr (.inl ⟨Bool.eq_false_iff.mpr hfree, rfl, rfl, rfl⟩)) (dozes_of_sleeping rfl) nofun
          nofun
    | taken | relDone =>
      rintro ⟨⟩
      exact h.move (o := none) hctl rfl rfl rfl nofun rfl nofun nofun (.inl ⟨rfl, rfl, rfl⟩)
        (dozes_of_sleeping rfl) nofun nofun
    | sleepAcq =>
      exact fun hstep => h.acquireTable hctl hstep rfl rfl rfl rfl rfl (fun q hs hc => .inr ⟨hs, hc⟩)
        (fun _ => rfl) nofun
    | sleepRel =>
      rintro ⟨⟩
      have htb : s.ptable = some (.proc p) := (h.table p).mpr (by rw [hctl]; rfl)
      exact h.move (o := none) hctl rfl rfl rfl nofun htb nofun (fun _ => .inl rfl)
        (.inl ⟨rfl, rfl, rfl⟩) (dozes_of_sleeping rfl) (fun _ => .inl rfl) nofun
    | sleepSet =>
      rintro ⟨⟩
      have htb : s.ptable = some (.proc p) := (h.table p).mpr (by rw [hctl]; rfl)
      refine h.move (o := none) hctl rfl rfl rfl nofun htb nofun (fun _ => .inl rfl)
        (.inl ⟨rfl, rfl, rfl⟩) (dozes_of_setProc rfl fun _ _ => .inl ?_) nofun nofun
      rw [hctl]
      rfl
    | relSet =>
      rintro ⟨⟩
      have hlk : s.lk = some p := hlkp.mpr (by rw [hctl]; rfl)
      exact h.move (o := none) hctl rfl rfl hlk (fun _ => .inl rfl) rfl nofun nofun
        (.inr (.inr ⟨rfl, rfl, rfl, rfl⟩)) (dozes_of_sleeping rfl) nofun nofun
    | relCall =>
      exact fun hstep => h.acquireTable hctl hstep rfl rfl rfl rfl rfl (fun q hs hc => .inr ⟨hs, hc⟩)
        nofun (fun _ => rfl)
    | relWake =>
      rintro ⟨⟩
      have hlk : s.lk = some p := hlkp.mpr (by rw [hctl]; rfl)
      have htb : s.ptable = some (.proc p) := (h.table p).mpr (by rw [hctl]; rfl)
      refine h.move (o := none) hctl rfl rfl hlk (fun _ => .inl rfl) htb nofun (fun _ => .inl rfl)
        (.inl ⟨rfl, rfl, rfl⟩) (fun q hs hc => ?_) nofun fun _ => .inr fun q hq => ?_
      · obtain ⟨heq, hne⟩ := wakeup1_sleeping hs
        exact absurd (heq ▸ hc) hne
      · obtain hplace | ⟨hs, hc⟩ := hq
        · -- whoever is about to sleep has one of the two spinlocks that `p` has
          have hqp : q ≠ p := by
            rintro rfl
            simp [goto, Ctl.place, Place.dozing] at hplace
          simp only [goto, update_of_ne hqp] at hplace
          obtain hq | hq := spinlock_of_dozing (h.ok q) hplace
          · exact hqp (some.inj (((h.lk q).mpr hq).symm.trans hlk))
          · have heq := ((h.table q).mpr hq).symm.trans htb
            simp [hqp] at heq
        · obtain ⟨heq, hne⟩ := wakeup1_sleeping hs
          exact hne (heq ▸ hc)
    | relWoken =>
      rintro ⟨⟩
      have hlk : s.lk = some p := hlkp.mpr (by rw [hctl]; rfl)
      exact h.move (o := none) hctl rfl rfl hlk (fun _ => .inl rfl) rfl nofun nofun
        (.inl ⟨rfl, rfl, rfl⟩) (dozes_of_sleeping rfl) nofun nofun
    | table inside | asked inside =>
      rintro ⟨⟩
      cases inside <;> exact h.move (o := none) hctl rfl rfl rfl nofun rfl nofun nofun
        (.inl ⟨rfl, rfl, rfl⟩) (dozes_of_sleeping rfl) nofun nofun
    | out | holds | wake | wakeOther => exact nofun
  | leave pl =>
    rintro ⟨⟩
    have hok := h.ok p
    rw [hctl] at hok
    exact h.move (o := some .scheduler) hctl rfl hok rfl nofun rfl nofun nofun
      (.inl ⟨rfl, rfl, rfl⟩) (dozes_of_sleeping rfl) (fun hd => .inl hd) fun hn => .inl hn
  | back pl =>
    have hok := h.ok p
    rw [hctl] at hok
    cases pl with
    | wake =>
      rintro ⟨⟩
      exact h.move (o := none) hctl rfl rfl rfl nofun rfl nofun nofun
        (.inl ⟨rfl, rfl, rfl⟩) (dozes_of_setProc rfl nofun) nofun nofun
    | wakeOther inside =>
      rintro ⟨⟩
      cases inside <;> exact h.move (o := none) hctl rfl rfl rfl nofun rfl nofun nofun
        (.inl ⟨rfl, rfl, rfl⟩) (dozes_of_setProc rfl nofun) nofun nofun
    | out | acq | holds | rel | ask =>
      rintro ⟨⟩
      exact h.move (o := none) hctl rfl rfl rfl nofun rfl nofun nofun
        (.inl ⟨rfl, rfl, rfl⟩) (dozes_of_sleeping rfl) nofun nofun
    | _ => cases hok
  | off pl => exact nofun

omit [DecidableEq P] in
/-- A call starts inside or outside of the section. -/
theorem atHome_eq_some {f : Bool → Option (State P)} (h : s.atHome p f = some s') :
    ∃ inside, s.ctl p = .run (.home inside) ∧ f inside = some s' := by
  unfold atHome at h
  split at h
  next hctl => exact ⟨false, hctl, h⟩
  next hctl => exact ⟨true, hctl, h⟩
  next => cases h

/-- **Every step keeps the invariant.** -/
theorem Inv.step {e : Event P} (h : s.Inv) (hstep : s.step e = some s') : s'.Inv := by
  unfold State.step at hstep
  cases e with
  | act p => exact h.act hstep
  | call p | holding p =>
    obtain ⟨inside, hctl, hs⟩ := atHome_eq_some hstep
    cases hs
    cases inside <;> exact h.move (o := none) hctl rfl rfl rfl nofun rfl nofun nofun
      (.inl ⟨rfl, rfl, rfl⟩) (dozes_of_sleeping rfl) nofun nofun
  | yield p =>
    dsimp only at hstep
    split at hstep
    next pl hctl =>
      obtain ⟨hpre, hs⟩ := ite_none_right_eq_some.mp hstep
      cases pl with
      | out | acq | holds | rel | ask =>
        exact h.acquireTable hctl hs rfl rfl rfl rfl rfl (dozes_of_setProc rfl nofun) nofun nofun
      | _ => cases hpre
    next => cases hstep
  | sleep p a =>
    obtain ⟨inside, hctl, hs⟩ := atHome_eq_some hstep
    cases inside <;> exact h.acquireTable hctl hs rfl rfl rfl rfl rfl (dozes_of_setProc rfl nofun)
      nofun nofun
  | wakeup p chan =>
    obtain ⟨inside, hctl, hs⟩ := atHome_eq_some hstep
    cases inside <;> exact h.acquireTable hctl hs rfl rfl rfl rfl rfl
      (fun q => dozes_of_wakeup1) nofun nofun
  | kill p q =>
    obtain ⟨inside, hctl, hs⟩ := atHome_eq_some hstep
    have hsleep : ∀ r, (wakeKilled q s.proc r).state = .sleeping →
        (wakeKilled q s.proc r).chan = some .lock → s.Dozes r := by
      refine dozes_of_setProc (p := q) rfl fun hstate hchan => ?_
      dsimp only at hstate
      split at hstate
      · cases hstate
      · exact .inr ⟨hstate, hchan⟩
    cases inside <;> exact h.acquireTable hctl hs rfl rfl rfl rfl rfl hsleep nofun nofun
  | schedAcquire =>
    obtain ⟨hnone, hs⟩ := ite_none_right_eq_some.mp hstep
    cases hs
    refine ⟨h.lk, fun p => ?_, h.ok, h.owner, h.dozes⟩
    have htb := h.table p
    rw [hnone] at htb
    simpa using htb
  | interrupt chan =>
    obtain ⟨-, hs⟩ := ite_none_right_eq_some.mp hstep
    cases hs
    exact ⟨h.lk, h.table, h.ok, h.owner, fun p hp => h.dozes p (hp.elim .inl fun hsleep =>
      dozes_of_wakeup1 hsleep.1 hsleep.2)⟩
  | dispatch p =>
    dsimp only at hstep
    split at hstep
    next pl hctl =>
      obtain ⟨⟨htb, -⟩, hs⟩ := ite_none_right_eq_some.mp hstep
      cases hs
      have hok := h.ok p
      rw [hctl] at hok
      exact h.move (o := none) hctl rfl hok rfl nofun rfl nofun (fun _ => .inr fun q => by simp [htb])
        (.inl ⟨rfl, rfl, rfl⟩) (dozes_of_setProc rfl nofun) (fun hd => .inl hd) fun hn => .inl hn
    next => cases hstep
  | schedRelease =>
    obtain ⟨hsched, hs⟩ := ite_none_right_eq_some.mp hstep
    cases hs
    refine ⟨h.lk, fun p => ?_, h.ok, h.owner, h.dozes⟩
    have htb := h.table p
    rw [hsched] at htb
    simpa using htb

omit [DecidableEq P] in
theorem inv_init : (init : State P).Inv :=
  ⟨fun _ => by simp [init, Ctl.hasLk], fun _ => by simp [init, Ctl.hasTable], fun _ => rfl,
    fun _ => by simp [init, Ctl.place, Place.inSection],
    fun p hp => by simp [Dozes, init, Ctl.place, Place.dozing] at hp⟩

/-- The invariant holds after every run. -/
theorem run_inv {events : List (Event P)} (hrun : Runs.run step init events = some s) : s.Inv :=
  Runs.run_invariant (I := Inv) (fun _ _ _ hstep h => h.step hstep) hrun inv_init

/-- `holdingsleep` tells whether the process has the sleep-lock. -/
theorem holdingsleep_run {events : List (Event P)} {inside : Bool}
    (hrun : Runs.run step init events = some s) (hp : s.ctl p = .run (.asked inside)) :
    s.holdingsleep p = inside := by
  have how := (run_inv hrun).owner p
  rw [hp] at how
  simp only [Ctl.place, Place.inSection] at how
  unfold holdingsleep
  cases inside <;> simp_all

/-- The process that has just taken the sleep-lock. -/
theorem holdingsleep_run_taken : ∃ s : State ℕ, Runs.run step init [.schedAcquire, .dispatch 0, .act 0,
    .call 0, .act 0, .act 0, .act 0, .holding 0, .act 0] = some s ∧ s.holdingsleep 0 = true := by
  have hrun : Runs.run step (init : State ℕ) [.schedAcquire, .dispatch 0, .act 0, .call 0, .act 0, .act 0,
      .act 0, .holding 0, .act 0] = some _ := rfl
  exact ⟨_, hrun, holdingsleep_run hrun rfl⟩

/-- **Sleep-locks.**  In every state reached, at most one process is between `acquiresleep` and
`releasesleep`, and while `lk->lk` is free, nobody sleeps on a sleep-lock that is not taken. -/
theorem sleeplock_run {events : List (Event P)} (hrun : Runs.run step init events = some s) :
    (∀ p q, (s.ctl p).place.inSection → (s.ctl q).place.inSection → p = q) ∧
    (s.lk = none → ∀ p, (s.proc p).state = .sleeping → (s.proc p).chan = some .lock →
      s.locked = true) := by
  have h := run_inv hrun
  refine ⟨fun p q hp hq => ?_, fun hlk p hstate hchan => ?_⟩
  · have hpidp := ((h.owner p).mp hp).2
    have hpidq := ((h.owner q).mp hq).2
    exact some.inj (hpidp.symm.trans hpidq)
  · obtain hlocked | ⟨r, hr⟩ := h.dozes p (.inr ⟨hstate, hchan⟩)
    · exact hlocked
    · -- whoever is about to wake the others up has `lk->lk`
      have hlkr := (h.lk r).mpr (hasLk_of_notifying (h.ok r) hr)
      rw [hlk] at hlkr
      cases hlkr

/-- The first of two processes has the sleep-lock and the second one sleeps on it. -/
theorem sleeplock_run_two : ∃ s : State ℕ,
    Runs.run step init [.schedAcquire, .dispatch 0, .act 0, .call 0, .act 0, .act 0, .act 0,
      .schedAcquire, .dispatch 1, .act 1, .call 1, .act 1, .act 1, .act 1, .act 1, .act 1,
      .act 1] = some s ∧
    s.lk = none ∧ (s.proc 1).state = .sleeping ∧ s.locked = true := by
  have hrun : Runs.run step (init : State ℕ) [.schedAcquire, .dispatch 0, .act 0, .call 0,
      .act 0, .act 0, .act 0, .schedAcquire, .dispatch 1, .act 1, .call 1, .act 1, .act 1, .act 1,
      .act 1, .act 1, .act 1] = some _ := rfl
  exact ⟨_, hrun, rfl, rfl, (sleeplock_run hrun).2 rfl 1 rfl rfl⟩

end State

end SleepLock
