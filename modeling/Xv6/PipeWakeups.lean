/-
# Who sleeps on a pipe

A process that sleeps on `&p->nread` should find the pipe empty and its write end open, and one that sleeps on
`&p->nwrite` should find it full and its read end open, whenever `p->lock` is free.  Whoever changes this wakes
the sleepers up before it gives the lock back, with one exception: a `pipewrite` that has filled the ring and
then finds its process killed, or the read end closed, returns without a `wakeup(&p->nread)`.
-/
import Xv6.Pipe

open Function

namespace Pipe

/-! ## Sleepers and those who owe a wakeup -/

namespace Place

/-- The process is in `sleep` and not yet `SLEEPING`. -/
def dozing (chan : Chan) : Place → Bool
  | .sleep c _ | .sleepSet c _ => c = chan
  | _ => false

/-- The process has `p->lock` and wakes the sleepers up before it gives it back, if it does not give up. -/
def wakes (chan : Chan) : Place → Bool
  | .loop (.pipewrite _ _ _) | .full _ => chan = .nread
  | .copy _ _ => chan = .nwrite
  | .notify c _ => c = chan
  | _ => false

variable {pl : Place} {chan : Chan}

theorem hasLock_of_wakes (h : pl.wakes chan = true) : pl.hasLock = true := by
  cases pl with
  | loop | full | copy | notify => rfl
  | _ => cases h

theorem hasLock_or_hasTable_of_dozing (h : pl.dozing chan = true) :
    pl.hasLock = true ∨ pl.hasTable = true := by
  cases pl with
  | sleep => exact .inl rfl
  | sleepSet => exact .inr rfl
  | _ => cases h

end Place

variable {P : Type}

namespace State

/-- `p` sleeps on the channel or is about to. -/
def Dozes (s : State P) (p : P) (chan : Chan) : Prop :=
  s.sleeping p = some chan ∨ (s.place p).dozing chan = true

/-- There is a reason to sleep on the channel. -/
def Idle (s : State P) : Chan → Prop
  | .nread => s.nread = s.nwrite ∧ s.writeopen = true
  | .nwrite => s.nwrite = u32 (s.nread + PIPESIZE) ∧ s.readopen = true

/-- **The invariant**: whoever sleeps has a reason to, or is about to be woken up. -/
structure Wakeful (s : State P) : Prop where
  /-- What a writer has found does not change while it has the lock. -/
  full : ∀ p c, s.place p = .full c → s.Idle .nwrite
  calm : ∀ p chan, s.Dozes p chan → s.Idle chan ∨ ∃ r, (s.place r).wakes chan = true

variable {s s' : State P} {p q : P} {pl : Place} {chan : Chan}

theorem wakeful_init (data : ℕ → UInt8) : (init data : State P).Wakeful :=
  ⟨nofun, fun p chan h => by simp [Dozes, init, Place.dozing] at h⟩

variable [DecidableEq P]

/-- **One process moves.**  A sleeper was one before, and if it loses its reason or somebody who owed it a
wakeup, the process that moves owes it one now. -/
theorem Wakeful.move (h : s.Wakeful) (hplace : s'.place = update s.place p pl)
    (hfull : ∀ q c, s'.place q = .full c → s'.Idle .nwrite)
    (hcalm : ∀ q chan, s'.Dozes q chan → s'.Idle chan ∨ pl.wakes chan = true ∨
      s.Dozes q chan ∧ (s.Idle chan → s'.Idle chan ∨ pl.wakes chan = true) ∧
        ((s.place p).wakes chan = true → pl.wakes chan = true)) : s'.Wakeful := by
  have hp : s'.place p = pl := by rw [hplace, update_self]
  have hwakes : ∀ chan, pl.wakes chan = true → ∃ r, (s'.place r).wakes chan = true := fun chan hpl =>
    ⟨p, by rwa [hp]⟩
  refine ⟨hfull, fun q chan hq => ?_⟩
  obtain hidle | hpl | ⟨hold, hidle, howes⟩ := hcalm q chan hq
  · exact .inl hidle
  · exact .inr (hwakes chan hpl)
  · obtain hbefore | ⟨r, hr⟩ := h.calm q chan hold
    · exact (hidle hbefore).imp_right (hwakes chan)
    · by_cases hrp : r = p
      · rw [hrp] at hr
        exact .inr (hwakes chan (howes hr))
      · exact .inr ⟨r, by rwa [hplace, update_of_ne hrp]⟩

/-- After a move the sleepers are the same but for the process that moves. -/
theorem dozes_goto (hq : s'.Dozes q chan) (hsleeping : s'.sleeping = s.sleeping)
    (hplace : s'.place = update s.place p pl) : s.Dozes q chan ∨ q = p ∧ pl.dozing chan = true := by
  obtain hsleep | hdoze := hq
  · rw [hsleeping] at hsleep
    exact .inl (.inl hsleep)
  · by_cases hqp : q = p
    · rw [hqp, hplace, update_self] at hdoze
      exact .inr ⟨hqp, hdoze⟩
    · rw [hplace, update_of_ne hqp] at hdoze
      exact .inl (.inr hdoze)

omit [DecidableEq P] in
theorem dozes_of_wakeup {c : Chan} (hq : (s.wakeup c).Dozes q chan) : s.Dozes q chan := by
  refine hq.imp_left fun hsleep => ?_
  simp only [wakeup] at hsleep
  split at hsleep
  · cases hsleep
  · exact hsleep

/-- After a `wakeup` by a process with `p->lock`, while `ptable.lock` is free, nobody sleeps on the channel. -/
theorem Locks.not_dozes_wakeup (h : s.Locks) (hp : (s.place p).hasLock = true) (htable : s.ptable = none)
    (hpl : pl.dozing chan = false) : ¬ ((s.wakeup chan).goto p pl).Dozes q chan := by
  rintro (hsleep | hdoze)
  · simp only [goto, wakeup] at hsleep
    split at hsleep
    · cases hsleep
    next hne => exact hne hsleep
  · by_cases hqp : q = p
    · subst hqp
      simp [goto, hpl] at hdoze
    · simp only [goto, wakeup, update_of_ne hqp] at hdoze
      obtain hlock | hlock := Place.hasLock_or_hasTable_of_dozing hdoze
      · exact hqp (h.eq_of_hasLock hp hlock)
      · rw [(h.table q).mpr hlock] at htable
        cases htable

/-- A move that wakes nobody up. -/
theorem Wakeful.quiet (h : s.Wakeful) (hplace : s'.place = update s.place p pl)
    (hsleeping : s'.sleeping = s.sleeping) (hfull : ∀ q c, s'.place q = .full c → s'.Idle .nwrite)
    (hidle : ∀ chan, s.Idle chan → s'.Idle chan ∨ pl.wakes chan = true)
    (hdoze : ∀ chan, pl.dozing chan = true → s'.Idle chan ∨ (s.place p).dozing chan = true)
    (howes : ∀ chan, (s.place p).wakes chan = true → pl.wakes chan = true) : s'.Wakeful := by
  refine h.move hplace hfull fun q chan hq => ?_
  obtain hold | ⟨rfl, hpl⟩ := dozes_goto hq hsleeping hplace
  · exact .inr (.inr ⟨hold, hidle chan, howes chan⟩)
  · exact (hdoze chan hpl).imp_right fun hold => .inr ⟨.inr hold, hidle chan, howes chan⟩

/-- Only the process with `p->lock` can be about to sleep on a full pipe. -/
theorem Locks.full_own (h : s.Locks) (hp : (s.place p).hasLock = true)
    (hplace : s'.place = update s.place p pl) (hpl : ∀ c, pl = .full c → s'.Idle .nwrite) (q : P)
    (c : Call) (hq : s'.place q = .full c) : s'.Idle .nwrite := by
  by_cases hqp : q = p
  · rw [hqp, hplace, update_self] at hq
    exact hpl c hq
  · rw [hplace, update_of_ne hqp] at hq
    exact absurd (h.eq_of_hasLock hp (by rw [hq]; rfl)) hqp

/-- A move of the process that has the lock, from `pl₀`, that wakes nobody up. -/
theorem Wakeful.own {pl₀ : Place} (h : s.Wakeful) (hlocks : s.Locks) (hp : s.place p = pl₀)
    (hlock : pl₀.hasLock = true) (hplace : s'.place = update s.place p pl) (hsleeping : s'.sleeping = s.sleeping)
    (hfull : ∀ c, pl = .full c → s'.Idle .nwrite)
    (hidle : ∀ chan, s.Idle chan → s'.Idle chan ∨ pl.wakes chan = true)
    (hdoze : ∀ chan, pl.dozing chan = true → s'.Idle chan ∨ pl₀.dozing chan = true)
    (howes : ∀ chan, pl₀.wakes chan = true → pl.wakes chan = true) : s'.Wakeful := by
  subst hp
  exact h.quiet hplace hsleeping (hlocks.full_own hlock hplace hfull) hidle hdoze howes

/-- The pipe is as it was. -/
theorem Wakeful.full_other (h : s.Wakeful) (hplace : s'.place = update s.place p pl)
    (hpl : ∀ c, pl ≠ .full c) (hidle : s.Idle .nwrite → s'.Idle .nwrite) (q : P) (c : Call)
    (hq : s'.place q = .full c) : s'.Idle .nwrite := by
  by_cases hqp : q = p
  · rw [hqp, hplace, update_self] at hq
    exact absurd hq (hpl c)
  · rw [hplace, update_of_ne hqp] at hq
    exact hidle (h.full q c hq)

/-- **A `pipewrite` gives up only when nobody sleeps on `&p->nread`.** -/
def GivesUpAlone (s : State P) : Event P → Prop
  | .act p => ∀ addr n i, s.place p = .loop (.pipewrite addr n i) → i < n →
      s.nwrite = u32 (s.nread + PIPESIZE) → s.readopen = false ∨ s.killed p = true →
      ∀ q, ¬ s.Dozes q .nread
  | _ => True

theorem Wakeful.acts (h : s.Wakeful) (hlocks : s.Locks) (hacts : s.Acts p s')
    (hgood : s.GivesUpAlone (.act p)) : s'.Wakeful := by
  cases hacts with
  | acquire c hp | asleep hp =>
    refine h.quiet rfl rfl (h.full_other rfl nofun id) (fun _ => .inl) nofun fun chan howes => ?_
    rw [hp] at howes
    cases howes
  | @giveUp addr n i hp hi hfull hstop =>
    refine h.move rfl (hlocks.full_own (by rw [hp]; rfl) rfl nofun) fun q chan hq => ?_
    have hold : s.Dozes q chan := by
      obtain hold | ⟨-, hdoze⟩ := dozes_goto (s := s) (p := p) hq rfl rfl
      · exact hold
      · cases hdoze
    cases chan with
    | nread => exact absurd hold (hgood addr n i hp hi hfull hstop q)
    | nwrite =>
      refine .inr (.inr ⟨hold, .inl, fun howes => ?_⟩)
      rw [hp] at howes
      cases howes
  | wait hp hfull hopen =>
    exact h.own hlocks hp rfl rfl rfl (fun _ _ => ⟨hfull, hopen⟩) (fun _ => .inl) nofun fun _ => id
  | store hp hroom =>
    refine h.own hlocks hp rfl rfl rfl nofun (fun chan hidle => ?_) nofun fun _ => id
    cases chan with
    | nread => exact .inr rfl
    | nwrite => exact absurd hidle.1 hroom
  | wrote hp | copied hp =>
    refine h.own hlocks hp rfl rfl rfl nofun (fun _ => .inl) nofun fun chan howes => ?_
    simpa [Place.wakes, eq_comm] using howes
  | readKilled hp | readCopy hp =>
    exact h.own hlocks hp rfl rfl rfl nofun (fun _ => .inl) nofun nofun
  | readWait hp hempty hopen =>
    refine h.own hlocks hp rfl rfl rfl nofun (fun _ => .inl) (fun chan hdoze => ?_) nofun
    obtain rfl : Chan.nread = chan := by simpa [Place.dozing] using hdoze
    exact .inl ⟨hempty, hopen⟩
  | @close w hp =>
    cases w with
    | true =>
      refine h.own hlocks hp rfl rfl rfl nofun (fun chan hidle => ?_) nofun nofun
      cases chan with
      | nread => exact .inr rfl
      | nwrite => exact .inl hidle
    | false =>
      refine h.own hlocks hp rfl rfl rfl nofun (fun chan hidle => ?_) nofun nofun
      cases chan with
      | nread => exact .inl hidle
      | nwrite => exact .inr rfl
  | @full c hp htable =>
    have hlock : (s.place p).hasLock = true := by rw [hp]; rfl
    refine h.move rfl (hlocks.full_own hlock rfl nofun) fun q chan hq => ?_
    cases chan with
    | nread => exact absurd hq (hlocks.not_dozes_wakeup hlock htable rfl)
    | nwrite => exact .inl (h.full p c hp)
  | copy hp hbyte =>
    refine h.own hlocks hp rfl rfl rfl nofun (fun chan hidle => ?_) nofun fun _ => id
    cases chan with
    | nread => exact absurd hidle.1 hbyte
    | nwrite => exact .inr rfl
  | @notify chan r hp htable =>
    have hlock : (s.place p).hasLock = true := by rw [hp]; rfl
    refine h.move rfl (hlocks.full_own hlock rfl nofun) fun q chan' hq => ?_
    by_cases hchan : chan = chan'
    · subst hchan
      exact absurd hq (hlocks.not_dozes_wakeup hlock htable rfl)
    · refine .inr (.inr ⟨?_, .inl, fun howes => ?_⟩)
      · obtain hold | ⟨-, hdoze⟩ := dozes_goto (s := s.wakeup chan) (p := p) hq rfl rfl
        · exact dozes_of_wakeup hold
        · cases hdoze
      · rw [hp] at howes
        exact absurd (by simpa [Place.wakes] using howes) hchan
  | @ret r hp =>
    cases r with
    | wrote | read | closed =>
      refine h.own hlocks hp rfl rfl rfl nofun (fun chan hidle => ?_) nofun nofun
      cases chan <;> exact .inl hidle
  | sleep hp => exact h.own hlocks hp rfl rfl rfl nofun (fun _ => .inl) (fun _ => .inr) nofun
  | @sleepSet chan c hp =>
    refine h.move rfl (h.full_other rfl nofun id) fun q chan' hq => ?_
    refine .inr (.inr ⟨?_, .inl, fun howes => ?_⟩)
    · by_cases hqp : q = p
      · subst hqp
        -- the process has been about to sleep on the channel it sleeps on now
        have hchan : chan = chan' := by simpa [Dozes, goto, Place.dozing] using hq
        exact .inr (by simp [hp, hchan, Place.dozing])
      · simpa [Dozes, goto, hqp] using hq
    · rw [hp] at howes
      cases howes

/-- **Every step keeps the invariant**, if nobody gives up before a sleeping reader. -/
theorem Wakeful.step {e : Event P} (h : s.Wakeful) (hlocks : s.Locks) (hstep : s.step e = some s')
    (hgood : s.GivesUpAlone e) : s'.Wakeful := by
  obtain ⟨p, rfl, hacts⟩ | ⟨p, c, hp, rfl⟩ | ⟨q, -, rfl⟩ := step_cases hstep
  · exact h.acts hlocks hacts hgood
  · refine h.quiet rfl rfl (h.full_other rfl nofun id) (fun _ => .inl) nofun fun chan howes => ?_
    rw [hp] at howes
    cases howes
  · -- a process that is killed does not sleep any more
    refine ⟨h.full, fun p chan hp => h.calm p chan (hp.imp_left fun hsleep => ?_)⟩
    by_cases hpq : p = q
    · subst hpq
      simp at hsleep
    · simpa [hpq] using hsleep

/-- The invariant holds after every run in which nobody gives up before a sleeping reader. -/
theorem run_wakeful {data : ℕ → UInt8} {events : List (Event P)}
    (hrun : Runs.run step (init data) events = some s)
    (hgood : Runs.Meets step GivesUpAlone (init data) events) : s.Locks ∧ s.Wakeful :=
  Runs.run_invariant_of_meets (I := fun s => s.Locks ∧ s.Wakeful)
    (fun _ _ _ hstep hgood h => ⟨h.1.step hstep, h.2.step h.1 hstep hgood⟩) hrun hgood
    ⟨locks_init data, wakeful_init data⟩

/-- **Nobody sleeps without a reason.**  If every `pipewrite` that gives up does so while nobody sleeps on
`&p->nread`, then in every state reached in which `p->lock` is free, whoever sleeps on `&p->nread` finds the
pipe empty and its write end open, and whoever sleeps on `&p->nwrite` finds it full and its read end open. -/
theorem sleeps_idle {data : ℕ → UInt8} {events : List (Event P)}
    (hrun : Runs.run step (init data) events = some s)
    (hgood : Runs.Meets step GivesUpAlone (init data) events) (hlock : s.lock = none) (p : P) :
    (s.sleeping p = some .nread → s.nread = s.nwrite ∧ s.writeopen = true) ∧
    (s.sleeping p = some .nwrite → s.nwrite = u32 (s.nread + PIPESIZE) ∧ s.readopen = true) := by
  obtain ⟨hlocks, h⟩ := run_wakeful hrun hgood
  have hidle : ∀ chan, s.sleeping p = some chan → s.Idle chan := fun chan hsleep => by
    refine (h.calm p chan (.inl hsleep)).resolve_right ?_
    rintro ⟨r, hr⟩
    rw [(hlocks.lock r).mpr (Place.hasLock_of_wakes hr)] at hlock
    cases hlock
  exact ⟨hidle .nread, hidle .nwrite⟩

/-- The second of two processes sleeps in `piperead`, and the first one has called `pipewrite`. -/
theorem sleeps_idle_two : ∃ s : State ℕ,
    Runs.run step (init fun _ => 0) [.piperead 1 1, .act 1, .act 1, .act 1, .act 1,
      .pipewrite 0 (fun _ => 7) 1] = some s ∧
    s.sleeping 1 = some .nread ∧ s.nread = s.nwrite ∧ s.writeopen = true := by
  have hrun : Runs.run step (init fun _ => 0 : State ℕ) [.piperead 1 1, .act 1, .act 1, .act 1,
      .act 1, .pipewrite 0 (fun _ => 7) 1] = some _ := rfl
  have hgood : Runs.Meets step GivesUpAlone (init fun _ => 0 : State ℕ) [.piperead 1 1, .act 1,
      .act 1, .act 1, .act 1, .pipewrite 0 (fun _ => 7) 1] := by
    refine ⟨trivial, ?_⟩
    rintro _ ⟨⟩
    refine ⟨nofun, ?_⟩
    rintro _ ⟨⟩
    refine ⟨nofun, ?_⟩
    rintro _ ⟨⟩
    refine ⟨nofun, ?_⟩
    rintro _ ⟨⟩
    refine ⟨nofun, ?_⟩
    rintro _ ⟨⟩
    exact ⟨trivial, fun _ _ => trivial⟩
  exact ⟨_, hrun, rfl, (sleeps_idle hrun hgood rfl 1).1 rfl⟩

/-- The events of a `pipewrite` of 513 bytes by a process that has been killed, while another one sleeps in
`piperead`. -/
def killedWriter : List (Event ℕ) :=
  [.piperead 1 1, .act 1, .act 1, .act 1, .act 1, .kill 0, .pipewrite 0 (fun _ => 7) 513] ++
    List.replicate 515 (.act 0)

/-- The reader is left asleep before a full pipe. -/
theorem not_sleeps_idle_killedWriter : ∃ s : State ℕ,
    Runs.run step (init fun _ => 0) killedWriter = some s ∧ s.lock = none ∧
    s.sleeping 1 = some .nread ∧ s.nread ≠ s.nwrite := by
  have hrun : (Runs.run step (init fun _ => 0) killedWriter).map
      (fun s => (s.lock, s.sleeping 1, s.nread, s.nwrite)) = some (none, some .nread, 0, 512) := by
    decide +kernel
  obtain ⟨s, hs, hfields⟩ := Option.map_eq_some_iff.mp hrun
  simp only [Prod.mk.injEq] at hfields
  obtain ⟨hlock, hsleep, hnread, hnwrite⟩ := hfields
  exact ⟨s, hs, hlock, hsleep, by rw [hnread, hnwrite]; decide⟩

end State

end Pipe
