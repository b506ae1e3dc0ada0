/-
# What a step of a processor does

The loops of `exit` change the other entries of the table a little (`Kept`): they wake processes up
and give children another parent.  `step_rule` says once what each step does, so that the
invariants of the two modules after this one are case analyses over the rules.
-/
import Xv6.ProcTable

open Function Option

namespace ProcTable

variable {C : Type}

/-! ## What the loops over the table do -/

/-- `v'` is `v`, but possibly woken up, killed or with another parent. -/
structure Kept (v v' : Proc) : Prop where
  state : v'.state = v.state ∨ v.state = .sleeping ∧ v'.state = .runnable
  pid : v'.pid = v.pid
  chan : v'.chan = v.chan
  kstack : v'.kstack = v.kstack
  pgdir : v'.pgdir = v.pgdir
  context : v'.context = v.context
  cont : v'.cont = v.cont
  np : v'.np = v.np

namespace Kept

variable {u v w : Proc}

theorem refl (v : Proc) : Kept v v := ⟨.inl rfl, rfl, rfl, rfl, rfl, rfl, rfl, rfl⟩

theorem trans (huv : Kept u v) (hvw : Kept v w) : Kept u w where
  state := by
    have h := huv.state
    have h' := hvw.state
    grind
  pid := hvw.pid.trans huv.pid
  chan := hvw.chan.trans huv.chan
  kstack := hvw.kstack.trans huv.kstack
  pgdir := hvw.pgdir.trans huv.pgdir
  context := hvw.context.trans huv.context
  cont := hvw.cont.trans huv.cont
  np := hvw.np.trans huv.np

/-- Nobody becomes or stops being a zombie. -/
theorem zombie (h : Kept u v) : v.state = .zombie ↔ u.state = .zombie := by
  have hstate := h.state
  grind

/-- Nobody falls asleep. -/
theorem sleeping (h : Kept u v) (hv : v.state = .sleeping) : u.state = .sleeping := by
  have hstate := h.state
  grind

end Kept

namespace State

variable (p q r : Slot) (chan : Chan) (proc : Slot → Proc)

theorem wakeup1_kept : Kept (proc q) (wakeup1 chan proc q) := by
  unfold wakeup1
  split
  next h => exact ⟨.inr ⟨h.1, rfl⟩, rfl, rfl, rfl, rfl, rfl, rfl, rfl⟩
  next => exact Kept.refl _

theorem wakeup1_parent : (wakeup1 chan proc q).parent = (proc q).parent := by
  unfold wakeup1
  split <;> rfl

/-- Nobody sleeps on `chan` after a `wakeup1` of it. -/
theorem wakeup1_chan (h : (wakeup1 chan proc q).state = .sleeping) :
    (proc q).chan ≠ some chan := by
  unfold wakeup1 at h
  grind

theorem abandon_kept : Kept (proc r) (abandon p proc q r) := by
  have hupdate : Kept (proc r)
      (update proc q { proc q with parent := some initproc } r) := by
    by_cases hr : r = q
    · subst hr
      rw [update_self]
      exact ⟨.inl rfl, rfl, rfl, rfl, rfl, rfl, rfl, rfl⟩
    · rw [update_of_ne hr]
      exact Kept.refl _
  unfold abandon
  split
  · dsimp only
    split
    · exact hupdate.trans (wakeup1_kept ..)
    · exact hupdate
  · exact Kept.refl _

theorem abandon_parent : (abandon p proc q r).parent =
    if r = q ∧ (proc r).parent = some p then some initproc else (proc r).parent := by
  unfold abandon
  split
  · dsimp only
    split
    · rw [wakeup1_parent]
      grind [update_apply]
    · grind [update_apply]
  · grind

/-- When a child that has exited goes to `initproc`, this one wakes up. -/
theorem abandon_chan (hq : (proc q).parent = some p) (hz : (proc q).state = .zombie)
    (h : (abandon p proc q r).state = .sleeping) : (proc r).chan ≠ some (.proc initproc) := by
  have hkept : (abandon p proc q r).chan = (proc r).chan := (abandon_kept p q r proc).chan
  unfold abandon at h hkept
  simp only [hq, if_true, update_self, hz] at h hkept
  rw [← hkept, (wakeup1_kept ..).chan]
  exact wakeup1_chan _ _ _ h

/-- What the loop of `exit` over the slots of `l` does. -/
theorem foldl_abandon (l : List Slot) :
    (∀ r, Kept (proc r) (l.foldl (abandon p) proc r)) ∧
    (∀ r, (l.foldl (abandon p) proc r).parent =
      if r ∈ l ∧ (proc r).parent = some p then some initproc else (proc r).parent) ∧
    ∀ r, (l.foldl (abandon p) proc r).state = .sleeping →
      (proc r).chan = some (.proc initproc) →
      ∀ q ∈ l, (proc q).parent = some p → (proc q).state ≠ .zombie := by
  induction l generalizing proc with
  | nil => exact ⟨fun r => Kept.refl _, fun r => by simp, fun r _ _ q hq => by simp at hq⟩
  | cons a l ih =>
    obtain ⟨hkept, hparent, hwoken⟩ := ih (abandon p proc a)
    have hround := fun r => abandon_kept p a r proc
    rw [List.foldl_cons]
    refine ⟨fun r => (hround r).trans (hkept r), fun r => ?_, fun r hr hchan q hq hqp hz => ?_⟩
    · rw [hparent, abandon_parent]
      grind
    · by_cases hqa : q = a
      · subst hqa
        exact abandon_chan p q r proc hqp hz ((hkept r).sleeping hr) hchan
      · -- the round at `a` leaves the entry of `q` a zombie and a child of `p`
        refine hwoken r hr ((hround r).chan.trans hchan) q (List.mem_of_ne_of_mem hqa hq) ?_
          ((hround q).zombie.mpr hz)
        rw [abandon_parent, if_neg (fun h => hqa h.1), hqp]

/-- The table that `exit` walks over: the parent is awake. -/
theorem leaveFamily_eq : ∃ proc', leaveFamily p proc = (List.finRange NPROC).foldl (abandon p) proc' ∧
    (∀ r, Kept (proc r) (proc' r)) ∧ (∀ r, (proc' r).parent = (proc r).parent) ∧
    ∀ r a, (proc' r).state = .sleeping → (proc p).parent = some a →
      (proc r).chan ≠ some (.proc a) := by
  unfold leaveFamily
  cases hparent : (proc p).parent with
  | none => exact ⟨proc, rfl, fun r => Kept.refl _, fun r => rfl, fun r a _ h => by cases h⟩
  | some a =>
    refine ⟨wakeup1 (.proc a) proc, rfl, fun r => wakeup1_kept .., fun r => wakeup1_parent .., ?_⟩
    intro r b hr hb
    cases hb
    exact wakeup1_chan _ _ _ hr

theorem leaveFamily_kept : Kept (proc r) (leaveFamily p proc r) := by
  obtain ⟨proc', heq, hkept, -, -⟩ := leaveFamily_eq p proc
  rw [heq]
  exact (hkept r).trans ((foldl_abandon p proc' _).1 r)

/-- The children go to `initproc`. -/
theorem leaveFamily_parent : (leaveFamily p proc r).parent =
    if (proc r).parent = some p then some initproc else (proc r).parent := by
  obtain ⟨proc', heq, -, hparent, -⟩ := leaveFamily_eq p proc
  rw [heq, (foldl_abandon p proc' _).2.1, hparent]
  simp

/-- `exit` leaves its parent awake. -/
theorem leaveFamily_wakes_parent {a : Slot} (ha : (proc p).parent = some a)
    (h : (leaveFamily p proc r).state = .sleeping) : (proc r).chan ≠ some (.proc a) := by
  obtain ⟨proc', heq, -, -, hawake⟩ := leaveFamily_eq p proc
  rw [heq] at h
  exact hawake r a (((foldl_abandon p proc' _).1 r).sleeping h) ha

/-- `exit` leaves `initproc` awake when it passes on a child that has exited. -/
theorem leaveFamily_wakes_init (hq : (proc q).parent = some p) (hz : (proc q).state = .zombie)
    (h : (leaveFamily p proc r).state = .sleeping) : (proc r).chan ≠ some (.proc initproc) := by
  obtain ⟨proc', heq, hkept, hparent, -⟩ := leaveFamily_eq p proc
  rw [heq] at h
  intro hchan
  exact (foldl_abandon p proc' _).2.2 r h ((hkept r).chan.trans hchan) q (List.mem_finRange q)
    ((hparent q).trans hq) ((hkept q).zombie.mpr hz)

/-! ## What a step does -/

variable [DecidableEq C]

/-- What a round of `wait` in `p` does. -/
inductive WaitRule (s : State C) (c : C) (p : Slot) : State C → Prop
  | reap {q : Slot} (hparent : (s.proc q).parent = some p) (hzombie : (s.proc q).state = .zombie) :
      WaitRule s c p (((s.setProc q { s.proc q with
        kstack := false, pgdir := false, pid := 0, parent := none, killed := false,
        state := .unused }).emit (.reaped p q (s.proc q).pid)).release c (.user p))
  | childless : WaitRule s c p ((s.emit (.childless p)).release c (.user p))
  | sleep (hnone : ∀ q, (s.proc q).parent = some p → (s.proc q).state ≠ .zombie) :
      WaitRule s c p ((s.setProc p { s.proc p with
        chan := some (.proc p), state := .sleeping, cont := .wait }).hold c (.leave p))

/-- What a step does; `wakeup`, `kill` and the traps are one rule. -/
inductive Rule (s : State C) : Op C → State C → Prop
  | enter {c : C} (hctl : (s.cpu c).ctl = .idle) (hlock : s.lock = none) :
      Rule s (.enter c) (s.hold c (.scan 0))
  | dispatch {c : C} {p : Slot} (hctl : (s.cpu c).ctl = .scan p)
      (hstate : (s.proc p).state = .runnable) :
      Rule s (.scan c) { s.setProc p { s.proc p with state := .running, context := false } with
        cpu := update s.cpu c ⟨some p, .resumed p, p⟩ }
  | skip {c : C} {i : ℕ} (hctl : (s.cpu c).ctl = .scan i) :
      Rule s (.scan c) (s.hold c (.scan (i + 1)))
  | finish {c : C} {i : ℕ} (hctl : (s.cpu c).ctl = .scan i) : Rule s (.scan c) (s.release c .idle)
  | leave {c : C} {p : Slot} (hctl : (s.cpu c).ctl = .leave p) :
      Rule s (.leave c) ((s.setProc p { s.proc p with context := true }).hold c .back)
  | back {c : C} (hctl : (s.cpu c).ctl = .back) :
      Rule s (.back c) { s with
        cpu := update s.cpu c ⟨none, .scan ((s.cpu c).loop + 1), (s.cpu c).loop⟩ }
  | resume {c : C} {p : Slot} (chan : Option Chan) (hctl : (s.cpu c).ctl = .resumed p) :
      Rule s (.resume c) ((s.setProc p { s.proc p with chan := chan }).release c (.user p))
  | waitOn {c : C} {p : Slot} {s' : State C} (hctl : (s.cpu c).ctl = .resumed p)
      (hwait : WaitRule (s.setProc p { s.proc p with chan := none }) c p s') :
      Rule s (.resume c) s'
  | wait {c : C} {p : Slot} {s' : State C} (hctl : (s.cpu c).ctl = .user p) (hlock : s.lock = none)
      (hwait : WaitRule s c p s') : Rule s (.wait c) s'
  | yield {c : C} {p : Slot} (hctl : (s.cpu c).ctl = .user p) (hlock : s.lock = none) :
      Rule s (.yield c)
        ((s.setProc p { s.proc p with state := .runnable, cont := .yield }).hold c (.leave p))
  | sleep {c : C} {p : Slot} {chan : Chan} (hctl : (s.cpu c).ctl = .user p) (hlock : s.lock = none) :
      Rule s (.sleep c chan) ((s.setProc p { s.proc p with
        chan := some chan, state := .sleeping, cont := .sleep }).hold c (.leave p))
  | table {op : Op C} {s' : State C} (hkept : ∀ q, Kept (s.proc q) (s'.proc q))
      (hparent : ∀ q, (s'.proc q).parent = (s.proc q).parent) (hcpu : s'.cpu = s.cpu)
      (hlock : s'.lock = s.lock) (hevents : s'.events = s.events) : Rule s op s'
  | exit {c : C} {p : Slot} (hctl : (s.cpu c).ctl = .user p) (hlock : s.lock = none)
      (hnp : (s.proc p).np = none) (hinit : p ≠ initproc) : Rule s (.exit c) (s.exitBody c p)
  | allocproc {c : C} {p q : Slot} (hctl : (s.cpu c).ctl = .user p) (hnp : (s.proc p).np = none)
      (hstate : (s.proc q).state = .unused) :
      Rule s (.allocproc c q)
        { s.advance p q { s.proc q with state := .embryo, pid := s.nextpid } .allocated with
          nextpid := s.nextpid + 1 }
  | kstack {c : C} {p q : Slot} (hctl : (s.cpu c).ctl = .user p)
      (hnp : (s.proc p).np = some (q, .allocated)) :
      Rule s (.kstack c true) (s.advance p q
        { s.proc q with kstack := true, context := true, cont := .forkret } .stacked)
  | copyuvm {c : C} {p q : Slot} (hctl : (s.cpu c).ctl = .user p)
      (hnp : (s.proc p).np = some (q, .stacked)) :
      Rule s (.copyuvm c true) (s.advance p q { s.proc q with pgdir := true } .copied)
  | giveUp {op : Op C} {c : C} {p q : Slot} {st : Stage}
      (hop : op = .kstack c false ∨ op = .copyuvm c false) (hctl : (s.cpu c).ctl = .user p)
      (hnp : (s.proc p).np = some (q, st)) : Rule s op (s.giveUp p q)
  | setParent {c : C} {p q : Slot} (hctl : (s.cpu c).ctl = .user p)
      (hnp : (s.proc p).np = some (q, .copied)) :
      Rule s (.setParent c) (s.advance p q { s.proc q with parent := some p } .parented)
  | publish {c : C} {p q : Slot} (hctl : (s.cpu c).ctl = .user p) (hlock : s.lock = none)
      (hnp : (s.proc p).np = some (q, .parented)) :
      Rule s (.publish c)
        ((s.setProc q { s.proc q with state := .runnable }).setProc p { s.proc p with np := none })

variable {s s' : State C}

theorem waitBody_rule (s : State C) (c : C) (p : Slot) : WaitRule s c p (s.waitBody c p) := by
  unfold waitBody
  split
  next q hq => exact .reap (exitedChild_eq_some hq).1 (exitedChild_eq_some hq).2
  next hnone =>
    split
    · exact .childless
    · exact .sleep fun q hq => by simpa [hq] using List.find?_eq_none.mp hnone q (List.mem_finRange q)

theorem resumeBody_rule {c : C} {p : Slot} (hctl : (s.cpu c).ctl = .resumed p)
    (h : s.resumeBody c p = some s') : Rule s (.resume c) s' := by
  unfold resumeBody at h
  split at h
  all_goals cases h
  · simpa only [setProc_self] using Rule.resume (s.proc p).chan hctl
  · simpa only [setProc_self] using Rule.resume (s.proc p).chan hctl
  · exact .resume none hctl
  · exact .waitOn hctl (waitBody_rule ..)

theorem scanBody_rule {c : C} {i : ℕ} (hctl : (s.cpu c).ctl = .scan i) :
    Rule s (.scan c) (s.scanBody c i) := by
  unfold scanBody
  split
  next hi =>
    dsimp only
    split
    next hstate => exact .dispatch (p := ⟨i, hi⟩) hctl hstate
    next => exact .skip hctl
  next => exact .finish hctl

/-- A step that changes one entry a little. -/
theorem Rule.setProc {op : Op C} {p : Slot} {v : Proc} (hkept : Kept (s.proc p) v)
    (hparent : v.parent = (s.proc p).parent) : Rule s op (s.setProc p v) := by
  refine .table (fun q => ?_) (fun q => ?_) rfl rfl rfl
  · rw [setProc_proc]
    split
    next hq => exact hq ▸ hkept
    next => exact Kept.refl _
  · rw [setProc_proc]
    split
    next hq => exact hq ▸ hparent
    next => rfl

/-- **Every step follows a rule.** -/
theorem step_rule {op : Op C} (h : s.step op = some s') : Rule s op s' := by
  cases op with
  | enter c =>
    obtain ⟨⟨hctl, hlock⟩, hs⟩ := ite_none_right_eq_some.mp h
    cases hs
    exact .enter hctl hlock
  | scan c =>
    simp only [step] at h
    split at h
    next i hctl =>
      cases h
      exact scanBody_rule hctl
    next => cases h
  | leave c =>
    simp only [step] at h
    split at h
    next p hctl =>
      cases h
      exact .leave hctl
    next => cases h
  | back c =>
    obtain ⟨hctl, hs⟩ := ite_none_right_eq_some.mp h
    cases hs
    exact .back hctl
  | resume c =>
    simp only [step] at h
    split at h
    next p hctl =>
      exact resumeBody_rule hctl h
    next => cases h
  | yield c =>
    simp only [step] at h
    split at h
    next p hctl =>
      obtain ⟨hlock, hs⟩ := ite_none_right_eq_some.mp h
      cases hs
      exact .yield hctl hlock
    next => cases h
  | sleep c chan =>
    obtain ⟨p, hctl, hlock, -, rfl⟩ := locked_eq_some.mp h
    exact .sleep hctl hlock
  | wakeup chan =>
    obtain ⟨-, hs⟩ := ite_none_right_eq_some.mp h
    cases hs
    exact .table (fun q => wakeup1_kept ..) (fun q => wakeup1_parent ..) rfl rfl rfl
  | kill c pid =>
    obtain ⟨p, -, -, -, hs⟩ := locked_eq_some.mp h
    split at hs
    next q hq =>
      subst hs
      refine .setProc ⟨?_, rfl, rfl, rfl, rfl, rfl, rfl, rfl⟩ rfl
      by_cases hsleep : (s.proc q).state = .sleeping
      · exact .inr ⟨hsleep, if_pos hsleep⟩
      · exact .inl (if_neg hsleep)
    next =>
      subst hs
      exact .table (fun q => Kept.refl _) (fun q => rfl) rfl rfl rfl
  | trapKill c =>
    simp only [step] at h
    split at h
    next p hctl =>
      cases h
      exact .setProc ⟨.inl rfl, rfl, rfl, rfl, rfl, rfl, rfl, rfl⟩ rfl
    next => cases h
  | exit c =>
    simp only [step] at h
    split at h
    next p hctl =>
      obtain ⟨⟨hlock, hnp, hinit⟩, hs⟩ := ite_none_right_eq_some.mp h
      cases hs
      exact .exit hctl hlock hnp hinit
    next => cases h
  | wait c =>
    obtain ⟨p, hctl, hlock, -, rfl⟩ := locked_eq_some.mp h
    exact .wait hctl hlock (waitBody_rule ..)
  | allocproc c q =>
    obtain ⟨hstate, hs⟩ := ite_none_right_eq_some.mp h
    obtain ⟨p, hctl, -, hnp, rfl⟩ := locked_eq_some.mp hs
    exact .allocproc hctl hnp hstate
  | kstack c ok =>
    obtain ⟨p, q, hctl, hnp, rfl⟩ := forking_eq_some.mp h
    cases ok with
    | true => exact .kstack hctl hnp
    | false => exact .giveUp (.inl rfl) hctl hnp
  | copyuvm c ok =>
    obtain ⟨p, q, hctl, hnp, rfl⟩ := forking_eq_some.mp h
    cases ok with
    | true => exact .copyuvm hctl hnp
    | false => exact .giveUp (.inr rfl) hctl hnp
  | setParent c =>
    obtain ⟨p, q, hctl, hnp, rfl⟩ := forking_eq_some.mp h
    exact .setParent hctl hnp
  | publish c =>
    obtain ⟨hlock, hs⟩ := ite_none_right_eq_some.mp h
    obtain ⟨p, q, hctl, hnp, rfl⟩ := forking_eq_some.mp hs
    exact .publish hctl hlock hnp

end State

end ProcTable
