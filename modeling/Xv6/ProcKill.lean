/-
# Who has been killed

`kill` marks the first entry of the table with a pid, whatever the state of the entry.  An entry that is not
in use has the pid 0, or that of a process whose `fork` failed, and `allocproc` does not clear the mark: a
process can be killed before it exists.  This module says when that does not happen.
-/
import Xv6.ProcExclusive

open Option List

namespace ProcTable

variable {C : Type}

/-- An entry is in use before and after the loops. -/
theorem Kept.unused {v v' : Proc} (h : Kept v v') : v'.state = .unused ↔ v.state = .unused := by
  have hstate := h.state
  grind

namespace State

/-! ## The loops over the table do not touch the mark -/

section Loops

variable (p q r : Slot) (chan : Chan) (proc : Slot → Proc)

theorem wakeup1_killed : (wakeup1 chan proc q).killed = (proc q).killed := by
  unfold wakeup1
  split <;> rfl

theorem abandon_killed : (abandon p proc q r).killed = (proc r).killed := by
  have hupdate : (Function.update proc q { proc q with parent := some initproc } r).killed =
      (proc r).killed := by
    by_cases hr : r = q
    · subst hr
      rw [Function.update_self]
    · rw [Function.update_of_ne hr]
  unfold abandon
  split
  · dsimp only
    split
    · rw [wakeup1_killed, hupdate]
    · exact hupdate
  · rfl

theorem foldl_abandon_killed (l : List Slot) :
    (l.foldl (abandon p) proc r).killed = (proc r).killed := by
  induction l generalizing proc with
  | nil => rfl
  | cons a l ih => rw [foldl_cons, ih, abandon_killed]

theorem leaveFamily_killed : (leaveFamily p proc r).killed = (proc r).killed := by
  unfold leaveFamily
  rw [foldl_abandon_killed]
  cases (proc p).parent with
  | some a => exact wakeup1_killed ..
  | none => rfl

end Loops

/-! ## What a step does to the mark -/

variable [DecidableEq C]

/-- What a step does to the entry `q`, which is `v` afterwards. -/
inductive Fate (s : State C) (op : Op C) (q : Slot) (v : Proc) : Prop
  | kept (hkilled : v.killed = (s.proc q).killed)
      (hstate : v.state = .unused ↔ (s.proc q).state = .unused)
  | reaped (hkilled : v.killed = false) (hstate : v.state = .unused)
  | created {c : C} (hop : op = .allocproc c q) (hkilled : v.killed = (s.proc q).killed)
      (hbefore : (s.proc q).state = .unused)
  | givenUp {c : C} {p : Slot} {st : Stage} (hop : op = .kstack c false ∨ op = .copyuvm c false)
      (hctl : (s.cpu c).ctl = .user p) (hnp : (s.proc p).np = some (q, st))
      (hkilled : v.killed = (s.proc q).killed)
  | killed {c : C} {pid : ℕ} (hop : op = .kill c pid) (hfirst : s.withPid pid = some q)
      (hstate : v.state = .unused ↔ (s.proc q).state = .unused)
  | trapped {c : C} (hop : op = .trapKill c) (hctl : (s.cpu c).ctl = .user q)
      (hstate : v.state = .unused ↔ (s.proc q).state = .unused)

variable {s s' : State C} {c : C}

variable {op : Op C}

omit [DecidableEq C] in
theorem Fate.same {q : Slot} : Fate s op q (s.proc q) := .kept rfl Iff.rfl

omit [DecidableEq C] in
/-- A step that changes one entry. -/
theorem Fate.setProc {p q : Slot} {v : Proc} (h : Fate s op p v) :
    Fate s op q ((s.setProc p v).proc q) := by
  rw [setProc_proc]
  split
  next hq => exact hq ▸ h
  next => exact .same

omit [DecidableEq C] in
/-- A step of `fork`, which changes its slot and where it is. -/
theorem Fate.fork {p q r : Slot} {v : Proc} {np : Option (Slot × Stage)} (h : Fate s op r v) :
    Fate s op q (((s.setProc r v).setProc p { s.proc p with np := np }).proc q) := by
  rw [setProc_proc, setProc_proc]
  split
  next hq =>
    subst hq
    exact .kept rfl Iff.rfl
  next =>
    split
    next hq => exact hq ▸ h
    next => exact .same

/-- A round of `wait`, in a state `t` that differs from `s` in other fields. -/
theorem WaitRule.fate {p q : Slot} {t : State C} (h : WaitRule t c p s')
    (hkilled : ∀ r, (t.proc r).killed = (s.proc r).killed)
    (hstate : ∀ r, (t.proc r).state = (s.proc r).state) (hp : (s.proc p).state ≠ .unused) :
    Fate s op q (s'.proc q) := by
  have hsame : Fate s op q (t.proc q) := .kept (hkilled q) (by rw [hstate])
  cases h with
  | reap =>
    simp only [release_proc, emit_proc, setProc_proc]
    split
    · exact .reaped rfl rfl
    · exact hsame
  | childless => exact hsame
  | sleep =>
    simp only [hold_proc, setProc_proc]
    split
    next hq =>
      subst hq
      exact .kept (hkilled q) (iff_of_false nofun hp)
    next => exact hsame

omit [DecidableEq C] in
/-- What a processor runs is in use. -/
theorem Sched.ne_unused {p : Slot} (h : s.Sched)
    (hctl : (s.cpu c).ctl = .user p ∨ (s.cpu c).ctl = .resumed p) : (s.proc p).state ≠ .unused := by
  have hok := h.cpu c
  obtain hctl | hctl := hctl
  all_goals
    simp only [CpuOk, hctl] at hok
    rw [hok.2.2.2]
    simp

/-- **What a step does to an entry.** -/
theorem fate (hs : s.Sched) (hf : s.Forks) (h : s.step op = some s') (q : Slot) :
    Fate s op q (s'.proc q) := by
  cases op with
  | enter c | back c =>
    obtain ⟨-, h⟩ := ite_none_right_eq_some.mp h
    cases h
    exact Fate.same
  | scan c =>
    simp only [step] at h
    split at h
    next i hctl =>
      cases h
      unfold scanBody
      split
      · dsimp only
        split
        next hrunnable => exact Fate.setProc (.kept rfl (iff_of_false (by simp) (by simp [hrunnable])))
        next => exact Fate.same
      · exact Fate.same
    next => cases h
  | leave c =>
    simp only [step] at h
    split at h
    next p hctl =>
      cases h
      exact Fate.setProc (.kept rfl Iff.rfl)
    next => cases h
  | resume c =>
    simp only [step] at h
    split at h
    next p hctl =>
      unfold resumeBody at h
      have hp := hs.ne_unused (.inr hctl)
      split at h
      · cases h
        exact Fate.same
      · cases h
        exact Fate.same
      · cases h
        exact Fate.setProc (.kept rfl Iff.rfl)
      · cases h
        refine WaitRule.fate (waitBody_rule ..) (fun r => ?_) (fun r => ?_) hp
        · rw [setProc_proc]
          split <;> simp_all
        · rw [setProc_proc]
          split <;> simp_all
      · cases h
    next => cases h
  | yield c =>
    simp only [step] at h
    split at h
    next p hctl =>
      obtain ⟨-, h⟩ := ite_none_right_eq_some.mp h
      cases h
      exact Fate.setProc (.kept rfl (iff_of_false (by simp) (hs.ne_unused (.inl hctl))))
    next => cases h
  | sleep c chan =>
    obtain ⟨p, hctl, -, -, rfl⟩ := locked_eq_some.mp h
    exact Fate.setProc (.kept rfl (iff_of_false (by simp) (hs.ne_unused (.inl hctl))))
  | wakeup chan =>
    obtain ⟨-, h⟩ := ite_none_right_eq_some.mp h
    cases h
    exact .kept (wakeup1_killed ..) ((wakeup1_kept ..).unused)
  | kill c pid =>
    obtain ⟨p, -, -, -, h⟩ := locked_eq_some.mp h
    split at h
    next r hr =>
      subst h
      refine Fate.setProc (.killed rfl hr ?_)
      dsimp only
      split
      next hsleep => exact iff_of_false (by simp) (by simp [hsleep])
      next => exact Iff.rfl
    next =>
      subst h
      exact Fate.same
  | trapKill c =>
    simp only [step] at h
    split at h
    next p hctl =>
      cases h
      exact Fate.setProc (.trapped rfl hctl Iff.rfl)
    next => cases h
  | exit c =>
    simp only [step] at h
    split at h
    next p hctl =>
      obtain ⟨-, h⟩ := ite_none_right_eq_some.mp h
      cases h
      have hkilled := leaveFamily_killed p q s.proc
      have hkept := leaveFamily_kept p q s.proc
      simp only [exitBody, hold_proc, emit_proc, setProc_proc]
      generalize leaveFamily p s.proc = proc at hkilled hkept
      split
      next hq =>
        subst hq
        exact .kept hkilled (iff_of_false (by simp) (hs.ne_unused (.inl hctl)))
      next => exact .kept hkilled hkept.unused
    next => cases h
  | wait c =>
    obtain ⟨p, hctl, -, -, rfl⟩ := locked_eq_some.mp h
    exact WaitRule.fate (waitBody_rule ..) (fun _ => rfl) (fun _ => rfl) (hs.ne_unused (.inl hctl))
  | allocproc c r =>
    obtain ⟨hstate, h⟩ := ite_none_right_eq_some.mp h
    obtain ⟨p, -, -, -, rfl⟩ := locked_eq_some.mp h
    exact Fate.fork (.created rfl rfl hstate)
  | kstack c ok =>
    obtain ⟨p, r, hctl, hnp, rfl⟩ := forking_eq_some.mp h
    cases ok with
    | true => exact Fate.fork (.kept rfl Iff.rfl)
    | false => exact Fate.fork (.givenUp (.inl rfl) hctl hnp rfl)
  | copyuvm c ok =>
    obtain ⟨p, r, hctl, hnp, rfl⟩ := forking_eq_some.mp h
    cases ok with
    | true => exact Fate.fork (.kept rfl Iff.rfl)
    | false => exact Fate.fork (.givenUp (.inr rfl) hctl hnp rfl)
  | setParent c =>
    obtain ⟨p, r, hctl, hnp, rfl⟩ := forking_eq_some.mp h
    exact Fate.fork (.kept rfl Iff.rfl)
  | publish c =>
    obtain ⟨-, h⟩ := ite_none_right_eq_some.mp h
    obtain ⟨p, r, hctl, hnp, rfl⟩ := forking_eq_some.mp h
    have hembryo := (hf.prepared p r _ hnp).state
    exact Fate.fork (.kept rfl (iff_of_false (by simp) (by simp [hembryo])))

/-! ## Kills -/

/-- The step is aimed at the process in `q`: `kill` with its pid, or a trap of its own. -/
def Aims (s : State C) (op : Op C) (q : Slot) : Prop :=
  match op with
  | .kill _ pid => (s.proc q).state ≠ .unused ∧ (s.proc q).pid = pid
  | .trapKill c => (s.cpu c).ctl = .user q
  | _ => False

/-- The first entry with the pid, if there is one, is in use. -/
def FirstLive (s : State C) (pid : ℕ) : Prop := ∀ q, s.withPid pid = some q → (s.proc q).state ≠ .unused

/-- **No mark on an entry that is not in use**: the first entry with the pid that is killed is in use, and
`fork` does not give up a slot that has been killed. -/
def MarksLive (s : State C) : Op C → Prop
  | .kill _ pid => s.FirstLive pid
  | .kstack c ok | .copyuvm c ok => ok = false → ∀ p q st, (s.cpu c).ctl = .user p →
      (s.proc p).np = some (q, st) → (s.proc q).killed = false
  | _ => True

/-- What `kill(n)` returns. -/
def killResult (s : State C) (n : ℤ) : ℤ :=
  if ((finRange NPROC).find? fun q => ((s.proc q).pid : ℤ) = n).isSome then 0 else -1

/-- What is known after the steps `past`: an entry that is not in use has no mark, and a step was aimed at
every process that has one, after it was created. -/
structure Marks (past : List (Op C)) (s : State C) : Prop where
  unused : ∀ q, (s.proc q).state = .unused → (s.proc q).killed = false
  aimed : ∀ q, (s.proc q).killed = true → ∃ before op after t, past = before ++ op :: after ∧
    Runs.run step boot before = some t ∧ t.Aims op q ∧ ∀ c, Op.allocproc c q ∉ after

omit [DecidableEq C] in
theorem withPid_pid {pid : ℕ} {q : Slot} (h : s.withPid pid = some q) : (s.proc q).pid = pid := by
  simpa using find?_some h

theorem Marks.step {past : List (Op C)} (hpast : Runs.run step boot past = some s)
    (h : s.step op = some s') (hgood : s.MarksLive op) (hm : Marks past s) : Marks (past ++ [op]) s' := by
  obtain ⟨hs, hf⟩ := run_sched hpast
  -- an earlier step is still the one, unless the slot is given to a new process
  have hold : ∀ q, (s.proc q).killed = true → (∀ c, op ≠ .allocproc c q) →
      ∃ before op' after t, past ++ [op] = before ++ op' :: after ∧
        Runs.run State.step boot before = some t ∧ t.Aims op' q ∧ ∀ c, Op.allocproc c q ∉ after := by
    intro q hq hne
    obtain ⟨before, op', after, t, rfl, ht, haims, hafter⟩ := hm.aimed q hq
    refine ⟨before, op', after ++ [op], t, by simp, ht, haims, fun c hc => ?_⟩
    obtain hc | hc := mem_append.mp hc
    · exact hafter c hc
    · exact hne c (mem_singleton.mp hc).symm
  have hnew : ∀ q, s.Aims op q →
      ∃ before op' after t, past ++ [op] = before ++ op' :: after ∧
        Runs.run State.step boot before = some t ∧ t.Aims op' q ∧ ∀ c, Op.allocproc c q ∉ after :=
    fun q haims => ⟨past, op, [], s, rfl, hpast, haims, fun _ => not_mem_nil⟩
  refine ⟨fun q hq => ?_, fun q hq => ?_⟩
  · cases fate hs hf h q with
    | kept hkilled hstate => rw [hkilled, hm.unused q (hstate.mp hq)]
    | reaped hkilled => exact hkilled
    | created hop hkilled hbefore => rw [hkilled, hm.unused q hbefore]
    | givenUp hop hctl hnp hkilled =>
      rw [hkilled]
      obtain rfl | rfl := hop
      · exact hgood rfl _ _ _ hctl hnp
      · exact hgood rfl _ _ _ hctl hnp
    | killed hop hfirst hstate =>
      subst hop
      exact absurd (hstate.mp hq) (hgood q hfirst)
    | trapped hop hctl hstate => exact absurd (hstate.mp hq) (hs.ne_unused (.inl hctl))
  · cases fate hs hf h q with
    | kept hkilled hstate =>
      rw [hkilled] at hq
      refine hold q hq ?_
      rintro c rfl
      -- a slot that is allocated was not in use, so it had no mark
      obtain ⟨hunused, -⟩ := ite_none_right_eq_some.mp h
      rw [hm.unused q hunused] at hq
      cases hq
    | reaped hkilled =>
      rw [hkilled] at hq
      cases hq
    | created hop hkilled hbefore =>
      rw [hkilled, hm.unused q hbefore] at hq
      cases hq
    | givenUp hop hctl hnp hkilled =>
      rw [hkilled] at hq
      refine hold q hq ?_
      rintro c rfl
      obtain hop | hop := hop <;> cases hop
    | killed hop hfirst =>
      subst hop
      exact hnew q ⟨hgood q hfirst, withPid_pid hfirst⟩
    | trapped hop hctl =>
      subst hop
      exact hnew q hctl

omit [DecidableEq C] in
theorem marks_boot [DecidableEq C] : Marks [] (boot : State C) := by
  have hboot : ∀ q, ((boot : State C).proc q).killed = false := fun q => by
    by_cases hq : q = initproc
    · simp [boot, hq]
    · simp [boot, hq, Proc.free]
  refine ⟨fun q _ => hboot q, fun q hq => ?_⟩
  rw [hboot] at hq
  cases hq

/-- **Only a kill aimed at a process kills it.**  In every run in which no mark is put on an entry that is not
in use, a process that is marked at the end has been the aim of `kill` or of a trap since it was created; and
`kill` returns 0 only if there is a process with the pid, if the first entry with it is in use. -/
theorem killed_aimed {ops : List (Op C)} (hrun : Runs.run step boot ops = some s)
    (hgood : Runs.Meets step MarksLive boot ops) :
    (∀ q, (s.proc q).state ≠ .unused → (s.proc q).killed = true →
      ∃ before op after t, ops = before ++ op :: after ∧ Runs.run step boot before = some t ∧
        t.Aims op q ∧ ∀ c, Op.allocproc c q ∉ after) ∧
    ∀ n : ℤ, (∀ pid : ℕ, pid = n → s.FirstLive pid) → s.killResult n = 0 →
      ∃ q, (s.proc q).state ≠ .unused ∧ (s.proc q).pid = n := by
  have hm : Marks ops s := Runs.run_history_of_meets
    (fun _ _ _ _ hpast hstep hgood hm => hm.step hpast hstep hgood) hrun hgood marks_boot
  refine ⟨fun q _ hq => hm.aimed q hq, fun n hlive hzero => ?_⟩
  unfold killResult at hzero
  split at hzero
  next hsome =>
    obtain ⟨q, hq⟩ := isSome_iff_exists.mp hsome
    have hpid : ((s.proc q).pid : ℤ) = n := by simpa using find?_some hq
    refine ⟨q, hlive _ hpid q ?_, hpid⟩
    rw [withPid, ← hq, ← hpid]
    simp only [Nat.cast_inj]
  next => cases hzero

/-- The first process kills itself. -/
def killSelf : List (Op ℕ) := [.enter 0, .scan 0, .resume 0, .kill 0 1]

theorem killed_aimed_killSelf : ∃ s, Runs.run step boot killSelf = some s ∧
    (s.proc initproc).killed = true ∧
    ∃ before op after t, killSelf = before ++ op :: after ∧ Runs.run step boot before = some t ∧
      t.Aims op initproc ∧ ∀ c, Op.allocproc c initproc ∉ after := by
  have hrun : Runs.run step boot killSelf = some _ := rfl
  have hgood : Runs.Meets step MarksLive boot killSelf := by
    refine ⟨trivial, ?_⟩
    rintro _ ⟨⟩
    refine ⟨trivial, ?_⟩
    rintro _ ⟨⟩
    refine ⟨trivial, ?_⟩
    rintro _ ⟨⟩
    refine ⟨?_, fun _ _ => trivial⟩
    rintro q hq
    cases hq
    rintro ⟨⟩
  exact ⟨_, hrun, rfl, (killed_aimed hrun hgood).1 initproc (by rintro ⟨⟩) rfl⟩

/-- `kill(0)`, and then a `fork`. -/
def killZero : List (Op ℕ) :=
  [.enter 0, .scan 0, .resume 0, .kill 0 0, .allocproc 0 1, .kstack 0 true, .copyuvm 0 true,
    .setParent 0, .publish 0]

/-- The new process is marked, and `kill(0)` has returned 0 without a process with that pid. -/
theorem not_killed_aimed_killZero :
    (∃ s, Runs.run step boot killZero = some s ∧ (s.proc 1).state = .runnable ∧ (s.proc 1).pid = 2 ∧
      (s.proc 1).killed = true) ∧
    (∀ c, Op.kill c 2 ∉ killZero ∧ Op.trapKill c ∉ killZero) ∧
    ∃ t, Runs.run step boot (killZero.take 3) = some t ∧ t.killResult 0 = 0 ∧
      ∀ q, (t.proc q).pid = 0 → (t.proc q).state = .unused := by
  refine ⟨⟨_, rfl, rfl, rfl, rfl⟩, fun c => by simp [killZero], _, rfl, by decide, by decide⟩

end State

end ProcTable
