/-
# The process tree

Every process that the others can see has a live parent, `wait` reports each child that exited once,
to the parent it has then, and nobody sleeps in `wait` over a child that has exited.  These facts
are one invariant: `exit` passes its children on before it becomes a zombie itself, and it wakes up
the two processes that could miss a zombie, its parent and `initproc`.
-/
import Xv6.ProcExclusive

namespace ProcTable

open ProcState List

variable {C : Type}

/-- The process can still call `wait`. -/
def ProcState.Live (st : ProcState) : Prop := st = .runnable ∨ st = .running ∨ st = .sleeping

/-- The pids with which `q` exited. -/
def exits (q : Slot) (events : List Event) : List ℕ :=
  events.filterMap fun
    | .exited p pid => if p = q then some pid else none
    | _ => none

/-- The pids that were reported of `q`. -/
def reports (q : Slot) (events : List Event) : List ℕ :=
  events.filterMap fun
    | .reaped _ r pid => if r = q then some pid else none
    | _ => none

section Events

variable (q : Slot) (events : List Event)

@[simp] theorem exits_exited (p : Slot) (pid : ℕ) :
    exits q (events ++ [.exited p pid]) = exits q events ++ if p = q then [pid] else [] := by
  unfold exits
  rw [filterMap_append]
  split <;> simp_all

@[simp] theorem exits_reaped (p r : Slot) (pid : ℕ) :
    exits q (events ++ [.reaped p r pid]) = exits q events := by
  simp [exits]

@[simp] theorem exits_childless (p : Slot) : exits q (events ++ [.childless p]) = exits q events := by
  simp [exits]

@[simp] theorem reports_exited (p : Slot) (pid : ℕ) :
    reports q (events ++ [.exited p pid]) = reports q events := by
  simp [reports]

@[simp] theorem reports_reaped (p r : Slot) (pid : ℕ) :
    reports q (events ++ [.reaped p r pid]) = reports q events ++ if r = q then [pid] else [] := by
  unfold reports
  rw [filterMap_append]
  split <;> simp_all

@[simp] theorem reports_childless (p : Slot) :
    reports q (events ++ [.childless p]) = reports q events := by
  simp [reports]

end Events

namespace State

/-- `p` sleeps in `wait`. -/
def InWait (s : State C) (p : Slot) : Prop :=
  (s.proc p).state = .sleeping ∧ (s.proc p).cont = .wait

/-- What is still to be reported of `q`. -/
def pending (s : State C) (q : Slot) : List ℕ :=
  if (s.proc q).state = .zombie then [(s.proc q).pid] else []

/-- The parents, the sleepers in `wait` and the reports. -/
structure Tree (s : State C) : Prop where
  live : ∀ r q, (s.proc r).parent = some q → (s.proc q).state.Live
  orphan : ∀ r, (s.proc r).state.Published → r ≠ initproc → (s.proc r).parent ≠ none
  init : (s.proc initproc).state.Live ∧ (s.proc initproc).parent = none
  irrefl : ∀ r, (s.proc r).parent ≠ some r
  forked : ∀ p q, (s.proc p).np = some (q, .parented) → (s.proc q).parent = some p
  waiting : ∀ p, s.InWait p → (s.proc p).chan = some (.proc p)
  awake : ∀ p r, s.InWait p → (s.proc r).parent = some p → (s.proc r).state ≠ .zombie
  reported : ∀ q, exits q s.events = reports q s.events ++ s.pending q

variable {s s' : State C}

/-- `p` sleeps on itself and has no child that has exited. -/
def SeesNone (s : State C) (p : Slot) : Prop :=
  (s.proc p).chan = some (.proc p) ∧ ∀ r, (s.proc r).parent = some p → (s.proc r).state ≠ .zombie

/-- **A step that leaves the tree alone**: no parent changes, nobody becomes or stops being a
zombie, and nobody goes to sleep in `wait` over a zombie. -/
theorem Tree.frame (h : s.Tree) (hparent : ∀ r, (s'.proc r).parent = (s.proc r).parent)
    (hlive : ∀ r, (s.proc r).state.Live → (s'.proc r).state.Live)
    (hpub : ∀ r, (s'.proc r).state.Published →
      (s.proc r).state.Published ∨ (s.proc r).parent ≠ none)
    (hnp : ∀ p q, (s'.proc p).np = some (q, .parented) → (s.proc p).np = some (q, .parented))
    (hwait : ∀ p, s'.InWait p → s.InWait p ∧ (s'.proc p).chan = (s.proc p).chan ∨ s'.SeesNone p)
    (hpending : ∀ q, s'.pending q = s.pending q)
    (hevents : ∀ q, exits q s'.events = exits q s.events ∧ reports q s'.events = reports q s.events) :
    s'.Tree where
  live r q hr := hlive q (h.live r q (by rw [← hparent, hr]))
  orphan r hr hinit := by
    rw [hparent]
    exact (hpub r hr).elim (fun hold => h.orphan r hold hinit) id
  init := ⟨hlive _ h.init.1, by rw [hparent, h.init.2]⟩
  irrefl r := by
    rw [hparent]
    exact h.irrefl r
  forked p q hp := by
    rw [hparent]
    exact h.forked p q (hnp p q hp)
  waiting p hp := by
    obtain ⟨hold, hchan⟩ | hnew := hwait p hp
    · rw [hchan]
      exact h.waiting p hold
    · exact hnew.1
  awake p r hp hr := by
    obtain ⟨hold, -⟩ | hnew := hwait p hp
    · have hnot := h.awake p r hold (by rw [← hparent, hr])
      have hsame := hpending r
      unfold pending at hsame
      intro hz
      simp [hz, hnot] at hsame
    · exact hnew.2 r hr
  reported q := by
    rw [(hevents q).1, (hevents q).2, hpending]
    exact h.reported q

variable {p : Slot}

/-- A step that changes one entry which is and was not a zombie. -/
theorem Tree.frame_one {v : Proc} (h : s.Tree)
    (hproc : ∀ r, s'.proc r = if r = p then v else s.proc r) (hevents : s'.events = s.events)
    (hz : (s.proc p).state ≠ .zombie ∧ v.state ≠ .zombie) (hparent : v.parent = (s.proc p).parent)
    (hlive : (s.proc p).state.Live → v.state.Live)
    (hpub : v.state.Published → (s.proc p).state.Published ∨ (s.proc p).parent ≠ none)
    (hnp : ∀ q, v.np = some (q, .parented) → (s.proc p).np = some (q, .parented))
    (hwait : v.state = .sleeping → v.cont = .wait →
      s.InWait p ∧ v.chan = (s.proc p).chan ∨ s'.SeesNone p) : s'.Tree := by
  have hcases : ∀ r, r = p ∧ s'.proc r = v ∨ r ≠ p ∧ s'.proc r = s.proc r := by
    intro r
    by_cases hr : r = p
    · exact .inl ⟨hr, by rw [hproc, if_pos hr]⟩
    · exact .inr ⟨hr, by rw [hproc, if_neg hr]⟩
  refine h.frame (fun r => ?_) (fun r hr => ?_) (fun r hr => ?_) (fun r q hr => ?_) (fun r hr => ?_)
    (fun r => ?_) fun r => by rw [hevents]; exact ⟨rfl, rfl⟩
  all_goals
    obtain ⟨rfl, hr'⟩ | ⟨-, hr'⟩ := hcases r
    all_goals
      simp only [InWait, pending, hr'] at *
  · exact hparent
  · exact hlive hr
  · exact hr
  · exact hpub hr
  · exact .inl hr
  · exact hnp q hr
  · exact hr
  · exact hwait hr.1 hr.2
  · exact .inl ⟨hr, trivial⟩
  · simp [hz]

/-- A step that changes saved contexts only. -/
theorem Tree.contexts (h : s.Tree) (hproc : ∀ r, ∃ b, s'.proc r = { s.proc r with context := b })
    (hevents : s'.events = s.events) : s'.Tree := by
  refine h.frame (fun r => ?_) (fun r hr => ?_) (fun r hr => .inl ?_) (fun r q hr => ?_)
    (fun r hr => .inl ?_) (fun r => ?_) fun q => by rw [hevents]; exact ⟨rfl, rfl⟩
  all_goals obtain ⟨b, hb⟩ := hproc r
  · rw [hb]
  · rwa [hb]
  · rwa [hb] at hr
  · rwa [hb] at hr
  · rw [InWait, hb] at hr
    exact ⟨hr, by rw [hb]⟩
  · rw [pending, hb]
    rfl

/-! ## Every step keeps the invariant -/

variable {p q : Slot}

/-- `wait` reports a child and frees its entry. -/
theorem Tree.reap (h : s.Tree) (hf : s.Forks) (hzombie : (s.proc q).state = .zombie)
    (hproc : ∀ r, s'.proc r = if r = q then { s.proc q with
        kstack := false, pgdir := false, pid := 0, parent := none, killed := false,
        state := .unused } else s.proc r)
    (hevents : s'.events = s.events ++ [.reaped p q (s.proc q).pid]) : s'.Tree := by
  have hchild : ∀ r, (s.proc r).parent ≠ some q := fun r hr => absurd (h.live r q hr) (by simp [Live, hzombie])
  have hq : s'.proc q = { s.proc q with
      kstack := false, pgdir := false, pid := 0, parent := none, killed := false,
      state := .unused } := by rw [hproc, if_pos rfl]
  have hne : ∀ r, r ≠ q → s'.proc r = s.proc r := fun r hr => by rw [hproc, if_neg hr]
  have hinit : initproc ≠ q := by
    rintro rfl
    simpa [Live, hzombie] using h.init.1
  have hwait : ∀ r, s'.InWait r → r ≠ q ∧ s.InWait r := by
    intro r hr
    have hrq : r ≠ q := by
      rintro rfl
      simp [InWait, hq] at hr
    exact ⟨hrq, by simpa [InWait, hne r hrq] using hr⟩
  have hparent : ∀ r a, (s'.proc r).parent = some a → r ≠ q ∧ a ≠ q ∧ (s.proc r).parent = some a := by
    intro r a hr
    have hrq : r ≠ q := by
      rintro rfl
      simp [hq] at hr
    rw [hne r hrq] at hr
    exact ⟨hrq, fun haq => hchild r (haq ▸ hr), hr⟩
  refine ⟨fun r a hr => ?_, fun r hr hri => ?_, ?_, fun r hr => ?_, fun a b hab => ?_, fun a ha => ?_,
    fun a r ha hr => ?_, fun r => ?_⟩
  · obtain ⟨-, haq, hold⟩ := hparent r a hr
    rw [hne a haq]
    exact h.live r a hold
  · by_cases hrq : r = q
    · simp [hrq, hq, Published] at hr
    · rw [hne r hrq] at hr ⊢
      exact h.orphan r hr hri
  · rw [hne _ hinit]
    exact h.init
  · exact h.irrefl r (hparent r r hr).2.2
  · have hold : (s.proc a).np = some (b, .parented) := by
      by_cases haq : a = q
      · simpa [haq, hq] using hab
      · rwa [hne a haq] at hab
    have hbq : b ≠ q := by
      rintro rfl
      simp [(hf.prepared a b _ hold).state] at hzombie
    rw [hne b hbq]
    exact h.forked a b hold
  · obtain ⟨haq, hold⟩ := hwait a ha
    rw [hne a haq]
    exact h.waiting a hold
  · obtain ⟨hrq, -, hold⟩ := hparent r a hr
    rw [hne r hrq]
    exact h.awake a r (hwait a ha).2 hold
  · have hrep := h.reported r
    rw [hevents, exits_reaped, reports_reaped]
    by_cases hrq : r = q
    · subst hrq
      simpa [pending, hq, hzombie] using hrep
    · simpa [pending, hne r hrq, Ne.symm hrq] using hrep

/-- A step of the `fork` of `p` with the slot `q` that does not set a parent. -/
theorem Tree.fork {v : Proc} {x : Option (Slot × Stage)} (h : s.Tree)
    (hproc : s'.proc = ((s.setProc q v).setProc p { s.proc p with np := x }).proc)
    (hevents : s'.events = s.events) (hp : (s.proc p).state = .running)
    (hq : (s.proc q).state = .unused ∨ (s.proc q).state = .embryo)
    (hz : v.state ≠ .zombie ∧ v.state ≠ .sleeping) (hparent : v.parent = (s.proc q).parent)
    (hnp : v.np = (s.proc q).np) (hpub : v.state.Published → (s.proc q).parent ≠ none)
    (hx : ∀ r, x ≠ some (r, .parented)) : s'.Tree := by
  have hpq : p ≠ q := by
    rintro rfl
    simp [hp] at hq
  have hset : (s.setProc q v).Tree := by
    refine h.frame_one (setProc_proc s q · v) rfl ⟨?_, hz.1⟩ hparent ?_ (fun hv => .inr (hpub hv))
      (fun r => by rw [hnp]; exact id) fun hsleep => absurd hsleep hz.2
    · obtain hq | hq := hq <;> simp [hq]
    · obtain hq | hq := hq <;> simp [hq, Live]
  have hsame : (s.setProc q v).proc p = s.proc p := by rw [setProc_proc, if_neg hpq]
  refine hset.frame_one (p := p) (v := { s.proc p with np := x }) (fun r => ?_) hevents ?_ ?_ ?_ ?_
    (fun r hr => absurd hr (hx r)) ?_
  · rw [hproc, setProc_proc]
  all_goals rw [hsame]
  all_goals simp [hp, Published]

/-- `fork` sets the parent of its slot. -/
theorem Tree.setParent (h : s.Tree) (hf : s.Forks) (hp : (s.proc p).state = .running)
    (hnp : (s.proc p).np = some (q, .copied)) :
    (s.advance p q { s.proc q with parent := some p } .parented).Tree := by
  have hq := (hf.prepared p q _ hnp).state
  have hqp : q ≠ p := by
    rintro rfl
    simp [hp] at hq
  have hinit : initproc ≠ q := by
    rintro rfl
    simpa [Live, hq] using h.init.1
  have hproc : ∀ r, (s.advance p q { s.proc q with parent := some p } .parented).proc r =
      if r = p then { s.proc p with np := some (q, .parented) }
      else if r = q then { s.proc q with parent := some p } else s.proc r := by
    intro r
    rw [advance, setProc_proc, setProc_proc]
  have hev : (s.advance p q { s.proc q with parent := some p } .parented).events = s.events := rfl
  generalize s.advance p q { s.proc q with parent := some p } .parented = s' at hproc hev ⊢
  have hstate : ∀ r, (s'.proc r).state = (s.proc r).state := by grind
  have hpar : ∀ r, r ≠ q → (s'.proc r).parent = (s.proc r).parent := by grind
  have hparq : (s'.proc q).parent = some p := by grind
  have hwait : ∀ r, s'.InWait r → s.InWait r ∧ r ≠ p ∧ (s'.proc r).chan = (s.proc r).chan := by
    intro r hr
    unfold InWait at hr ⊢
    grind
  refine ⟨fun r a hr => ?_, fun r hr hri => ?_, ?_, fun r hr => ?_, fun a b hab => ?_, fun a ha => ?_,
    fun a r ha hr => ?_, fun r => ?_⟩
  · rw [hstate]
    by_cases hrq : r = q
    · rw [hrq, hparq] at hr
      cases hr
      simp [Live, hp]
    · rw [hpar r hrq] at hr
      exact h.live r a hr
  · rw [hstate] at hr
    by_cases hrq : r = q
    · rw [hrq, hparq]
      simp
    · rw [hpar r hrq]
      exact h.orphan r hr hri
  · rw [hstate, hpar _ hinit]
    exact h.init
  · by_cases hrq : r = q
    · rw [hrq, hparq] at hr
      exact hqp (Option.some.inj hr).symm
    · rw [hpar r hrq] at hr
      exact h.irrefl r hr
  · by_cases hap : a = p
    · rw [hproc, if_pos hap] at hab
      cases hab
      rw [hparq, hap]
    · have hold : (s.proc a).np = some (b, .parented) := by grind
      have hbq : b ≠ q := by
        rintro rfl
        exact hap (hf.unique a p b _ _ hold hnp)
      rw [hpar b hbq]
      exact h.forked a b hold
  · obtain ⟨hold, -, hchan⟩ := hwait a ha
    rw [hchan]
    exact h.waiting a hold
  · obtain ⟨hold, hap, -⟩ := hwait a ha
    rw [hstate]
    by_cases hrq : r = q
    · rw [hrq, hq]
      simp
    · rw [hpar r hrq] at hr
      exact h.awake a r hold hr
  · have hpid : (s'.proc r).pid = (s.proc r).pid := by grind
    rw [hev, h.reported r]
    simp only [pending, hstate, hpid]

variable [DecidableEq C] {c : C}

/-- A round of `wait` keeps the tree. -/
theorem Tree.waitRule (h : s.Tree) (hf : s.Forks) (hp : (s.proc p).state = .running)
    (hw : WaitRule s c p s') : s'.Tree := by
  cases hw with
  | reap hparent hzombie => exact h.reap hf hzombie (setProc_proc s _ · _) rfl
  | childless =>
    exact h.frame (fun _ => rfl) (fun _ => id) (fun _ => .inl) (fun _ _ => id) (fun _ hr => .inl ⟨hr, rfl⟩)
      (fun _ => rfl) fun q => ⟨exits_childless .., reports_childless ..⟩
  | sleep hnone =>
    refine h.frame_one (setProc_proc s _ · _) rfl (by simp [hp]) rfl (by simp [Live])
      (by simp [Published, hp]) (fun q => id) fun _ _ => .inr ⟨by simp, fun r hr => ?_⟩
    simp only [hold_proc, setProc_proc] at hr ⊢
    split
    next => simp
    next hne =>
      rw [if_neg hne] at hr
      exact hnone r hr

/-- `exit` becomes a zombie after it has passed on its children and woken up those who wait. -/
theorem Tree.exit (h : s.Tree) (hp : (s.proc p).state = .running) (hnp : (s.proc p).np = none)
    (hinit : p ≠ initproc) : (s.exitBody c p).Tree := by
  have hkept := fun r => leaveFamily_kept p r s.proc
  have hparent := fun r => leaveFamily_parent p r s.proc
  have hwakes := fun r a ha hr => leaveFamily_wakes_parent p r s.proc (a := a) ha hr
  have hwakesInit := fun r q hq hz hr => leaveFamily_wakes_init p q r s.proc hq hz hr
  have hev : (s.exitBody c p).events = s.events ++ [.exited p (s.proc p).pid] := rfl
  have hproc : ∀ r, (s.exitBody c p).proc r = if r = p then
      { leaveFamily p s.proc p with state := .zombie, cont := .exit } else leaveFamily p s.proc r := by
    intro r
    simp [exitBody]
  generalize s.exitBody c p = s' at hev hproc ⊢
  generalize leaveFamily p s.proc = f at *
  have hpp : s'.proc p = { f p with state := .zombie, cont := .exit } := by rw [hproc, if_pos rfl]
  have hne : ∀ r, r ≠ p → s'.proc r = f r := fun r hr => by rw [hproc, if_neg hr]
  have hparent' : ∀ r, (s'.proc r).parent =
      if (s.proc r).parent = some p then some initproc else (s.proc r).parent := by
    intro r
    rw [← hparent, hproc]
    split
    next heq => rw [heq]
    next => rfl
  have hlive : ∀ r, r ≠ p → (s.proc r).state.Live → (s'.proc r).state.Live := by
    intro r hr hold
    have hstate := (hkept r).state
    rw [hne r hr]
    unfold Live at hold ⊢
    grind
  have hwait : ∀ r, s'.InWait r → r ≠ p ∧ (f r).state = .sleeping ∧ s.InWait r := by
    intro r hr
    have hrp : r ≠ p := by
      rintro rfl
      simp [InWait, hpp] at hr
    rw [InWait, hne r hrp] at hr
    exact ⟨hrp, hr.1, (hkept r).sleeping hr.1, (hkept r).cont ▸ hr.2⟩
  refine ⟨fun r q hr => ?_, fun r hr hri => ?_, ⟨hlive _ hinit.symm h.init.1, ?_⟩, fun r hr => ?_,
    fun a b hab => ?_, fun a ha => ?_, fun a r ha hr => ?_, fun r => ?_⟩
  · rw [hparent'] at hr
    split at hr
    next =>
      cases hr
      exact hlive _ hinit.symm h.init.1
    next hnot => exact hlive q (fun heq => hnot (heq ▸ hr)) (h.live r q hr)
  · rw [hparent']
    split
    next => simp
    next =>
      refine h.orphan r ?_ hri
      by_cases hrp : r = p
      · simp [hrp, hp, Published]
      · have hstate := (hkept r).state
        rw [hne r hrp] at hr
        unfold Published at hr ⊢
        grind
  · rw [hparent', h.init.2]
    simp
  · rw [hparent'] at hr
    split at hr
    next hchild =>
      cases hr
      rw [h.init.2] at hchild
      cases hchild
    next => exact h.irrefl r hr
  · have hold : (s.proc a).np = some (b, .parented) := by
      rw [← (hkept a).np, ← hab]
      by_cases hap : a = p
      · rw [hap, hpp]
      · rw [hne a hap]
    rw [hparent', h.forked a b hold, if_neg]
    rintro heq
    rw [Option.some.inj heq, hnp] at hold
    cases hold
  · obtain ⟨hap, -, hold⟩ := hwait a ha
    rw [hne a hap, (hkept a).chan]
    exact h.waiting a hold
  · obtain ⟨hap, hsleep, hold⟩ := hwait a ha
    have hchan := h.waiting a hold
    rw [hparent'] at hr
    intro hz
    by_cases hrp : r = p
    · subst hrp
      rw [if_neg (h.irrefl r)] at hr
      exact hwakes a a hr hsleep hchan
    · rw [hne r hrp, (hkept r).zombie] at hz
      split at hr
      next hchild =>
        cases hr
        exact hwakesInit _ r hchild hz hsleep hchan
      next => exact h.awake a r hold hr hz
  · have hrep := h.reported r
    rw [hev, exits_exited, reports_exited]
    by_cases hrp : r = p
    · subst hrp
      have hnone : s.pending r = [] := by simp [pending, hp]
      rw [hnone, append_nil] at hrep
      simp [pending, hpp, hrep, (hkept r).pid]
    · have hsame : s'.pending r = s.pending r := by
        simp only [pending, hne r hrp, (hkept r).zombie, (hkept r).pid]
      rw [hsame, if_neg (Ne.symm hrp), append_nil, hrep]

/-- **Every step keeps the tree.** -/
theorem Tree.rule {op : Op C} (h : s.Tree) (hs : s.Sched) (hf : s.Forks) (hrule : Rule s op s') :
    s'.Tree := by
  have hrun : ∀ {c p}, (s.cpu c).ctl = .user p ∨ (s.cpu c).ctl = .resumed p →
      (s.proc p).state = .running := by
    intro c p hctl
    have hok := hs.cpu c
    obtain hctl | hctl := hctl <;> simp only [CpuOk, hctl] at hok <;> exact hok.2.2.2
  have hsame : s'.proc = s.proc → s'.events = s.events → s'.Tree := fun heq =>
    h.contexts fun r => ⟨(s.proc r).context, by rw [heq]⟩
  cases hrule with
  | enter hctl hlock | skip hctl | finish hctl | back hctl => exact hsame rfl rfl
  | dispatch hctl hstate =>
    exact h.frame_one (setProc_proc s _ · _) rfl (by simp [hstate]) rfl (by simp [Live])
      (by simp [Published, hstate]) (fun q => id) (by simp)
  | @leave c p hctl =>
    refine h.contexts (fun r => ?_) rfl
    simp only [hold_proc, setProc_proc]
    split
    next heq => exact ⟨true, by rw [heq]⟩
    next => exact ⟨(s.proc r).context, rfl⟩
  | resume chan hctl =>
    have hp := hrun (.inr hctl)
    exact h.frame_one (setProc_proc s _ · _) rfl (by simp [hp]) rfl (by simp [Live])
      (by simp [Published, hp]) (fun q => id) (by simp [hp])
  | waitOn hctl hwait =>
    have hp := hrun (.inr hctl)
    refine Tree.waitRule ?_ ?_ (by simp [hp]) hwait
    · exact h.frame_one (setProc_proc s _ · _) rfl (by simp [hp]) rfl (by simp [Live])
        (by simp [Published, hp]) (fun q => id) (by simp [hp])
    · exact hf.frame_one (setProc_proc s _ · _) rfl (by simp [hp]) fun hr => ⟨hr, rfl, rfl⟩
  | wait hctl hlock hwait => exact h.waitRule hf (hrun (.inl hctl)) hwait
  | yield hctl hlock | sleep hctl hlock =>
    have hp := hrun (.inl hctl)
    exact h.frame_one (setProc_proc s _ · _) rfl (by simp [hp]) rfl (by simp [Live])
      (by simp [Published, hp]) (fun q => id) (by simp)
  | table hkept hparent hcpu hlock hevents =>
    refine h.frame hparent (fun r hr => ?_) (fun r hr => .inl ?_) (fun p q hp => (hkept p).np ▸ hp)
      (fun p hp => .inl ⟨⟨(hkept p).sleeping hp.1, (hkept p).cont ▸ hp.2⟩, (hkept p).chan⟩)
      (fun q => ?_) fun q => by rw [hevents]; exact ⟨rfl, rfl⟩
    · have hstate := (hkept r).state
      unfold Live at hr ⊢
      grind
    · have hstate := (hkept r).state
      unfold Published at hr ⊢
      grind
    · simp only [pending, (hkept q).zombie, (hkept q).pid]
  | exit hctl hlock hnp hinit => exact h.exit (hrun (.inl hctl)) hnp hinit
  | allocproc hctl hnp hstate =>
    exact h.fork rfl rfl (hrun (.inl hctl)) (.inl hstate) (by simp) rfl rfl
      (by simp [Published]) (by simp)
  | kstack hctl hnp | copyuvm hctl hnp =>
    have hq := (hf.prepared _ _ _ hnp).state
    exact h.fork rfl rfl (hrun (.inl hctl)) (.inr hq) (by simp [hq]) rfl rfl
      (by simp [Published, hq]) (by simp)
  | giveUp hop hctl hnp =>
    have hq := (hf.prepared _ _ _ hnp).state
    exact h.fork rfl rfl (hrun (.inl hctl)) (.inr hq) (by simp) rfl rfl
      (by simp [Published]) (by simp)
  | setParent hctl hnp => exact h.setParent hf (hrun (.inl hctl)) hnp
  | publish hctl hlock hnp =>
    have hq := (hf.prepared _ _ _ hnp).state
    exact h.fork rfl rfl (hrun (.inl hctl)) (.inr hq) (by simp) rfl rfl
      (fun _ => by simp [h.forked _ _ hnp]) (by simp)

/-! ## Whole runs -/

omit [DecidableEq C] in
theorem tree_boot : (boot : State C).Tree := by
  have hparent : ∀ p, ((boot : State C).proc p).parent = none := by
    intro p
    by_cases h0 : p = initproc <;> simp [boot, Proc.free, h0]
  have hstate : ∀ p, p ≠ initproc → ((boot : State C).proc p).state = .unused := by
    intro p h0
    simp [boot, Proc.free, h0]
  have hinit : ((boot : State C).proc initproc).state = .runnable := by simp [boot]
  have hwait : ∀ p, ¬ (boot : State C).InWait p := by
    intro p
    by_cases h0 : p = initproc
    · simp [InWait, h0, hinit]
    · simp [InWait, hstate p h0]
  refine ⟨fun r q hr => by simp [hparent] at hr, fun r hr h0 => ?_, ⟨by simp [hinit, Live],
    hparent _⟩, fun r => by simp [hparent], fun p q hp => ?_, fun p hp => absurd hp (hwait p),
    fun p _ hp => absurd hp (hwait p), fun q => ?_⟩
  · simp [hstate r h0, Published] at hr
  · by_cases h0 : p = initproc <;> simp [boot, Proc.free, h0] at hp
  · have hpending : (boot : State C).pending q = [] := by
      by_cases h0 : q = initproc
      · simp [pending, h0, hinit]
      · simp [pending, hstate q h0]
    rw [hpending]
    rfl

theorem run_tree {ops : List (Op C)} (hrun : Runs.run step boot ops = some s) : s.Tree := by
  have hall : s.Sched ∧ s.Forks ∧ s.Tree :=
    Runs.run_invariant (I := fun s : State C => s.Sched ∧ s.Forks ∧ s.Tree)
      (fun _ _ _ hstep ⟨hs, hf, ht⟩ => ⟨hs.rule hf (step_rule hstep), hf.rule hs (step_rule hstep),
        ht.rule hs hf (step_rule hstep)⟩) hrun ⟨sched_boot, forks_boot, tree_boot⟩
  exact hall.2.2

/-- The step of `op` reports the exited child `q` to the process `p` that runs `wait`. -/
structure Reports (s : State C) (op : Op C) (p q : Slot) (s' : State C) : Prop where
  caller : ∃ c, (op = .wait c ∨ op = .resume c) ∧ (s.cpu c).proc = some p
  parent : (s.proc q).parent = some p
  zombie : (s.proc q).state = .zombie
  freed : (s'.proc q).state = .unused
  events : s'.events = s.events ++ [.reaped p q (s.proc q).pid]

/-- A step that makes no report frees no entry that others can see. -/
structure Silent (s s' : State C) : Prop where
  events : ∀ p q pid, s'.events ≠ s.events ++ [.reaped p q pid]
  kept : ∀ q, (s.proc q).state.Published → (s'.proc q).state ≠ .unused

theorem WaitRule.reports (hw : WaitRule s c p s') : s.Silent s' ∨ ∃ q, (s.proc q).parent = some p ∧
      (s.proc q).state = .zombie ∧ (s'.proc q).state = .unused ∧
      s'.events = s.events ++ [.reaped p q (s.proc q).pid] ∧
      ∀ r, r ≠ q → (s.proc r).state.Published → (s'.proc r).state ≠ .unused := by
  cases hw with
  | @reap q hparent hzombie =>
    refine .inr ⟨q, hparent, hzombie, by simp, rfl, fun r hr hpub => ?_⟩
    simp only [release_proc, emit_proc, setProc_proc, if_neg hr]
    exact hpub.1
  | childless => exact .inl ⟨by simp, fun q hq => hq.1⟩
  | sleep hnone =>
    refine .inl ⟨by simp, fun q hq => ?_⟩
    simp only [hold_proc, setProc_proc]
    split
    · simp
    · exact hq.1

/-- A step reports one exited child to its parent, or nothing. -/
theorem Sched.reports {op : Op C} (h : s.Sched) (hf : s.Forks) (hrule : Rule s op s') :
    s.Silent s' ∨ ∃ p q, s.Reports op p q s' ∧
      ∀ r, r ≠ q → (s.proc r).state.Published → (s'.proc r).state ≠ .unused := by
  have hsilent : s'.events = s.events →
      (∀ r, (s.proc r).state.Published → (s'.proc r).state ≠ .unused) → s.Silent s' :=
    fun hev hkept => ⟨fun p q pid => by simp [hev], hkept⟩
  have hone : ∀ p v, (∀ r, s'.proc r = if r = p then v else s.proc r) → s'.events = s.events →
      ((s.proc p).state.Published → v.state ≠ .unused) → s.Silent s' := by
    intro p v hproc hev hv
    refine hsilent hev fun r hr => ?_
    rw [hproc]
    split
    next heq => exact hv (heq ▸ hr)
    next => exact hr.1
  have hfork : ∀ p q v x, s'.proc = ((s.setProc q v).setProc p { s.proc p with np := x }).proc →
      s'.events = s.events → (s.proc q).state = .unused ∨ (s.proc q).state = .embryo → s.Silent s' := by
    intro p q v x hproc hev hq
    refine hsilent hev fun r hr => ?_
    rw [hproc]
    simp only [setProc_proc]
    unfold Published at hr
    grind
  have hwait : ∀ c p t, (s.cpu c).ctl = .user p ∧ s.lock = none ∨ (s.cpu c).ctl = .resumed p →
      op = .wait c ∨ op = .resume c → t.events = s.events →
      (∀ r, (t.proc r).state = (s.proc r).state ∧ (t.proc r).parent = (s.proc r).parent ∧
        (t.proc r).pid = (s.proc r).pid) → WaitRule t c p s' →
      s.Silent s' ∨ ∃ p q, s.Reports op p q s' ∧
        ∀ r, r ≠ q → (s.proc r).state.Published → (s'.proc r).state ≠ .unused := by
    intro c p t hctl hop hev hsame hw
    obtain hsil | ⟨q, hparent, hz, hfreed, hevents, hrest⟩ := hw.reports
    · refine .inl ⟨fun a b pid => hev ▸ hsil.events a b pid, fun r hr => ?_⟩
      rw [← (hsame r).1] at hr
      exact hsil.kept r hr
    · rw [(hsame q).1] at hz
      rw [(hsame q).2.1] at hparent
      rw [(hsame q).2.2, hev] at hevents
      refine .inr ⟨p, q, ⟨⟨c, hop, (h.controls hctl).proc⟩, hparent, hz, hfreed, hevents⟩,
        fun r hr hpub => hrest r hr ?_⟩
      rwa [(hsame r).1]
  cases hrule with
  | enter hctl hlock | skip hctl | finish hctl | back hctl => exact .inl (hsilent rfl fun r hr => hr.1)
  | dispatch hctl hstate | yield hctl hlock | sleep hctl hlock =>
    exact .inl (hone _ _ (setProc_proc s _ · _) rfl (by simp))
  | leave hctl | resume chan hctl => exact .inl (hone _ _ (setProc_proc s _ · _) rfl fun hr => hr.1)
  | waitOn hctl hwaits =>
    refine hwait _ _ _ (.inr hctl) (.inr rfl) ?_ (fun r => ?_) hwaits
    · rfl
    · rw [setProc_proc]
      split <;> simp_all
  | wait hctl hlock hwaits =>
    exact hwait _ _ s (.inl ⟨hctl, hlock⟩) (.inl rfl) rfl (fun r => ⟨rfl, rfl, rfl⟩) hwaits
  | table hkept hparent hcpu hlock hevents =>
    refine .inl (hsilent hevents fun r hr => ?_)
    have hstate := (hkept r).state
    unfold Published at hr
    grind
  | @exit c p hctl hlock hnp hinit =>
    refine .inl ⟨fun a b pid => by simp [exitBody], fun r hr => ?_⟩
    have hstate := (leaveFamily_kept p r s.proc).state
    simp only [exitBody, hold_proc, emit_proc, setProc_proc]
    split
    · simp
    · unfold Published at hr
      grind
  | allocproc hctl hnp hstate => exact .inl (hfork _ _ _ _ rfl rfl (.inl hstate))
  | kstack hctl hnp | copyuvm hctl hnp | giveUp hop hctl hnp | setParent hctl hnp
    | publish hctl hlock hnp => exact .inl (hfork _ _ _ _ rfl rfl (.inr (hf.prepared _ _ _ hnp).state))

/-- **The process tree.**  In every state reached, every process that the others can see, other than
`initproc`, has a live parent; the pids reported of a slot are those with which its processes
exited, each once and in order, up to the one that is still a zombie; and nobody sleeps in `wait`
with a child that has exited.  The entry of a process becomes unused only when `wait` reports it to
the parent it has then, and `wait` reports nothing else. -/
theorem tree_run {ops : List (Op C)} (hrun : Runs.run step boot ops = some s) :
    (∀ r, (s.proc r).state.Published → r ≠ initproc →
      ∃ q, (s.proc r).parent = some q ∧ (s.proc q).state.Live) ∧
    (∀ q, exits q s.events = reports q s.events ++ s.pending q) ∧
    (∀ p r, s.InWait p → (s.proc r).parent = some p → (s.proc r).state ≠ .zombie) ∧
    ∀ op s', s.step op = some s' →
      (∀ q, (s.proc q).state.Published → (s'.proc q).state = .unused →
        ∃ p, s.Reports op p q s') ∧
      ∀ p q pid, s'.events = s.events ++ [.reaped p q pid] →
        pid = (s.proc q).pid ∧ s.Reports op p q s' := by
  obtain ⟨hs, hf⟩ := run_sched hrun
  have ht := run_tree hrun
  refine ⟨fun r hr hinit => ?_, ht.reported, ht.awake, fun op s' hstep => ⟨fun q hq hfreed => ?_,
    fun p q pid hev => ?_⟩⟩
  · obtain ⟨q, hq⟩ := Option.ne_none_iff_exists'.mp (ht.orphan r hr hinit)
    exact ⟨q, hq, ht.live r q hq⟩
  · obtain hsil | ⟨p, q', hrep, hrest⟩ := hs.reports hf (step_rule hstep)
    · exact absurd hfreed (hsil.kept q hq)
    · by_cases hqq : q = q'
      · exact ⟨p, hqq ▸ hrep⟩
      · exact absurd hfreed (hrest q hqq hq)
  · obtain hsil | ⟨p', q', hrep, -⟩ := hs.reports hf (step_rule hstep)
    · exact absurd hev (hsil.events p q pid)
    · have heq := hrep.events.symm.trans hev
      simp only [append_cancel_left_eq, cons.injEq, Event.reaped.injEq, and_true] at heq
      obtain ⟨rfl, rfl, rfl⟩ := heq
      exact ⟨rfl, hrep⟩

/-- The first process has forked. -/
theorem tree_run_child : ∃ s : State ℕ,
    Runs.run step boot [.enter 0, .scan 0, .resume 0, .allocproc 0 1, .kstack 0 true, .copyuvm 0 true,
      .setParent 0, .publish 0] = some s ∧
    ∃ q, (s.proc 1).parent = some q ∧ (s.proc q).state.Live := by
  have hrun : Runs.run step (boot : State ℕ) [.enter 0, .scan 0, .resume 0, .allocproc 0 1,
      .kstack 0 true, .copyuvm 0 true, .setParent 0, .publish 0] = some _ := rfl
  exact ⟨_, hrun, (tree_run hrun).1 1 ⟨nofun, nofun⟩ (by decide)⟩

end State

end ProcTable
