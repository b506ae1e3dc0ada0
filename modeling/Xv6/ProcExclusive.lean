/-
# One processor for a running process

A process is `RUNNING` exactly when it is the current process of one processor, and a kernel stack
is in use only then, in every state in which `ptable.lock` is free.  While the lock is held this is
not so: a process that has called `sched` is not `RUNNING` any more but still on its stack.  The
invariant therefore says for each place at which a processor can be what it knows there
(`CpuOk`), and the lock keeps all processors but one at the places where they know that their
process is `RUNNING`.
-/
import Xv6.ProcRules

namespace ProcTable

open ProcState Option

variable {C : Type}

/-- The process is ready to run or will be. -/
def ProcState.Waiting (st : ProcState) : Prop := st = .runnable ∨ st = .sleeping

/-- The process is visible to the others. -/
def ProcState.Published (st : ProcState) : Prop := st ≠ .unused ∧ st ≠ .embryo

namespace State

/-- The processor executes on the kernel stack of `p`. -/
def OnStack (s : State C) (c : C) (p : Slot) : Prop :=
  (s.cpu c).ctl = .leave p ∨ (s.cpu c).ctl = .resumed p ∨ (s.cpu c).ctl = .user p

/-- What holds at the place where the processor `c` is. -/
def CpuOk (s : State C) (c : C) : Prop :=
  match (s.cpu c).ctl with
  | .idle => (s.cpu c).proc = none ∧ s.lock ≠ some c
  | .scan _ => (s.cpu c).proc = none ∧ s.lock = some c
  | .back => (s.cpu c).proc = some (s.cpu c).loop ∧ s.lock = some c ∧
      (s.proc (s.cpu c).loop).state ≠ .running
  | .leave p => (s.cpu c).proc = some p ∧ (s.cpu c).loop = p ∧ s.lock = some c ∧
      (s.proc p).state ≠ .running
  | .resumed p => (s.cpu c).proc = some p ∧ (s.cpu c).loop = p ∧ s.lock = some c ∧
      (s.proc p).state = .running
  | .user p => (s.cpu c).proc = some p ∧ (s.cpu c).loop = p ∧ s.lock ≠ some c ∧
      (s.proc p).state = .running

/-- The processors and the processes agree. -/
structure Sched (s : State C) : Prop where
  cpu : ∀ c, s.CpuOk c
  unique : ∀ c d p, (s.cpu c).proc = some p → (s.cpu d).proc = some p → c = d
  running : ∀ p, (s.proc p).state = .running → ∃ c, (s.cpu c).proc = some p
  saved : ∀ p, (s.proc p).state.Waiting →
    (s.proc p).context = true ∨ ∃ c, (s.cpu c).ctl = .leave p

/-- What `fork` has done to its slot at `stage`. -/
structure Prepared (v : Proc) (stage : Stage) : Prop where
  state : v.state = .embryo
  kstack : stage ≠ .allocated → v.kstack = true ∧ v.context = true
  pgdir : stage = .copied ∨ stage = .parented → v.pgdir = true

/-- The slots that are being prepared by a `fork`, each by one, and those that are ready. -/
structure Forks (s : State C) : Prop where
  prepared : ∀ p q st, (s.proc p).np = some (q, st) → Prepared (s.proc q) st
  unique : ∀ p p' q st st', (s.proc p).np = some (q, st) → (s.proc p').np = some (q, st') → p = p'
  ready : ∀ p, (s.proc p).state.Published → (s.proc p).kstack = true ∧ (s.proc p).pgdir = true

/-! ## What a step of one processor keeps -/

variable {s s' : State C} {c : C}

/-- A processor without the lock is idle or runs a process. -/
theorem Sched.outside (h : s.Sched) (hc : s.lock ≠ some c) :
    (s.cpu c).ctl = .idle ∧ (s.cpu c).proc = none ∨
      ∃ p, (s.cpu c).ctl = .user p ∧ (s.cpu c).proc = some p ∧ (s.proc p).state = .running := by
  have hok := h.cpu c
  unfold CpuOk at hok
  cases hctl : (s.cpu c).ctl <;> simp_all

/-- **One processor takes a step** while no other one has the lock: the others go on to run what
they ran. -/
theorem Sched.move (h : s.Sched) (hfree : ∀ d, d ≠ c → s.lock ≠ some d)
    (hcpu : ∀ d, d ≠ c → s'.cpu d = s.cpu d) (hlock : ∀ d, d ≠ c → s'.lock ≠ some d)
    (hok : s'.CpuOk c)
    (hothers : ∀ r, (s.cpu c).proc ≠ some r →
      (s'.cpu c).proc = some r ∧ (s.proc r).state ≠ .running ∨
        (s'.cpu c).proc ≠ some r ∧ ((s'.proc r).state = .running ↔ (s.proc r).state = .running))
    (hown : ∀ r, (s.cpu c).proc = some r → (s'.proc r).state = .running → (s'.cpu c).proc = some r)
    (hsaved : ∀ p, (s'.proc p).state.Waiting →
      (s'.proc p).context = true ∨ (s'.cpu c).ctl = .leave p) : s'.Sched := by
  -- what another processor runs is neither the old nor the new process of `c`
  have hrest : ∀ d p, d ≠ c → (s.cpu d).proc = some p →
      (s.proc p).state = .running ∧ (s.cpu c).proc ≠ some p ∧ (s'.cpu c).proc ≠ some p ∧
        (s'.proc p).state = .running := by
    intro d p hd hp
    have hne : (s.cpu c).proc ≠ some p := fun hc => hd (h.unique d c p hp hc)
    obtain ⟨-, hnone⟩ | ⟨q, -, hq, hrun⟩ := h.outside (hfree d hd)
    · rw [hnone] at hp
      cases hp
    · obtain rfl : q = p := some.inj (hq.symm.trans hp)
      obtain ⟨-, hnot⟩ | ⟨hne', hiff⟩ := hothers q hne
      · exact absurd hrun hnot
      · exact ⟨hrun, hne, hne', hiff.mpr hrun⟩
  refine ⟨fun d => ?_, fun d e p hd he => ?_, fun p hp => ?_, fun p hp => ?_⟩
  · by_cases hd : d = c
    · rw [hd]
      exact hok
    · have hokd := h.cpu d
      have hnot := hlock d hd
      obtain ⟨hctl, hnone⟩ | ⟨q, hctl, hq, -⟩ := h.outside (hfree d hd)
      · simp only [CpuOk, hcpu d hd, hctl]
        exact ⟨hnone, hnot⟩
      · have hrun := (hrest d q hd hq).2.2.2
        simp only [CpuOk, hctl] at hokd
        simp only [CpuOk, hcpu d hd, hctl]
        exact ⟨hq, hokd.2.1, hnot, hrun⟩
  · by_cases hdc : d = c <;> by_cases hec : e = c
    · rw [hdc, hec]
    · rw [hcpu e hec] at he
      exact absurd (hdc ▸ hd) (hrest e p hec he).2.2.1
    · rw [hcpu d hdc] at hd
      exact absurd (hec ▸ he) (hrest d p hdc hd).2.2.1
    · rw [hcpu d hdc] at hd
      rw [hcpu e hec] at he
      exact h.unique d e p hd he
  · by_cases hc : (s.cpu c).proc = some p
    · exact ⟨c, hown p hc hp⟩
    · obtain ⟨hnew, -⟩ | ⟨-, hiff⟩ := hothers p hc
      · exact ⟨c, hnew⟩
      · obtain ⟨d, hd⟩ := h.running p (hiff.mp hp)
        have hdc : d ≠ c := fun heq => hc (heq ▸ hd)
        exact ⟨d, by rw [hcpu d hdc, hd]⟩
  · exact (hsaved p hp).imp_right fun hctl => ⟨c, hctl⟩

/-- **A change of the table** that neither starts nor stops a process. -/
theorem Sched.table (h : s.Sched) (hcpu : s'.cpu = s.cpu) (hlock : s'.lock = s.lock)
    (hrun : ∀ r, (s'.proc r).state = .running ↔ (s.proc r).state = .running)
    (hsaved : ∀ r, (s'.proc r).state.Waiting → (s'.proc r).context = true ∨
      (s.proc r).state.Waiting ∧ (s'.proc r).context = (s.proc r).context) : s'.Sched := by
  refine ⟨fun c => ?_, ?_, fun p hp => ?_, fun p hp => ?_⟩
  · have hok := h.cpu c
    unfold CpuOk at hok ⊢
    rw [hcpu, hlock]
    cases hctl : (s.cpu c).ctl <;> simp only [hctl, ne_eq, hrun] at hok ⊢ <;> exact hok
  · rw [hcpu]
    exact h.unique
  · rw [hcpu]
    exact h.running p ((hrun p).mp hp)
  · rw [hcpu]
    obtain hctx | ⟨hw, hctx⟩ := hsaved p hp
    · exact .inl hctx
    · rw [hctx]
      exact h.saved p hw

/-- A step that is not one of `fork` keeps the slots of the forks. -/
theorem Forks.frame (h : s.Forks) (hnp : ∀ p, (s'.proc p).np = (s.proc p).np)
    (hembryo : ∀ q, (s.proc q).state = .embryo → (s'.proc q).state = .embryo ∧
      (s'.proc q).kstack = (s.proc q).kstack ∧
      ((s.proc q).context = true → (s'.proc q).context = true) ∧
      (s'.proc q).pgdir = (s.proc q).pgdir)
    (hready : ∀ p, (s'.proc p).state.Published → (s.proc p).state.Published ∧
      (s'.proc p).kstack = (s.proc p).kstack ∧ (s'.proc p).pgdir = (s.proc p).pgdir) :
    s'.Forks := by
  refine ⟨fun p q st hp => ?_, fun p p' q st st' hp hp' => ?_, fun p hp => ?_⟩
  · have hq := h.prepared p q st (by rw [← hnp, hp])
    obtain ⟨hstate, hk, hctx, hpg⟩ := hembryo q hq.state
    exact ⟨hstate, fun hst => ⟨hk.trans (hq.kstack hst).1, hctx (hq.kstack hst).2⟩,
      fun hst => hpg.trans (hq.pgdir hst)⟩
  · rw [hnp] at hp hp'
    exact h.unique p p' q st st' hp hp'
  · obtain ⟨hpub, hk, hpg⟩ := hready p hp
    rw [hk, hpg]
    exact h.ready p hpub

variable {p q : Slot} {v : Proc}

/-- A step that changes one entry, neither from nor to a slot of a `fork`. -/
theorem Forks.frame_one (h : s.Forks) (hproc : ∀ r, s'.proc r = if r = p then v else s.proc r)
    (hnp : v.np = (s.proc p).np) (hembryo : (s.proc p).state ≠ .embryo)
    (hready : v.state.Published → (s.proc p).state.Published ∧ v.kstack = (s.proc p).kstack ∧
      v.pgdir = (s.proc p).pgdir) : s'.Forks := by
  refine h.frame (fun r => ?_) (fun r hr => ?_) fun r hr => ?_
  · rw [hproc]
    split
    next heq => exact heq ▸ hnp
    next => rfl
  · have hrp : r ≠ p := by
      rintro rfl
      exact hembryo hr
    rw [hproc, if_neg hrp]
    exact ⟨hr, rfl, id, rfl⟩
  · rw [hproc] at hr ⊢
    split at hr
    next heq =>
      subst heq
      rw [if_pos rfl]
      exact hready hr
    next hne =>
      rw [if_neg hne]
      exact ⟨hr, rfl, rfl⟩

/-- A `fork` takes its slot to the next stage. -/
theorem Forks.advance {st : Stage} (h : s.Forks) (hproc : s'.proc = (s.advance p q v st).proc)
    (hp : (s.proc p).state = .running)
    (hq : (s.proc q).state = .unused ∨ (s.proc q).state = .embryo)
    (hfresh : ∀ p' st', (s.proc p').np = some (q, st') → p' = p) (hv : Prepared v st)
    (hnp : v.np = (s.proc q).np) : s'.Forks := by
  have hqp : q ≠ p := by
    rintro rfl
    simp [hp] at hq
  have hall : ∀ r, s'.proc r = if r = p then { s.proc p with np := some (q, st) }
      else if r = q then v else s.proc r := by
    intro r
    rw [hproc, State.advance, setProc_proc, setProc_proc]
  have hnps : ∀ r, r ≠ p → (s'.proc r).np = (s.proc r).np := by
    intro r hr
    rw [hall, if_neg hr]
    split
    next heq => rw [hnp, heq]
    next => rfl
  have hnpp : (s'.proc p).np = some (q, st) := by rw [hall, if_pos rfl]
  have hvq : s'.proc q = v := by rw [hall, if_neg hqp, if_pos rfl]
  refine ⟨fun r q' st' hr => ?_, fun r r' q' st' st'' hr hr' => ?_, fun r hr => ?_⟩
  · by_cases hrp : r = p
    · subst hrp
      rw [hnpp] at hr
      cases hr
      rwa [hvq]
    · rw [hnps r hrp] at hr
      have hprep := h.prepared r q' st' hr
      have hq'p : q' ≠ p := by
        rintro rfl
        exact absurd hprep.state (by simp [hp])
      have hq'q : q' ≠ q := fun heq => hrp (hfresh r st' (heq ▸ hr))
      rwa [hall, if_neg hq'p, if_neg hq'q]
  · by_cases hrp : r = p <;> by_cases hrp' : r' = p
    · rw [hrp, hrp']
    · subst hrp
      rw [hnpp] at hr
      rw [hnps r' hrp'] at hr'
      cases hr
      exact (hfresh r' _ hr').symm
    · subst hrp'
      rw [hnpp] at hr'
      rw [hnps r hrp] at hr
      cases hr'
      exact hfresh r _ hr
    · rw [hnps r hrp] at hr
      rw [hnps r' hrp'] at hr'
      exact h.unique r r' q' st' st'' hr hr'
  · rw [hall] at hr ⊢
    by_cases hrp : r = p
    · subst hrp
      rw [if_pos rfl] at hr ⊢
      exact h.ready r hr
    · rw [if_neg hrp] at hr ⊢
      by_cases hrq : r = q
      · rw [if_pos hrq] at hr
        exact absurd hv.state hr.2
      · rw [if_neg hrq] at hr ⊢
        exact h.ready r hr

/-- A `fork` ends: its slot is published or given up. -/
theorem Forks.finish {st : Stage} (h : s.Forks) (hp : (s.proc p).state = .running)
    (hnp : (s.proc p).np = some (q, st)) (hv : v.state.Published → v.kstack = true ∧ v.pgdir = true)
    (hvnp : v.np = (s.proc q).np) :
    ((s.setProc q v).setProc p { s.proc p with np := none }).Forks := by
  have hq := (h.prepared p q st hnp).state
  have hnps : ∀ r q' st', (((s.setProc q v).setProc p { s.proc p with np := none }).proc r).np =
      some (q', st') → (s.proc r).np = some (q', st') ∧ r ≠ p := by
    intro r q' st' hr
    simp only [setProc_proc] at hr
    grind
  refine ⟨fun r q' st' hr => ?_, fun r r' q' st' st'' hr hr' => ?_, fun r hr => ?_⟩
  · obtain ⟨hr', hrp⟩ := hnps r q' st' hr
    have hprep := h.prepared r q' st' hr'
    have hq'p : q' ≠ p := by
      rintro rfl
      exact absurd hprep.state (by simp [hp])
    have hq'q : q' ≠ q := by
      rintro rfl
      exact hrp (h.unique r p q' st' st hr' hnp)
    rwa [setProc_proc, if_neg hq'p, setProc_proc, if_neg hq'q]
  · exact h.unique r r' q' st' st'' (hnps r q' st' hr).1 (hnps r' q' st'' hr').1
  · simp only [setProc_proc] at hr ⊢
    by_cases hrp : r = p
    · simp only [if_pos hrp] at hr ⊢
      exact h.ready p hr
    · by_cases hrq : r = q
      · simp only [if_neg hrp, if_pos hrq] at hr ⊢
        exact hv hr
      · simp only [if_neg hrp, if_neg hrq] at hr ⊢
        exact h.ready r hr

/-- With the lock free nobody is about to leave a process. -/
theorem Sched.free_saved {r : Slot} (h : s.Sched) (hlock : s.lock = none)
    (hr : (s.proc r).state.Waiting) : (s.proc r).context = true := by
  obtain hctx | ⟨d, hleave⟩ := h.saved r hr
  · exact hctx
  · have hok := h.cpu d
    simp [CpuOk, hleave, hlock] at hok

/-- Only the processor with the lock is about to leave a process. -/
theorem Sched.saved_of_lock {r : Slot} (h : s.Sched) (hlock : s.lock = some c)
    (hr : (s.proc r).state.Waiting) : (s.proc r).context = true ∨ (s.cpu c).ctl = .leave r := by
  refine (h.saved r hr).imp_right fun ⟨d, hleave⟩ => ?_
  have hok := h.cpu d
  simp only [CpuOk, hleave] at hok
  rwa [some.inj (hlock.symm.trans hok.2.2.1)]

/-! ## A processor in control of a process -/

/-- The processor `c` runs `p`, and no other processor has the lock. -/
structure Controls (s : State C) (c : C) (p : Slot) : Prop where
  proc : (s.cpu c).proc = some p
  loop : (s.cpu c).loop = p
  running : (s.proc p).state = .running
  lock : ∀ d, d ≠ c → s.lock ≠ some d
  saved : ∀ r, (s.proc r).state.Waiting → (s.proc r).context = true
  others : ∀ d r, d ≠ c → s.OnStack d r → (s.cpu d).proc = some r ∧ (s.proc r).state = .running

theorem Sched.controls (h : s.Sched)
    (hctl : (s.cpu c).ctl = .user p ∧ s.lock = none ∨ (s.cpu c).ctl = .resumed p) :
    s.Controls c p := by
  have hok := h.cpu c
  have hlock : ∀ d, d ≠ c → s.lock ≠ some d := by
    intro d hd hsome
    obtain ⟨-, hnone⟩ | hres := hctl
    · rw [hnone] at hsome
      cases hsome
    · simp only [CpuOk, hres] at hok
      exact hd (some.inj (hsome.symm.trans hok.2.2.1))
  have hfacts : (s.cpu c).proc = some p ∧ (s.cpu c).loop = p ∧ (s.proc p).state = .running := by
    obtain ⟨huser, -⟩ | hres := hctl
    · simp only [CpuOk, huser] at hok
      exact ⟨hok.1, hok.2.1, hok.2.2.2⟩
    · simp only [CpuOk, hres] at hok
      exact ⟨hok.1, hok.2.1, hok.2.2.2⟩
  refine ⟨hfacts.1, hfacts.2.1, hfacts.2.2, hlock, fun r hr => ?_, fun d r hd hon => ?_⟩
  · obtain ⟨-, hnone⟩ | hres := hctl
    · exact h.free_saved hnone hr
    · simp only [CpuOk, hres] at hok
      exact (h.saved_of_lock hok.2.2.1 hr).resolve_right (by simp [hres])
  · obtain ⟨hidle, -⟩ | ⟨q, huser, hq, hrun⟩ := h.outside (hlock d hd)
    · simp [OnStack, hidle] at hon
    · simp only [OnStack, huser, reduceCtorEq, Ctl.user.injEq, false_or] at hon
      exact hon ▸ ⟨hq, hrun⟩

/-- A process that is not `RUNNING` is on no processor while one has control of another. -/
theorem Sched.nowhere (h : s.Sched)
    (hctl : (s.cpu c).ctl = .user p ∧ s.lock = none ∨ (s.cpu c).ctl = .resumed p)
    (hq : (s.proc q).state ≠ .running) (d : C) : (s.cpu d).proc ≠ some q ∧ ¬ s.OnStack d q := by
  have hc := h.controls hctl
  have hqp : q ≠ p := by
    rintro rfl
    exact hq hc.running
  by_cases hd : d = c
  · subst hd
    refine ⟨fun heq => hqp (some.inj (heq.symm.trans hc.proc)), fun hon => ?_⟩
    obtain ⟨hctl, -⟩ | hctl := hctl
    · simp [OnStack, hctl, hqp.symm] at hon
    · simp [OnStack, hctl, hqp.symm] at hon
  · refine ⟨fun heq => ?_, fun hon => hq (hc.others d q hd hon).2⟩
    obtain ⟨-, hnone⟩ | ⟨r, -, hr, hrun⟩ := h.outside (hc.lock d hd)
    · rw [hnone] at heq
      cases heq
    · obtain rfl : r = q := some.inj (hr.symm.trans heq)
      exact hq hrun

/-- The scheduler with the lock has no process. -/
theorem Sched.scanning {i : ℕ} (h : s.Sched) (hctl : (s.cpu c).ctl = .scan i) :
    (s.cpu c).proc = none ∧ s.lock = some c := by
  have hok := h.cpu c
  simpa only [CpuOk, hctl] using hok

/-- While the scheduler has the lock, nobody is about to leave a process. -/
theorem Sched.scan_saved {i : ℕ} {r : Slot} (h : s.Sched) (hctl : (s.cpu c).ctl = .scan i)
    (hr : (s.proc r).state.Waiting) : (s.proc r).context = true :=
  (h.saved_of_lock (h.scanning hctl).2 hr).resolve_right (by simp [hctl])

variable [DecidableEq C]

/-- `c` stops running `p` and goes to `sched` with the lock. -/
theorem Sched.stop (h : s.Sched) (hc : s.Controls c p) (hcpu : s'.cpu = (s.hold c (.leave p)).cpu)
    (hlock : s'.lock = some c) (hp : (s'.proc p).state ≠ .running)
    (hrest : ∀ r, r ≠ p → ((s'.proc r).state = .running ↔ (s.proc r).state = .running) ∧
      ((s'.proc r).state.Waiting → (s.proc r).state.Waiting) ∧
      (s'.proc r).context = (s.proc r).context) : s'.Sched := by
  have hcpuc : s'.cpu c = { s.cpu c with ctl := .leave p } := by rw [hcpu, hold_cpu, if_pos rfl]
  refine h.move hc.lock (fun d hd => ?_) (fun d hd => ?_) ?_ (fun r hr => ?_) (fun r hr _ => ?_)
    fun r hr => ?_
  · rw [hcpu, hold_cpu, if_neg hd]
  · rw [hlock]
    exact fun heq => hd (some.inj heq).symm
  · simp only [CpuOk, hcpuc]
    exact ⟨hc.proc, hc.loop, hlock, hp⟩
  · rw [hcpuc]
    have hrp : r ≠ p := fun heq => hr (heq ▸ hc.proc)
    exact .inr ⟨hr, (hrest r hrp).1⟩
  · rw [hcpuc]
    exact hr
  · by_cases hrp : r = p
    · rw [hcpuc, hrp]
      exact .inr rfl
    · left
      rw [(hrest r hrp).2.2]
      exact hc.saved r ((hrest r hrp).2.1 hr)

/-- `c` goes on with `p` and releases the lock. -/
theorem Sched.goOn (h : s.Sched) (hc : s.Controls c p) (hcpu : s'.cpu = (s.release c (.user p)).cpu)
    (hlock : s'.lock = none)
    (hrest : ∀ r, ((s'.proc r).state = .running ↔ (s.proc r).state = .running) ∧
      ((s'.proc r).state.Waiting → (s.proc r).state.Waiting) ∧
      (s'.proc r).context = (s.proc r).context) : s'.Sched := by
  have hcpuc : s'.cpu c = { s.cpu c with ctl := .user p } := by rw [hcpu, release_cpu, if_pos rfl]
  refine h.move hc.lock (fun d hd => ?_) (fun d hd => ?_) ?_ (fun r hr => ?_) (fun r hr _ => ?_)
    fun r hr => ?_
  · rw [hcpu, release_cpu, if_neg hd]
  · rw [hlock]
    exact (some_ne_none d).symm
  · simp only [CpuOk, hcpuc, hlock]
    exact ⟨hc.proc, hc.loop, (some_ne_none c).symm, (hrest p).1.mpr hc.running⟩
  · rw [hcpuc]
    exact .inr ⟨hr, (hrest r).1⟩
  · rw [hcpuc]
    exact hr
  · left
    rw [(hrest r).2.2]
    exact hc.saved r ((hrest r).2.1 hr)

/-! ## Every step keeps the invariant -/

/-- A round of `wait` keeps the processors right. -/
theorem Sched.waitRule (h : s.Sched) (hc : s.Controls c p) (hw : WaitRule s c p s') :
    s'.Sched := by
  cases hw with
  | reap hparent hzombie =>
    refine h.goOn hc rfl rfl fun r => ?_
    simp only [release_proc, emit_proc, setProc_proc]
    split <;> simp_all [Waiting]
  | childless => exact h.goOn hc rfl rfl fun r => ⟨Iff.rfl, id, rfl⟩
  | sleep hnone =>
    refine h.stop hc rfl rfl (by simp) fun r hr => ?_
    simp [hr]

/-- The scheduler moves on without a process. -/
theorem Sched.moveIdle {ctl : Ctl} (h : s.Sched) (hlock : ∀ d, d ≠ c → s.lock ≠ some d)
    (hproc : (s.cpu c).proc = none) (hsaved : ∀ r, (s.proc r).state.Waiting → (s.proc r).context = true)
    (hs : s' = s.hold c ctl ∧ (∃ i, ctl = .scan i) ∨ s' = s.release c ctl ∧ ctl = .idle) :
    s'.Sched := by
  have hnone : ∀ r, (s.cpu c).proc ≠ some r := by simp [hproc]
  obtain ⟨rfl, i, rfl⟩ | ⟨rfl, rfl⟩ := hs
  · refine h.move hlock (fun d hd => by simp [hd]) (fun d hd => by simp [hd.symm])
      (by simp [CpuOk, hproc]) (fun r _ => .inr ⟨by simp [hproc], Iff.rfl⟩)
      (fun r hr => absurd hr (hnone r)) fun r hr => .inl (hsaved r hr)
  · refine h.move hlock (fun d hd => by simp [hd]) (fun d hd => by simp)
      (by simp [CpuOk, hproc]) (fun r _ => .inr ⟨by simp [hproc], Iff.rfl⟩)
      (fun r hr => absurd hr (hnone r)) fun r hr => .inl (hsaved r hr)

variable {op : Op C}

/-- **Every step keeps the processors right.** -/
theorem Sched.rule (h : s.Sched) (hf : s.Forks) (hrule : Rule s op s') : s'.Sched := by
  cases hrule with
  | @enter c hctl hlock =>
    have hok := h.cpu c
    simp only [CpuOk, hctl] at hok
    exact h.moveIdle (by simp [hlock]) hok.1 (fun r => h.free_saved hlock) (.inl ⟨rfl, 0, rfl⟩)
  | @dispatch c p hctl hstate =>
    obtain ⟨hnone, hlock⟩ := h.scanning hctl
    refine h.move (c := c) (fun d hd => by simp [hlock, hd.symm]) (fun d hd => by simp [hd])
      (fun d hd => by simp [hlock, hd.symm])
      (by simp [CpuOk, hlock]) (fun r hr => ?_) (fun r hr => by simp [hnone] at hr) fun r hr => ?_
    · by_cases hrp : r = p
      · left
        simp [hrp, hstate]
      · right
        simp [hrp, Ne.symm hrp]
    · by_cases hrp : r = p
      · simp [hrp, Waiting] at hr
      · simp only [setProc_proc, if_neg hrp] at hr ⊢
        exact .inl (h.scan_saved hctl hr)
  | skip hctl =>
    obtain ⟨hnone, hlock⟩ := h.scanning hctl
    exact h.moveIdle (fun d hd => by simp [hlock, hd.symm]) hnone (fun r => h.scan_saved hctl) (.inl ⟨rfl, _, rfl⟩)
  | finish hctl =>
    obtain ⟨hnone, hlock⟩ := h.scanning hctl
    exact h.moveIdle (fun d hd => by simp [hlock, hd.symm]) hnone (fun r => h.scan_saved hctl) (.inr ⟨rfl, rfl⟩)
  | @leave c p hctl =>
    have hok := h.cpu c
    simp only [CpuOk, hctl] at hok
    obtain ⟨hproc, hloop, hlock, hstate⟩ := hok
    refine h.move (c := c) (fun d hd => by simp [hlock, hd.symm]) (fun d hd => by simp [hd])
      (fun d hd => by simp [hd.symm]) (by simp [CpuOk, hproc, hloop, hstate])
      (fun r hr => .inr ⟨by simpa using hr, ?_⟩) (fun r hr _ => by simpa using hr) fun r hr => ?_
    · simp only [hold_proc, setProc_proc]
      split <;> simp_all
    · simp only [hold_proc, setProc_proc] at hr ⊢
      by_cases hrp : r = p
      · simp [hrp]
      · simp only [if_neg hrp] at hr ⊢
        -- the lock belongs to `c`, which leaves `p`
        refine .inl ((h.saved_of_lock hlock hr).resolve_right fun hleave => hrp ?_)
        exact (Ctl.leave.inj (hctl.symm.trans hleave)).symm
  | @back c hctl =>
    have hok := h.cpu c
    simp only [CpuOk, hctl] at hok
    obtain ⟨hproc, hlock, hstate⟩ := hok
    refine h.move (c := c) (fun d hd => by simp [hlock, hd.symm]) (fun d hd => by simp [hd])
      (fun d hd => by simp [hlock, hd.symm]) (by simp [CpuOk, hlock])
      (fun r hr => .inr ⟨by simp, Iff.rfl⟩) (fun r hr hrun => ?_) fun r hr => ?_
    · obtain rfl : (s.cpu c).loop = r := some.inj (hproc.symm.trans hr)
      exact absurd hrun hstate
    · exact .inl ((h.saved_of_lock hlock hr).resolve_right (by simp [hctl]))
  | resume chan hctl =>
    refine h.goOn (h.controls (.inr hctl)) rfl rfl fun r => ?_
    simp only [release_proc, setProc_proc]
    split <;> simp_all
  | @waitOn c p _ hctl hwait =>
    have h' : (s.setProc p { s.proc p with chan := none }).Sched := by
      refine h.table rfl rfl (fun r => ?_) fun r hr => .inr ?_
      · rw [setProc_proc]
        split <;> simp_all
      · rw [setProc_proc] at hr ⊢
        split <;> simp_all
    exact h'.waitRule (h'.controls (.inr hctl)) hwait
  | wait hctl hlock hwait => exact h.waitRule (h.controls (.inl ⟨hctl, hlock⟩)) hwait
  | yield hctl hlock | sleep hctl hlock =>
    refine h.stop (h.controls (.inl ⟨hctl, hlock⟩)) rfl rfl (by simp) fun r hr => ?_
    simp [hr]
  | table hkept hparent hcpu hlock hevents =>
    refine h.table hcpu hlock (fun r => ?_) fun r hr => ?_
    · have hstate := (hkept r).state
      grind
    · have hstate := (hkept r).state
      refine .inr ⟨?_, (hkept r).context⟩
      unfold Waiting at hr ⊢
      grind
  | @exit c p hctl hlock hnp hinit =>
    refine h.stop (h.controls (.inl ⟨hctl, hlock⟩)) rfl rfl (by simp [exitBody]) fun r hr => ?_
    have hkept := leaveFamily_kept p r s.proc
    have hstate := hkept.state
    simp only [exitBody, hold_proc, emit_proc, setProc_proc, if_neg hr]
    refine ⟨?_, ?_, hkept.context⟩
    · grind
    · unfold Waiting
      grind
  | allocproc hctl hnp hstate =>
    refine h.table rfl rfl (fun r => ?_) fun r hr => .inr ?_
    · simp only [advance, setProc_proc]
      grind
    · simp only [advance, setProc_proc, Waiting] at hr ⊢
      grind
  | kstack hctl hnp =>
    refine h.table rfl rfl (fun r => ?_) fun r hr => ?_
    · simp only [advance, setProc_proc]
      grind
    · simp only [advance, setProc_proc] at hr ⊢
      grind
  | copyuvm hctl hnp | setParent hctl hnp =>
    refine h.table rfl rfl (fun r => ?_) fun r hr => .inr ?_
    · simp only [advance, setProc_proc]
      grind
    · simp only [advance, setProc_proc] at hr ⊢
      grind
  | giveUp hop hctl hnp =>
    have hq := (hf.prepared _ _ _ hnp).state
    refine h.table rfl rfl (fun r => ?_) fun r hr => .inr ?_
    · simp only [State.giveUp, setProc_proc]
      grind
    · simp only [State.giveUp, setProc_proc, Waiting] at hr ⊢
      grind
  | publish hctl hlock hnp =>
    have hq := hf.prepared _ _ _ hnp
    have hstate := hq.state
    have hctx := (hq.kstack (by decide)).2
    refine h.table rfl rfl (fun r => ?_) fun r hr => ?_
    · simp only [setProc_proc]
      grind
    · simp only [setProc_proc] at hr ⊢
      grind

/-- A round of `wait` keeps the slots of the forks. -/
theorem Forks.waitRule (h : s.Forks) (hp : (s.proc p).state = .running) (hw : WaitRule s c p s') :
    s'.Forks := by
  cases hw with
  | reap hparent hzombie =>
    exact h.frame_one (setProc_proc s _ · _) rfl (by simp [hzombie])
      (by simp [Published])
  | childless => exact h.frame (fun _ => rfl) (fun q hq => ⟨hq, rfl, id, rfl⟩) fun _ hr => ⟨hr, rfl, rfl⟩
  | sleep hnone =>
    exact h.frame_one (setProc_proc s _ · _) rfl (by simp [hp]) (by simp [Published, hp])

/-- **Every step keeps the slots of the forks.** -/
theorem Forks.rule (h : s.Sched) (hf : s.Forks) (hrule : Rule s op s') : s'.Forks := by
  have hrun : ∀ {c p}, (s.cpu c).ctl = .user p ∨ (s.cpu c).ctl = .resumed p →
      (s.proc p).state = .running := by
    intro c p hctl
    have hok := h.cpu c
    obtain hctl | hctl := hctl <;> simp only [CpuOk, hctl] at hok <;> exact hok.2.2.2
  have hsame : s'.proc = s.proc → s'.Forks := fun heq => by
    refine hf.frame (fun _ => by rw [heq]) (fun q hq => ?_) fun r hr => ?_
    · rw [heq]
      exact ⟨hq, rfl, id, rfl⟩
    · rw [heq] at hr ⊢
      exact ⟨hr, rfl, rfl⟩
  cases hrule with
  | enter hctl hlock | skip hctl | finish hctl | back hctl => exact hsame rfl
  | dispatch hctl hstate =>
    exact hf.frame_one (setProc_proc s _ · _) rfl (by simp [hstate])
      (by simp [Published, hstate])
  | leave hctl =>
    refine hf.frame (fun r => ?_) (fun r hr => ?_) fun r hr => ?_
    all_goals simp only [hold_proc, setProc_proc] at *
    · split <;> simp_all
    · split <;> simp_all
    · split at hr <;> simp_all
  | resume chan hctl =>
    exact hf.frame_one (setProc_proc s _ · _) rfl (by simp [hrun (.inr hctl)]) fun hr => ⟨hr, rfl, rfl⟩
  | waitOn hctl hwait =>
    refine Forks.waitRule ?_ (by simp [hrun (.inr hctl)]) hwait
    exact hf.frame_one (setProc_proc s _ · _) rfl (by simp [hrun (.inr hctl)]) fun hr => ⟨hr, rfl, rfl⟩
  | wait hctl hlock hwait => exact hf.waitRule (hrun (.inl hctl)) hwait
  | yield hctl hlock | sleep hctl hlock =>
    have hp := hrun (.inl hctl)
    exact hf.frame_one (setProc_proc s _ · _) rfl (by simp [hp]) (by simp [Published, hp])
  | table hkept hparent hcpu hlock hevents =>
    refine hf.frame (fun r => (hkept r).np) (fun r hr => ?_) fun r hr => ?_
    · have hstate := (hkept r).state
      exact ⟨by grind, (hkept r).kstack, fun hctx => (hkept r).context.trans hctx, (hkept r).pgdir⟩
    · have hstate := (hkept r).state
      refine ⟨?_, (hkept r).kstack, (hkept r).pgdir⟩
      unfold Published at hr ⊢
      grind
  | @exit c p hctl hlock hnp hinit =>
    have hp := hrun (.inl hctl)
    have hkept := fun r => leaveFamily_kept p r s.proc
    simp only [exitBody]
    generalize leaveFamily p s.proc = f at hkept ⊢
    refine hf.frame (fun r => ?_) (fun r hr => ?_) fun r hr => ?_
    all_goals
      have hstate := (hkept r).state
      simp only [hold_proc, emit_proc, setProc_proc] at *
    · split
      next heq => exact heq ▸ (hkept p).np
      next => exact (hkept r).np
    · have hrp : r ≠ p := by
        rintro rfl
        simp [hp] at hr
      rw [if_neg hrp]
      exact ⟨by grind, (hkept r).kstack, fun hctx => (hkept r).context.trans hctx, (hkept r).pgdir⟩
    · by_cases hrp : r = p
      · subst hrp
        rw [if_pos rfl]
        exact ⟨by simp [Published, hp], (hkept r).kstack, (hkept r).pgdir⟩
      · rw [if_neg hrp] at hr ⊢
        refine ⟨?_, (hkept r).kstack, (hkept r).pgdir⟩
        unfold Published at hr ⊢
        grind
  | allocproc hctl hnp hstate =>
    refine hf.advance rfl (hrun (.inl hctl)) (.inl hstate) (fun p' st' hp' => ?_)
      ⟨rfl, fun hst => absurd rfl hst, by simp⟩ rfl
    exact absurd (hf.prepared p' _ st' hp').state (by simp [hstate])
  | kstack hctl hnp =>
    have hq := hf.prepared _ _ _ hnp
    exact hf.advance rfl (hrun (.inl hctl)) (.inr hq.state) (fun p' st' hp' => hf.unique _ _ _ _ _ hp' hnp)
      ⟨hq.state, fun _ => ⟨rfl, rfl⟩, by simp⟩ rfl
  | copyuvm hctl hnp =>
    have hq := hf.prepared _ _ _ hnp
    exact hf.advance rfl (hrun (.inl hctl)) (.inr hq.state) (fun p' st' hp' => hf.unique _ _ _ _ _ hp' hnp)
      ⟨hq.state, fun _ => hq.kstack (by decide), fun _ => rfl⟩ rfl
  | giveUp hop hctl hnp =>
    exact hf.finish (hrun (.inl hctl)) hnp (by simp [Published]) rfl
  | setParent hctl hnp =>
    have hq := hf.prepared _ _ _ hnp
    exact hf.advance rfl (hrun (.inl hctl)) (.inr hq.state) (fun p' st' hp' => hf.unique _ _ _ _ _ hp' hnp)
      ⟨hq.state, fun _ => hq.kstack (by decide), fun _ => hq.pgdir (by decide)⟩ rfl
  | publish hctl hlock hnp =>
    have hq := hf.prepared _ _ _ hnp
    exact hf.finish (hrun (.inl hctl)) hnp
      (fun _ => ⟨(hq.kstack (by decide)).1, hq.pgdir (by decide)⟩) rfl

/-! ## Whole runs -/

omit [DecidableEq C] in
theorem sched_boot : (boot : State C).Sched := by
  refine ⟨fun c => ⟨rfl, by simp [boot]⟩, fun c d p hc => by simp [boot] at hc, fun p hp => ?_,
    fun p hp => ?_⟩
  all_goals by_cases h0 : p = initproc
  all_goals simp_all [boot, Proc.free, Waiting]

omit [DecidableEq C] in
theorem forks_boot : (boot : State C).Forks := by
  have hnp : ∀ p, ((boot : State C).proc p).np = none := by
    intro p
    by_cases h0 : p = initproc <;> simp [boot, Proc.free, h0]
  refine ⟨fun p q st hp => by simp [hnp] at hp, fun p p' q st st' hp => by simp [hnp] at hp,
    fun p hp => ?_⟩
  by_cases h0 : p = initproc
  all_goals simp_all [boot, Proc.free, Published]

/-- The invariant holds after every run. -/
theorem run_sched {ops : List (Op C)} (hrun : Runs.run step boot ops = some s) :
    s.Sched ∧ s.Forks :=
  Runs.run_invariant (I := fun s : State C => s.Sched ∧ s.Forks)
    (fun _ _ _ hstep h => ⟨h.1.rule h.2 (step_rule hstep), h.2.rule h.1 (step_rule hstep)⟩) hrun
    ⟨sched_boot, forks_boot⟩

/-- What a round of `wait` frees is a zombie's. -/
theorem WaitRule.zombie_of_freed (hw : WaitRule s c p s')
    (hq : (s'.proc q).kstack ≠ (s.proc q).kstack ∨ (s'.proc q).pgdir ≠ (s.proc q).pgdir) :
    (s.proc q).state = .zombie := by
  cases hw with
  | @reap q' hparent hzombie =>
    simp only [release_proc, emit_proc, setProc_proc] at hq
    by_cases hqq : q = q'
    · rw [hqq, hzombie]
    · simp [hqq] at hq
  | childless => simp at hq
  | sleep hnone =>
    simp only [hold_proc, setProc_proc] at hq
    split at hq <;> simp_all

/-- `wait` frees nothing that is in use. -/
theorem freed_of_step {q : Slot} (h : s.Sched) (hf : s.Forks) (hop : op = .wait c ∨ op = .resume c)
    (hstep : s.step op = some s')
    (hq : (s'.proc q).kstack ≠ (s.proc q).kstack ∨ (s'.proc q).pgdir ≠ (s.proc q).pgdir) :
    (s.proc q).state = .zombie ∧ (s.proc q).kstack = true ∧ (s.proc q).pgdir = true ∧
      ∀ d, (s.cpu d).proc ≠ some q ∧ ¬ s.OnStack d q := by
  suffices hz : (s.proc q).state = .zombie ∧
      ∃ c p, (s.cpu c).ctl = .user p ∧ s.lock = none ∨ (s.cpu c).ctl = .resumed p by
    obtain ⟨hz, c, p, hctl⟩ := hz
    have hready := hf.ready q (by simp [Published, hz])
    exact ⟨hz, hready.1, hready.2, h.nowhere hctl (by simp [hz])⟩
  cases step_rule hstep with
  | resume chan hctl =>
    simp only [release_proc, setProc_proc] at hq
    split at hq <;> simp_all
  | waitOn hctl hwait =>
    refine ⟨?_, _, _, .inr hctl⟩
    have hsame : ∀ p, ((s.setProc p { s.proc p with chan := none }).proc q).kstack =
        (s.proc q).kstack ∧ ((s.setProc p { s.proc p with chan := none }).proc q).pgdir =
        (s.proc q).pgdir ∧ ((s.setProc p { s.proc p with chan := none }).proc q).state =
        (s.proc q).state := by
      intro p
      rw [setProc_proc]
      split <;> simp_all
    rw [← (hsame _).2.2]
    exact hwait.zombie_of_freed (by rwa [(hsame _).1, (hsame _).2.1])
  | wait hctl hlock hwait => exact ⟨hwait.zombie_of_freed hq, _, _, .inl ⟨hctl, hlock⟩⟩
  | table hkept hparent hcpu hlock hevents =>
    rw [(hkept q).kstack, (hkept q).pgdir] at hq
    simp at hq
  | giveUp hfail hctl hnp =>
    obtain rfl | rfl := hfail <;> simp at hop
  | _ => simp at hop

/-- **Processes and processors.**  In every state reached with the lock free, a process is `RUNNING`
if and only if it is the current process of exactly one processor, no processor is on the kernel
stack of any other process, and every process that is `RUNNABLE` or `SLEEPING` has a saved context.
At any time `wait` frees the kernel stack and the page directory only of a zombie that is current on
no processor, and both are there to be freed. -/
theorem exclusive_run {ops : List (Op C)} (hrun : Runs.run step boot ops = some s) :
    (s.lock = none →
      (∀ p, (s.proc p).state = .running ↔ ∃! c, (s.cpu c).proc = some p) ∧
      (∀ c p, s.OnStack c p → (s.proc p).state = .running) ∧
      ∀ p, (s.proc p).state = .runnable ∨ (s.proc p).state = .sleeping →
        (s.proc p).context = true) ∧
    ∀ op c s' q, s.step op = some s' → op = .wait c ∨ op = .resume c →
      (s'.proc q).kstack ≠ (s.proc q).kstack ∨ (s'.proc q).pgdir ≠ (s.proc q).pgdir →
      (s.proc q).state = .zombie ∧ (s.proc q).kstack = true ∧ (s.proc q).pgdir = true ∧
        ∀ d, (s.cpu d).proc ≠ some q ∧ ¬ s.OnStack d q := by
  obtain ⟨h, hf⟩ := run_sched hrun
  refine ⟨fun hlock => ⟨fun p => ⟨fun hp => ?_, ?_⟩, fun c p hon => ?_, fun p => h.free_saved hlock⟩,
    fun op c s' q hstep hop => freed_of_step h hf hop hstep⟩
  · obtain ⟨c, hc⟩ := h.running p hp
    exact ⟨c, hc, fun d hd => h.unique d c p hd hc⟩
  · rintro ⟨c, hc, -⟩
    obtain ⟨-, hnone⟩ | ⟨q, -, hq, hrun'⟩ := h.outside (c := c) (by simp [hlock])
    · simp [hnone] at hc
    · obtain rfl : q = p := some.inj (hq.symm.trans hc)
      exact hrun'
  · obtain ⟨hidle, -⟩ | ⟨q, huser, -, hrun'⟩ := h.outside (c := c) (by simp [hlock])
    · simp [OnStack, hidle] at hon
    · simp only [OnStack, huser, reduceCtorEq, Ctl.user.injEq, false_or] at hon
      exact hon ▸ hrun'

/-- Two processors, the first of which runs the first process. -/
theorem exclusive_run_first : ∃ s : State ℕ,
    Runs.run step boot [.enter 0, .scan 0, .resume 0] = some s ∧ s.lock = none ∧
    ∃! c, (s.cpu c).proc = some initproc := by
  have hrun : Runs.run step (boot : State ℕ) [.enter 0, .scan 0, .resume 0] = some _ := rfl
  exact ⟨_, hrun, rfl, (((exclusive_run hrun).1 rfl).1 initproc).mp rfl⟩

end State

end ProcTable
