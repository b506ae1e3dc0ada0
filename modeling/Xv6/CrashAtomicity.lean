/-
# Crash atomicity of the log

A crash may come between any two sector writes of an operation, of `commit` or of recovery
itself.  `LogInv.crash` says what the disk stands for at that moment: the first `k` commit
groups, where `k` counts at least every group whose first `write_head` completed.
`RecoverInv.step` shows that recovery, interrupted as often as one likes, never changes what
the disk stands for, and `crash_atomicity` puts the two together.  `recovery_completes` shows
that an undisturbed recovery reaches its end.
-/
import Xv6.LogSteps

open RedoLog List

namespace Machine

variable {start size : ℕ} {d₀ target : Disk} {h : History} {m : Machine}

/-! ## Recovery -/

/-- The place `recover_from_log` has reached. -/
def RecoverPhase (start : ℕ) (target : Disk) (m : Machine) : Prop :=
  match m.pc with
  | .readHead => True
  | .recoverTrans t =>
    m.log.lh = decodeHead (m.disk start) ∧ t < m.log.lh.length ∧
      Installed m.log.lh t m.disk target
  | .recoverErase =>
    m.log.lh = decodeHead (m.disk start) ∧ Installed m.log.lh m.log.lh.length m.disk target
  | .running => m.log.lh = [] ∧ decodeHead (m.disk start) = []
  | _ => False

/-- **The invariant of recovery**: the disk and its log stand for `target`. -/
structure RecoverInv (start size : ℕ) (target : Disk) (m : Machine) : Prop where
  start_eq : m.log.start = start
  size_eq : m.log.size = size
  size_pos : 0 < size
  ops : m.ops = []
  outstanding : m.log.outstanding = 0
  committing : m.log.committing = false
  coherent : m.Coherent
  clean : ∀ b buf, m.cache b = some buf → buf.dirty = false
  hdr_size : (decodeHead (m.disk start)).length < size
  recoverable : Recoverable (IsHome start size) (decodeHead (m.disk start))
    (fun i => m.disk (start + i + 1)) m.disk target
  phase : RecoverPhase start target m

section

variable (hm : RecoverInv start size target m)

include hm

/-- With no dirty buffer, reading shows the disk. -/
theorem RecoverInv.bread_eq_disk (b : ℕ) :
    m.bread b = m.disk b := by
  unfold bread
  cases hc : m.cache b with
  | none => rfl
  | some buf => exact hm.coherent b buf hc (hm.clean b buf hc)

/-- Cache traffic during recovery. -/
theorem RecoverInv.of_cache (c : ℕ → Option Buf) (hcoh : ({ m with cache := c } : Machine).Coherent)
    (hclean : ∀ b buf, c b = some buf → buf.dirty = false) :
    RecoverInv start size target { m with cache := c } :=
  { hm with
    coherent := hcoh
    clean := hclean }

theorem RecoverInv.fill (b : ℕ) :
    RecoverInv start size target (m.fill b) := by
  obtain ⟨c, hc⟩ := m.fill_eq b
  rw [hc]
  apply hm.of_cache
  · rw [← hc]
    exact hm.coherent.fill b
  · intro a buf ha
    have ha' : (m.fill b).cache a = some buf := by
      rw [hc]
      exact ha
    rcases fill_cache ha' with ha' | ha'
    · exact hm.clean a buf ha'
    · exact ha'.2

/-- A crash during recovery, or after it. -/
theorem RecoverInv.crash :
    RecoverInv start size target m.crash :=
  { hm with
    ops := rfl
    outstanding := rfl
    committing := rfl
    coherent := by
      intro b buf hb
      cases hb
    clean := by
      intro b buf hb
      cases hb
    phase := trivial }

end

variable {m' : Machine}

section

variable (hm : RecoverInv start size target m)

include hm

/-- `read_head`. -/
theorem RecoverInv.readHead (hstep : m.step .readHead = some m') : RecoverInv start size target m' := by
  obtain ⟨-, hstep⟩ := Option.ite_none_right_eq_some.mp hstep
  cases hstep
  have hfill := hm.fill m.log.start
  have hread : m.bread m.log.start = m.disk start := by
    rw [hm.bread_eq_disk, hm.start_eq]
  simp only [bread_fill, hread]
  exact {
    start_eq := by simpa using hm.start_eq
    size_eq := by simpa using hm.size_eq
    size_pos := hm.size_pos
    ops := by simpa using hm.ops
    outstanding := by simpa using hm.outstanding
    committing := by simpa using hm.committing
    coherent := hfill.coherent
    clean := hfill.clean
    hdr_size := by simpa using hm.hdr_size
    recoverable := by simpa using hm.recoverable
    phase := by
      by_cases hlh : 0 < (decodeHead (m.disk start)).length
      · simp only [RecoverPhase, gt_iff_lt, hlh, ite_true, fill_disk]
        exact ⟨trivial, trivial, installed_zero⟩
      · have hnil : (decodeHead (m.disk start)).length = 0 := by omega
        simp only [RecoverPhase, gt_iff_lt, hlh, ite_false, fill_disk]
        refine ⟨trivial, ?_⟩
        rw [hnil]
        exact installed_zero }

/-- An iteration of `install_trans` in `recover_from_log`. -/
theorem RecoverInv.recoverTrans (hstep : m.step .recoverTrans = some m') : RecoverInv start size target m' := by
  simp only [step] at hstep
  split at hstep
  next t hpc =>
    cases hstep
    have hfill := (hm.fill (m.log.start + t + 1)).fill (m.log.lh.getD t 0)
    have hphase := hfill.phase
    simp only [RecoverPhase, fill_pc, hpc] at hphase
    obtain ⟨hhead, ht, hinst⟩ := hphase
    simp only [fill_log] at ht
    obtain ⟨b, hb⟩ : ∃ b, m.log.lh[t]? = some b := ⟨_, getElem?_eq_getElem ht⟩
    simp only [installEntry, getD_lh hb, hm.start_eq] at hfill hhead hinst ⊢
    generalize hm₁ : (m.fill (start + t + 1)).fill b = m₁ at *
    have hlog : m₁.log = m.log := by rw [← hm₁]; simp
    rw [← hlog] at hb ht
    have hsize := hfill.hdr_size
    rw [← hhead] at hsize
    have hrec := hfill.recoverable
    rw [← hhead] at hrec
    have hbHome : IsHome start size b := hrec.home_hdr b (mem_of_getElem? hb)
    have hlogBlock : ∀ i, i < size → start + i ≠ b := by
      rintro i hi rfl
      exact not_isHome_log hi hbHome
    have hread : m₁.bread (start + t + 1) = m₁.disk (start + t + 1) := hfill.bread_eq_disk _
    rw [hread]
    -- the header and the logged copies are not overwritten
    have hstart : (m₁.bwrite b (m₁.disk (start + t + 1))).disk start = m₁.disk start := by
      simp only [Machine.bwrite]
      rw [Function.update_of_ne (show start ≠ b from hlogBlock 0 hfill.size_pos)]
    have hcopies : ∀ i, i < m₁.log.lh.length →
        (m₁.bwrite b (m₁.disk (start + t + 1))).disk (start + i + 1)
          = m₁.disk (start + i + 1) := by
      intro i hi
      simp only [Machine.bwrite]
      rw [Function.update_of_ne (show start + i + 1 ≠ b from hlogBlock (i + 1) (by omega))]
    have hinst' := hrec.installed_succ hb hinst
    simp only [nextEntry, ← hlog]
    exact { hfill with
      coherent := hfill.coherent.bwrite _ _
      clean := by
        intro c buf hc
        by_contra hd
        have hd' : buf.dirty = true := by simpa using hd
        have hold := hfill.clean c buf (dirty_bwrite hc hd').2
        rw [hold] at hd'
        cases hd'
      hdr_size := by
        rw [hstart, ← hhead]
        exact hsize
      recoverable := by
        rw [hstart, ← hhead]
        exact (hrec.install hb).congr (fun _ _ => rfl) hcopies
      phase := by
        by_cases hlast : t + 1 < m₁.log.lh.length
        · simp only [RecoverPhase, hlast, ite_true]
          rw [hstart]
          exact ⟨hhead, hlast, hinst'⟩
        · have hlen : m₁.log.lh.length = t + 1 := by omega
          simp only [RecoverPhase, hlast, ite_false]
          rw [hstart]
          refine ⟨hhead, ?_⟩
          simp only [Machine.bwrite, hlen]
          exact hinst' }
  next => cases hstep

/-- The header is erased at the end of recovery. -/
theorem RecoverInv.recoverErase (hstep : m.step .recoverErase = some m') : RecoverInv start size target m' := by
  obtain ⟨hpc, hstep⟩ := Option.ite_none_right_eq_some.mp hstep
  cases hstep
  have hphase := hm.phase
  simp only [RecoverPhase, hpc] at hphase
  obtain ⟨hhead, hinst⟩ := hphase
  have hne : ∀ b, IsHome start size b → b ≠ m.log.start := by
    rintro b hb rfl
    rw [hm.start_eq] at hb
    exact not_isHome_log hm.size_pos (hb : IsHome start size (start + 0))
  have hhead' : decodeHead (m.eraseLog.disk start) = [] := by
    simpa [hm.start_eq] using m.decodeHead_eraseLog
  have hrec := hm.recoverable
  rw [← hhead] at hrec
  exact {
    start_eq := by simpa using hm.start_eq
    size_eq := by simpa using hm.size_eq
    size_pos := hm.size_pos
    ops := by simpa using hm.ops
    outstanding := by simpa using hm.outstanding
    committing := by simpa using hm.committing
    coherent := hm.coherent.eraseLog
    clean := by
      intro c buf hc
      by_contra hd
      have hd' : buf.dirty = true := by simpa using hd
      have hold := hm.clean c buf (eraseLog_dirty hc hd')
      rw [hold] at hd'
      cases hd'
    hdr_size := by
      simp only [hhead', length_nil]
      exact hm.size_pos
    recoverable := by
      simp only [hhead']
      exact (hrec.erase le_rfl hinst (fun i => m.disk (start + i + 1))).congr
        (fun b hb => m.eraseLog_disk_of_ne (hne b hb)) (by simp)
    phase := by
      simp only [RecoverPhase, hhead', eraseLog_log, and_self] }

/-- **The step lemma of recovery**: what the disk stands for does not change. -/
theorem RecoverInv.step {ev : Event} (hev : ev.Recovery) (hstep : m.step ev = some m') :
    RecoverInv start size target m' := by
  cases ev with
  | beginOp op | logWrite op b data | endOp op | writeLog | writeHead | installTrans | eraseHead
    | endCommit => exact hev.elim
  | read b =>
    cases hstep
    exact hm.fill b
  | evict b =>
    simp only [Machine.step] at hstep
    split at hstep
    · next buf hb =>
        split at hstep
        · cases hstep
        · cases hstep
          apply hm.of_cache
          · intro c buf' hc hd'
            exact hm.coherent c buf' (evict_cache hc) hd'
          · intro c buf' hc
            exact hm.clean c buf' (evict_cache hc)
    · cases hstep
  | crash =>
    cases hstep
    exact hm.crash
  | readHead => exact hm.readHead hstep
  | recoverTrans => exact hm.recoverTrans hstep
  | recoverErase => exact hm.recoverErase hstep

/-- The run lemma of recovery. -/
theorem RecoverInv.run {rec : List Event} (hrec : ∀ ev ∈ rec, ev.Recovery)
    (hrun : Runs.run Machine.step m rec = some m') : RecoverInv start size target m' := by
  have hinv := Runs.run_history
    (I := fun past s => (∀ ev ∈ past, ev.Recovery) → RecoverInv start size target s)
    (fun past s ev s' hstep hpast hall =>
      (hpast fun e he => hall e (mem_append_left _ he)).step (hall ev (by simp)) hstep)
    hrun (fun _ => hm)
  exact hinv hrec

end

/-! ## What a crash leaves behind -/

/-- A disk with an empty header stands for what its home blocks hold. -/
theorem recoverable_of_holds {k : ℕ} (hhead : decodeHead (m.disk start) = [])
    (hholds : Holds start size d₀ h m k) :
    Recoverable (IsHome start size) (decodeHead (m.disk start))
      (fun i => m.disk (start + i + 1)) m.disk (diskAfter d₀ (h.closed.take k)) where
  home_hdr := by simp [hhead]
  off_hdr := fun b hb _ => hholds b hb
  copy_eq := by simp [hhead]

/-- **In every phase the disk stands for the first `k` groups**, where `k` counts at least
the groups whose first `write_head` completed. -/
theorem LogInv.exists_recoverable (hm : LogInv start size d₀ h m) (hsize : 0 < size) :
    ∃ k, h.heads ≤ k ∧ k ≤ h.closed.length ∧ (decodeHead (m.disk start)).length < size ∧
      Recoverable (IsHome start size) (decodeHead (m.disk start))
        (fun i => m.disk (start + i + 1)) m.disk (diskAfter d₀ (h.closed.take k)) := by
  have hphase := hm.phase
  unfold PhaseInv at hphase
  have hempty : decodeHead (m.disk start) = [] → (decodeHead (m.disk start)).length < size := by
    intro hhead
    rw [hhead]
    exact hsize
  cases hpc : m.pc with
  | running =>
    simp only [hpc] at hphase
    obtain ⟨-, -, hhead, hholds, hheads⟩ := hphase
    exact ⟨_, hheads, le_rfl, hempty hhead, recoverable_of_holds hhead hholds⟩
  | writeLog t | writeHead =>
    simp only [hpc] at hphase
    obtain ⟨-, -, -, hhead, hholds, -, hheads⟩ := hphase
    exact ⟨_, hheads, Nat.sub_le _ _, hempty hhead, recoverable_of_holds hhead hholds⟩
  | installTrans t =>
    simp only [hpc] at hphase
    obtain ⟨hc, ht, hdirty, hhead, hcopied, -, hheads⟩ := hphase
    refine ⟨_, hheads, le_rfl, ?_, ?_⟩
    · rw [hhead]
      exact hm.lh_size (by omega)
    · rw [hhead, take_length]
      exact hm.recoverable hc hdirty hcopied
  | eraseHead =>
    simp only [hpc] at hphase
    obtain ⟨hc, hlh, hdirty, hhead, hcopied, -, hheads⟩ := hphase
    refine ⟨_, hheads, le_rfl, ?_, ?_⟩
    · rw [hhead]
      exact hm.lh_size hlh
    · rw [hhead, take_length]
      exact hm.recoverable hc hdirty hcopied
  | committed =>
    simp only [hpc] at hphase
    obtain ⟨-, -, -, hhead, hholds, hheads⟩ := hphase
    exact ⟨_, hheads, le_rfl, hempty hhead, recoverable_of_holds hhead hholds⟩
  | readHead | recoverTrans t | recoverErase => simp only [hpc] at hphase

/-- A crash in normal operation leaves a disk that recovery can work on. -/
theorem LogInv.crash (hm : LogInv start size d₀ h m) (hsize : 0 < size) :
    ∃ k, h.heads ≤ k ∧ k ≤ h.closed.length ∧
      RecoverInv start size (diskAfter d₀ (h.closed.take k)) m.crash := by
  obtain ⟨k, hheads, hk, hhdr, hrec⟩ := hm.exists_recoverable hsize
  refine ⟨k, hheads, hk, ?_⟩
  exact {
    start_eq := hm.start_eq
    size_eq := hm.size_eq
    size_pos := hsize
    ops := rfl
    outstanding := rfl
    committing := rfl
    coherent := by
      intro b buf hb
      cases hb
    clean := by
      intro b buf hb
      cases hb
    hdr_size := hhdr
    recoverable := hrec
    phase := trivial }

/-! ## Quiet machines -/

/-- A machine that has booted, with no operation outstanding and an empty log. -/
structure Quiet (start size : ℕ) (m : Machine) : Prop where
  start_eq : m.log.start = start
  size_eq : m.log.size = size
  size_pos : 0 < size
  ops : m.ops = []
  outstanding : m.log.outstanding = 0
  committing : m.log.committing = false
  lh : m.log.lh = []
  coherent : m.Coherent
  clean : ∀ b buf, m.cache b = some buf → buf.dirty = false
  header : decodeHead (m.disk start) = []
  running : m.pc = .running

/-- A quiet machine has logged nothing yet. -/
theorem Quiet.logInv (hm : Quiet start size m) :
    LogInv start size m.disk (history []) m where
  start_eq := hm.start_eq
  size_eq := hm.size_eq
  active_eq := hm.outstanding.symm
  ops_length := by rw [hm.ops, hm.outstanding, length_nil]
  ops_nodup := by
    rw [hm.ops]
    exact nodup_nil
  ops_begun := by simp [hm.ops]
  current_begun := by simp [history]
  closed_begun := by simp [history]
  unsplit := by simp [history, Unsplit]
  lh_home := by simp [hm.lh]
  lh_length := by simp [hm.lh]
  lh_size := by simp [hm.lh]
  coherent := hm.coherent
  view := by
    intro b _
    have hdirty : m.DirtyFrom 0 := by
      intro c buf hc hd
      rw [hm.clean c buf hc] at hd
      cases hd
    rw [hm.coherent.bread_eq_disk hdirty (by simp [hm.lh])]
    rfl
  phase := by
    simp only [PhaseInv, hm.running]
    refine ⟨hm.committing, ?_, hm.header, fun _ _ => rfl, le_rfl⟩
    intro c buf hc hd
    rw [hm.clean c buf hc] at hd
    cases hd

/-- A completed recovery leaves a quiet machine. -/
theorem RecoverInv.quiet (hm : RecoverInv start size target m) (hpc : m.pc = .running) :
    Quiet start size m := by
  have hphase := hm.phase
  simp only [RecoverPhase, hpc] at hphase
  exact { hm with
    lh := hphase.1
    header := hphase.2
    running := hpc }

/-- A completed recovery leaves the target on the home blocks. -/
theorem RecoverInv.disk_eq (hm : RecoverInv start size target m) (hpc : m.pc = .running) {b : ℕ}
    (hb : IsHome start size b) : m.disk b = target b := by
  have hphase := hm.phase
  simp only [RecoverPhase, hpc] at hphase
  have hrec := hm.recoverable
  rw [hphase.2] at hrec
  exact hrec.eq_target hb

/-! ## Main results -/

/-- **Crash atomicity.**  From a quiet machine, any run of operations and commits, cut by a
crash anywhere and followed by recovery with any number of further crashes: once recovery
has completed, the home blocks hold exactly the first `k` commit groups, `k` counts every
group whose first `write_head` completed, and no operation's updates are spread over two
groups.  The machine is quiet again, so the next run starts where this one did. -/
theorem crash_atomicity {m₁ m₂ : Machine} (hm : Quiet start size m) {tr rec : List Event}
    (htr : ∀ ev ∈ tr, ev.Normal start size) (hrun : Runs.run Machine.step m tr = some m₁)
    (hrec : ∀ ev ∈ rec, ev.Recovery) (hrecover : Runs.run Machine.step m₁.crash rec = some m₂)
    (hdone : m₂.pc = .running) :
    (∃ k, (history tr).heads ≤ k ∧ k ≤ (history tr).closed.length ∧
      ∀ b, IsHome start size b → m₂.disk b = diskAfter m.disk ((history tr).closed.take k) b) ∧
    Unsplit ((history tr).closed ++ [(history tr).current]) ∧ Quiet start size m₂ := by
  have hinv : LogInv start size m.disk (history tr) m₁ := hm.logInv.run htr hrun
  obtain ⟨k, hheads, hk, hcrash⟩ := hinv.crash hm.size_pos
  have hfinal := hcrash.run hrec hrecover
  exact ⟨⟨k, hheads, hk, fun b hb => hfinal.disk_eq hdone hb⟩, hinv.unsplit,
    hfinal.quiet hdone⟩

/-- The machine just booted on a disk with an empty log. -/
def booted (start size : ℕ) (d : Disk) : Machine where
  disk := d
  cache := fun _ => none
  log := ⟨start, size, 0, false, []⟩
  ops := []
  begun := []
  pc := .running

theorem quiet_booted {d : Disk} (hsize : 0 < size) (hhead : decodeHead (d start) = []) :
    Quiet start size (booted start size d) where
  start_eq := rfl
  size_eq := rfl
  size_pos := hsize
  ops := rfl
  outstanding := rfl
  committing := rfl
  lh := rfl
  coherent := by
    intro b buf hb
    cases hb
  clean := by
    intro b buf hb
    cases hb
  header := hhead
  running := rfl

/-- The loop of `install_trans` runs to its end. -/
theorem run_recoverTrans (n : ℕ) : ∀ (m : Machine) (t : ℕ), m.pc = .recoverTrans t →
    m.log.lh.length = t + (n + 1) →
    ∃ m', Runs.run Machine.step m (replicate (n + 1) .recoverTrans) = some m' ∧
      m'.pc = .recoverErase := by
  induction n with
  | zero =>
    intro m t hpc hlen
    refine ⟨{ m.installEntry t with pc := .recoverErase }, ?_, rfl⟩
    simp [Runs.run_cons, Machine.step, hpc, nextEntry, hlen]
  | succ n ih =>
    intro m t hpc hlen
    have hstep : m.step .recoverTrans = some
        { m.installEntry t with pc := .recoverTrans (t + 1) } := by
      simp [Machine.step, hpc, nextEntry, hlen]
    obtain ⟨m', hm', hpc'⟩ := ih { m.installEntry t with pc := .recoverTrans (t + 1) } (t + 1)
      rfl (by simp [installEntry, Machine.bwrite, hlen]; omega)
    refine ⟨m', ?_, hpc'⟩
    rw [replicate_succ, Runs.run_cons, hstep]
    exact hm'

/-- **Recovery completes** when no further crash interrupts it. -/
theorem recovery_completes (m : Machine) :
    ∃ rec m', (∀ ev ∈ rec, Event.Recovery ev) ∧
      Runs.run Machine.step m.crash rec = some m' ∧ m'.pc = .running := by
  set lh := decodeHead ((m.crash.fill m.crash.log.start).bread m.crash.log.start) with hlh
  have herase : ∀ s : Machine, s.pc = .recoverErase →
      Runs.run Machine.step s [.recoverErase] = some { s.eraseLog with pc := .running } := by
    intro s hs
    simp [Runs.run_cons, Machine.step, hs]
  by_cases hpos : 0 < lh.length
  · -- something to install: read the header, install every entry, erase
    obtain ⟨n, hn⟩ : ∃ n, lh.length = n + 1 := ⟨lh.length - 1, by omega⟩
    obtain ⟨s, hs, hspc⟩ := run_recoverTrans n
      { m.crash.fill m.crash.log.start with
        log := { m.crash.log with lh := lh }, pc := .recoverTrans 0 } 0 rfl (by simp [hn])
    refine ⟨.readHead :: (replicate (n + 1) .recoverTrans ++ [.recoverErase]),
      { s.eraseLog with pc := .running }, ?_, ?_, rfl⟩
    · intro ev hev
      simp only [mem_cons, mem_append, mem_replicate, not_mem_nil,
        or_false] at hev
      rcases hev with rfl | ⟨-, rfl⟩ | rfl <;> trivial
    · rw [Runs.run_cons]
      have hread : m.crash.step .readHead = some
          { m.crash.fill m.crash.log.start with
            log := { m.crash.log with lh := lh }, pc := .recoverTrans 0 } := by
        simp only [Machine.step, ← hlh, gt_iff_lt, hpos, ite_true]
        rfl
      rw [hread, Option.bind_some, Runs.run_append, hs]
      exact herase s hspc
  · set s : Machine := { m.crash.fill m.crash.log.start with
      log := { m.crash.log with lh := lh }, pc := .recoverErase } with hs
    refine ⟨[.readHead, .recoverErase], { s.eraseLog with pc := .running }, ?_, ?_, rfl⟩
    · intro ev hev
      simp only [mem_cons, not_mem_nil, or_false] at hev
      rcases hev with rfl | rfl <;> trivial
    · rw [Runs.run_cons]
      have hread : m.crash.step .readHead = some s := by
        simp only [Machine.step, ← hlh, gt_iff_lt, hpos, ite_false]
        rfl
      rw [hread, Option.bind_some]
      exact herase s rfl

/-- One operation, a crash right after the committing `write_head`, and recovery: its update
is on the disk. -/
theorem crash_atomicity_one_group :
    ∃ m₁ rec m₂, Runs.run Machine.step (booted 2 30 fun _ => Block.zero)
        [.beginOp 1, .logWrite 1 100 (Block.zero.setWord 0 7), .endOp 1, .writeLog, .writeHead]
        = some m₁ ∧
      Runs.run Machine.step m₁.crash rec = some m₂ ∧ m₂.pc = .running ∧
      m₂.disk 100 = Block.zero.setWord 0 7 := by
  obtain ⟨m₁, hm₁⟩ : ∃ m₁, Runs.run Machine.step (booted 2 30 fun _ => Block.zero)
      [.beginOp 1, .logWrite 1 100 (Block.zero.setWord 0 7), .endOp 1, .writeLog, .writeHead]
      = some m₁ := ⟨_, rfl⟩
  obtain ⟨rec, m₂, hrec, hrecover, hdone⟩ := recovery_completes m₁
  refine ⟨m₁, rec, m₂, hm₁, hrecover, hdone, ?_⟩
  have hquiet : Quiet 2 30 (booted 2 30 fun _ => Block.zero) :=
    quiet_booted (by decide) (by simp [decodeHead])
  obtain ⟨⟨k, hheads, hk, hdisk⟩, -, -⟩ := crash_atomicity hquiet
    (by simp [Event.Normal, IsHome]) hm₁ hrec hrecover hdone
  have hk1 : k = 1 := le_antisymm hk hheads
  subst hk1
  exact hdisk 100 (by simp [IsHome])

end Machine
