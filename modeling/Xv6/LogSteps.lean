/-
# Every step of normal operation keeps the log invariant

One lemma per event of `Machine.step`, in the order of the protocol: operations begin, log
and end; `commit` copies the blocks to the log, writes the header, installs the blocks and
erases the header.  `LogInv.step` collects them and `LogInv.run` is the run lemma.
-/
import Xv6.LogInvariant

open Function RedoLog List

namespace Machine

variable {start size : ℕ} {d₀ : Disk} {h : History} {m : Machine}

/-! ## Geometry of the log area -/

/-- Log blocks are not home blocks. -/
theorem not_isHome_log {i : ℕ} (hi : i < size) : ¬ IsHome start size (start + i) := by
  rintro ⟨-, hlt | hle⟩ <;> omega

section

variable (hm : LogInv start size d₀ h m)

include hm

/-- The log block of entry `t` is not a home block. -/
theorem LogInv.entry_not_isHome {t : ℕ} (ht : t < m.log.lh.length) : ¬ IsHome start size (start + t + 1) := by
  have hsize := hm.lh_size (by omega)
  rw [Nat.add_assoc]
  exact not_isHome_log (by omega)

/-- The header block is not a home block once there is something to commit. -/
theorem LogInv.start_not_isHome (hlh : 0 < m.log.lh.length) :
    ¬ IsHome start size start := by
  have hsize := hm.lh_size hlh
  exact not_isHome_log (i := 0) (by omega)

/-! ## Cache traffic -/

/-- Traffic between the cache and the disk that leaves every buffer's meaning alone. -/
theorem LogInv.of_cache (c : ℕ → Option Buf) (hcoh : ({ m with cache := c } : Machine).Coherent)
    (hread : ∀ b, ({ m with cache := c } : Machine).bread b = m.bread b)
    (hdirty : ∀ t, m.DirtyFrom t → ({ m with cache := c } : Machine).DirtyFrom t) :
    LogInv start size d₀ h { m with cache := c } :=
  { hm with
    coherent := hcoh
    view := fun b hb => (hread b).trans (hm.view b hb)
    phase := by
      have hphase := hm.phase
      unfold PhaseInv at hphase ⊢
      cases hpc : m.pc with
      | running =>
        simp only [hpc] at hphase ⊢
        exact ⟨hphase.1, hdirty 0 hphase.2.1, hphase.2.2⟩
      | writeLog t | writeHead | installTrans t | eraseHead | committed =>
        simp only [hpc] at hphase ⊢
        exact ⟨⟨hphase.1.1, hphase.1.2, hphase.1.3, hphase.1.4⟩, hphase.2.1,
          hdirty _ hphase.2.2.1, hphase.2.2.2⟩
      | readHead | recoverTrans t | recoverErase => simp only [hpc] at hphase }

/-- Reading a block. -/
theorem LogInv.fill (b : ℕ) :
    LogInv start size d₀ h (m.fill b) := by
  obtain ⟨c, hc⟩ := m.fill_eq b
  rw [hc]
  apply hm.of_cache
  · rw [← hc]
    exact hm.coherent.fill b
  · intro a
    rw [← hc]
    exact m.bread_fill b a
  · intro t ht
    rw [← hc]
    exact ht.fill b

/-- Recycling a clean buffer. -/
theorem LogInv.evict {b : ℕ} {buf : Buf} (hb : m.cache b = some buf) (hd : buf.dirty = false) :
    LogInv start size d₀ h { m with cache := update m.cache b none } := by
  apply hm.of_cache
  · intro c buf' hc hd'
    exact hm.coherent c buf' (evict_cache hc) hd'
  · intro c
    by_cases hcb : c = b
    · subst hcb
      simp [bread, hb, hm.coherent c buf hb hd]
    · simp [bread, update_of_ne hcb]
  · intro t ht c buf' hc hd'
    exact ht c buf' (evict_cache hc) hd'

end

/-! ## Operations -/

variable {op : ℕ}

/-- An operation is only outstanding while no commit is in progress. -/
theorem LogInv.running_of_mem (hm : LogInv start size d₀ h m) (hop : op ∈ m.ops) :
    m.pc = .running := by
  have hpos : 0 < m.log.outstanding := by
    rw [← hm.ops_length]
    exact length_pos_of_mem hop
  have hphase := hm.phase
  unfold PhaseInv at hphase
  cases hpc : m.pc with
  | running => rfl
  | writeLog t | writeHead | installTrans t | eraseHead | committed =>
    simp only [hpc] at hphase
    have := hphase.1.outstanding
    omega
  | readHead | recoverTrans t | recoverErase => simp only [hpc] at hphase

variable {m' : Machine}

section

variable (hm : LogInv start size d₀ h m)

include hm

/-- `begin_op`. -/
theorem LogInv.beginOp (hstep : m.step (.beginOp op) = some m') :
    LogInv start size d₀ (h.step (.beginOp op)) m' := by
  obtain ⟨hcond, hstep⟩ := Option.ite_none_right_eq_some.mp hstep
  obtain ⟨hpc, hcom, hfresh, -⟩ := hcond
  cases hstep
  have hphase := hm.phase
  simp only [PhaseInv, hpc] at hphase
  exact { hm with
    active_eq := by simp [History.step, hm.active_eq]
    ops_length := by simp [hm.ops_length]
    ops_nodup := nodup_cons.mpr ⟨fun hop => hfresh (hm.ops_begun op hop), hm.ops_nodup⟩
    ops_begun := by
      intro op' hop'
      rcases mem_cons.mp hop' with rfl | hop'
      · exact mem_cons_self
      · exact mem_cons_of_mem _ (hm.ops_begun op' hop')
    current_begun := fun u hu => mem_cons_of_mem _ (hm.current_begun u hu)
    closed_begun := by
      intro g hg u hu
      obtain ⟨hbegun, hnot⟩ := hm.closed_begun g hg u hu
      refine ⟨mem_cons_of_mem _ hbegun, fun hop => ?_⟩
      rcases mem_cons.mp hop with heq | hop
      · exact hfresh (heq ▸ hbegun)
      · exact hnot hop
    phase := by
      simp only [PhaseInv, hpc]
      exact hphase }

/-- A group that gains an update of an outstanding operation is still apart from the closed
groups. -/
theorem LogInv.unsplit_concat {u : Update} (hop : u.op ∈ m.ops) : Unsplit (h.closed ++ [h.current ++ [u]]) := by
  have hold := hm.unsplit
  unfold Unsplit at hold ⊢
  rw [pairwise_append] at hold ⊢
  refine ⟨hold.1, pairwise_singleton _ _, ?_⟩
  intro g hg g' hg' v hv w hw
  rw [mem_singleton] at hg'
  subst hg'
  rcases mem_append.mp hw with hw | hw
  · exact hold.2.2 g hg _ (mem_singleton_self _) v hv w hw
  · rw [mem_singleton] at hw
    subst hw
    intro heq
    exact (hm.closed_begun g hg v hv).2 (heq ▸ hop)

/-- `log_write`. -/
theorem LogInv.logWrite {op b : ℕ} {data : Block} (hb : IsHome start size b)
    (hstep : m.step (.logWrite op b data) = some m') :
    LogInv start size d₀ (h.step (.logWrite op b data)) m' := by
  obtain ⟨hcond, hstep⟩ := Option.ite_none_right_eq_some.mp hstep
  obtain ⟨hop, hlen, hsize, -⟩ := hcond
  have hpc := hm.running_of_mem hop
  -- the buffer is read before it is changed
  have hfill := hm.fill b
  cases hstep
  have hphase := hfill.phase
  simp only [PhaseInv, fill_pc, hpc] at hphase
  obtain ⟨hcom, hdirty, hhead, hholds, hheads⟩ := hphase
  have hmem : ∀ c, c ∈ m.log.lh ∨ c = b → c ∈ (if b ∈ m.log.lh then m.log.lh
      else m.log.lh ++ [b]) := by
    intro c hc
    split
    · next hin => rcases hc with hc | rfl <;> assumption
    · simpa using hc
  have hlh : ∀ c ∈ (if b ∈ m.log.lh then m.log.lh else m.log.lh ++ [b]),
      c ∈ m.log.lh ∨ c = b := by
    intro c hc
    split at hc
    · exact Or.inl hc
    · simpa using hc
  exact { hfill with
    current_begun := by
      intro u hu
      simp only [History.step, mem_append, mem_singleton] at hu
      rcases hu with hu | rfl
      · exact hfill.current_begun u hu
      · simpa [Machine.logWrite] using hm.ops_begun op hop
    unsplit := hm.unsplit_concat (u := ⟨op, b, data⟩) hop
    lh_home := by
      intro c hc
      simp only [Machine.logWrite, fill_log] at hc
      rcases hlh c hc with hc | rfl
      · exact hm.lh_home c hc
      · exact hb
    lh_length := by
      simp only [Machine.logWrite, fill_log]
      split
      · exact hm.lh_length
      · simp only [length_append, length_singleton]
        omega
    lh_size := by
      have hsz := hm.size_eq
      simp only [Machine.logWrite, fill_log]
      split
      · exact hm.lh_size
      · simp only [length_append, length_singleton]
        omega
    coherent := by
      intro c buf hc hd
      by_cases hcb : c = b
      · subst hcb
        simp only [Machine.logWrite, update_self] at hc
        cases hc
        cases hd
      · simp only [Machine.logWrite, update_of_ne hcb] at hc
        exact hfill.coherent c buf hc hd
    view := by
      intro c hc
      simp only [History.step]
      rw [diskAfter_concat_update]
      by_cases hcb : c = b
      · subst hcb
        simp [Machine.logWrite, bread]
      · rw [update_of_ne hcb, ← hfill.view c hc]
        simp [Machine.logWrite, bread, update_of_ne hcb]
    phase := by
      simp only [PhaseInv, Machine.logWrite, fill_pc, hpc]
      refine ⟨hcom, ?_, hhead, hholds, hheads⟩
      intro c buf hc hd
      have hcmem : c ∈ m.log.lh ∨ c = b := by
        by_cases hcb : c = b
        · exact Or.inr hcb
        · simp only [update_of_ne hcb] at hc
          obtain ⟨i, -, hi⟩ := hdirty c buf hc hd
          rw [fill_log] at hi
          exact Or.inl (mem_of_getElem? hi)
      obtain ⟨i, hi⟩ := mem_iff_getElem?.mp (hmem c hcmem)
      exact ⟨i, Nat.zero_le i, by simpa using hi⟩ }

/-- `end_op` while other operations remain outstanding. -/
theorem LogInv.leave (hop : op ∈ m.ops) :
    LogInv start size d₀ { h with active := h.active - 1 } (m.leave op) :=
  { hm with
    active_eq := by simp [Machine.leave, hm.active_eq]
    ops_length := by
      simp only [Machine.leave]
      rw [length_erase_of_mem hop, hm.ops_length]
    ops_nodup := hm.ops_nodup.erase op
    ops_begun := fun op' hop' => hm.ops_begun op' (mem_of_mem_erase hop')
    closed_begun := fun g hg u hu =>
      ⟨(hm.closed_begun g hg u hu).1, fun hmem =>
        (hm.closed_begun g hg u hu).2 (mem_of_mem_erase hmem)⟩
    phase := by
      have hpc := hm.running_of_mem hop
      have hphase := hm.phase
      simp only [PhaseInv, hpc] at hphase
      simp only [PhaseInv, Machine.leave, hpc]
      exact hphase }

/-- The place and the disk when `commit` starts on the group just closed. -/
theorem LogInv.startCommit_phase (hpc : m.pc = .running) (hzero : m.log.outstanding = 0) :
    PhaseInv start size d₀ h.close m.startCommit := by
  have hphase := hm.phase
  simp only [PhaseInv, hpc] at hphase
  obtain ⟨-, hdirty, hhead, hholds, hheads⟩ := hphase
  have hcommit : InCommit h.close m.startCommit := ⟨rfl, hzero, rfl, by simp [History.close]⟩
  by_cases hlh : 0 < m.log.lh.length
  · have hpc' : m.startCommit.pc = .writeLog 0 := by simp [Machine.startCommit, hlh]
    simp only [PhaseInv, hpc']
    refine ⟨hcommit, hlh, hdirty, hhead, ?_, ?_, ?_⟩
    · intro b hb
      have hk : (h.closed ++ [h.current]).length - 1 = h.closed.length := by simp
      simp only [History.close]
      rw [hk, take_left]
      exact (hholds b hb).trans (by rw [take_length])
    · intro i b hi
      omega
    · simpa [History.close] using hheads
  · -- nothing was logged: the group changes nothing
    have hnil : m.log.lh = [] := length_eq_zero_iff.mp (by omega)
    have hpc' : m.startCommit.pc = .committed := by simp [Machine.startCommit, hlh]
    simp only [PhaseInv, hpc']
    refine ⟨hcommit, hnil, hdirty, hhead, ?_, ?_⟩
    · intro b hb
      rw [take_length]
      have hread := hm.coherent.bread_eq_disk (b := b) hdirty (by simp [hnil])
      exact hread.symm.trans (hm.view b hb)
    · simp only [History.close, length_append, length_singleton]
      omega

/-- The last outstanding operation has ended: its group closes and `commit` starts. -/
theorem LogInv.startCommit (hpc : m.pc = .running) (hzero : m.log.outstanding = 0) :
    LogInv start size d₀ h.close m.startCommit :=
  { hm with
    active_eq := hzero.symm
    current_begun := by simp [History.close]
    closed_begun := by
      have hops : m.ops = [] := length_eq_zero_iff.mp (by rw [hm.ops_length, hzero])
      intro g hg u hu
      simp only [Machine.startCommit, hops, not_mem_nil, not_false_eq_true, and_true]
      rcases mem_append.mp hg with hg | hg
      · exact (hm.closed_begun g hg u hu).1
      · rw [mem_singleton] at hg
        subst hg
        exact hm.current_begun u hu
    unsplit := by
      unfold Unsplit
      rw [pairwise_append]
      refine ⟨hm.unsplit, pairwise_singleton _ _, ?_⟩
      intro g _ g' hg' u _ v hv
      rw [mem_singleton] at hg'
      subst hg'
      cases hv
    view := by
      intro b hb
      simp only [History.close, diskAfter_concat_nil]
      exact hm.view b hb
    phase := hm.startCommit_phase hpc hzero }

/-- `end_op`. -/
theorem LogInv.endOp (hstep : m.step (.endOp op) = some m') :
    LogInv start size d₀ (h.step (.endOp op)) m' := by
  obtain ⟨⟨hop, -⟩, hstep⟩ := Option.ite_none_right_eq_some.mp hstep
  have hleave := hm.leave hop
  have hactive := hleave.active_eq
  simp only at hactive
  split at hstep
  · next hzero =>
      cases hstep
      simp only [History.step]
      rw [if_pos (by omega)]
      exact hleave.startCommit (hm.running_of_mem hop) hzero
  · next hzero =>
      cases hstep
      simp only [History.step]
      rw [if_neg (by omega)]
      exact hleave

/-! ## Commit -/

/-- A sector write of `commit` that does not change what reading any home block returns. -/
theorem LogInv.bwrite {b k : ℕ} {data : Block} {pc : Pc}
    (hdata : IsHome start size b → data = m.bread b)
    (hphase : PhaseInv start size d₀ { h with heads := k } { m.bwrite b data with pc := pc }) :
    LogInv start size d₀ { h with heads := k } { m.bwrite b data with pc := pc } :=
  { hm with
    coherent := hm.coherent.bwrite b data
    view := by
      intro c hc
      refine Eq.trans ?_ (hm.view c hc)
      refine (bread_bwrite m b c data).trans ?_
      split
      · next hcb =>
          subst hcb
          exact hdata hc
      · rfl
    phase := hphase }

/-- In `commit` the last group is closed, so reading shows exactly the closed groups. -/
theorem LogInv.view_of_inCommit (hc : InCommit h m) {b : ℕ} (hb : IsHome start size b) :
    m.bread b = diskAfter d₀ h.closed b := by
  rw [hm.view b hb, hc.current, diskAfter_concat_nil]

/-- An iteration of `write_log`. -/
theorem LogInv.writeLog (hstep : m.step .writeLog = some m') : LogInv start size d₀ (h.step .writeLog) m' := by
  simp only [step] at hstep
  split at hstep
  next t hpc =>
    cases hstep
    have hfill := (hm.fill (m.log.start + t + 1)).fill (m.log.lh.getD t 0)
    have hphase := hfill.phase
    simp only [PhaseInv, fill_pc, hpc] at hphase
    obtain ⟨hc, ht, hdirty, hhead, hholds, hcopied, hheads⟩ := hphase
    simp only [fill_log] at ht
    have hnot := hm.entry_not_isHome ht
    have hsrc : m.log.lh[t]? = some (m.log.lh[t]) := getElem?_eq_getElem ht
    have hsrcHome : IsHome start size m.log.lh[t] := hm.lh_home _ (getElem_mem ht)
    simp only [History.step, writeLogEntry, getD_lh hsrc, hm.start_eq] at hfill hc hdirty ⊢
    generalize hm₁ : (m.fill (start + t + 1)).fill m.log.lh[t] = m₁ at *
    have hlog : m₁.log = m.log := by rw [← hm₁]; simp
    have hdisk : m₁.disk = m.disk := by rw [← hm₁]; simp
    have hne : ∀ b, IsHome start size b → b ≠ start + t + 1 := by
      rintro b hb rfl
      exact hnot hb
    refine hfill.bwrite (k := h.heads) (fun hb => absurd hb hnot) ?_
    -- the entry just copied, and those copied before
    have hcopied' : Copied start d₀ h (m₁.bwrite (start + t + 1) (m₁.bread m.log.lh[t]))
        (t + 1) := by
      intro i b hi hib
      simp only [Machine.bwrite, hlog] at hib ⊢
      by_cases hit : i = t
      · subst hit
        rw [update_self]
        rw [hsrc] at hib
        cases hib
        exact hfill.view_of_inCommit hc hsrcHome
      · rw [update_of_ne (by omega), hdisk]
        have := hcopied i b (by omega)
        simp only [fill_log, fill_disk] at this
        exact this hib
    have hhead' : decodeHead ((m₁.bwrite (start + t + 1) (m₁.bread m.log.lh[t])).disk start)
        = [] := by
      simp only [Machine.bwrite]
      rw [update_of_ne (by omega), hdisk]
      simpa using hhead
    have hholds' : Holds start size d₀ h (m₁.bwrite (start + t + 1) (m₁.bread m.log.lh[t]))
        (h.closed.length - 1) := by
      intro b hb
      simp only [Machine.bwrite]
      rw [update_of_ne (hne b hb), hdisk]
      simpa using hholds b hb
    by_cases hlast : t + 1 < m.log.lh.length
    · simp only [PhaseInv, nextEntry, hlast, ite_true]
      refine ⟨⟨hc.1, hc.2, hc.3, hc.4⟩, ?_, hdirty.bwrite _ _, hhead', hholds', hcopied',
        hheads⟩
      simpa [Machine.bwrite, hlog] using hlast
    · have hlen : m.log.lh.length = t + 1 := by omega
      simp only [PhaseInv, nextEntry, hlast, ite_false]
      refine ⟨⟨hc.1, hc.2, hc.3, hc.4⟩, ?_, hdirty.bwrite _ _, hhead', hholds', ?_, hheads⟩
      · simp [Machine.bwrite, hlog, hlen]
      · have hlen' : (m₁.bwrite (start + t + 1) (m₁.bread m.log.lh[t])).log.lh.length
            = t + 1 := by
          simp [Machine.bwrite, hlog, hlen]
        rw [hlen']
        exact hcopied'
  next => cases hstep

/-- The committing `write_head`: from here on the disk stands for the new group too. -/
theorem LogInv.writeHead (hstep : m.step .writeHead = some m') :
    LogInv start size d₀ (h.step .writeHead) m' := by
  obtain ⟨hpc, hstep⟩ := Option.ite_none_right_eq_some.mp hstep
  cases hstep
  have hfill := hm.fill m.log.start
  have hphase := hfill.phase
  simp only [PhaseInv, fill_pc, hpc] at hphase
  obtain ⟨hc, hlh, hdirty, -, -, hcopied, -⟩ := hphase
  simp only [fill_log] at hlh
  have hnot := hm.start_not_isHome hlh
  have hlt : ∀ c ∈ m.log.lh, c < 2 ^ 32 := fun c hcm => (hm.lh_home c hcm).1
  simp only [History.step, writeHeader, fill_log, hm.start_eq] at hfill hc hdirty hcopied ⊢
  refine hfill.bwrite (k := h.closed.length) (fun hb => absurd hb hnot) ?_
  simp only [PhaseInv]
  refine ⟨⟨hc.1, hc.2, hc.3, hc.4⟩, by simpa [Machine.bwrite] using hlh, hdirty.bwrite _ _,
    ?_, ?_, installed_zero, le_rfl⟩
  · simp only [Machine.bwrite, update_self, fill_log]
    exact decodeHead_encodeHead _ hlt hm.lh_length
  · intro i b hi hib
    simp only [Machine.bwrite, fill_log, fill_disk] at hi hib ⊢
    rw [update_of_ne (by omega)]
    simpa using hcopied i b (by simpa using hi) (by simpa using hib)

/-- While the header holds the group being installed, the disk stands for all closed groups. -/
theorem LogInv.recoverable (hc : InCommit h m) {t : ℕ} (hdirty : m.DirtyFrom t)
    (hcopied : Copied start d₀ h m m.log.lh.length) :
    Recoverable (IsHome start size) m.log.lh (fun i => m.disk (start + i + 1)) m.disk
      (diskAfter d₀ h.closed) where
  home_hdr := hm.lh_home
  off_hdr := by
    intro b hb hnot
    rw [← hm.view_of_inCommit hc hb, hm.coherent.bread_eq_disk hdirty hnot]
  copy_eq := fun i b hib => hcopied i b (List.getElem?_eq_some_iff.mp hib).1 hib

end

/-- Once entry `t` is written home, only later entries are dirty. -/
theorem DirtyFrom.bwrite_entry {t b : ℕ} (hm : m.DirtyFrom t) (ht : m.log.lh[t]? = some b)
    (data : Block) : (m.bwrite b data).DirtyFrom (t + 1) := by
  intro c buf hc hd
  obtain ⟨hcb, hc⟩ := dirty_bwrite hc hd
  obtain ⟨i, hi, hic⟩ := hm c buf hc hd
  refine ⟨i, ?_, hic⟩
  have hit : i ≠ t := by
    rintro rfl
    rw [ht] at hic
    exact hcb (Option.some.inj hic).symm
  omega

section

variable (hm : LogInv start size d₀ h m)

include hm

/-- An iteration of `install_trans` in `commit`. -/
theorem LogInv.installTrans (hstep : m.step .installTrans = some m') :
    LogInv start size d₀ (h.step .installTrans) m' := by
  simp only [step] at hstep
  split at hstep
  next t hpc =>
    cases hstep
    have hfill := (hm.fill (m.log.start + t + 1)).fill (m.log.lh.getD t 0)
    have hphase := hfill.phase
    simp only [PhaseInv, fill_pc, hpc] at hphase
    obtain ⟨hc, ht, hdirty, hhead, hcopied, hinst, hheads⟩ := hphase
    simp only [fill_log] at ht
    obtain ⟨b, hb⟩ : ∃ b, m.log.lh[t]? = some b := ⟨_, getElem?_eq_getElem ht⟩
    simp only [History.step, installEntry, getD_lh hb, hm.start_eq]
      at hfill hc hdirty hhead hcopied hinst ⊢
    generalize hm₁ : (m.fill (start + t + 1)).fill b = m₁ at *
    have hlog : m₁.log = m.log := by rw [← hm₁]; simp
    rw [← hlog] at hb ht
    have hbHome : IsHome start size b := hfill.lh_home b (mem_of_getElem? hb)
    have hrec := hfill.recoverable hc hdirty hcopied
    -- the log block read is the copy made by `write_log`
    have hread : m₁.bread (start + t + 1) = m₁.disk (start + t + 1) :=
      hfill.coherent.bread_eq_disk hdirty fun hmem =>
        hfill.entry_not_isHome ht (hfill.lh_home _ hmem)
    have hstart : start ≠ b := by
      rintro rfl
      exact hfill.start_not_isHome (by omega) hbHome
    have hentry : ∀ i, i < m₁.log.lh.length → start + i + 1 ≠ b := by
      rintro i hi rfl
      exact hfill.entry_not_isHome hi hbHome
    refine hfill.bwrite (k := h.heads) (fun _ => ?_) ?_
    · rw [hfill.view_of_inCommit hc hbHome, hread]
      exact hrec.copy_eq t b hb
    have hdirty' := hdirty.bwrite_entry hb (m₁.bread (start + t + 1))
    have hinst' := hrec.installed_succ hb hinst
    have hhead' : decodeHead ((m₁.bwrite b (m₁.bread (start + t + 1))).disk start)
        = m₁.log.lh := by
      simp only [Machine.bwrite]
      rw [update_of_ne hstart]
      exact hhead
    have hcopied' : Copied start d₀ h (m₁.bwrite b (m₁.bread (start + t + 1)))
        m₁.log.lh.length := by
      intro i c hi hic
      simp only [Machine.bwrite]
      rw [update_of_ne (hentry i hi)]
      exact hcopied i c hi hic
    rw [← hread] at hinst'
    simp only [nextEntry, ← hlog]
    by_cases hlast : t + 1 < m₁.log.lh.length
    · simp only [PhaseInv, hlast, ite_true]
      exact ⟨⟨hc.1, hc.2, hc.3, hc.4⟩, hlast, hdirty', hhead', hcopied', hinst', hheads⟩
    · have hlen : (m₁.bwrite b (m₁.bread (start + t + 1))).log.lh.length = t + 1 := by
        simp only [Machine.bwrite]
        omega
      simp only [PhaseInv, hlast, ite_false]
      refine ⟨⟨hc.1, hc.2, hc.3, hc.4⟩, by omega, ?_, hhead', hcopied', ?_, hheads⟩
      · rw [hlen]
        exact hdirty'
      · rw [hlen]
        exact hinst'
  next => cases hstep

/-- The erasing `write_head`: every block is installed, so the disk alone holds the group. -/
theorem LogInv.eraseHead (hstep : m.step .eraseHead = some m') :
    LogInv start size d₀ (h.step .eraseHead) m' := by
  obtain ⟨hpc, hstep⟩ := Option.ite_none_right_eq_some.mp hstep
  cases hstep
  have hphase := hm.phase
  simp only [PhaseInv, hpc] at hphase
  obtain ⟨hc, hlh, hdirty, hhead, hcopied, hinst, hheads⟩ := hphase
  have hrec := (hm.recoverable hc hdirty hcopied).erase le_rfl hinst
    (fun i => m.disk (start + i + 1))
  have hne : ∀ b, IsHome start size b → b ≠ start := by
    rintro b hb rfl
    exact hm.start_not_isHome hlh hb
  have hne' : ∀ b, IsHome start size b → b ≠ m.log.start := hm.start_eq ▸ hne
  exact {
    start_eq := by simpa using hm.start_eq
    size_eq := by simpa using hm.size_eq
    active_eq := by simpa [History.step] using hm.active_eq
    ops_length := by simpa using hm.ops_length
    ops_nodup := by simpa using hm.ops_nodup
    ops_begun := by simpa using hm.ops_begun
    current_begun := by simpa [History.step] using hm.current_begun
    closed_begun := by simpa [History.step] using hm.closed_begun
    unsplit := hm.unsplit
    lh_home := by simp
    lh_length := by simp
    lh_size := by simp
    coherent := hm.coherent.eraseLog
    view := fun b hb => (m.bread_eraseLog_of_ne (hne' b hb)).trans (hm.view b hb)
    phase := by
      simp only [PhaseInv, History.step]
      refine ⟨⟨?_, ?_, hc.3, hc.4⟩, by simp, ?_, ?_, ?_, hheads⟩
      · simpa using hc.committing
      · simpa using hc.outstanding
      · -- no entry of the header is left dirty
        intro b buf hb hd
        obtain ⟨i, hi, hib⟩ := hdirty b buf (eraseLog_dirty hb hd) hd
        have := (List.getElem?_eq_some_iff.mp hib).1
        omega
      · simpa [hm.start_eq] using m.decodeHead_eraseLog
      · intro b hb
        rw [take_length]
        exact (m.eraseLog_disk_of_ne (hne' b hb)).trans (hrec.eq_target hb) }

/-- The second critical section of `end_op`. -/
theorem LogInv.endCommit (hstep : m.step .endCommit = some m') :
    LogInv start size d₀ (h.step .endCommit) m' := by
  obtain ⟨hpc, hstep⟩ := Option.ite_none_right_eq_some.mp hstep
  cases hstep
  have hphase := hm.phase
  simp only [PhaseInv, hpc] at hphase
  obtain ⟨hc, -, hdirty, hhead, hholds, hheads⟩ := hphase
  exact { hm with
    phase := by
      simp only [PhaseInv]
      exact ⟨trivial, hdirty, hhead, hholds, hheads⟩ }

/-! ## Runs -/

/-- **The step lemma**: every event of normal operation keeps the invariant. -/
theorem LogInv.step {ev : Event} (hev : ev.Normal start size) (hstep : m.step ev = some m') :
    LogInv start size d₀ (h.step ev) m' := by
  cases ev with
  | beginOp op => exact hm.beginOp hstep
  | logWrite op b data => exact hm.logWrite hev hstep
  | endOp op => exact hm.endOp hstep
  | writeLog => exact hm.writeLog hstep
  | writeHead => exact hm.writeHead hstep
  | installTrans => exact hm.installTrans hstep
  | eraseHead => exact hm.eraseHead hstep
  | endCommit => exact hm.endCommit hstep
  | read b =>
    cases hstep
    exact hm.fill b
  | evict b =>
    simp only [Machine.step] at hstep
    split at hstep
    · next buf hb =>
        split at hstep
        · cases hstep
        · next hd =>
            cases hstep
            exact hm.evict hb (by simpa using hd)
    · cases hstep
  | crash | readHead | recoverTrans | recoverErase => exact hev.elim

end

/-- **The run lemma** of normal operation. -/
theorem LogInv.run (hm : LogInv start size d₀ (history []) m) {tr : List Event}
    (htr : ∀ ev ∈ tr, ev.Normal start size) (hrun : Runs.run Machine.step m tr = some m') :
    LogInv start size d₀ (history tr) m' := by
  have hinv := Runs.run_history
    (I := fun past s => (∀ ev ∈ past, ev.Normal start size) →
      LogInv start size d₀ (history past) s)
    (fun past s ev s' hstep hpast hall => by
      rw [history_concat]
      exact (hpast fun e he => hall e (mem_append_left _ he)).step
        (hall ev (by simp)) hstep)
    hrun (fun _ => hm)
  exact hinv htr

end Machine
