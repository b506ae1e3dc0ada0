/-
# What the disk stands for while the log runs

The history of a run is read off its events alone: an operation's updates join the group
being collected, the group is closed by the `end_op` that leaves no operation outstanding,
and a group is durable from its first `write_head` on.  `LogInv` relates the machine to the
history, phase by phase of `commit`; `RecoverInv` is the invariant of recovery.  In every
phase the disk alone is `RedoLog.Recoverable` to the disk after some number of groups, and
this is all a crash needs.
-/
import Xv6.Log
import Xv6.RedoLog

open Function RedoLog

/-! ## Histories -/

/-- One `log_write`: the operation, the block and its new contents. -/
structure Update where
  op : ℕ
  blockno : ℕ
  data : Block

/-- What a run has logged so far. -/
structure History where
  /-- The commit groups, oldest first. -/
  closed : List (List Update)
  /-- The updates of the group being collected. -/
  current : List Update
  /-- The number of operations between their `begin_op` and their `end_op`. -/
  active : ℕ
  /-- The number of groups closed when the last committing `write_head` completed. -/
  heads : ℕ

/-- The group being collected becomes the last commit group. -/
def History.close (h : History) : History :=
  { h with closed := h.closed ++ [h.current], current := [], active := 0 }

/-- The history after one more event. -/
def History.step (h : History) : Event → History
  | .beginOp _ => { h with active := h.active + 1 }
  | .logWrite op b data => { h with current := h.current ++ [⟨op, b, data⟩] }
  | .endOp _ =>
    if h.active - 1 = 0 then h.close else { h with active := h.active - 1 }
  | .writeHead => { h with heads := h.closed.length }
  | _ => h

/-- The history of a run. -/
def history (tr : List Event) : History := tr.foldl History.step ⟨[], [], 0, 0⟩

theorem history_concat (tr : List Event) (ev : Event) :
    history (tr ++ [ev]) = (history tr).step ev := by
  unfold history
  rw [List.foldl_concat]

/-- The disk after some commit groups: their updates in the order they were logged. -/
def diskAfter (d : Disk) (gs : List (List Update)) : Disk :=
  applyWrites (gs.flatten.map fun u => (u.blockno, u.data)) d

@[simp] theorem diskAfter_nil (d : Disk) : diskAfter d [] = d := rfl

/-- A group without updates changes nothing. -/
theorem diskAfter_concat_nil (d : Disk) (gs : List (List Update)) :
    diskAfter d (gs ++ [[]]) = diskAfter d gs := by
  unfold diskAfter
  simp

/-- One more update in the last group. -/
theorem diskAfter_concat_update (d : Disk) (gs : List (List Update)) (g : List Update)
    (u : Update) :
    diskAfter d (gs ++ [g ++ [u]]) =
      update (diskAfter d (gs ++ [g])) u.blockno u.data := by
  simp [diskAfter, applyWrites_append]
  rfl

/-! ## Home blocks -/

/-- A block number outside the log area. -/
def IsHome (start size b : ℕ) : Prop := b < 2 ^ 32 ∧ (b < start ∨ start + size ≤ b)

/-- Events of normal operation.  The file system only logs home blocks: inode blocks, bitmap
blocks and data blocks. -/
def Event.Normal (start size : ℕ) : Event → Prop
  | .logWrite _ b _ => IsHome start size b
  | .crash => False
  | .readHead => False
  | .recoverTrans => False
  | .recoverErase => False
  | _ => True

/-- Events of a reboot: recovery, cache traffic and further crashes. -/
def Event.Recovery : Event → Prop
  | .read _ => True
  | .evict _ => True
  | .crash => True
  | .readHead => True
  | .recoverTrans => True
  | .recoverErase => True
  | _ => False

namespace Machine

/-! ## The cache -/

/-- Clean buffers hold what the disk holds. -/
def Coherent (m : Machine) : Prop :=
  ∀ b buf, m.cache b = some buf → buf.dirty = false → buf.data = m.disk b

/-- Only entries of the header from `t` on have a dirty buffer. -/
def DirtyFrom (m : Machine) (t : ℕ) : Prop :=
  ∀ b buf, m.cache b = some buf → buf.dirty = true → ∃ i, t ≤ i ∧ m.log.lh[i]? = some b

theorem fill_eq (m : Machine) (b : ℕ) : ∃ c, m.fill b = { m with cache := c } := by
  unfold fill
  split
  · exact ⟨m.cache, rfl⟩
  · exact ⟨_, rfl⟩

@[simp] theorem fill_disk (m : Machine) (b : ℕ) : (m.fill b).disk = m.disk := by
  obtain ⟨c, hc⟩ := m.fill_eq b
  rw [hc]

@[simp] theorem fill_log (m : Machine) (b : ℕ) : (m.fill b).log = m.log := by
  obtain ⟨c, hc⟩ := m.fill_eq b
  rw [hc]

@[simp] theorem fill_ops (m : Machine) (b : ℕ) : (m.fill b).ops = m.ops := by
  obtain ⟨c, hc⟩ := m.fill_eq b
  rw [hc]

@[simp] theorem fill_begun (m : Machine) (b : ℕ) : (m.fill b).begun = m.begun := by
  obtain ⟨c, hc⟩ := m.fill_eq b
  rw [hc]

@[simp] theorem fill_pc (m : Machine) (b : ℕ) : (m.fill b).pc = m.pc := by
  obtain ⟨c, hc⟩ := m.fill_eq b
  rw [hc]

variable {m : Machine} {b c : ℕ} {buf : Buf}

/-- The buffers after `bread`: those before it, and a clean copy of the block read. -/
theorem fill_cache (h : (m.fill b).cache c = some buf) :
    m.cache c = some buf ∨ (buf.data = m.disk c ∧ buf.dirty = false) := by
  unfold fill at h
  split at h
  · exact Or.inl h
  · by_cases hcb : c = b
    · subst hcb
      simp only [update_self] at h
      cases h
      exact Or.inr ⟨rfl, rfl⟩
    · simp only [update_of_ne hcb] at h
      exact Or.inl h

/-- Reading one block does not change what reading any block returns. -/
@[simp] theorem bread_fill (m : Machine) (b c : ℕ) : (m.fill b).bread c = m.bread c := by
  unfold fill
  split
  · rfl
  · next h =>
      by_cases hcb : c = b
      · subst hcb
        simp [bread, h]
      · simp [bread, update_of_ne hcb]

theorem Coherent.fill (hm : m.Coherent) (b : ℕ) : (m.fill b).Coherent := by
  intro c buf hc hd
  rw [fill_disk]
  rcases fill_cache hc with h | h
  · exact hm c buf h hd
  · exact h.1

theorem DirtyFrom.fill {t : ℕ} (hm : m.DirtyFrom t) (b : ℕ) :
    (m.fill b).DirtyFrom t := by
  intro c buf hc hd
  rw [fill_log]
  rcases fill_cache hc with h | h
  · exact hm c buf h hd
  · rw [h.2] at hd
    exact absurd hd (by simp)

/-- Reading a block without a dirty buffer returns what the disk holds. -/
theorem Coherent.bread_eq_disk (hm : m.Coherent) {t b : ℕ} (hdirty : m.DirtyFrom t)
    (hb : b ∉ m.log.lh) : m.bread b = m.disk b := by
  unfold bread
  cases hc : m.cache b with
  | none => rfl
  | some buf =>
    cases hd : buf.dirty with
    | false => exact hm b buf hc hd
    | true =>
      obtain ⟨i, _, hi⟩ := hdirty b buf hc hd
      exact absurd (List.mem_of_getElem? hi) hb

@[simp] theorem bread_bwrite (m : Machine) (b c : ℕ) (data : Block) :
    (m.bwrite b data).bread c = if c = b then data else m.bread c := by
  by_cases hcb : c = b
  · subst hcb
    simp [bread, bwrite]
  · simp [bread, bwrite, hcb]

theorem Coherent.bwrite (hm : m.Coherent) (b : ℕ) (data : Block) :
    (m.bwrite b data).Coherent := by
  intro c buf hc hd
  by_cases hcb : c = b
  · subst hcb
    simp only [Machine.bwrite, update_self] at hc ⊢
    cases hc
    rfl
  · simp only [Machine.bwrite, update_of_ne hcb] at hc ⊢
    exact hm c buf hc hd

/-- `bwrite` cleans the buffer it writes and leaves the others. -/
theorem dirty_bwrite {data : Block} (hc : (m.bwrite b data).cache c = some buf)
    (hd : buf.dirty = true) :
    c ≠ b ∧ m.cache c = some buf := by
  by_cases hcb : c = b
  · subst hcb
    simp only [Machine.bwrite, update_self] at hc
    cases hc
    exact absurd hd (by simp)
  · simp only [Machine.bwrite, update_of_ne hcb] at hc
    exact ⟨hcb, hc⟩

theorem DirtyFrom.bwrite {t : ℕ} (hm : m.DirtyFrom t) (b : ℕ) (data : Block) :
    (m.bwrite b data).DirtyFrom t := fun c buf hc hd =>
  hm c buf (dirty_bwrite hc hd).2 hd

@[simp] theorem eraseLog_log (m : Machine) : m.eraseLog.log = { m.log with lh := [] } := by
  simp [eraseLog, writeHeader, Machine.bwrite]

@[simp] theorem eraseLog_ops (m : Machine) : m.eraseLog.ops = m.ops := by
  simp [eraseLog, writeHeader, Machine.bwrite]

@[simp] theorem eraseLog_begun (m : Machine) : m.eraseLog.begun = m.begun := by
  simp [eraseLog, writeHeader, Machine.bwrite]

variable {b : ℕ}

/-- Erasing the log writes the header block only. -/
theorem eraseLog_disk_of_ne (m : Machine) (hb : b ≠ m.log.start) :
    m.eraseLog.disk b = m.disk b := by
  simp [eraseLog, writeHeader, Machine.bwrite, update_of_ne hb]

/-- The header is empty once the log is erased. -/
@[simp] theorem decodeHead_eraseLog (m : Machine) :
    decodeHead (m.eraseLog.disk m.log.start) = [] := by
  simp only [eraseLog, writeHeader, Machine.bwrite, fill_log, update_self]
  exact decodeHead_encodeHead _ (by simp) (by simp)

theorem bread_eraseLog_of_ne (m : Machine) (hb : b ≠ m.log.start) :
    m.eraseLog.bread b = m.bread b := by
  simp only [eraseLog, writeHeader, fill_log, bread_bwrite, hb, ite_false, bread_fill]
  rfl

theorem Coherent.eraseLog (hm : m.Coherent) : m.eraseLog.Coherent := by
  have hlog : ({ m with log := { m.log with lh := [] } } : Machine).Coherent := hm
  exact (hlog.fill _).bwrite _ _

/-- Erasing the log makes no buffer dirty. -/
theorem eraseLog_dirty (hb : m.eraseLog.cache b = some buf) (hd : buf.dirty = true) : m.cache b = some buf := by
  rcases fill_cache (dirty_bwrite hb hd).2 with hb | hb
  · exact hb
  · rw [hb.2] at hd
    cases hd

/-- The buffers left after one is recycled. -/
theorem evict_cache (h : update m.cache b none c = some buf) : m.cache c = some buf := by
  by_cases hcb : c = b
  · subst hcb
    rw [update_self] at h
    cases h
  · rwa [update_of_ne hcb] at h

/-- The block a loop over the header reads is the entry it stands at. -/
theorem getD_lh {t b : ℕ} (h : m.log.lh[t]? = some b) : m.log.lh.getD t 0 = b := by
  rw [List.getD_eq_getElem?_getD, h, Option.getD_some]

/-! ## The invariant of normal operation -/

/-- The disk holds the first `k` groups at every home block. -/
def Holds (start size : ℕ) (d₀ : Disk) (h : History) (m : Machine) (k : ℕ) : Prop :=
  ∀ b, IsHome start size b → m.disk b = diskAfter d₀ (h.closed.take k) b

/-- The first `t` entries of the header are in the log area. -/
def Copied (start : ℕ) (d₀ : Disk) (h : History) (m : Machine) (t : ℕ) : Prop :=
  ∀ i b, i < t → m.log.lh[i]? = some b → m.disk (start + i + 1) = diskAfter d₀ h.closed b

/-- What a process in `commit` can rely on: no operation is outstanding, and the group it
commits is the last one closed. -/
structure InCommit (h : History) (m : Machine) : Prop where
  committing : m.log.committing = true
  outstanding : m.log.outstanding = 0
  current : h.current = []
  closed : 0 < h.closed.length

/-- The part of the invariant that depends on the place `commit` has reached. -/
def PhaseInv (start size : ℕ) (d₀ : Disk) (h : History) (m : Machine) : Prop :=
  match m.pc with
  | .running =>
    m.log.committing = false ∧ m.DirtyFrom 0 ∧ decodeHead (m.disk start) = [] ∧
      Holds start size d₀ h m h.closed.length ∧ h.heads ≤ h.closed.length
  | .writeLog t =>
    InCommit h m ∧ t < m.log.lh.length ∧ m.DirtyFrom 0 ∧ decodeHead (m.disk start) = [] ∧
      Holds start size d₀ h m (h.closed.length - 1) ∧ Copied start d₀ h m t ∧
      h.heads ≤ h.closed.length - 1
  | .writeHead =>
    InCommit h m ∧ 0 < m.log.lh.length ∧ m.DirtyFrom 0 ∧ decodeHead (m.disk start) = [] ∧
      Holds start size d₀ h m (h.closed.length - 1) ∧
      Copied start d₀ h m m.log.lh.length ∧ h.heads ≤ h.closed.length - 1
  | .installTrans t =>
    InCommit h m ∧ t < m.log.lh.length ∧ m.DirtyFrom t ∧
      decodeHead (m.disk start) = m.log.lh ∧ Copied start d₀ h m m.log.lh.length ∧
      Installed m.log.lh t m.disk (diskAfter d₀ h.closed) ∧ h.heads ≤ h.closed.length
  | .eraseHead =>
    InCommit h m ∧ 0 < m.log.lh.length ∧ m.DirtyFrom m.log.lh.length ∧
      decodeHead (m.disk start) = m.log.lh ∧ Copied start d₀ h m m.log.lh.length ∧
      Installed m.log.lh m.log.lh.length m.disk (diskAfter d₀ h.closed) ∧
      h.heads ≤ h.closed.length
  | .committed =>
    InCommit h m ∧ m.log.lh = [] ∧ m.DirtyFrom 0 ∧ decodeHead (m.disk start) = [] ∧
      Holds start size d₀ h m h.closed.length ∧ h.heads ≤ h.closed.length
  | _ => False

/-- The updates of one operation lie in one group. -/
def Unsplit (gs : List (List Update)) : Prop :=
  gs.Pairwise fun g g' => ∀ u ∈ g, ∀ v ∈ g', u.op ≠ v.op

/-- **The invariant of normal operation** on a disk that started as `d₀`. -/
structure LogInv (start size : ℕ) (d₀ : Disk) (h : History) (m : Machine) : Prop where
  start_eq : m.log.start = start
  size_eq : m.log.size = size
  active_eq : h.active = m.log.outstanding
  ops_length : m.ops.length = m.log.outstanding
  ops_nodup : m.ops.Nodup
  ops_begun : ∀ op ∈ m.ops, op ∈ m.begun
  current_begun : ∀ u ∈ h.current, u.op ∈ m.begun
  closed_begun : ∀ g ∈ h.closed, ∀ u ∈ g, u.op ∈ m.begun ∧ u.op ∉ m.ops
  unsplit : Unsplit (h.closed ++ [h.current])
  lh_home : ∀ b ∈ m.log.lh, IsHome start size b
  lh_length : m.log.lh.length ≤ LOGSIZE
  lh_size : 0 < m.log.lh.length → m.log.lh.length < size
  coherent : m.Coherent
  /-- Reading through the cache shows every update logged so far. -/
  view : ∀ b, IsHome start size b → m.bread b = diskAfter d₀ (h.closed ++ [h.current]) b
  phase : PhaseInv start size d₀ h m

end Machine
