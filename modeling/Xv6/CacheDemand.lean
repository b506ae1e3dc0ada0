/-
# How many buffers the operations need

The buffer cache (`Bcache`) and the protocol of the log (`LogProtocol`) as one machine.  A process in
an operation has at most two buffers at a time; it reads them with `bread`, changes them and calls
`log_write`, and gives them back before `end_op`.  The process that commits goes through `write_log`,
`write_head`, `install_trans` and `write_head`, one action of the cache after the other.

A buffer is not available to `bget` if it has a reference or is dirty.  The dirty buffers are those
of the blocks that have been logged and that `commit` has not yet written, so that what is not
available is a matter of block numbers: the blocks pinned by the log, and those of the buffers in
use (`demand`).
-/
import Xv6.Bcache
import Xv6.LogProtocol

open Function List Option

namespace CacheDemand

open Bcache (NBUF)

/-! ## The machine -/

/-- The device of the file system. -/
abbrev ROOTDEV : ℕ := 1

/-- A process has at most two buffers at a time. -/
abbrev Ref (P : Type) : Type := P × Fin 2

/-- What a process does with its buffer `k`. -/
inductive Act where
  /-- The critical section of `bget`. -/
  | bget (k : Fin 2) (blockno : ℕ)
  /-- `acquiresleep` in `bget`. -/
  | lock (k : Fin 2)
  /-- The rest of `bread`. -/
  | fill (k : Fin 2)
  | bwrite (k : Fin 2)
  /-- `releasesleep` in `brelse`. -/
  | unlock (k : Fin 2)
  /-- The critical section of `brelse`. -/
  | put (k : Fin 2)
deriving DecidableEq

def Act.ref : Act → Fin 2
  | .bget k _ | .lock k | .fill k | .bwrite k | .unlock k | .put k => k

def bread (k : Fin 2) (blockno : ℕ) : List Act := [.bget k blockno, .lock k, .fill k]

def brelse (k : Fin 2) : List Act := [.unlock k, .put k]

/-- `write_log`; `start` is the first block of the log. -/
def writeLog (start : ℕ) (lh : List ℕ) : List Act :=
  lh.zipIdx.flatMap fun (n, tail) =>
    bread 0 (start + tail + 1) ++ bread 1 n ++ [.bwrite 0] ++ brelse 1 ++ brelse 0

def writeHead (start : ℕ) : List Act := bread 0 start ++ [.bwrite 0] ++ brelse 0

/-- `install_trans`. -/
def installTrans (start : ℕ) (lh : List ℕ) : List Act :=
  lh.zipIdx.flatMap fun (n, tail) =>
    bread 0 (start + tail + 1) ++ bread 1 n ++ [.bwrite 1] ++ brelse 0 ++ brelse 1

/-- `commit()`. -/
def commit (start : ℕ) (lh : List ℕ) : List Act :=
  if lh = [] then []
  else writeLog start lh ++ writeHead start ++ installTrans start lh ++ writeHead start

/-- The log and the cache, what is left of `commit()`, the blocks that it has written, and whether
`bget` has panicked with "bget: no buffers". -/
structure State (P : Type) where
  log : LogProtocol.State P
  cache : Bcache.State (Ref P)
  todo : List Act
  written : Finset ℕ
  dry : Bool

inductive Event (P : Type) where
  | begin (p : P)
  | retry (p : P)
  | kill (p : P)
  /-- `p` uses the cache in its operation. -/
  | use (p : P) (a : Act)
  /-- `p` calls `log_write` for its buffer `k`. -/
  | check (p : P) (k : Fin 2)
  /-- The critical section of `log_write`; the buffer holds `data` now. -/
  | append (p : P) (k : Fin 2) (data : Block)
  | finish (p : P)
  /-- The next action of `commit()`; if it is `bwrite`, the buffer holds `data` now. -/
  | act (p : P) (data : Block)
  /-- `commit()` is done. -/
  | commit (p : P)
  | leave (p : P)

/-- The block of a reference. -/
def block {R : Type} (c : Bcache.State R) (r : R) : Option ℕ :=
  (c.use r).buf.map fun b => (c.buf b).blockno

namespace State

variable {P : Type} [DecidableEq P]

/-- After `initlog`, which has left the blocks it has read in the cache. -/
def init (cache : Bcache.State (Ref P)) (size : ℕ) : State P :=
  ⟨.init size, cache, [], ∅, false⟩

def withLog (s : State P) (l : LogProtocol.State P) : State P := { s with log := l }

def withCache (s : State P) (c : Bcache.State (Ref P)) : State P := { s with cache := c }

/-- An action of `p`. -/
def perform (s : State P) (p : P) (data : Block) : Act → Option (State P)
  | .bget k n =>
    if s.cache.use (p, k) = .out then
      match s.cache.bget (p, k) ROOTDEV n with
      | some c => some (s.withCache c)
      | none => some { s with dry := true }
    else none
  | .lock k => (s.cache.step (.lock (p, k))).map s.withCache
  | .fill k => (s.cache.step (.fill (p, k))).map s.withCache
  | .bwrite k =>
    (s.cache.step (.bwrite (p, k) data)).map fun c =>
      { s with cache := c, written := s.written ∪ (block s.cache (p, k)).toFinset }
  | .unlock k => (s.cache.step (.unlock (p, k))).map s.withCache
  | .put k => (s.cache.step (.put (p, k))).map s.withCache

/-- An operation does not call `bwrite`, and it does one thing at a time. -/
def Allowed (s : State P) (p : P) (a : Act) : Prop :=
  a ≠ .bwrite a.ref ∧
    match s.cache.use (p, a.ref.rev) with
    | .out | .holding _ => True
    | _ => False

instance (s : State P) (p : P) (a : Act) : Decidable (s.Allowed p a) := by
  unfold Allowed
  have : ∀ u : Bcache.Use, Decidable (match u with | .out | .holding _ => True | _ => False) := by
    intro u
    cases u <;> infer_instance
  infer_instance

/-- **The steps**; `none` when a step is not possible. -/
def step (start : ℕ) (s : State P) (e : Event P) : Option (State P) :=
  if s.dry = false ∧ s.log.panicked = none then
    match e with
    | .begin p => (s.log.step (.begin p)).map s.withLog
    | .retry p => (s.log.step (.retry p)).map s.withLog
    | .kill p => (s.log.step (.kill p)).map s.withLog
    | .use p a => if s.log.pc p = .inOp ∧ s.Allowed p a then s.perform p .zero a else none
    | .check p k =>
      match s.cache.use (p, k) with
      | .holding b => (s.log.step (.check p (s.cache.buf b).blockno)).map s.withLog
      | _ => none
    | .append p k data =>
      match s.cache.use (p, k) with
      | .holding b =>
        if s.log.pc p = .checked (s.cache.buf b).blockno then
          (s.log.step (.append p)).map fun l =>
            { s with log := l, cache := s.cache.logWrite b data }
        else none
      | _ => none
    | .finish p =>
      if ∀ k, s.cache.use (p, k) = .out then
        (s.log.step (.finish p)).map fun l =>
          { s with log := l, todo := CacheDemand.commit start s.log.log.lh }
      else none
    | .act p data =>
      match s.todo with
      | a :: rest =>
        if s.log.pc p = .commit then
          (s.perform p data a).map fun s => { s with todo := rest }
        else none
      | [] => none
    | .commit p =>
      if s.todo = [] then
        (s.log.step (.commit p)).map fun l => { s with log := l, written := ∅ }
      else none
    | .leave p => (s.log.step (.leave p)).map s.withLog
  else none

end State

/-! ## The dirty buffers -/

section Cache

variable {R : Type} {c c' : Bcache.State R} {Q : Set ℕ} {r : R} {b : Fin NBUF} {n : ℕ}

/-- **The dirty buffers are those of the blocks in `Q`**; every buffer in use is one of the file
system. -/
structure Pins (c : Bcache.State R) (Q : Set ℕ) : Prop where
  inv : c.Inv
  device : ∀ r b, (c.use r).buf = some b → (c.buf b).dev = ROOTDEV
  holding : ∀ r b, c.use r = .holding b → (c.buf b).valid = true
  dirty : ∀ b, (c.buf b).dirty = true →
    (c.buf b).valid = true ∧ (c.buf b).dev = ROOTDEV ∧ (c.buf b).blockno ∈ Q
  pinned : ∀ n ∈ Q, ∃ b, (c.buf b).dev = ROOTDEV ∧ (c.buf b).blockno = n ∧ (c.buf b).dirty = true

/-- Buffers keep their blocks, and stay valid and dirty. -/
def Kept (c c' : Bcache.State R) : Prop :=
  ∀ b, (c'.buf b).dev = (c.buf b).dev ∧ (c'.buf b).blockno = (c.buf b).blockno ∧
    (c'.buf b).dirty = (c.buf b).dirty ∧ ((c.buf b).valid = true → (c'.buf b).valid = true)

/-- Buffers in use and dirty ones keep their blocks. -/
theorem Pins.kept (h : Pins c Q) (hinv : c'.Inv)
    (hkept : ∀ b, (∃ r, (c.use r).buf = some b) ∨ (c.buf b).dirty = true →
      (c'.buf b).dev = (c.buf b).dev ∧ (c'.buf b).blockno = (c.buf b).blockno ∧
      (c'.buf b).dirty = (c.buf b).dirty ∧ ((c.buf b).valid = true → (c'.buf b).valid = true))
    (hdirty : ∀ b, (c'.buf b).dirty = true → (c.buf b).dirty = true)
    (huse : ∀ r b, (c'.use r).buf = some b → (c.use r).buf = some b ∨ (c'.buf b).dev = ROOTDEV)
    (hholding : ∀ r b, c'.use r = .holding b → c.use r = .holding b ∨ (c'.buf b).valid = true) :
    Pins c' Q := by
  refine ⟨hinv, fun r b hb => ?_, fun r b hb => ?_, fun b hb => ?_, fun n hn => ?_⟩
  · rcases huse r b hb with hold | hdev
    · rw [(hkept b (Or.inl ⟨r, hold⟩)).1]
      exact h.device r b hold
    · exact hdev
  · rcases hholding r b hb with hold | hvalid
    · exact (hkept b (Or.inl ⟨r, by rw [hold]; rfl⟩)).2.2.2 (h.holding r b hold)
    · exact hvalid
  · obtain ⟨hdev, hblockno, -, hvalid⟩ := hkept b (Or.inr (hdirty b hb))
    obtain ⟨hv, hd, hn⟩ := h.dirty b (hdirty b hb)
    rw [hdev, hblockno]
    exact ⟨hvalid hv, hd, hn⟩
  · obtain ⟨b, hd, hb, hdirty⟩ := h.pinned n hn
    obtain ⟨hdev, hblockno, hdirty', -⟩ := hkept b (Or.inr hdirty)
    exact ⟨b, hdev.trans hd, hblockno.trans hb, hdirty'.trans hdirty⟩

/-- A block of the file system has one buffer. -/
theorem Pins.same (h : Pins c Q) {b b' : Fin NBUF} (hb : (c.buf b).dev = ROOTDEV)
    (hb' : (c.buf b').dev = ROOTDEV) (hn : (c.buf b').blockno = (c.buf b).blockno) : b' = b := by
  refine h.inv.unique b' b ?_ (hb'.trans hb.symm) hn
  rw [hb']
  decide

/-- A buffer that has a reference has the block of the reference. -/
theorem block_eq_some : block c r = some n ↔ ∃ b, (c.use r).buf = some b ∧ (c.buf b).blockno = n := by
  unfold block
  rw [map_eq_some_iff]

theorem block_of_buf (h : (c.use r).buf = some b) : block c r = some (c.buf b).blockno :=
  block_eq_some.mpr ⟨b, h, rfl⟩

/-- References that stay where they are keep their blocks. -/
theorem block_congr (hbuf : (c'.use r).buf = (c.use r).buf)
    (hblockno : ∀ b, (c.use r).buf = some b → (c'.buf b).blockno = (c.buf b).blockno) :
    block c' r = block c r := by
  unfold block
  rw [hbuf]
  exact map_congr hblockno

variable [DecidableEq R]

/-- A reference moves on with its buffer. -/
theorem Pins.move {u : Bcache.Use} (h : Pins c Q) (hinv : c'.Inv) (hkept : Kept c c')
    (huse : c'.use = update c.use r u) (hu : u.buf = (c.use r).buf)
    (hholding : ∀ b, u = .holding b → (c'.buf b).valid = true) : Pins c' Q ∧ block c' = block c := by
  have hbuf : ∀ r', (c'.use r').buf = (c.use r').buf := by
    intro r'
    rw [huse, update_apply]
    split
    next hr' => rw [hr', hu]
    next => rfl
  refine ⟨h.kept hinv (fun b _ => hkept b) (fun b hb => by rwa [(hkept b).2.2.1] at hb)
    (fun r' b hr' => Or.inl (by rwa [hbuf] at hr')) (fun r' b hr' => ?_), funext fun r' => ?_⟩
  · rw [huse, update_apply] at hr'
    split at hr'
    · exact Or.inr (hholding b hr')
    · exact Or.inl hr'
  · exact block_congr (hbuf r') fun b _ => (hkept b).2.1

/-- A reference goes on with its buffer; `bread` reads a buffer that is not valid, and such a buffer is not
dirty. -/
theorem Pins.goOn {e : Bcache.Event R} (h : Pins c Q) (he : e = .lock r ∨ e = .fill r ∨ e = .unlock r)
    (hstep : c.step e = some c') : Pins c' Q ∧ block c' = block c := by
  have hinv := h.inv.step hstep
  cases h.inv.steps hstep with
  | @lock _ b hb | @unlock _ b hb =>
    refine h.move hinv (fun b' => ?_) rfl (by rw [hb]; rfl) (by simp)
    by_cases hb' : b' = b <;> simp [hb']
  | @fill _ b hb =>
    obtain ⟨hkept, hvalid, huse⟩ : Kept c (c.fill b) ∧ ((c.fill b).buf b).valid = true ∧
        (c.fill b).use = c.use := by
      unfold Bcache.State.fill
      split
      next hvalid => exact ⟨fun _ => ⟨rfl, rfl, rfl, id⟩, hvalid, rfl⟩
      next hvalid =>
        have hclean : ¬ (c.buf b).dirty = true := fun hdirty => hvalid (h.dirty b hdirty).1
        unfold Bcache.State.iderw
        rw [if_neg hclean]
        refine ⟨fun b' => ?_, by simp, rfl⟩
        by_cases hb' : b' = b <;> simp [hb']
    refine h.move hinv hkept (by rw [← huse]; rfl) (by rw [hb]; rfl) ?_
    rintro b' heq
    cases heq
    exact hvalid
  | hit | miss | bwrite | logWrite | put => simp at he

theorem Pins.put (h : Pins c Q) (hstep : c.step (.put r) = some c') :
    Pins c' Q ∧ block c' = update (block c) r none := by
  have hinv := h.inv.step hstep
  cases h.inv.steps hstep with
  | @put _ b hb =>
    have hkept : Kept c ((c.put b).goto r .out) := by
      intro b'
      by_cases hb' : b' = b <;> simp [hb']
    have huse : ∀ r', ((c.put b).goto r .out).use r' = if r' = r then .out else c.use r' := by simp
    refine ⟨h.kept hinv (fun b _ => hkept b) (fun b hb => by rwa [(hkept b).2.2.1] at hb)
      (fun r' b' hr' => ?_) (fun r' b' hr' => ?_), funext fun r' => ?_⟩
    · rw [huse] at hr'
      split at hr'
      · cases hr'
      · exact Or.inl hr'
    · rw [huse] at hr'
      split at hr'
      · cases hr'
      · exact Or.inl hr'
    · rw [update_apply]
      split
      next hr' =>
        unfold block
        rw [huse, if_pos hr']
        rfl
      next hr' => exact block_congr (by rw [huse, if_neg hr']) fun b' _ => (hkept b').2.1

omit [DecidableEq R] in
/-- **The holder of a buffer makes it dirty or clean.** -/
theorem Pins.mark {Q' : Set ℕ} (h : Pins c Q) (hinv : c'.Inv) (hb : (c.buf b).dev = ROOTDEV)
    (huse : c'.use = c.use) (hothers : ∀ b', b' ≠ b → c'.buf b' = c.buf b')
    (hdev : (c'.buf b).dev = (c.buf b).dev) (hblockno : (c'.buf b).blockno = (c.buf b).blockno)
    (hvalid : (c'.buf b).valid = true)
    (hQ : ∀ m, m ∈ Q' ↔ if m = (c.buf b).blockno then (c'.buf b).dirty = true else m ∈ Q) :
    Pins c' Q' ∧ block c' = block c := by
  refine ⟨⟨hinv, fun r b' hr => ?_, fun r b' hr => ?_, fun b' hd => ?_, fun m hm => ?_⟩,
    funext fun r => ?_⟩
  · rw [huse] at hr
    by_cases hb' : b' = b
    · rw [hb', hdev, hb]
    · rw [hothers b' hb']
      exact h.device r b' hr
  · rw [huse] at hr
    by_cases hb' : b' = b
    · rw [hb', hvalid]
    · rw [hothers b' hb']
      exact h.holding r b' hr
  · by_cases hb' : b' = b
    · subst hb'
      refine ⟨hvalid, hdev.trans hb, (hQ _).mpr ?_⟩
      rwa [hblockno, if_pos rfl]
    · rw [hothers b' hb'] at hd ⊢
      obtain ⟨hv, hd', hn⟩ := h.dirty b' hd
      refine ⟨hv, hd', (hQ _).mpr ?_⟩
      rwa [if_neg fun heq => hb' (h.same hb hd' heq)]
  · have hm' := (hQ m).mp hm
    split at hm'
    next heq => exact ⟨b, hdev.trans hb, hblockno.trans heq.symm, hm'⟩
    next hne =>
      obtain ⟨b', hd', hn', hdirty⟩ := h.pinned m hm'
      have hb' : b' ≠ b := by
        rintro rfl
        exact hne hn'.symm
      refine ⟨b', ?_⟩
      rw [hothers b' hb']
      exact ⟨hd', hn', hdirty⟩
  · refine block_congr (by rw [huse]) fun b' _ => ?_
    by_cases hb' : b' = b
    · rw [hb', hblockno]
    · rw [hothers b' hb']

omit [DecidableEq R] in
/-- `log_write` pins the block. -/
theorem Pins.logWrite {data : Block} (h : Pins c Q) (hr : c.use r = .holding b) :
    Pins (c.logWrite b data) (insert (c.buf b).blockno Q) := by
  have hbuf : (c.use r).buf = some b := by rw [hr]; rfl
  refine (h.mark (h.inv.logWrite (h.inv.used r b hbuf)) (h.device r b hbuf) rfl ?_ ?_ ?_ ?_ ?_).1
  · intro b' hb'
    simp [Bcache.State.logWrite, hb']
  · simp [Bcache.State.logWrite]
  · simp [Bcache.State.logWrite]
  · simpa [Bcache.State.logWrite] using h.holding r b hr
  · intro m
    simp [Bcache.State.logWrite]
    tauto

/-- `bwrite` releases it. -/
theorem Pins.bwrite {data : Block} (h : Pins c Q) (hstep : c.step (.bwrite r data) = some c') :
    Pins c' (Q \ {m | block c r = some m}) ∧ block c' = block c := by
  have hinv := h.inv.step hstep
  cases h.inv.steps hstep with
  | @bwrite _ b _ hb =>
    have hbuf : (c.use r).buf = some b := by rw [hb]; rfl
    refine h.mark (b := b) hinv (h.device r b hbuf) ?_ ?_ ?_ ?_ ?_ ?_
    · simp [Bcache.State.bwrite, Bcache.State.iderw]
    · intro b' hb'
      simp [Bcache.State.bwrite, Bcache.State.iderw, hb']
    · simp [Bcache.State.bwrite, Bcache.State.iderw]
    · simp [Bcache.State.bwrite, Bcache.State.iderw]
    · simp [Bcache.State.bwrite, Bcache.State.iderw]
    · intro m
      rw [block_of_buf hbuf]
      simp [Bcache.State.bwrite, Bcache.State.iderw]
      tauto

/-- `bget` returns the block, and the pinned blocks stay where they are. -/
theorem Pins.bget (h : Pins c Q) (hr : c.use r = .out) (hget : c.bget r ROOTDEV n = some c') :
    Pins c' Q ∧ block c' = update (block c) r (some n) := by
  have hstep : c.step (.bget r ROOTDEV n) = some c' := (if_pos ⟨hr, by decide⟩).trans hget
  have hinv := h.inv.step hstep
  -- the reference goes to a buffer that keeps its block, or that nobody uses and that is clean
  obtain ⟨b, v, rfl, hv, hsame⟩ : ∃ b v, c' = (c.setBuf b v).goto r (.waiting b) ∧
      (v.dev = ROOTDEV ∧ v.blockno = n) ∧ ((v.dev = (c.buf b).dev ∧ v.blockno = (c.buf b).blockno ∧
        v.dirty = (c.buf b).dirty ∧ v.valid = (c.buf b).valid) ∨
        ((c.buf b).refcnt = 0 ∧ (c.buf b).dirty = false ∧ v.dirty = false)) := by
    cases h.inv.steps hstep with
    | hit _ hhas => exact ⟨_, _, rfl, hhas, Or.inl ⟨rfl, rfl, rfl, rfl⟩⟩
    | miss _ _ hfree => exact ⟨_, _, rfl, ⟨rfl, rfl⟩, Or.inr ⟨hfree.1, hfree.2, rfl⟩⟩
  have hself : ((c.setBuf b v).goto r (.waiting b)).buf b = v := by simp
  have hbuf : ∀ b', b' ≠ b → ((c.setBuf b v).goto r (.waiting b)).buf b' = c.buf b' := by
    intro b' hb'
    simp [hb']
  have huse : ∀ r', r' ≠ r → ((c.setBuf b v).goto r (.waiting b)).use r' = c.use r' := by
    intro r' hr'
    simp [hr']
  have hwaiting : ((c.setBuf b v).goto r (.waiting b)).use r = .waiting b := by simp
  -- a buffer with a reference or with a pinned block keeps it
  have hkept : ∀ b', (∃ r', (c.use r').buf = some b') ∨ (c.buf b').dirty = true →
      (((c.setBuf b v).goto r (.waiting b)).buf b').dev = (c.buf b').dev ∧
      (((c.setBuf b v).goto r (.waiting b)).buf b').blockno = (c.buf b').blockno ∧
      (((c.setBuf b v).goto r (.waiting b)).buf b').dirty = (c.buf b').dirty ∧
      ((c.buf b').valid = true → (((c.setBuf b v).goto r (.waiting b)).buf b').valid = true) := by
    intro b' hb'
    by_cases heq : b' = b
    · subst heq
      rw [hself]
      obtain ⟨hd, hn, hdirty, hvalid⟩ | ⟨hzero, hclean, -⟩ := hsame
      · exact ⟨hd, hn, hdirty, hvalid.trans⟩
      · exfalso
        obtain ⟨r', hr'⟩ | hdirty := hb'
        · have hcount := h.inv.refs b'
          rw [hzero] at hcount
          exact hcount.not_of_zero hr'
        · exact absurd (hclean.symm.trans hdirty) (by decide)
    · rw [hbuf b' heq]
      exact ⟨rfl, rfl, rfl, id⟩
  refine ⟨h.kept hinv hkept (fun b' hd => ?_) (fun r' b' hr' => ?_) (fun r' b' hr' => ?_),
    funext fun r' => ?_⟩
  · by_cases heq : b' = b
    · subst heq
      rw [hself] at hd
      obtain hsame | ⟨-, -, hclean⟩ := hsame
      · exact hsame.2.2.1.symm.trans hd
      · exact absurd (hclean.symm.trans hd) (by decide)
    · rwa [hbuf b' heq] at hd
  · by_cases heq : r' = r
    · rw [heq, hwaiting] at hr'
      cases hr'
      exact Or.inr (by rw [hself, hv.1])
    · exact Or.inl (by rwa [huse r' heq] at hr')
  · by_cases heq : r' = r
    · rw [heq, hwaiting] at hr'
      cases hr'
    · exact Or.inl (by rwa [huse r' heq] at hr')
  · rw [update_apply]
    split
    next heq =>
      rw [heq]
      exact block_eq_some.mpr ⟨b, by rw [hwaiting]; rfl, by rw [hself, hv.2]⟩
    next heq =>
      exact block_congr (by rw [huse r' heq]) fun b' hb' => (hkept b' (Or.inl ⟨r', hb'⟩)).2.1

/-- The block is in the cache. -/
def Cached (c : Bcache.State R) (n : ℕ) : Prop :=
  ∃ b, (c.buf b).dev = ROOTDEV ∧ (c.buf b).blockno = n

/-- The buffers that `bget` cannot recycle. -/
def busy (c : Bcache.State R) : Set (Fin NBUF) :=
  {b | ¬ ((c.buf b).refcnt = 0 ∧ (c.buf b).dirty = false)}

/-- The blocks of the buffers in use. -/
def inUse (c : Bcache.State R) : Set ℕ := {n | ∃ r, block c r = some n}

omit [DecidableEq R] in
/-- A busy buffer is one of a pinned block, or of a block in use. -/
theorem Pins.busy_iff (h : Pins c Q) (b : Fin NBUF) :
    b ∈ busy c ↔ (c.buf b).dev = ROOTDEV ∧ (c.buf b).blockno ∈ Q ∪ inUse c := by
  constructor
  · intro hbusy
    by_cases hdirty : (c.buf b).dirty = true
    · exact ⟨(h.dirty b hdirty).2.1, Or.inl (h.dirty b hdirty).2.2⟩
    · have hpos : 0 < (c.buf b).refcnt := by
        refine Nat.pos_of_ne_zero fun hzero => hbusy ⟨hzero, ?_⟩
        simpa using hdirty
      obtain ⟨r, hr⟩ := (h.inv.refs b).exists_of_pos hpos
      exact ⟨h.device r b hr, Or.inr ⟨r, block_of_buf hr⟩⟩
  · rintro ⟨hdev, hpinned | ⟨r, hr⟩⟩ ⟨hzero, hclean⟩
    · obtain ⟨b', hdev', hn, hdirty⟩ := h.pinned _ hpinned
      rw [h.same hdev hdev' hn, hclean] at hdirty
      cases hdirty
    · obtain ⟨b', hb', hn⟩ := block_eq_some.mp hr
      have hcount := h.inv.refs b'
      rw [h.same hdev (h.device r b' hb') hn, hzero] at hcount
      rw [h.same hdev (h.device r b' hb') hn] at hb'
      exact hcount.not_of_zero hb'

omit [DecidableEq R] in
/-- The blocks that are pinned or in use have a buffer each. -/
theorem Pins.exists_buf (h : Pins c Q) (hn : n ∈ Q ∪ inUse c) : Cached c n := by
  rcases hn with hpinned | ⟨r, hr⟩
  · obtain ⟨b, hdev, hn, -⟩ := h.pinned n hpinned
    exact ⟨b, hdev, hn⟩
  · obtain ⟨b, hb, hn⟩ := block_eq_some.mp hr
    exact ⟨b, h.device r b hb, hn⟩

omit [DecidableEq R] in
/-- **As many buffers are busy** as there are blocks pinned or in use. -/
theorem Pins.ncard_busy (h : Pins c Q) : (Q ∪ inUse c).ncard = (busy c).ncard := by
  have himage : Q ∪ inUse c = (fun b => (c.buf b).blockno) '' busy c := by
    ext n
    constructor
    · intro hn
      obtain ⟨b, hdev, rfl⟩ := h.exists_buf hn
      exact ⟨b, (h.busy_iff b).mpr ⟨hdev, hn⟩, rfl⟩
    · rintro ⟨b, hb, rfl⟩
      exact ((h.busy_iff b).mp hb).2
  have hinj : Set.InjOn (fun b => (c.buf b).blockno) (busy c) := by
    intro b hb b' hb' hn
    exact h.same ((h.busy_iff b').mp hb').1 ((h.busy_iff b).mp hb).1 hn
  rw [himage, hinj.ncard_image]

omit [DecidableEq R] in
theorem ncard_busy_lt : (busy c).ncard < NBUF ↔ ∃ b, b ∉ busy c := by
  have huniv : (Set.univ : Set (Fin NBUF)).ncard = NBUF := by
    rw [Set.ncard_univ, Nat.card_eq_fintype_card, Fintype.card_fin]
  constructor
  · intro hlt
    by_contra hall
    push Not at hall
    rw [Set.eq_univ_of_forall hall, huniv] at hlt
    exact lt_irrefl _ hlt
  · rintro ⟨b, hb⟩
    have hssubset : busy c ⊂ Set.univ := Set.ssubset_univ_iff.mpr fun heq => hb (heq ▸ Set.mem_univ b)
    exact (Set.ncard_lt_ncard hssubset).trans_eq huniv

/-- **`bget` panics** if and only if the block is not cached and every buffer is busy. -/
theorem Pins.bget_eq_none (h : Pins c Q) :
    c.bget r ROOTDEV n = none ↔ ¬ (Cached c n ∨ (Q ∪ inUse c).ncard < NBUF) := by
  rw [h.ncard_busy, ncard_busy_lt]
  unfold Bcache.State.bget Cached
  obtain ⟨b, hcached, hb⟩ | ⟨hcached, hnot⟩ := h.inv.counted.cached ROOTDEV n
  · rw [hcached]
    exact iff_of_false nofun fun hnot => hnot (Or.inl ⟨b, hb⟩)
  · rw [hcached]
    obtain ⟨b, hunused, hfree⟩ | ⟨hunused, hall⟩ := h.inv.counted.unused
    · rw [hunused]
      exact iff_of_false nofun fun hnone => hnone (Or.inr ⟨b, fun hb => hb hfree⟩)
    · rw [hunused]
      refine iff_of_true rfl ?_
      rintro (⟨b, hb⟩ | ⟨b, hb⟩)
      · exact hnot b hb
      · exact hb (hall b)

end Cache

/-! ## What `commit()` writes -/

/-- The blocks of the two buffers after an action. -/
def Act.held (held : Fin 2 → Option ℕ) : Act → Fin 2 → Option ℕ
  | .bget k n => update held k (some n)
  | .put k => update held k none
  | _ => held

/-- The block that an action writes. -/
def Act.wrote (held : Fin 2 → Option ℕ) : Act → Option ℕ
  | .bwrite k => held k
  | _ => none

/-- The blocks that a sequence of actions writes. -/
def writes : (Fin 2 → Option ℕ) → List Act → List ℕ
  | _, [] => []
  | held, a :: rest => (a.wrote held).toList ++ writes (a.held held) rest

/-- All buffers are given back. -/
def Balanced (acts : List Act) : Prop := acts.foldl Act.held (fun _ => none) = fun _ => none

theorem Balanced.append {xs ys : List Act} (hx : Balanced xs) (hy : Balanced ys) :
    Balanced (xs ++ ys) := by
  unfold Balanced at *
  rw [foldl_append, hx, hy]

theorem Balanced.flatMap {α : Type} {l : List α} {f : α → List Act} (h : ∀ x, Balanced (f x)) :
    Balanced (l.flatMap f) := by
  induction l with
  | nil => rfl
  | cons x l ih => exact (h x).append ih

theorem writes_append (held : Fin 2 → Option ℕ) (xs ys : List Act) :
    writes held (xs ++ ys) = writes held xs ++ writes (xs.foldl Act.held held) ys := by
  induction xs generalizing held with
  | nil => rfl
  | cons a xs ih => rw [cons_append, writes, writes, ih, append_assoc, foldl_cons]

theorem Balanced.writes_append {xs ys : List Act} (hx : Balanced xs) :
    writes (fun _ => none) (xs ++ ys) = writes (fun _ => none) xs ++ writes (fun _ => none) ys := by
  rw [CacheDemand.writes_append, hx]

theorem balanced_writeLog (start : ℕ) (lh : List ℕ) : Balanced (writeLog start lh) := by
  refine Balanced.flatMap fun x => funext fun k => ?_
  fin_cases k <;> rfl

theorem balanced_writeHead (start : ℕ) : Balanced (writeHead start) := by
  funext k
  fin_cases k <;> rfl

/-- `install_trans` writes the logged blocks, in order. -/
theorem writes_installTrans (start : ℕ) (lh : List ℕ) :
    writes (fun _ => none) (installTrans start lh) = lh := by
  have hround : ∀ l : List (ℕ × ℕ), writes (fun _ => none) (l.flatMap fun (n, tail) =>
      bread 0 (start + tail + 1) ++ bread 1 n ++ [.bwrite 1] ++ brelse 0 ++ brelse 1) =
        l.map Prod.fst := by
    intro l
    induction l with
    | nil => rfl
    | cons x l ih =>
      rw [flatMap_cons, Balanced.writes_append, ih]
      · rfl
      · funext k
        fin_cases k <;> rfl
  have hlh := hround lh.zipIdx
  rwa [zipIdx_map_fst] at hlh

/-- Every logged block is written by `commit()`. -/
theorem mem_writes_commit {start n : ℕ} {lh : List ℕ} (hn : n ∈ lh) :
    n ∈ writes (fun _ => none) (commit start lh) := by
  unfold commit
  rw [if_neg (ne_nil_of_mem hn), append_assoc,
    ((balanced_writeLog start lh).append (balanced_writeHead start)).writes_append,
    writes_append _ (installTrans start lh), writes_installTrans]
  exact mem_append_right _ (mem_append_left _ hn)

/-! ## Every step keeps the invariant -/

namespace State

variable {P : Type} {s s' : State P} {p : P} {Q : Set ℕ}

/-- The blocks of the two buffers of `p`. -/
def held (s : State P) (p : P) : Fin 2 → Option ℕ := fun k => block s.cache (p, k)

/-- The blocks that have been logged, and that `commit()` has not yet written. -/
def pinned (s : State P) : Set ℕ := {n | n ∈ s.log.log.lh ∧ n ∉ s.written}

/-- **The blocks that need a buffer**: those pinned by the log, and those in use. -/
def demand (s : State P) : Set ℕ := s.pinned ∪ inUse s.cache

/-- The block that a step asks `bget` for. -/
def asked (s : State P) : Event P → Option ℕ
  | .use _ (.bget _ n) => some n
  | .act _ _ =>
    match s.todo with
    | .bget _ n :: _ => some n
    | _ => none
  | _ => none

/-- The block that is asked for is cached, or there is a buffer for it. -/
def Enough (s : State P) (e : Event P) : Prop :=
  ∀ n, s.asked e = some n → Cached s.cache n ∨ s.demand.ncard < NBUF

/-- The dirty buffers are those of the pinned blocks, and `commit()` writes all of them. -/
structure Inv (s : State P) : Prop where
  log : s.log.Inv
  pins : Pins s.cache s.pinned
  quiet : (∀ p, s.log.pc p ≠ .commit) → s.written = ∅
  todo : ∀ p, s.log.pc p = .commit → ∀ n ∈ s.log.log.lh,
    n ∈ s.written ∨ n ∈ writes (s.held p) s.todo

variable [DecidableEq P]

variable {c : Bcache.State (Ref P)}

/-- The blocks of `p` after its reference `k` has changed. -/
theorem held_update {k : Fin 2} {v : Option ℕ}
    (hc : block c = update (block s.cache) (p, k) v) :
    (s.withCache c).held p = update (s.held p) k v := by
  funext j
  show block c (p, j) = _
  rw [hc]
  by_cases hj : j = k
  · rw [hj, update_self, update_self]
  · rw [update_of_ne hj, update_of_ne fun heq => hj (Prod.mk.inj heq).2]
    rfl

/-- What an action does, if `bget` does not panic. -/
structure Performs (s s' : State P) (p : P) (a : Act) (Q : Set ℕ) : Prop where
  log : s'.log = s.log
  todo : s'.todo = s.todo
  dry : s'.dry = s.dry
  pins : Pins s'.cache (Q \ {m | a.wrote (s.held p) = some m})
  held : s'.held p = a.held (s.held p)
  written : s'.written = s.written ∪ (a.wrote (s.held p)).toFinset

variable {a : Act}

omit [DecidableEq P] in
/-- An action of a buffer that has no part in `commit()`. -/
theorem performs_of_cache (hpins : Pins c Q) (hheld : (s.withCache c).held p = a.held (s.held p))
    (hwrote : a.wrote (s.held p) = none) :
    Performs s (s.withCache c) p a Q := by
  refine ⟨rfl, rfl, rfl, ?_, hheld, ?_⟩
  · show Pins c _
    rw [hwrote]
    simpa using hpins
  · rw [hwrote]
    exact (Finset.union_empty _).symm

variable {data : Block}

/-- **What an action does**: `bget` panics, or the cache goes on. -/
theorem perform_spec (hpins : Pins s.cache Q) (hstep : s.perform p data a = some s') :
    (∃ k n, a = .bget k n ∧ s.cache.bget (p, k) ROOTDEV n = none ∧ s' = { s with dry := true }) ∨
    (∀ k n, a = .bget k n → s.cache.bget (p, k) ROOTDEV n ≠ none) ∧ Performs s s' p a Q := by
  cases a with
  | bget k n =>
    obtain ⟨hout, hs⟩ := ite_none_right_eq_some.mp hstep
    cases hget : s.cache.bget (p, k) ROOTDEV n with
    | none =>
      rw [hget] at hs
      cases hs
      exact Or.inl ⟨k, n, rfl, hget, rfl⟩
    | some c =>
      rw [hget] at hs
      cases hs
      obtain ⟨hpins', hblock⟩ := hpins.bget hout hget
      refine Or.inr ⟨?_, performs_of_cache hpins' (held_update hblock) rfl⟩
      rintro k' n' heq
      cases heq
      rw [hget]
      exact nofun
  | lock k | fill k | unlock k =>
    obtain ⟨c, hc, rfl⟩ := map_eq_some_iff.mp hstep
    obtain ⟨hpins', hblock⟩ := hpins.goOn (r := (p, k)) (by simp) hc
    exact Or.inr ⟨nofun, performs_of_cache hpins' (funext fun _ => congrFun hblock _) rfl⟩
  | bwrite k =>
    obtain ⟨c, hc, rfl⟩ := map_eq_some_iff.mp hstep
    obtain ⟨hpins', hblock⟩ := hpins.bwrite hc
    exact Or.inr ⟨nofun, rfl, rfl, rfl, hpins', funext fun _ => congrFun hblock _, rfl⟩
  | put k =>
    obtain ⟨c, hc, rfl⟩ := map_eq_some_iff.mp hstep
    obtain ⟨hpins', hblock⟩ := hpins.put hc
    exact Or.inr ⟨nofun, performs_of_cache hpins' (held_update hblock) rfl⟩

variable {l : LogProtocol.State P}

omit [DecidableEq P] in
/-- The steps of the log that leave its header and the committing process alone. -/
theorem Inv.withLog (h : s.Inv) (hlog : l.Inv) (hlh : l.log.lh = s.log.log.lh)
    (hcommit : ∀ q, l.pc q = .commit ↔ s.log.pc q = .commit) : (s.withLog l).Inv := by
  refine ⟨hlog, ?_, fun hnone => h.quiet fun q hq => hnone q ((hcommit q).mpr hq), fun q hq n hn => ?_⟩
  · have hpinned : (s.withLog l).pinned = s.pinned := by
      unfold pinned State.withLog
      rw [hlh]
    rw [hpinned]
    exact h.pins
  · refine h.todo q ((hcommit q).mp hq) n ?_
    rwa [← hlh]

omit [DecidableEq P] in
/-- While a process is in an operation, nobody is in `commit()`. -/
theorem Inv.not_commit (h : s.Inv) (hp : (s.log.pc p).busy) (q : P) : s.log.pc q ≠ .commit := by
  intro hq
  have hidle := (h.log.of_busy hp).2
  rw [h.log.committing.mpr ⟨q, by rw [hq]; rfl⟩] at hidle
  cases hidle

/-- A process in an operation uses the cache. -/
theorem Inv.use (h : s.Inv) (hp : s.log.pc p = .inOp) (ha : a ≠ .bwrite a.ref)
    (hstep : s.perform p .zero a = some s') : s'.Inv := by
  have hnone := h.not_commit (p := p) (by rw [hp]; rfl)
  have hwrote : a.wrote (s.held p) = none := by
    cases a <;> first | rfl | exact absurd rfl ha
  obtain ⟨k, n, -, -, rfl⟩ | ⟨-, hs⟩ := perform_spec h.pins hstep
  · exact ⟨h.log, h.pins, h.quiet, h.todo⟩
  · have hwritten : s'.written = s.written := by
      rw [hs.written, hwrote]
      exact Finset.union_empty _
    refine ⟨by rw [hs.log]; exact h.log, ?_, fun _ => ?_, fun q hq => ?_⟩
    · have hpins := hs.pins
      rw [hwrote] at hpins
      have hpinned : s'.pinned = s.pinned := by
        unfold pinned
        rw [hs.log, hwritten]
      rw [hpinned]
      simpa using hpins
    · rw [hwritten]
      exact h.quiet hnone
    · rw [hs.log] at hq
      exact absurd hq (hnone q)

/-- The process that commits takes the next action. -/
theorem Inv.act {rest : List Act} (h : s.Inv) (hp : s.log.pc p = .commit)
    (htodo : s.todo = a :: rest) (hstep : s.perform p data a = some s') (hdry : s'.dry = false) :
    ({ s' with todo := rest } : State P).Inv := by
  obtain ⟨k, n, -, -, rfl⟩ | ⟨-, hs⟩ := perform_spec h.pins hstep
  · cases hdry
  refine ⟨?_, ?_, fun hnone => ?_, fun q hq n hn => ?_⟩
  · show s'.log.Inv
    rw [hs.log]
    exact h.log
  · have hpinned : ({ s' with todo := rest } : State P).pinned =
        s.pinned \ {m | a.wrote (s.held p) = some m} := by
      unfold pinned
      ext m
      simp only [hs.log, hs.written, Finset.mem_union, mem_toFinset, mem_def,
        Set.mem_sdiff, Set.mem_ofPred_eq]
      tauto
    rw [hpinned]
    exact hs.pins
  · refine absurd ?_ (hnone p)
    show s'.log.pc p = .commit
    rw [hs.log, hp]
  · have hq' : s.log.pc q = .commit := by rw [← hs.log]; exact hq
    have hqp : q = p := h.log.one q p (by rw [hq']; rfl) (by rw [hp]; rfl)
    subst hqp
    have hn' : n ∈ s.log.log.lh := by rw [← hs.log]; exact hn
    show n ∈ s'.written ∨ n ∈ writes (s'.held q) rest
    rw [hs.written, hs.held, Finset.mem_union, mem_toFinset]
    have hold := h.todo q hp n hn'
    rw [htodo, writes, mem_append, mem_toList] at hold
    tauto

/-- `log_write`. -/
theorem Inv.append {b : Fin NBUF} {k : Fin 2} (h : s.Inv) (hb : s.cache.use (p, k) = .holding b)
    (hp : s.log.pc p = .checked (s.cache.buf b).blockno) (hl : s.log.step (.append p) = some l) :
    ({ s with log := l, cache := s.cache.logWrite b data } : State P).Inv := by
  have hnone := h.not_commit (p := p) (by rw [hp]; rfl)
  have hlog := h.log.step hl
  obtain ⟨-, hl⟩ := ite_none_right_eq_some.mp hl
  simp only [hp] at hl
  cases hl
  have hpc : ∀ q, (s.log.append p (s.cache.buf b).blockno).pc q ≠ .commit := by
    intro q
    have := hnone q
    simp only [LogProtocol.State.append, LogProtocol.State.goto_pc]
    split
    · simp
    · exact this
  refine ⟨hlog, ?_, fun _ => h.quiet hnone, fun q hq => absurd hq (hpc q)⟩
  have hpinned : ({ s with log := s.log.append p (s.cache.buf b).blockno
                           cache := s.cache.logWrite b data } : State P).pinned =
      insert (s.cache.buf b).blockno s.pinned := by
    ext m
    unfold pinned LogProtocol.State.append LogProtocol.State.goto
    simp only [h.quiet hnone, Finset.notMem_empty, not_false_eq_true, and_true, Set.mem_insert_iff,
      Set.mem_ofPred_eq]
    split
    next hmem =>
      refine (or_iff_right_of_imp ?_).symm
      rintro rfl
      exact hmem
    next => simp [or_comm]
  rw [hpinned]
  exact h.pins.logWrite hb

/-- `end_op`: if it is the last one, `commit()` is to write the logged blocks. -/
theorem Inv.finish (start : ℕ) (h : s.Inv) (hout : ∀ k, s.cache.use (p, k) = .out)
    (hl : s.log.step (.finish p) = some l) :
    ({ s with log := l, todo := CacheDemand.commit start s.log.log.lh } : State P).Inv := by
  have hlog := h.log.step hl
  cases (LogProtocol.State.steps_of_step hl).2
  rename_i hp
  have hnone := h.not_commit (p := p) (by rw [hp]; rfl)
  have hheld : s.held p = fun _ => none := by
    funext k
    unfold State.held block
    rw [hout]
    rfl
  obtain ⟨hlh, hpc⟩ : (s.log.endOp p).log.lh = s.log.log.lh ∧
      ∀ q, (s.log.endOp p).pc q = .commit → q = p := by
    unfold LogProtocol.State.endOp
    dsimp only
    split
    · exact ⟨rfl, fun q hq => absurd hq (hnone q)⟩
    · split
      · refine ⟨rfl, fun q hq => ?_⟩
        by_contra hqp
        rw [LogProtocol.State.goto_pc, if_neg hqp] at hq
        exact hnone q hq
      · refine ⟨rfl, fun q hq => ?_⟩
        by_contra hqp
        rw [LogProtocol.State.goto_pc, if_neg hqp] at hq
        exact hnone q (LogProtocol.State.wakeAll_eq_commit.mp hq)
  refine ⟨hlog, ?_, fun _ => h.quiet hnone, fun q hq n hn => Or.inr ?_⟩
  · have hpinned : ({ s with log := s.log.endOp p, todo := CacheDemand.commit start s.log.log.lh } :
        State P).pinned = s.pinned := by
      unfold pinned
      rw [hlh]
    rw [hpinned]
    exact h.pins
  · obtain rfl := hpc q hq
    show n ∈ writes (s.held q) _
    rw [hheld]
    refine mem_writes_commit ?_
    rwa [← hlh]

/-- The end of `commit()`: no block is pinned any more. -/
theorem Inv.commit (h : s.Inv) (htodo : s.todo = []) (hl : s.log.step (.commit p) = some l) :
    ({ s with log := l, written := ∅ } : State P).Inv := by
  have hlog := h.log.step hl
  cases (LogProtocol.State.steps_of_step hl).2
  rename_i hp
  refine ⟨hlog, ?_, fun _ => rfl, fun q hq n hn => by cases hn⟩
  have hpinned : ({ s with log := s.log.commit p, written := ∅ } : State P).pinned = s.pinned := by
    ext n
    refine iff_of_false (fun hn => nomatch hn.1) fun hn => ?_
    obtain hwritten | hrest := h.todo p hp n hn.1
    · exact hn.2 hwritten
    · rw [htodo] at hrest
      cases hrest
  rw [hpinned]
  exact h.pins

/-- The steps of the log that do not concern its header. -/
def Plain : LogProtocol.Event P → Prop
  | .append _ | .finish _ | .commit _ => False
  | _ => True

theorem log_step_same {l l' : LogProtocol.State P} {e : LogProtocol.Event P}
    (he : Plain e) (hstep : l.step e = some l') :
    l'.log.lh = l.log.lh ∧ ∀ q, l'.pc q = .commit ↔ l.pc q = .commit := by
  have hgoto : ∀ (l : LogProtocol.State P) (p : P) (c : LogProtocol.Pc), l.pc p ≠ .commit →
      c ≠ .commit → ∀ q, (l.goto p c).pc q = .commit ↔ l.pc q = .commit := by
    intro l p c hp hc q
    rw [LogProtocol.State.goto_pc]
    split
    next hq =>
      subst hq
      exact iff_of_false hc hp
    next => rfl
  cases (LogProtocol.State.steps_of_step hstep).2 with
  | begin p hp | retry p hp =>
    have hne : l.pc p ≠ .commit := by rw [hp]; exact nofun
    unfold LogProtocol.State.beginOp
    split
    · exact ⟨rfl, hgoto l p _ hne nofun⟩
    · split
      · exact ⟨rfl, hgoto l p _ hne nofun⟩
      · exact ⟨rfl, hgoto _ p _ hne nofun⟩
  | kill p hp => exact ⟨rfl, hgoto l p _ (by rw [hp]; exact nofun) nofun⟩
  | check p b hp =>
    unfold LogProtocol.State.check
    split
    · exact ⟨rfl, fun _ => Iff.rfl⟩
    · split
      · exact ⟨rfl, fun _ => Iff.rfl⟩
      · exact ⟨rfl, hgoto l p _ (by rw [hp]; exact nofun) nofun⟩
  | leave p hp =>
    unfold LogProtocol.State.leave
    refine ⟨rfl, fun q => (hgoto _ p .out ?_ nofun q).trans LogProtocol.State.wakeAll_eq_commit⟩
    show LogProtocol.State.wakeAll l.pc p ≠ .commit
    rw [Ne, LogProtocol.State.wakeAll_eq_commit, hp]
    exact nofun
  | append p | finish p | commit p => exact he.elim

/-- `bget` is asked for a block, if the action is `bget`. -/
theorem Inv.dry_iff (h : s.Inv) (hdry : s.dry = false) (hstep : s.perform p data a = some s') :
    s'.dry = true ↔ ∃ k n, a = .bget k n ∧ ¬ (Cached s.cache n ∨ s.demand.ncard < NBUF) := by
  obtain ⟨k, n, rfl, hget, rfl⟩ | ⟨hget, hs⟩ := perform_spec h.pins hstep
  · exact iff_of_true rfl ⟨k, n, rfl, h.pins.bget_eq_none.mp hget⟩
  · refine iff_of_false (by rw [hs.dry, hdry]; exact nofun) ?_
    rintro ⟨k, n, heq, hnot⟩
    exact hget k n heq (h.pins.bget_eq_none.mpr hnot)

/-- **Every step keeps the invariant**, unless `bget` panics; and it does so if and only if there is
no buffer for the block it is asked for. -/
theorem Inv.step {start : ℕ} {e : Event P} (h : s.Inv) (hstep : s.step start e = some s') :
    (s'.dry = true ↔ ¬ s.Enough e) ∧ (s.Enough e → s'.Inv) := by
  obtain ⟨⟨hdry, -⟩, hs⟩ := ite_none_right_eq_some.mp hstep
  -- the steps that do not ask for a block
  have hother : s.asked e = none → s'.dry = s.dry → s'.Inv →
      (s'.dry = true ↔ ¬ s.Enough e) ∧ (s.Enough e → s'.Inv) := by
    intro hnone hdry' hinv
    have henough : s.Enough e := fun n hn => by rw [hnone] at hn; cases hn
    exact ⟨iff_of_false (by rw [hdry', hdry]; exact nofun) fun hnot => hnot henough, fun _ => hinv⟩
  have hlog : ∀ {f : LogProtocol.Event P}, s.asked e = none → (s.log.step f).map s.withLog = some s' →
      Plain f → (s'.dry = true ↔ ¬ s.Enough e) ∧ (s.Enough e → s'.Inv) := by
    intro f hnone hf hsame
    obtain ⟨l, hl, rfl⟩ := map_eq_some_iff.mp hf
    obtain ⟨hlh, hcommit⟩ := log_step_same hsame hl
    exact hother hnone rfl (h.withLog (h.log.step hl) hlh hcommit)
  cases e with
  | begin p | retry p | kill p | leave p => exact hlog rfl hs trivial
  | use p a =>
    obtain ⟨⟨hp, ha, -⟩, hs⟩ := ite_none_right_eq_some.mp hs
    refine ⟨(h.dry_iff hdry hs).trans ?_, fun _ => h.use hp ha hs⟩
    cases a <;> simp [Enough, asked]
  | check p k =>
    dsimp only at hs
    split at hs
    next b hb => exact hlog rfl hs trivial
    next => cases hs
  | append p k data =>
    dsimp only at hs
    split at hs
    next b hb =>
      obtain ⟨hp, hs⟩ := ite_none_right_eq_some.mp hs
      obtain ⟨l, hl, rfl⟩ := map_eq_some_iff.mp hs
      exact hother rfl rfl (h.append hb hp hl)
    next => cases hs
  | finish p =>
    obtain ⟨hout, hs⟩ := ite_none_right_eq_some.mp hs
    obtain ⟨l, hl, rfl⟩ := map_eq_some_iff.mp hs
    exact hother rfl rfl (h.finish start hout hl)
  | act p data =>
    dsimp only at hs
    split at hs
    next a rest htodo =>
      obtain ⟨hp, hs⟩ := ite_none_right_eq_some.mp hs
      obtain ⟨t, ht, rfl⟩ := map_eq_some_iff.mp hs
      have hiff : t.dry = true ↔ ¬ s.Enough (.act p data) := by
        refine (h.dry_iff hdry ht).trans ?_
        cases a <;> simp [Enough, asked, htodo]
      refine ⟨hiff, fun henough => h.act hp htodo ht ?_⟩
      rw [← Bool.not_eq_true]
      exact fun hbad => hiff.mp hbad henough
    next => cases hs
  | commit p =>
    obtain ⟨htodo, hs⟩ := ite_none_right_eq_some.mp hs
    obtain ⟨l, hl, rfl⟩ := map_eq_some_iff.mp hs
    exact hother rfl rfl (h.commit htodo hl)

/-- The buffer cache after `initlog`: nobody has a buffer, and none is dirty. -/
structure Mounted (c : Bcache.State (Ref P)) : Prop where
  reached : ∃ disk events, Runs.run Bcache.State.step (.binit disk) events = some c
  out : ∀ r, c.use r = .out
  clean : ∀ b, (c.buf b).dirty = false

theorem Mounted.inv (h : Mounted c) (size : ℕ) : (init c size).Inv := by
  obtain ⟨disk, events, hrun⟩ := h.reached
  have hbuf : ∀ r b, (c.use r).buf ≠ some b := fun r b => by rw [h.out]; exact nofun
  have hclean : ∀ b, ¬ (c.buf b).dirty = true := fun b => by rw [h.clean]; exact nofun
  refine ⟨LogProtocol.State.inv_init size, ?_, fun _ => rfl, nofun⟩
  refine ⟨Bcache.State.run_inv hrun, fun r b hb => absurd hb (hbuf r b), fun r b hb => ?_,
    fun b hb => absurd hb (hclean b), fun n hn => nomatch hn.1⟩
  exact absurd (congrArg Bcache.Use.buf hb) (hbuf r b)

/-- **The buffer cache does not run dry** if and only if each `bget` asks for a block that is cached,
or comes while fewer than `NBUF` blocks are pinned by the log or in use. -/
theorem never_dry_iff {c : Bcache.State (Ref P)} {start size : ℕ} {events : List (Event P)}
    (hc : Mounted c) (hrun : Runs.run (step start) (init c size) events = some s) :
    s.dry = false ↔ Runs.Meets (step start) Enough (init c size) events := by
  rw [← Bool.not_eq_true]
  refine Runs.run_not_bad_iff_meets (I := Inv) (B := fun s => s.dry = true)
    (fun s e s' hs hi => hi.step hs) (fun s e hbad => ?_) hrun (hc.inv size) nofun
  unfold State.step
  rw [if_neg (by simp [hbad])]

/-- The cache as `binit` makes it. -/
theorem mounted_binit (disk : ℕ → ℕ → Block) : Mounted (.binit disk : Bcache.State (Ref P)) :=
  ⟨⟨disk, [], rfl⟩, fun _ => rfl, fun _ => rfl⟩

/-- An operation reads a block, logs it and gives it back. -/
def logBlock (p : P) (n : ℕ) : List (Event P) :=
  (bread 0 n).map (.use p) ++ [.check p 0, .append p 0 .zero] ++ (brelse 0).map (.use p)

/-- Three operations log ten, ten and nine blocks; the third one reads two more blocks. -/
def dryRun : List (Event (Fin 3)) :=
  (finRange 3).map .begin ++ (finRange 3).flatMap (fun p =>
      (range (if p = Fin.last 2 then 9 else 10)).flatMap fun i => logBlock p (100 + 10 * p + i)) ++
    (bread 0 200).map (.use (Fin.last 2)) ++ [.use (Fin.last 2) (.bget 1 201)]

theorem dryRun_dry : (Runs.run (step 2) (init (.binit fun _ _ => .zero) LOGSIZE) dryRun).any fun s =>
    s.dry && decide (∀ p, (s.log.mine p).card ≤ MAXOPBLOCKS) := by
  decide +kernel

/-- The last of them finds no buffer: 29 are pinned by the log, and one is in use. -/
theorem not_never_dry : ∃ c, Mounted c ∧ ∃ s : State (Fin 3),
    Runs.run (step 2) (init c LOGSIZE) dryRun = some s ∧
    (∀ p, (s.log.mine p).card ≤ MAXOPBLOCKS) ∧ s.dry = true := by
  refine ⟨.binit fun _ _ => .zero, mounted_binit _, ?_⟩
  have hdry := dryRun_dry
  cases hrun : Runs.run (step 2) (init (.binit fun _ _ => .zero) LOGSIZE) dryRun with
  | none =>
    rw [hrun] at hdry
    cases hdry
  | some s =>
    rw [hrun, any_some, Bool.and_eq_true, decide_eq_true_eq] at hdry
    exact ⟨s, rfl, hdry.2, hdry.1⟩

/-- An operation that logs one block, and the commit. -/
def oneBlock : List (Event ℕ) :=
  .begin 0 :: logBlock 0 50 ++ [.finish 0] ++ replicate 34 (.act 0 .zero) ++ [.commit 0, .leave 0]

theorem oneBlock_wet : (Runs.run (step 2) (init (.binit fun _ _ => .zero) LOGSIZE) oneBlock).any
    fun s => !s.dry := by
  decide +kernel

/-- It finds a buffer each time. -/
theorem never_dry_oneBlock :
    Runs.Meets (step 2) Enough (init (.binit fun _ _ => .zero) LOGSIZE) oneBlock := by
  have hwet := oneBlock_wet
  cases hrun : Runs.run (step 2) (init (.binit fun _ _ => .zero) LOGSIZE) oneBlock with
  | none =>
    rw [hrun] at hwet
    cases hwet
  | some s =>
    rw [hrun, any_some, Bool.not_eq_true'] at hwet
    exact (never_dry_iff (mounted_binit _) hrun).mp hwet

end State

end CacheDemand
