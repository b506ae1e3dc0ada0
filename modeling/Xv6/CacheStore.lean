/-
# The buffer cache as a store of blocks

Whatever is cached, evicted and read again in between, the cache and the disk together are a store that keeps
for each block what was last written to it (`Store`).
-/
import Xv6.Bcache

open Function Option

namespace Bcache

variable {P : Type}

/-- What the cache is for: the contents of the blocks, with the block that each reference asked for. -/
structure Store (P : Type) where
  block : ℕ → ℕ → Block
  asked : P → ℕ × ℕ

/-- What a step means for the store. -/
def Store.step [DecidableEq P] (t : Store P) : Event P → Store P
  | .bget p dev blockno => { t with asked := update t.asked p (dev, blockno) }
  | .bwrite p data | .logWrite p data =>
    { t with block := fun dev blockno => if t.asked p = (dev, blockno) then data else t.block dev blockno }
  | _ => t

/-- The store after the steps of a run. -/
def Store.after [DecidableEq P] (disk : ℕ → ℕ → Block) (events : List (Event P)) : Store P :=
  events.foldl step ⟨disk, fun _ => (0, 0)⟩

namespace State

/-- **The store that the cache and the disk are.** -/
structure Holds (s : State P) (t : Store P) : Prop where
  asked : ∀ p b, (s.use p).buf = some b → t.asked p = ((s.buf b).dev, (s.buf b).blockno)
  held : ∀ p b, s.use p = .holding b → (s.buf b).valid = true
  dirty : ∀ b, (s.buf b).dirty = true → (s.buf b).valid = true ∧
    (s.buf b).data = t.block (s.buf b).dev (s.buf b).blockno
  disk : ∀ dev n, dev ≠ 0 → s.disk dev n = t.block dev n ∨
    ∃ b, (s.buf b).dev = dev ∧ (s.buf b).blockno = n ∧ (s.buf b).dirty = true

variable {s s' : State P} {t t' : Store P} {b : Fin NBUF}

/-- A valid buffer has what the store has. -/
theorem Holds.data (h : s.Holds t) (hi : s.Inv) (hb : (s.buf b).dev ≠ 0) (hv : (s.buf b).valid = true) :
    (s.buf b).data = t.block (s.buf b).dev (s.buf b).blockno := by
  by_cases hd : (s.buf b).dirty = true
  · exact (h.dirty b hd).2
  · rw [hi.clean b hv (by simpa using hd)]
    refine (h.disk _ _ hb).resolve_right ?_
    rintro ⟨b', hdev, hn, hdirty⟩
    exact hd (hi.unique b b' hb hdev.symm hn.symm ▸ hdirty)

/-- The disk and the dirty buffers stay. -/
theorem Holds.kept (h : s.Holds t) (hblock : t'.block = t.block) (hdisk : s'.disk = s.disk)
    (hdirty : ∀ b, (s'.buf b).dirty = (s.buf b).dirty ∧ ((s.buf b).dirty = true → SameBlock s s' b ∧
      (s'.buf b).valid = (s.buf b).valid ∧ (s'.buf b).data = (s.buf b).data))
    (hasked : ∀ p b, (s'.use p).buf = some b → t'.asked p = ((s'.buf b).dev, (s'.buf b).blockno))
    (hheld : ∀ p b, s'.use p = .holding b → (s'.buf b).valid = true) : s'.Holds t' := by
  refine ⟨hasked, hheld, fun b hb => ?_, fun dev n hdev => ?_⟩
  · obtain ⟨hd, hsame⟩ := hdirty b
    obtain ⟨⟨hdev, hn⟩, hv, hdata⟩ := hsame (hd ▸ hb)
    rw [hdev, hn, hv, hdata, hblock]
    exact h.dirty b (hd ▸ hb)
  · rw [hdisk, hblock]
    refine (h.disk dev n hdev).imp_right ?_
    rintro ⟨b, hbdev, hbn, hb⟩
    obtain ⟨hd, hsame⟩ := hdirty b
    obtain ⟨⟨hdev', hn'⟩, -⟩ := hsame hb
    exact ⟨b, hdev'.trans hbdev, hn'.trans hbn, hd.trans hb⟩

variable [DecidableEq P]

/-- **Every step does to the store what it means.** -/
theorem Holds.step {e : Event P} (h : s.Holds t) (hi : s.Inv) (hstep : s.step e = some s') :
    s'.Holds (t.step e) := by
  cases hi.steps hstep with
  | @hit p dev n b hp | @miss p dev n b hp | @lock p b hp | @unlock p b hp | @put p b hp =>
    refine h.kept rfl (by simp) (fun b' => ?_) (fun q b' hq => ?_) fun q b' hq => ?_
    · by_cases hb' : b' = b <;> simp_all [SameBlock]
    · have hold := h.asked q b'
      have href := (hi.refs b).pos (p := q)
      by_cases hqp : q = p <;> by_cases hb' : b' = b <;> simp_all [Store.step, Use.buf]
    · have hold := h.held q b'
      have href := (hi.refs b).pos (p := q)
      by_cases hqp : q = p <;> by_cases hb' : b' = b <;> simp_all [Use.buf]
  | @fill p b hp =>
    -- what is dirty is valid, and is not read again
    have hdirty := h.dirty b
    obtain ⟨data, hfill, hdata⟩ : ∃ data, s.fill b = s.setBuf b { s.buf b with data := data, valid := true } ∧
        ((s.buf b).dirty = true → data = (s.buf b).data) := by
      unfold State.fill
      split
      next hv => exact ⟨(s.buf b).data, by simp [setBuf, ← hv], fun _ => rfl⟩
      next hv =>
        refine ⟨s.disk (s.buf b).dev (s.buf b).blockno, ?_, fun hd => absurd (hdirty hd).1 hv⟩
        simp_all [State.iderw]
    rw [hfill]
    refine h.kept rfl rfl (fun b' => ?_) (fun q b' hq => ?_) fun q b' hq => ?_
    · by_cases hb' : b' = b <;> simp_all [SameBlock]
    · have hold := h.asked q b'
      by_cases hqp : q = p <;> by_cases hb' : b' = b <;> simp_all [Store.step, Use.buf]
    · have hold := h.held q b'
      by_cases hqp : q = p <;> by_cases hb' : b' = b <;> simp_all
  | @bwrite p b d hp | @logWrite p b d hp =>
    have hasked := h.asked p b (by rw [hp]; rfl)
    have hheld := h.held p b hp
    have hunique := hi.unique b
    have hb := hi.used p b (by rw [hp]; rfl)
    refine ⟨fun q b' => ?_, fun q b' => ?_, fun b' => ?_, fun dev n hdev => ?_⟩
    all_goals simp only [bwrite, logWrite, State.iderw, Store.step, hasked, setBuf_buf, setBuf_use, if_true]
    · have hold := h.asked q b'
      by_cases hb' : b' = b <;> simp_all
    · have hold := h.held q b'
      by_cases hb' : b' = b <;> simp_all
    · have hold := h.dirty b'
      grind
    · have hold := h.disk dev n hdev
      grind

/-- **The cache and the disk are a store of blocks**, in every run and for every order of the steps: between
`bread` and `brelse` a buffer holds what was last written to the block that was asked for, and so does the disk,
unless the buffer of the block is dirty. -/
theorem store_run {disk : ℕ → ℕ → Block} {events : List (Event P)}
    (hrun : Runs.run step (binit disk) events = some s) :
    (∀ p b, s.use p = .holding b →
      ((s.buf b).dev, (s.buf b).blockno) = (Store.after disk events).asked p ∧
      (s.buf b).data = (Store.after disk events).block (s.buf b).dev (s.buf b).blockno) ∧
    ∀ dev n, dev ≠ 0 → s.disk dev n = (Store.after disk events : Store P).block dev n ∨
      ∃ b, (s.buf b).dev = dev ∧ (s.buf b).blockno = n ∧ (s.buf b).dirty = true := by
  obtain ⟨hi, h⟩ : s.Inv ∧ s.Holds (Store.after disk events) := by
    refine Runs.run_history (I := fun past s => s.Inv ∧ s.Holds (Store.after disk past))
      (fun past s e s' hstep h => ⟨h.1.step hstep, ?_⟩) hrun ⟨inv_binit disk, ?_⟩
    · rw [Store.after, List.foldl_concat]
      exact h.2.step h.1 hstep
    · exact ⟨nofun, nofun, nofun, fun _ _ _ => .inl rfl⟩
  refine ⟨fun p b hp => ?_, h.disk⟩
  have hb : (s.use p).buf = some b := by rw [hp]; rfl
  exact ⟨(h.asked p b hb).symm, h.data hi (hi.used p b hb) (h.held p b hp)⟩

/-- The second reader gets what the first one wrote. -/
theorem store_run_twoReaders : ∃ s, Runs.run step (binit fun _ _ _ => 0) twoReaders = some s ∧
    ∀ b, s.use 1 = .holding b → (s.buf b).data = fun _ => 5 := by
  have hrun := (some_get isSome_twoReaders).symm
  refine ⟨_, hrun, fun b hb => ?_⟩
  obtain ⟨hasked, hdata⟩ := (store_run hrun).1 1 b hb
  obtain ⟨hdev, hn⟩ := Prod.mk.inj hasked
  rw [hdata, hdev, hn]
  rfl

end State

end Bcache
