/-
# The buffer cache (`bio.c`)

`binit`, `bget`, `bread`, `bwrite` and `brelse`, with what `iderw` and `log_write` do to a buffer, for
any number of references.  A reference is one `bread` and what follows up to its `brelse`; a process
may have several at a time.  A step is a critical section of `bcache.lock`, the acquisition or release
of a buffer's sleep-lock, or what the holder of that lock does with the buffer.

The list of the buffers is the ring of pointers that the code keeps, so that the two loops of `bget`
follow `next` and `prev`.  A caller changes the data of a buffer before it calls `bwrite` or
`log_write`, as the comments there ask for.  Each device is a disk of its own, and no disk fails.
-/
import Xv6.Block
import Xv6.Census
import Xv6.Ring
import Xv6.Runs

open Function List Option

namespace Bcache

/-! ## State -/

/-- Size of the disk block cache. -/
abbrev NBUF : ℕ := 30

/-- A node of the list: a buffer, or `bcache.head`. -/
abbrev Node : Type := Option (Fin NBUF)

/-- `struct buf`, with who has its sleep-lock. -/
structure Buf (P : Type) where
  dev : ℕ
  blockno : ℕ
  refcnt : ℕ
  /-- `B_VALID` -/
  valid : Bool
  /-- `B_DIRTY` -/
  dirty : Bool
  data : Block
  lock : Option P

/-- Where a reference is. -/
inductive Use where
  | out
  /-- in `bget`, before `acquiresleep` is through -/
  | waiting (b : Fin NBUF)
  /-- in `bread`, with the buffer locked -/
  | locked (b : Fin NBUF)
  /-- between `bread` and `brelse` -/
  | holding (b : Fin NBUF)
  /-- in `brelse`, after `releasesleep` -/
  | releasing (b : Fin NBUF)
deriving DecidableEq

/-- The buffer of a reference. -/
def Use.buf : Use → Option (Fin NBUF)
  | .out => none
  | .waiting b | .locked b | .holding b | .releasing b => some b

/-- The cache, the disk and the references. -/
structure State (P : Type) where
  links : Ring.Links Node
  buf : Fin NBUF → Buf P
  disk : ℕ → ℕ → Block
  use : P → Use

variable {P : Type}

namespace State

/-- `binit`: the memory is zero at first, and each buffer goes behind the head. -/
def binit (disk : ℕ → ℕ → Block) : State P where
  links := (finRange NBUF).foldl (fun k b => Ring.pushFront k none (some b))
    ⟨fun _ => none, fun _ => none⟩
  buf := fun _ => ⟨0, 0, 0, false, false, fun _ => 0, none⟩
  disk := disk
  use := fun _ => .out

/-- The first loop of `bget`: is the block already cached? -/
def cached (s : State P) (dev blockno : ℕ) : Option Node :=
  Ring.search s.links.next none
    (fun x => x.any fun b => (s.buf b).dev = dev ∧ (s.buf b).blockno = blockno)
    (NBUF + 1) (s.links.next none)

/-- The second loop of `bget`: an unused buffer. -/
def unused (s : State P) : Option Node :=
  Ring.search s.links.prev none
    (fun x => x.any fun b => (s.buf b).refcnt = 0 ∧ (s.buf b).dirty = false)
    (NBUF + 1) (s.links.prev none)

/-- Change a buffer. -/
def setBuf (s : State P) (b : Fin NBUF) (v : Buf P) : State P :=
  { s with buf := update s.buf b v }

/-- The reference goes to `use`. -/
def goto [DecidableEq P] (s : State P) (p : P) (use : Use) : State P :=
  { s with use := update s.use p use }

/-- The critical section of `bget`; `none` for the panic "bget: no buffers". -/
def bget [DecidableEq P] (s : State P) (p : P) (dev blockno : ℕ) : Option (State P) :=
  match s.cached dev blockno with
  | some (some b) =>
    some ((s.setBuf b { s.buf b with refcnt := (s.buf b).refcnt + 1 }).goto p (.waiting b))
  | _ =>
    match s.unused with
    | some (some b) =>
      some ((s.setBuf b { s.buf b with
        dev := dev, blockno := blockno, valid := false, dirty := false, refcnt := 1 }).goto p
        (.waiting b))
    | _ => none

/-- `iderw`: a dirty buffer is written to the disk, any other one is read. -/
def iderw (s : State P) (b : Fin NBUF) : State P :=
  if (s.buf b).dirty then
    { s.setBuf b { s.buf b with valid := true, dirty := false } with
      disk := fun dev blockno =>
        if dev = (s.buf b).dev ∧ blockno = (s.buf b).blockno then (s.buf b).data
        else s.disk dev blockno }
  else s.setBuf b { s.buf b with data := s.disk (s.buf b).dev (s.buf b).blockno, valid := true }

/-- The rest of `bread`. -/
def fill (s : State P) (b : Fin NBUF) : State P := if (s.buf b).valid then s else s.iderw b

/-- `bwrite` of a buffer that now holds `data`. -/
def bwrite (s : State P) (b : Fin NBUF) (data : Block) : State P :=
  (s.setBuf b { s.buf b with data := data, dirty := true }).iderw b

/-- `log_write` of a buffer that now holds `data`. -/
def logWrite (s : State P) (b : Fin NBUF) (data : Block) : State P :=
  s.setBuf b { s.buf b with data := data, dirty := true }

/-- The critical section of `brelse`: a buffer that nobody uses goes to the front. -/
def put (s : State P) (b : Fin NBUF) : State P :=
  let s := s.setBuf b { s.buf b with refcnt := (s.buf b).refcnt - 1 }
  if (s.buf b).refcnt = 0 then
    { s with links := Ring.pushFront (Ring.unlink s.links (some b)) none (some b) }
  else s

end State

/-- The steps of a reference. -/
inductive Event (P : Type) where
  /-- `bread` of a block: the critical section of `bget`. -/
  | bget (p : P) (dev blockno : ℕ)
  /-- `acquiresleep` in `bget`. -/
  | lock (p : P)
  /-- The rest of `bread`. -/
  | fill (p : P)
  /-- `bwrite`. -/
  | bwrite (p : P) (data : Block)
  /-- `log_write`. -/
  | logWrite (p : P) (data : Block)
  /-- `releasesleep` in `brelse`. -/
  | unlock (p : P)
  /-- The critical section of `brelse`. -/
  | put (p : P)

/-- **The steps**, on devices other than 0; `none` when a step is not possible. -/
def State.step [DecidableEq P] (s : State P) : Event P → Option (State P)
  | .bget p dev blockno => if s.use p = .out ∧ dev ≠ 0 then s.bget p dev blockno else none
  | .lock p =>
    match s.use p with
    | .waiting b =>
      if (s.buf b).lock = none then
        some ((s.setBuf b { s.buf b with lock := some p }).goto p (.locked b))
      else none
    | _ => none
  | .fill p =>
    match s.use p with
    | .locked b => some ((s.fill b).goto p (.holding b))
    | _ => none
  | .bwrite p data =>
    match s.use p with
    | .holding b => some (s.bwrite b data)
    | _ => none
  | .logWrite p data =>
    match s.use p with
    | .holding b => some (s.logWrite b data)
    | _ => none
  | .unlock p =>
    match s.use p with
    | .holding b => some ((s.setBuf b { s.buf b with lock := none }).goto p (.releasing b))
    | _ => none
  | .put p =>
    match s.use p with
    | .releasing b => some ((s.put b).goto p .out)
    | _ => none

/-- **The steps**, on every device. -/
def State.stepAny [DecidableEq P] (s : State P) : Event P → Option (State P)
  | .bget p dev blockno => if s.use p = .out then s.bget p dev blockno else none
  | e => s.step e

/-! ## The invariant -/

namespace State

/-- The ring goes through every buffer, and a buffer is counted as often as it is referred to. -/
structure Counted (s : State P) : Prop where
  ring : ∃ l : List (Fin NBUF), Ring.Contents s.links none (l.map some) ∧ ∀ b, b ∈ l
  refs : ∀ b, Census (fun p => (s.use p).buf = some b) (s.buf b).refcnt

/-- The ring, the identities of the buffers, their references and locks, and what they hold. -/
structure Inv (s : State P) : Prop where
  ring : ∃ l : List (Fin NBUF), Ring.Contents s.links none (l.map some) ∧ ∀ b, b ∈ l
  unique : ∀ b b', (s.buf b).dev ≠ 0 → (s.buf b).dev = (s.buf b').dev →
    (s.buf b).blockno = (s.buf b').blockno → b = b'
  refs : ∀ b, Census (fun p => (s.use p).buf = some b) (s.buf b).refcnt
  used : ∀ p b, (s.use p).buf = some b → (s.buf b).dev ≠ 0
  lock : ∀ b p, (s.buf b).lock = some p ↔ s.use p = .locked b ∨ s.use p = .holding b
  clean : ∀ b, (s.buf b).valid = true → (s.buf b).dirty = false →
    (s.buf b).data = s.disk (s.buf b).dev (s.buf b).blockno

section Simp

variable (s : State P) (b b' : Fin NBUF) (v : Buf P)

@[simp, grind =] theorem setBuf_buf : (s.setBuf b v).buf b' = if b' = b then v else s.buf b' := by
  simp [setBuf, update_apply]

@[simp, grind =] theorem setBuf_links : (s.setBuf b v).links = s.links := rfl

@[simp, grind =] theorem setBuf_disk : (s.setBuf b v).disk = s.disk := rfl

@[simp, grind =] theorem setBuf_use : (s.setBuf b v).use = s.use := rfl

end Simp

section Simp

variable [DecidableEq P] (s : State P) (p q : P) (u : Use)

@[simp, grind =] theorem goto_use : (s.goto p u).use q = if q = p then u else s.use q := by
  simp [goto, update_apply]

@[simp, grind =] theorem goto_buf : (s.goto p u).buf = s.buf := rfl

@[simp, grind =] theorem goto_links : (s.goto p u).links = s.links := rfl

@[simp, grind =] theorem goto_disk : (s.goto p u).disk = s.disk := rfl

end Simp

section Simp

variable (s : State P) (b b' : Fin NBUF)

@[simp] theorem put_buf : (s.put b).buf b' =
    if b' = b then { s.buf b with refcnt := (s.buf b).refcnt - 1 } else s.buf b' := by
  unfold put
  dsimp only
  split <;> simp

@[simp] theorem put_use : (s.put b).use = s.use := by
  unfold put
  dsimp only
  split <;> rfl

@[simp] theorem put_disk : (s.put b).disk = s.disk := by
  unfold put
  dsimp only
  split <;> rfl

theorem put_links : (s.put b).links = if ((s.put b).buf b).refcnt = 0 then
    Ring.pushFront (Ring.unlink s.links (some b)) none (some b) else s.links := by
  unfold put
  dsimp only
  split <;> rfl

end Simp

/-! ## The loops of `bget` -/

variable {s s' : State P}

theorem Inv.counted (h : s.Inv) : s.Counted := ⟨h.ring, h.refs⟩

/-- A list of all buffers without repetition is as long as the fuel of the loops allows. -/
theorem length_lt_of_contents {k : Ring.Links Node} {l : List (Fin NBUF)}
    (h : Ring.Contents k none (l.map some)) : (l.map some).length < NBUF + 1 := by
  have hnodup : l.Nodup := List.Nodup.of_map some (nodup_cons.mp h.nodup).2
  have hlen := hnodup.length_le_card
  rw [Fintype.card_fin] at hlen
  rw [length_map]
  omega

/-- The first loop goes through the list from the front. -/
theorem cached_eq {l : List (Fin NBUF)} (h : Ring.Contents s.links none (l.map some)) (dev blockno : ℕ) :
    s.cached dev blockno =
      (l.find? fun b => (s.buf b).dev = dev ∧ (s.buf b).blockno = blockno).map some := by
  unfold State.cached
  rw [h.search_next _ (length_lt_of_contents h), find?_map]
  rfl

/-- The second loop goes through the list from the end. -/
theorem unused_eq {l : List (Fin NBUF)} (h : Ring.Contents s.links none (l.map some)) :
    s.unused = (l.reverse.find? fun b => (s.buf b).refcnt = 0 ∧ (s.buf b).dirty = false).map some := by
  unfold State.unused
  rw [h.search_prev _ (length_lt_of_contents h), ← map_reverse, find?_map]
  rfl

/-- The first loop finds a buffer with the block, if there is one. -/
theorem Counted.cached (h : s.Counted) (dev blockno : ℕ) :
    (∃ b, s.cached dev blockno = some (some b) ∧ (s.buf b).dev = dev ∧ (s.buf b).blockno = blockno) ∨
    s.cached dev blockno = none ∧ ∀ b, ¬ ((s.buf b).dev = dev ∧ (s.buf b).blockno = blockno) := by
  obtain ⟨l, hring, hall⟩ := h.ring
  rw [cached_eq hring]
  cases hfind : l.find? _ with
  | none => exact .inr ⟨rfl, fun b => by simpa using find?_eq_none.mp hfind b (hall b)⟩
  | some b => exact .inl ⟨b, rfl, by simpa using find?_some hfind⟩

/-- The second loop finds a buffer that is neither in use nor dirty, if there is one. -/
theorem Counted.unused (h : s.Counted) :
    (∃ b, s.unused = some (some b) ∧ (s.buf b).refcnt = 0 ∧ (s.buf b).dirty = false) ∨
    s.unused = none ∧ ∀ b, ¬ ((s.buf b).refcnt = 0 ∧ (s.buf b).dirty = false) := by
  obtain ⟨l, hring, hall⟩ := h.ring
  rw [unused_eq hring]
  cases hfind : l.reverse.find? _ with
  | none => exact .inr ⟨rfl, fun b => by simpa using find?_eq_none.mp hfind b (mem_reverse.mpr (hall b))⟩
  | some b => exact .inl ⟨b, rfl, by simpa using find?_some hfind⟩

/-! ## Every step keeps the invariant -/

variable {b : Fin NBUF}

/-- The ring, the blocks, the counts and the references are the same. -/
structure Same (s s' : State P) : Prop where
  links : s'.links = s.links
  buf : ∀ b, (s'.buf b).dev = (s.buf b).dev ∧ (s'.buf b).blockno = (s.buf b).blockno ∧
    (s'.buf b).refcnt = (s.buf b).refcnt
  use : ∀ p, (s'.use p).buf = (s.use p).buf

theorem Counted.same (h : s.Counted) (hs : Same s s') : s'.Counted := by
  refine ⟨hs.links ▸ h.ring, fun b => ?_⟩
  rw [(hs.buf b).2.2]
  exact (h.refs b).congr fun p => by rw [hs.use]

/-- **The holder of a buffer changes it**, and the disk at its block at most. -/
theorem Inv.touch (h : s.Inv) (hlinks : s'.links = s.links)
    (hothers : ∀ b', b' ≠ b → s'.buf b' = s.buf b') (hdev : (s'.buf b).dev = (s.buf b).dev)
    (hblockno : (s'.buf b).blockno = (s.buf b).blockno)
    (hrefcnt : (s'.buf b).refcnt = (s.buf b).refcnt) (hb : (s.buf b).dev ≠ 0)
    (huse : ∀ p, (s'.use p).buf = (s.use p).buf)
    (hlock : ∀ b' p, (s'.buf b').lock = some p ↔ s'.use p = .locked b' ∨ s'.use p = .holding b')
    (hdisk : ∀ d n, ¬ (d = (s.buf b).dev ∧ n = (s.buf b).blockno) → s'.disk d n = s.disk d n)
    (hclean : (s'.buf b).valid = true → (s'.buf b).dirty = false →
      (s'.buf b).data = s'.disk (s'.buf b).dev (s'.buf b).blockno) : s'.Inv := by
  have hid : ∀ b', (s'.buf b').dev = (s.buf b').dev ∧ (s'.buf b').blockno = (s.buf b').blockno ∧
      (s'.buf b').refcnt = (s.buf b').refcnt := by
    intro b'
    by_cases hbb : b' = b
    · rw [hbb]
      exact ⟨hdev, hblockno, hrefcnt⟩
    · rw [hothers b' hbb]
      exact ⟨rfl, rfl, rfl⟩
  refine ⟨hlinks ▸ h.ring, fun b₁ b₂ => ?_, (h.counted.same ⟨hlinks, hid, huse⟩).refs,
    fun p b' hp => ?_, hlock, fun b' hv hd => ?_⟩
  · rw [(hid b₁).1, (hid b₂).1, (hid b₁).2.1, (hid b₂).2.1]
    exact h.unique b₁ b₂
  · rw [huse] at hp
    rw [(hid b').1]
    exact h.used p b' hp
  · by_cases hbb : b' = b
    · subst hbb
      exact hclean hv hd
    · rw [hothers b' hbb] at hv hd ⊢
      rw [h.clean b' hv hd, hdisk]
      -- no other buffer has the block that was written
      rintro ⟨hd', hn'⟩
      exact hbb (h.unique b b' hb hd'.symm hn'.symm).symm

variable [DecidableEq P] {p : P}

/-- A reference that moves on with its buffer. -/
theorem goto_use_buf {u : Use} (hu : u.buf = (s.use p).buf) (q : P) :
    ((s.goto p u).use q).buf = (s.use q).buf := by
  rw [goto_use]
  split
  next hq => rw [hq, hu]
  next => rfl

/-- **A new reference** to `b` is counted. -/
theorem Counted.refer {v : Buf P} (h : s.Counted) (hp : s.use p = .out)
    (hrefcnt : v.refcnt = (s.buf b).refcnt + 1) : ((s.setBuf b v).goto p (.waiting b)).Counted := by
  refine ⟨h.ring, fun b' => ?_⟩
  simp only [goto_buf, setBuf_buf]
  split
  next hb' =>
    subst hb'
    rw [hrefcnt]
    exact (h.refs b').enter (p := p) (by simp [hp, Use.buf]) (by simp [Use.buf]) fun q hq => by simp [hq]
  next hb' => exact (h.refs b').stay (p := p) (by simp [hp, Use.buf, Ne.symm hb']) fun q hq => by simp [hq]

/-- **A new reference** to `b`, which keeps its block or was not in use. -/
theorem Inv.refer {v : Buf P} (h : s.Inv) (hp : s.use p = .out)
    (hs : s' = (s.setBuf b v).goto p (.waiting b)) (hrefcnt : v.refcnt = (s.buf b).refcnt + 1)
    (hlock : v.lock = (s.buf b).lock) (hdev : v.dev ≠ 0)
    (hid : v.dev = (s.buf b).dev ∧ v.blockno = (s.buf b).blockno ∨ (s.buf b).refcnt = 0 ∧
      ∀ b', ¬ ((s.buf b').dev = v.dev ∧ (s.buf b').blockno = v.blockno))
    (hclean : v.valid = true → v.dirty = false → v.data = s.disk v.dev v.blockno) : s'.Inv := by
  subst hs
  have hbuf : ∀ b', b' ≠ b → ((s.setBuf b v).goto p (.waiting b)).buf b' = s.buf b' := by
    intro b' hb'
    simp [hb']
  have hnew : ((s.setBuf b v).goto p (.waiting b)).buf b = v := by simp
  have huse : ∀ q, q ≠ p → ((s.setBuf b v).goto p (.waiting b)).use q = s.use q := by
    intro q hq
    simp [hq]
  have hself : ((s.setBuf b v).goto p (.waiting b)).use p = .waiting b := by simp
  refine ⟨h.ring, fun b₁ b₂ => ?_, (h.counted.refer hp hrefcnt).refs, fun q b' hq => ?_, fun b' q => ?_,
    fun b' hv hd => ?_⟩
  · have hold := h.unique b₁ b₂
    obtain ⟨hd, hn⟩ | ⟨-, hnot⟩ := hid
    · have hsame : ∀ b', (((s.setBuf b v).goto p (.waiting b)).buf b').dev = (s.buf b').dev ∧
          (((s.setBuf b v).goto p (.waiting b)).buf b').blockno = (s.buf b').blockno := by
        intro b'
        by_cases hb' : b' = b
        · rw [hb', hnew]
          exact ⟨hd, hn⟩
        · rw [hbuf b' hb']
          exact ⟨rfl, rfl⟩
      rw [(hsame b₁).1, (hsame b₂).1, (hsame b₁).2, (hsame b₂).2]
      exact hold
    · by_cases h₁ : b₁ = b <;> by_cases h₂ : b₂ = b
      · exact fun _ _ _ => h₁.trans h₂.symm
      · rw [h₁, hnew, hbuf b₂ h₂]
        exact fun _ hd hn => absurd ⟨hd.symm, hn.symm⟩ (hnot b₂)
      · rw [h₂, hnew, hbuf b₁ h₁]
        exact fun _ hd hn => absurd ⟨hd, hn⟩ (hnot b₁)
      · rw [hbuf b₁ h₁, hbuf b₂ h₂]
        exact hold
  · by_cases hb' : b' = b
    · rw [hb', hnew]
      exact hdev
    · rw [hbuf b' hb']
      by_cases hqp : q = p
      · rw [hqp, hself] at hq
        exact absurd (some.inj hq).symm hb'
      · rw [huse q hqp] at hq
        exact h.used q b' hq
  · have hl : (((s.setBuf b v).goto p (.waiting b)).buf b').lock = (s.buf b').lock := by
      by_cases hb' : b' = b
      · rw [hb', hnew, hlock]
      · rw [hbuf b' hb']
    rw [hl, h.lock]
    by_cases hqp : q = p
    · rw [hqp, hself, hp]
      simp
    · rw [huse q hqp]
  · by_cases hb' : b' = b
    · rw [hb', hnew] at hv hd ⊢
      exact hclean hv hd
    · rw [hbuf b' hb'] at hv hd ⊢
      exact h.clean b' hv hd

/-- **A reference ends**, and the ring keeps every buffer. -/
theorem Counted.put (h : s.Counted) (hp : s.use p = .releasing b) : ((s.put b).goto p .out).Counted := by
  refine ⟨?_, fun b' => ?_⟩
  · obtain ⟨l, hl, hall⟩ := h.ring
    rw [goto_links, put_links]
    split
    · obtain ⟨l₁, l₂, rfl⟩ := append_of_mem (hall b)
      rw [map_append, map_cons] at hl
      refine ⟨b :: (l₁ ++ l₂), ?_, fun b' => ?_⟩
      · rw [map_cons, map_append]
        exact hl.moveToFront
      · have hmem := hall b'
        simp only [mem_append, mem_cons] at hmem ⊢
        tauto
    · exact ⟨l, hl, hall⟩
  · rw [goto_buf, put_buf]
    split
    next hb' =>
      subst hb'
      exact (h.refs b').leave (p := p) (by rw [hp]; rfl) (by simp [Use.buf]) fun q hq => by simp [hq]
    next hb' => exact (h.refs b').stay (p := p) (by simp [hp, Use.buf, Ne.symm hb']) fun q hq => by simp [hq]

theorem Inv.put (h : s.Inv) (hp : s.use p = .releasing b) :
    ((s.put b).goto p .out).Inv := by
  have hbuf : ∀ b', ((s.put b).goto p .out).buf b' =
      if b' = b then { s.buf b with refcnt := (s.buf b).refcnt - 1 } else s.buf b' := put_buf s b
  have huse : ∀ q, ((s.put b).goto p .out).use q = if q = p then .out else s.use q := by simp
  have hkept : ∀ b', (((s.put b).goto p .out).buf b').dev = (s.buf b').dev ∧
      (((s.put b).goto p .out).buf b').blockno = (s.buf b').blockno ∧
      (((s.put b).goto p .out).buf b').lock = (s.buf b').lock ∧
      (((s.put b).goto p .out).buf b').valid = (s.buf b').valid ∧
      (((s.put b).goto p .out).buf b').dirty = (s.buf b').dirty ∧
      (((s.put b).goto p .out).buf b').data = (s.buf b').data := by
    intro b'
    rw [hbuf]
    split <;> simp_all
  have hc := h.counted.put hp
  refine ⟨hc.ring, fun b₁ b₂ => ?_, hc.refs, fun q b' hq => ?_, fun b' q => ?_, fun b' => ?_⟩
  · rw [(hkept b₁).1, (hkept b₂).1, (hkept b₁).2.1, (hkept b₂).2.1]
    exact h.unique b₁ b₂
  · rw [huse] at hq
    split at hq
    · cases hq
    · rw [(hkept b').1]
      exact h.used q b' hq
  · rw [(hkept b').2.2.1, h.lock, huse]
    split
    next hq => simp [hq, hp]
    next => rfl
  · obtain ⟨hd, hn, -, hv, hdirty, hdata⟩ := hkept b'
    rw [hd, hn, hv, hdirty, hdata, goto_disk, put_disk]
    exact h.clean b'

omit [DecidableEq P] in
/-- `iderw` makes a buffer agree with the disk. -/
theorem iderw_spec (s : State P) (b : Fin NBUF) :
    (∀ b', b' ≠ b → (s.iderw b).buf b' = s.buf b') ∧
    ((s.iderw b).buf b).dev = (s.buf b).dev ∧ ((s.iderw b).buf b).blockno = (s.buf b).blockno ∧
    ((s.iderw b).buf b).refcnt = (s.buf b).refcnt ∧ ((s.iderw b).buf b).lock = (s.buf b).lock ∧
    (s.iderw b).links = s.links ∧ (s.iderw b).use = s.use ∧
    (∀ d n, ¬ (d = (s.buf b).dev ∧ n = (s.buf b).blockno) → (s.iderw b).disk d n = s.disk d n) ∧
    ((s.iderw b).buf b).data = (s.iderw b).disk (s.buf b).dev (s.buf b).blockno := by
  unfold State.iderw
  split
  · refine ⟨fun b' hb' => by simp [hb'], by simp, by simp, by simp, by simp, rfl, rfl,
      fun d n hdn => if_neg hdn, by simp⟩
  · exact ⟨fun b' hb' => by simp [hb'], by simp, by simp, by simp, by simp, rfl, rfl, fun _ _ _ => rfl,
      by simp⟩

omit [DecidableEq P] in
theorem Inv.iderw (h : s.Inv) (hb : (s.buf b).dev ≠ 0) : (s.iderw b).Inv := by
  obtain ⟨hothers, hd, hn, hr, hl, hlinks, huse, hdisk, hdata⟩ := iderw_spec s b
  refine h.touch hlinks hothers hd hn hr hb (fun q => by rw [huse]) (fun b' q => ?_) hdisk fun _ _ => ?_
  · rw [huse, ← h.lock]
    by_cases hb' : b' = b
    · rw [hb', hl]
    · rw [hothers b' hb']
  · rw [hdata, hd, hn]

omit [DecidableEq P] in
theorem Inv.logWrite {data : Block} (h : s.Inv) (hb : (s.buf b).dev ≠ 0) :
    (s.logWrite b data).Inv := by
  refine h.touch (b := b) rfl (fun b' hb' => ?_) ?_ ?_ ?_ hb (fun _ => rfl) (fun b' q => ?_)
    (fun _ _ _ => rfl) ?_
  all_goals simp only [State.logWrite, setBuf_buf, if_true, setBuf_use]
  · rw [if_neg hb']
  · rw [← h.lock]
    split
    next heq => rw [heq]
    next => rfl
  · exact fun _ hdirty => nomatch hdirty

/-- A reference moves on with its buffer; the buffer's lock follows. -/
theorem Inv.moveOn {u : Use} {l : Option P} (h : s.Inv) (hp : (s.use p).buf = some b)
    (hu : u.buf = some b) (hlock : ∀ q, l = some q ↔ if q = p then u = .locked b ∨ u = .holding b
      else s.use q = .locked b ∨ s.use q = .holding b) :
    ((s.setBuf b { s.buf b with lock := l }).goto p u).Inv := by
  refine h.touch (b := b) rfl (fun b' hb' => by simp [hb']) (by simp) (by simp) (by simp)
    (h.used p b hp) (goto_use_buf (hu.trans hp.symm)) (fun b' q => ?_) (fun _ _ _ => rfl)
    (by simpa using h.clean b)
  have hold := h.lock b' q
  simp only [goto_buf, setBuf_buf, goto_use, setBuf_use]
  by_cases hb' : b' = b
  · subst hb'
    rw [if_pos rfl, hlock]
    split <;> rfl
  · rw [if_neg hb', hold]
    by_cases hq : q = p
    · subst hq
      -- `u` and the old place of `p` belong to `b`, not to `b'`
      have hnot : ∀ w : Use, w.buf = some b → ¬ (w = .locked b' ∨ w = .holding b') := by
        rintro w hw (rfl | rfl) <;> exact hb' (some.inj hw)
      rw [if_pos rfl]
      exact iff_of_false (hnot _ hp) (hnot _ hu)
    · rw [if_neg hq]

/-- **What a step does.** -/
inductive Steps (s : State P) : Event P → State P → Prop
  | hit {p : P} {dev blockno : ℕ} {b : Fin NBUF} (hp : s.use p = .out)
      (hhas : (s.buf b).dev = dev ∧ (s.buf b).blockno = blockno) : Steps s (.bget p dev blockno)
        ((s.setBuf b { s.buf b with refcnt := (s.buf b).refcnt + 1 }).goto p (.waiting b))
  | miss {p : P} {dev blockno : ℕ} {b : Fin NBUF} (hp : s.use p = .out)
      (hnot : ∀ b, ¬ ((s.buf b).dev = dev ∧ (s.buf b).blockno = blockno))
      (hfree : (s.buf b).refcnt = 0 ∧ (s.buf b).dirty = false) : Steps s (.bget p dev blockno)
        ((s.setBuf b { s.buf b with
          dev := dev, blockno := blockno, valid := false, dirty := false, refcnt := 1 }).goto p (.waiting b))
  | lock {p : P} {b : Fin NBUF} (hp : s.use p = .waiting b) (hfree : (s.buf b).lock = none) :
      Steps s (.lock p) ((s.setBuf b { s.buf b with lock := some p }).goto p (.locked b))
  | fill {p : P} {b : Fin NBUF} (hp : s.use p = .locked b) : Steps s (.fill p) ((s.fill b).goto p (.holding b))
  | bwrite {p : P} {b : Fin NBUF} {d : Block} (hp : s.use p = .holding b) : Steps s (.bwrite p d) (s.bwrite b d)
  | logWrite {p : P} {b : Fin NBUF} {d : Block} (hp : s.use p = .holding b) :
      Steps s (.logWrite p d) (s.logWrite b d)
  | unlock {p : P} {b : Fin NBUF} (hp : s.use p = .holding b) :
      Steps s (.unlock p) ((s.setBuf b { s.buf b with lock := none }).goto p (.releasing b))
  | put {p : P} {b : Fin NBUF} (hp : s.use p = .releasing b) : Steps s (.put p) ((s.put b).goto p .out)

theorem Counted.steps {e : Event P} (h : s.Counted) (hstep : s.stepAny e = some s') : Steps s e s' := by
  cases e with
  | bget p dev blockno =>
    obtain ⟨hp, hs⟩ := ite_none_right_eq_some.mp hstep
    unfold State.bget at hs
    obtain ⟨b, hcached, hhas⟩ | ⟨hcached, hnot⟩ := h.cached dev blockno
    · rw [hcached] at hs
      cases hs
      exact .hit hp hhas
    · rw [hcached] at hs
      obtain ⟨b, hunused, hfree⟩ | ⟨hunused, -⟩ := h.unused
      · rw [hunused] at hs
        cases hs
        exact .miss hp hnot hfree
      · rw [hunused] at hs
        cases hs
  | _ p =>
    simp only [stepAny, State.step] at hstep
    split at hstep
    · grind [Steps]
    · cases hstep

theorem Inv.steps {e : Event P} (h : s.Inv) (hstep : s.step e = some s') : Steps s e s' := by
  refine h.counted.steps ?_
  cases e with
  | bget => exact (if_pos (ite_none_right_eq_some.mp hstep).1.1).trans (ite_none_right_eq_some.mp hstep).2
  | _ => exact hstep

/-- **Every step keeps the invariant.** -/
theorem Inv.step {e : Event P} (h : s.Inv) (hstep : s.step e = some s') : s'.Inv := by
  cases h.steps hstep with
  | @hit p dev _ b hp hhas =>
    have hdev : dev ≠ 0 := (ite_none_right_eq_some.mp hstep).1.2
    exact h.refer hp rfl rfl rfl (hhas.1 ▸ hdev) (.inl ⟨rfl, rfl⟩) (h.clean b)
  | miss hp hnot hfree =>
    exact h.refer hp rfl (by rw [hfree.1]) rfl (ite_none_right_eq_some.mp hstep).1.2 (.inr ⟨hfree.1, hnot⟩) nofun
  | @lock p b hp hfree =>
    refine h.moveOn (by rw [hp]; rfl) rfl fun q => ?_
    have hlock := h.lock b q
    grind
  | @fill p b hp =>
    have hb : (s.use p).buf = some b := by rw [hp]; rfl
    obtain ⟨hfill, huse, hl⟩ : (s.fill b).Inv ∧ (s.fill b).use = s.use ∧
        ((s.fill b).buf b).lock = (s.buf b).lock := by
      unfold State.fill
      split
      · exact ⟨h, rfl, rfl⟩
      · obtain ⟨-, -, -, -, hl, -, huse, -, -⟩ := iderw_spec s b
        exact ⟨h.iderw (h.used p b hb), huse, hl⟩
    have hself : s.fill b = (s.fill b).setBuf b { (s.fill b).buf b with lock := (s.buf b).lock } := by
      rw [← hl]
      simp [setBuf]
    rw [hself]
    refine hfill.moveOn (by rw [huse]; exact hb) rfl fun q => ?_
    have hlock := h.lock b q
    rw [huse]
    grind
  | @bwrite p b data hp =>
    have hb := h.used p b (by rw [hp]; rfl)
    have hlogged : (s.logWrite b data).Inv := h.logWrite hb
    exact hlogged.iderw (by simpa [State.logWrite] using hb)
  | @logWrite p b data hp => exact h.logWrite (h.used p b (by rw [hp]; rfl))
  | @unlock p b hp =>
    refine h.moveOn (by rw [hp]; rfl) rfl fun q => ?_
    have hlock := h.lock b q
    have hlockp := h.lock b p
    grind
  | put hp => exact h.put hp

/-! ## Whole runs -/

/-- `binit` makes the ring of all buffers. -/
theorem foldl_pushFront {k : Ring.Links Node} {l bs : List (Fin NBUF)}
    (h : Ring.Contents k none (l.map some)) (hnodup : (bs ++ l).Nodup) :
    Ring.Contents (bs.foldl (fun k b => Ring.pushFront k none (some b)) k) none
      ((bs.reverse ++ l).map some) := by
  induction bs generalizing k l with
  | nil => exact h
  | cons b bs ih =>
    rw [cons_append, nodup_cons] at hnodup
    have hb : some b ∉ none :: l.map some := by
      simpa using fun hmem => hnodup.1 (mem_append_right bs hmem)
    have hnext := ih (l := b :: l) (h.pushFront hb)
      ((perm_middle.nodup_iff).mpr (nodup_cons.mpr hnodup))
    simpa using hnext

omit [DecidableEq P] in
theorem inv_binit (disk : ℕ → ℕ → Block) : (binit disk : State P).Inv := by
  have hempty : Ring.Contents (⟨fun _ => none, fun _ => none⟩ : Ring.Links Node) none
      (([] : List (Fin NBUF)).map some) := ⟨by simp [Ring.Linked], by simp⟩
  refine ⟨⟨(finRange NBUF).reverse ++ [], foldl_pushFront hempty ?_, by simp⟩,
    fun _ _ hdev => absurd rfl hdev, fun _ => .of_not fun p hp => ?_, fun p b hp => ?_, fun _ _ => ?_,
    fun b hv => ?_⟩
  · simpa using nodup_finRange NBUF
  · cases hp
  · cases hp
  · simp [binit]
  · cases hv

theorem run_inv {disk : ℕ → ℕ → Block} {events : List (Event P)}
    (hrun : Runs.run step (binit disk) events = some s) : s.Inv :=
  Runs.run_invariant (I := Inv) (fun _ _ _ hstep h => h.step hstep) hrun (inv_binit disk)

/-- The buffer has the same block in both states. -/
def SameBlock (s s' : State P) (b : Fin NBUF) : Prop :=
  (s'.buf b).dev = (s.buf b).dev ∧ (s'.buf b).blockno = (s.buf b).blockno

/-- Only `bget` and `brelse` change the ring, the blocks and the counts. -/
theorem Steps.same {e : Event P} (hs : Steps s e s') (hget : ∀ p dev n, e ≠ .bget p dev n)
    (hput : ∀ p, e ≠ .put p) : Same s s' := by
  cases hs with
  | hit | miss => simp at hget
  | put => simp at hput
  | @lock p b hp | @fill p b hp | @bwrite p b _ hp | @logWrite p b _ hp | @unlock p b hp =>
    refine ⟨?_, fun b' => ?_, fun q => ?_⟩
    all_goals simp only [State.fill, State.bwrite, State.logWrite, State.iderw, goto_links, goto_buf, goto_use]
    · simp [apply_ite State.links]
    · by_cases hb' : b' = b <;> simp [hb', apply_ite State.buf, ite_apply, apply_ite Buf.dev,
        apply_ite Buf.blockno, apply_ite Buf.refcnt]
    · by_cases hq : q = p <;> simp [hq, hp, apply_ite State.use, Use.buf]

/-- The references stay counted, whatever the devices are. -/
theorem Counted.step {e : Event P} (h : s.Counted) (hs : Steps s e s') : s'.Counted := by
  have hsame := hs.same
  cases hs with
  | hit hp => exact h.refer hp rfl
  | miss hp _ hfree => exact h.refer hp (by rw [hfree.1])
  | put hp => exact h.put hp
  | _ => exact h.same (hsame nofun nofun)

/-- A count goes to 0 when its buffer goes to the front, and only then does the ring change. -/
theorem Steps.links {e : Event P} (hs : Steps s e s') (hc : s.Counted) :
    (s'.links = s.links ∧ ∀ b, ¬ (0 < (s.buf b).refcnt ∧ (s'.buf b).refcnt = 0)) ∨
    ∃ b, (0 < (s.buf b).refcnt ∧ (s'.buf b).refcnt = 0) ∧ (∀ b', b' ≠ b → s'.buf b' = s.buf b') ∧
      s'.links = Ring.pushFront (Ring.unlink s.links (some b)) none (some b) := by
  have hsame := hs.same
  cases hs with
  | @hit p _ _ b | @miss p _ _ b =>
    refine .inl ⟨rfl, fun b' => ?_⟩
    by_cases hb' : b' = b <;> simp [hb', Nat.pos_iff_ne_zero]
  | @put p b hp =>
    have hpos := (hc.refs b).pos (p := p) (by rw [hp]; rfl)
    by_cases hzero : ((s.put b).buf b).refcnt = 0
    · exact .inr ⟨b, ⟨hpos, hzero⟩, fun b' hb' => by simp [hb'], (put_links s b).trans (if_pos hzero)⟩
    · refine .inl ⟨(put_links s b).trans (if_neg hzero), fun b' hb' => ?_⟩
      by_cases heq : b' = b
      · exact hzero (heq ▸ hb'.2)
      · simp [heq] at hb'
        omega
  | _ =>
    refine .inl ⟨(hsame nofun nofun).links, fun b => ?_⟩
    rw [((hsame nofun nofun).buf b).2.2]
    omega

/-- **A buffer gets another block only while nobody uses it and it is not dirty.** -/
theorem Inv.recycled {e : Event P} (h : s.Inv) (hstep : s.step e = some s') (b : Fin NBUF) :
    SameBlock s s' b ∨ (s.buf b).refcnt = 0 ∧ (s.buf b).dirty = false := by
  have hs := h.steps hstep
  have hsame := hs.same
  cases hs with
  | @hit p _ _ b' | @put p b' => by_cases hb : b = b' <;> simp [SameBlock, hb]
  | @miss p _ _ b' _ _ hfree =>
    by_cases hb : b = b'
    · exact .inr (hb ▸ hfree)
    · simp [SameBlock, hb]
  | _ => exact .inl ⟨((hsame nofun nofun).buf b).1, ((hsame nofun nofun).buf b).2.1⟩

/-- **The buffer cache keeps its integrity in every run**: the ring goes through each buffer once, in
both directions; no two buffers have the same block; a buffer is counted as often as it is referred to;
one that is in use or dirty keeps its block; and one that is valid, not dirty and not locked holds what
is on the disk. -/
theorem bcache_run {disk : ℕ → ℕ → Block} {events : List (Event P)}
    (hrun : Runs.run step (binit disk) events = some s) :
    (∃ l : List (Fin NBUF), Ring.Contents s.links none (l.map some) ∧ ∀ b, b ∈ l) ∧
    (∀ b b', (s.buf b).dev ≠ 0 → (s.buf b).dev = (s.buf b').dev →
      (s.buf b).blockno = (s.buf b').blockno → b = b') ∧
    (∀ b, Census (fun p => (s.use p).buf = some b) (s.buf b).refcnt) ∧
    (∀ e s', s.step e = some s' → ∀ b, 0 < (s.buf b).refcnt ∨ (s.buf b).dirty = true →
      SameBlock s s' b) ∧
    ∀ b, (s.buf b).valid = true → (s.buf b).dirty = false → (s.buf b).lock = none →
      (s.buf b).data = s.disk (s.buf b).dev (s.buf b).blockno := by
  have h := run_inv hrun
  refine ⟨h.ring, h.unique, h.refs, fun e s' hstep b hb => ?_, fun b hv hd _ => h.clean b hv hd⟩
  obtain hsame | ⟨hzero, hclean⟩ := h.recycled hstep b
  · exact hsame
  · rw [hzero, hclean] at hb
    obtain hb | hb := hb
    · exact absurd hb (lt_irrefl 0)
    · cases hb

/-- Two readers of block 7 of device 1, the first of which writes it. -/
def twoReaders : List (Event ℕ) :=
  [.bget 0 1 7, .bget 1 1 7, .lock 0, .fill 0, .bwrite 0 fun _ => 5, .unlock 0, .put 0, .lock 1, .fill 1]

theorem isSome_twoReaders :
    (Runs.run step (binit fun _ _ _ => 0 : State ℕ) twoReaders).isSome = true := by
  decide +kernel

/-- After it the references are counted and the buffers at rest agree with the disk. -/
theorem bcache_run_twoReaders : ∃ s, Runs.run step (binit fun _ _ _ => 0) twoReaders = some s ∧
    (∀ b, Census (fun p => (s.use p).buf = some b) (s.buf b).refcnt) ∧
    ∀ b, (s.buf b).valid = true → (s.buf b).dirty = false → (s.buf b).lock = none →
      (s.buf b).data = s.disk (s.buf b).dev (s.buf b).blockno :=
  have hrun := (some_get isSome_twoReaders).symm
  ⟨_, hrun, (bcache_run hrun).2.2.1, (bcache_run hrun).2.2.2.2⟩

end State

end Bcache
