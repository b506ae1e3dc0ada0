/-
# References to files

The reference count of a file table entry against the descriptors that point to it, over all processes,
and what the files are to the pipes: an end of a pipe is open exactly while a file is that end, and the
page of a pipe is there exactly while one of its ends is open.

With `InodeRefs` this gives both balances for whole runs: after any sequence of completed calls, every
`ref` of a file is the number of descriptors, and every `ref` of an inode the number of open files and
current directories.
-/
import Xv6.InodeRefs

namespace Sysfile

open Function Prog Outcome Option List

/-! ## The counts of the file table -/

/-- An end of a pipe is open. -/
def openEnd (s : State) (page : ℕ) (w : Bool) : Bool :=
  (s.pipe page).any fun p => if w then p.writeopen else p.readopen

/-- The file is the read end, or with `w` the write end, of the pipe. -/
def IsEnd (s : State) (page : ℕ) (w : Bool) (f : FilePtr) : Prop :=
  (s.ftable f).type = .pipe ∧ (s.ftable f).pipe = page ∧ (s.ftable f).writable = w

/-- **The counts of the file table**, while a call holds `h`, and the process `x` is being made or is
about to end. -/
structure FileRefs (h : FilePtr → ℤ) (x : Option ℕ) (s : State) : Prop where
  counted : ∀ f, ∃ n : ℕ, (s.ftable f).ref = n + h f ∧
    Census (fun q : ℕ × Fd => (s.proc q.1).ofile q.2 = some f) n
  nonneg : ∀ f, 0 ≤ (s.ftable f).ref
  closed : ∀ f, (s.ftable f).ref = 0 → (s.ftable f).type = .none
  isOpen : ∀ page w, openEnd s page w = true ↔ ∃ f, IsEnd s page w f
  page : ∀ page, (s.pipe page).isSome = true → ∃ w, openEnd s page w = true
  oneEnd : ∀ page w f f', IsEnd s page w f → IsEnd s page w f' → f = f'
  absent : ∀ q, x ≠ some q → (s.proc q).live = false →
    (s.proc q).cwd = none ∧ ∀ fd, (s.proc q).ofile fd = none
  present : ∀ q, x ≠ some q → (s.proc q).live = true → (s.proc q).cwd ≠ none

namespace FileRefs

variable {h : FilePtr → ℤ} {x : Option ℕ} {s s' : State} {f : FilePtr} {p : ℕ}

section

variable (hs : FileRefs h x s)

include hs

theorem congr (hsame : SameFiles s s') : FileRefs h x s' := by
  have hend : ∀ page w f, IsEnd s' page w f ↔ IsEnd s page w f := by
    intro page w f
    unfold IsEnd
    rw [hsame.type, hsame.page, hsame.writable]
  refine ⟨fun f => ?_, fun f => ?_, fun f => ?_, fun page w => ?_, fun page => ?_,
    fun page w f f' => ?_, ?_, ?_⟩
  · rw [hsame.ref, hsame.proc]
    exact hs.counted f
  · rw [hsame.ref]
    exact hs.nonneg f
  · rw [hsame.ref, hsame.type]
    exact hs.closed f
  · simp only [hend]
    unfold openEnd
    rw [hsame.pipe]
    exact hs.isOpen page w
  · unfold openEnd
    rw [hsame.pipe]
    exact hs.page page
  · rw [hend, hend]
    exact hs.oneEnd page w f f'
  · rw [hsame.proc]
    exact hs.absent
  · rw [hsame.proc]
    exact hs.present

/-- What the call holds has a count. -/
theorem one_le_ref (hf : 1 ≤ h f) : 1 ≤ (s.ftable f).ref := by
  obtain ⟨n, hn, -⟩ := hs.counted f
  omega

/-- What a descriptor points to has a count. -/
theorem one_le_ref_of_ofile {q : ℕ} {fd : Fd} (hfd : (s.proc q).ofile fd = some f) (hf : 0 ≤ h f) :
    1 ≤ (s.ftable f).ref := by
  obtain ⟨n, hn, hcensus⟩ := hs.counted f
  have hpos := hcensus.pos (p := (q, fd)) hfd
  omega

/-- A file changes; what the call holds changes with the count. -/
theorem setEntry {v : FileEntry} {d : ℤ} (hftable : s'.ftable = update s.ftable f v)
    (hproc : s'.proc = s.proc) (href : v.ref = (s.ftable f).ref + d) (hnonneg : 0 ≤ v.ref)
    (hclosed : v.ref = 0 → v.type = .none)
    (hisOpen : ∀ page w, openEnd s' page w = true ↔ ∃ f, IsEnd s' page w f)
    (hpage : ∀ page, (s'.pipe page).isSome = true → ∃ w, openEnd s' page w = true)
    (honeEnd : ∀ page w f f', IsEnd s' page w f → IsEnd s' page w f' → f = f') :
    FileRefs (h + Pi.single f d) x s' := by
  refine ⟨?_, ?_, ?_, hisOpen, hpage, honeEnd, hproc ▸ hs.absent, hproc ▸ hs.present⟩
  · rw [hproc]
    refine Counts.shift hs.counted ?_ fun f' hf' => ?_
    · rw [hftable, update_self, href]
    · rw [hftable, update_of_ne hf']
  · rw [hftable]
    exact (forall_update_iff _ fun _ (e : FileEntry) => 0 ≤ e.ref).mpr ⟨hnonneg, fun f' _ => hs.nonneg f'⟩
  · rw [hftable]
    exact (forall_update_iff _ fun _ (e : FileEntry) => e.ref = 0 → e.type = .none).mpr
      ⟨hclosed, fun f' _ => hs.closed f'⟩

/-- **A file changes**, but not as an end of a pipe. -/
theorem shift {v : FileEntry} {d : ℤ} (href : v.ref = (s.ftable f).ref + d) (hnonneg : 0 ≤ v.ref)
    (hclosed : v.ref = 0 → v.type = .none)
    (hend : ∀ page w, v.type = .pipe ∧ v.pipe = page ∧ v.writable = w ↔ IsEnd s page w f) :
    FileRefs (h + Pi.single f d) x (s.setFile f v) := by
  have hends : ∀ page w f', IsEnd (s.setFile f v) page w f' ↔ IsEnd s page w f' := by
    intro page w f'
    by_cases hf' : f' = f
    · rw [hf', ← hend]
      simp [IsEnd, State.setFile]
    · simp [IsEnd, State.setFile, hf']
  refine hs.setEntry rfl rfl href hnonneg hclosed (fun page w => ?_) hs.page fun page w f₁ f₂ => ?_
  · simp only [hends]
    exact hs.isOpen page w
  · rw [hends, hends]
    exact hs.oneEnd page w f₁ f₂

/-- A process changes, which is `x` or stays as it has to be. -/
theorem setProc {v : Proc} {h' : FilePtr → ℤ} {x' : Option ℕ}
    (hx : ∀ q, q ≠ p → x' ≠ some q → x ≠ some q)
    (hcounted : Counts (fun f => (s.ftable f).ref) h' fun q : ℕ × Fd =>
      ((s.setProc p v).proc q.1).ofile q.2)
    (habsent : x' ≠ some p → v.live = false → v.cwd = none ∧ ∀ fd, v.ofile fd = none)
    (hpresent : x' ≠ some p → v.live = true → v.cwd ≠ none) : FileRefs h' x' (s.setProc p v) := by
  refine ⟨hcounted, hs.nonneg, hs.closed, hs.isOpen, hs.page, hs.oneEnd, fun q hq => ?_, fun q hq => ?_⟩
  all_goals
    simp only [State.setProc, update_apply]
    split
  next hp => exact habsent (hp ▸ hq)
  next hp => exact hs.absent q (hx q hp hq)
  next hp => exact hpresent (hp ▸ hq)
  next hp => exact hs.present q (hx q hp hq)

/-- **A descriptor changes** from `a` to `b`. -/
theorem setOfile {fd : Fd} {a b : Option FilePtr} (ha : (s.proc p).ofile fd = a)
    (hp : x = some p ∨ (s.proc p).live = true) :
    FileRefs (h + pointed a - pointed b) x (s.setOfile p fd b) := by
  refine hs.setProc (fun _ _ hx => hx) ?_ (fun hx hlive => ?_) (hs.present p)
  · have hcounts := Counts.repoint (p := (p, fd)) hs.counted
      (U := fun q => ((s.setOfile p fd b).proc q.1).ofile q.2) fun q hq => ?_
    · simpa [State.setOfile, State.setProc, ha] using hcounts
    · simp only [State.setOfile, State.setProc, update_apply]
      by_cases hqp : q.1 = p
      · have hfd : q.2 ≠ fd := fun heq => hq (Prod.ext hqp heq)
        simp [hqp, hfd]
      · simp [hqp]
  · have hlive' := hp.resolve_left hx
    rw [hlive] at hlive'
    cases hlive'

/-- **The last reference to a file is dropped**: it is no end of a pipe any more. -/
theorem close (href : (s.ftable f).ref = 1)
    (hftable : s'.ftable = update s.ftable f { s.ftable f with ref := 0, type := .none })
    (hproc : s'.proc = s.proc)
    (hopen : ∀ page w, openEnd s' page w = true ↔ openEnd s page w = true ∧ ¬ IsEnd s page w f)
    (hpage : ∀ page, (s'.pipe page).isSome = true → ∃ w, openEnd s' page w = true) :
    FileRefs (h + Pi.single f (-1)) x s' := by
  have hend : ∀ page w f', IsEnd s' page w f' ↔ f' ≠ f ∧ IsEnd s page w f' := by
    intro page w f'
    unfold IsEnd
    rw [hftable]
    by_cases hf' : f' = f <;> simp [hf']
  refine hs.setEntry hftable hproc (by rw [href]; rfl) le_rfl (fun _ => rfl) (fun page w => ?_) hpage
    fun page w f₁ f₂ h₁ h₂ => ?_
  · rw [hopen, hs.isOpen]
    constructor
    · rintro ⟨⟨f', hf'⟩, hnot⟩
      exact ⟨f', (hend page w f').mpr ⟨fun heq => hnot (heq ▸ hf'), hf'⟩⟩
    · rintro ⟨f', hf'⟩
      obtain ⟨hne, hf'⟩ := (hend page w f').mp hf'
      -- the pipe has one file for each end
      exact ⟨⟨f', hf'⟩, fun hf => hne (hs.oneEnd page w f' f hf' hf)⟩
  · exact hs.oneEnd page w f₁ f₂ ((hend page w f₁).mp h₁).2 ((hend page w f₂).mp h₂).2

/-- **A new pipe**, with a file for each end. -/
theorem newPipe {f0 f1 : FilePtr} {page : ℕ} (hne : f0 ≠ f1) (h0 : 1 ≤ (s.ftable f0).ref)
    (h1 : 1 ≤ (s.ftable f1).ref) (ht0 : (s.ftable f0).type = .none)
    (ht1 : (s.ftable f1).type = .none) (hpage : s.pipe page = none)
    (hother : ∀ f, f ≠ f0 → f ≠ f1 → s'.ftable f = s.ftable f)
    (hself0 : s'.ftable f0 = { s.ftable f0 with type := .pipe, pipe := page, readable := true, writable := false })
    (hself1 : s'.ftable f1 = { s.ftable f1 with type := .pipe, pipe := page, readable := false, writable := true })
    (hproc : s'.proc = s.proc) (hpipe : s'.pipe = update s.pipe page (some ⟨true, true⟩)) :
    FileRefs h x s' := by
  have hnoEnd : ∀ w f, ¬ IsEnd s page w f := by
    intro w f hf
    have hopen := (hs.isOpen page w).mpr ⟨f, hf⟩
    simp [openEnd, hpage] at hopen
  have hend : ∀ page' w f, IsEnd s' page' w f ↔
      IsEnd s page' w f ∨ page = page' ∧ f = if w then f1 else f0 := by
    intro page' w f
    unfold IsEnd
    by_cases hf0 : f = f0
    · subst hf0
      rw [hself0, ht0]
      cases w <;> simp [hne]
    · by_cases hf1 : f = f1
      · subst hf1
        rw [hself1, ht1]
        cases w <;> simp [hf0]
      · rw [hother f hf0 hf1]
        cases w <;> simp [hf0, hf1]
  have hopen : ∀ page' w, openEnd s' page' w = true ↔ openEnd s page' w = true ∨ page = page' := by
    intro page' w
    unfold openEnd
    rw [hpipe]
    by_cases hp : page = page'
    · subst hp
      cases w <;> simp
    · simp [hp, update_of_ne (Ne.symm hp)]
  have hentry : ∀ f, (s'.ftable f).ref = (s.ftable f).ref ∧
      ((s.ftable f).ref = 0 → (s'.ftable f).type = .none) := by
    intro f
    by_cases hf0 : f = f0
    · subst hf0
      rw [hself0]
      exact ⟨rfl, fun hzero => by omega⟩
    · by_cases hf1 : f = f1
      · subst hf1
        rw [hself1]
        exact ⟨rfl, fun hzero => by omega⟩
      · rw [hother f hf0 hf1]
        exact ⟨rfl, hs.closed f⟩
  refine ⟨fun f => ?_, fun f => ?_, fun f => ?_, fun page' w => ?_, fun page' hsome => ?_,
    fun page' w f f' hf hf' => ?_, hproc ▸ hs.absent, hproc ▸ hs.present⟩
  · rw [(hentry f).1, hproc]
    exact hs.counted f
  · rw [(hentry f).1]
    exact hs.nonneg f
  · rw [(hentry f).1]
    exact (hentry f).2
  · rw [hopen, hs.isOpen]
    constructor
    · rintro (⟨f, hf⟩ | hp)
      · exact ⟨f, (hend page' w f).mpr (.inl hf)⟩
      · exact ⟨_, (hend page' w _).mpr (.inr ⟨hp, rfl⟩)⟩
    · rintro ⟨f, hf⟩
      obtain hf | ⟨hp, -⟩ := (hend page' w f).mp hf
      · exact .inl ⟨f, hf⟩
      · exact .inr hp
  · by_cases hp : page = page'
    · exact ⟨true, (hopen page' true).mpr (.inr hp)⟩
    · rw [hpipe, update_of_ne (Ne.symm hp)] at hsome
      obtain ⟨w, hw⟩ := hs.page page' hsome
      exact ⟨w, (hopen page' w).mpr (.inl hw)⟩
  · obtain hf | ⟨hp, hf⟩ := (hend page' w f).mp hf
    · obtain hf' | ⟨hp', -⟩ := (hend page' w f').mp hf'
      · exact hs.oneEnd page' w f f' hf hf'
      · exact absurd (hp'.symm ▸ hf) (hnoEnd w f)
    · obtain hf' | ⟨-, hf'⟩ := (hend page' w f').mp hf'
      · exact absurd (hp.symm ▸ hf') (hnoEnd w f')
      · exact hf.trans hf'.symm

/-- A process changes, but not its descriptors. -/
theorem setSame {v : Proc} {x' : Option ℕ} (hv : v.ofile = (s.proc p).ofile)
    (hx : ∀ q, q ≠ p → x' ≠ some q → x ≠ some q)
    (habsent : x' ≠ some p → v.live = false → v.cwd = none ∧ ∀ fd, v.ofile fd = none)
    (hpresent : x' ≠ some p → v.live = true → v.cwd ≠ none) : FileRefs h x' (s.setProc p v) := by
  have hofile : ∀ q, ((s.setProc p v).proc q).ofile = (s.proc q).ofile := by
    intro q
    simp only [State.setProc, update_apply]
    split
    next hq => rw [hv, hq]
    next => rfl
  refine hs.setProc hx ?_ habsent hpresent
  simp only [hofile]
  exact hs.counted

/-- The current directory of a process changes. -/
theorem setCwd (ip : Option InodePtr) (hp : x = some p ∨ (s.proc p).live = true ∧ ip ≠ none) :
    FileRefs h x (s.setCwd p ip) := by
  refine hs.setSame rfl (fun _ _ hx => hx) (fun hx hlive => ?_) fun hx _ => (hp.resolve_left hx).2
  exact absurd (hlive.symm.trans (hp.resolve_left hx).1) (by decide)

end

/-- The process that was being made or ended is ready, or gone. -/
theorem setLive {live : Bool} (hs : FileRefs h (some p) s)
    (hlive : live = true → (s.proc p).cwd ≠ none)
    (hdead : live = false → (s.proc p).cwd = none ∧ ∀ fd, (s.proc p).ofile fd = none) :
    FileRefs h none (s.setLive p live) :=
  hs.setSame rfl (fun _ hq _ heq => hq (some.inj heq).symm) (fun _ => hdead) fun _ => hlive

end FileRefs

/-! ## Closing a file -/

variable {h : InodePtr → ℤ} {g : FilePtr → ℤ} {x : Option ℕ} {s s' : State} {p : ℕ} {f : FilePtr}

variable {v : FileEntry}

/-- The target of a file that is not changed. -/
theorem target_setFile {a : FilePtr ⊕ ℕ} (ha : a ≠ .inl f) :
    target (s.setFile f v) a = target s a := by
  cases a with
  | inl f' =>
    have hf' : f' ≠ f := fun heq => ha (by rw [heq])
    simp [target, State.setFile, hf']
  | inr q => rfl

theorem target_setFile_self :
    target (s.setFile f v) (.inl f) = if v.type = .inode then some v.ip else none := by
  simp [target, State.setFile]

/-- A file that refers to the same inode as before. -/
theorem InodeRefs.setFile (hs : InodeRefs h s)
    (hv : (if v.type = .inode then some v.ip else none) = target s (.inl f)) :
    InodeRefs h (s.setFile f v) := by
  have hset := hs.repoint (show (s.setFile f v).icache = s.icache from rfl) (.inl f)
    fun b hb => target_setFile hb
  rwa [target_setFile_self, hv, add_sub_cancel_right] at hset

/-- A change of a pipe does not matter to inodes. -/
theorem InodeRefs.setPipe {page : ℕ} {v : Option Pipe} (hs : InodeRefs h s) :
    InodeRefs h (s.setPipe page v) := ⟨hs.counted, hs.unique⟩

/-- An end of a pipe as `pipeclose` leaves it. -/
def endOf (v : Option Pipe) (w : Bool) : Bool := v.any fun p => if w then p.writeopen else p.readopen

theorem openEnd_setPipe (page page' : ℕ) (v : Option Pipe) (w : Bool) :
    openEnd (s.setPipe page v) page' w = if page' = page then endOf v w else openEnd s page' w := by
  simp only [openEnd, State.setPipe, update_apply]
  by_cases hp : page' = page
  · rw [if_pos hp, if_pos hp]
    rfl
  · rw [if_neg hp, if_neg hp]

/-- `pipeclose` of an open end: the end is closed, and with the second one the page is freed. -/
theorem pipeclose_spec {page : ℕ} {w : Bool} (hopen : openEnd s page w = true) :
    ∃ v, s.pipeclose page w = .ok (s.setPipe page v) ∧
      (∀ w', endOf v w' = true ↔ openEnd s page w' = true ∧ w' ≠ w) ∧
      (v.isSome = true → ∃ w', endOf v w' = true) := by
  obtain ⟨⟨r, wr⟩, hpp⟩ : ∃ pp, s.pipe page = some pp := by
    cases hp : s.pipe page with
    | none => simp [openEnd, hp] at hopen
    | some pp => exact ⟨pp, rfl⟩
  unfold State.pipeclose openEnd at *
  rw [hpp] at hopen ⊢
  -- which end is closed, and whether the other one is open
  cases w with
  | false =>
    cases wr with
    | false => exact ⟨none, rfl, fun w' => by cases w' <;> simp [endOf], nofun⟩
    | true =>
      exact ⟨some ⟨false, true⟩, rfl, fun w' => by cases w' <;> simp [endOf], fun _ => ⟨true, rfl⟩⟩
  | true =>
    cases r with
    | false => exact ⟨none, rfl, fun w' => by cases w' <;> simp [endOf], nofun⟩
    | true =>
      exact ⟨some ⟨true, false⟩, rfl, fun w' => by cases w' <;> simp [endOf], fun _ => ⟨false, rfl⟩⟩

/-- A file at rest, which is no inode and no end of a pipe. -/
abbrev freed (s : State) (f : FilePtr) : State :=
  s.setFile f { s.ftable f with ref := 0, type := .none }

/-- What remains to be done when the last reference to a file is gone. -/
theorem closeLast_spec {ff : FileEntry} (hi : InodeRefs h s) (hf : FileRefs g x s)
    (href : (s.ftable f).ref = 1) (htype : ff.type = (s.ftable f).type) (hip : ff.ip = (s.ftable f).ip)
    (hpipe : ff.pipe = (s.ftable f).pipe) (hwritable : ff.writable = (s.ftable f).writable) :
    (closeLast ff).wp (perform p) anyway Safe
      (fun _ s' => InodeRefs h s' ∧ FileRefs (g + Pi.single f (-1)) x s' ∧ s'.proc = s.proc)
      (freed s f) := by
  have hnotEnd : (s.ftable f).type ≠ .pipe → ∀ page w, ¬ IsEnd s page w f := fun hne _ _ he => hne he.1
  unfold closeLast
  cases hff : ff.type with
  | pipe =>
    rw [htype] at hff
    have hend : IsEnd s ff.pipe ff.writable f := ⟨hff, hpipe.symm, hwritable.symm⟩
    have hopen : openEnd (freed s f) ff.pipe ff.writable = true := (hf.isOpen _ _).mpr ⟨f, hend⟩
    obtain ⟨v, hv, hends, hsome⟩ := pipeclose_spec hopen
    have hiff : ∀ page w, openEnd ((freed s f).setPipe ff.pipe v) page w = true ↔
        openEnd s page w = true ∧ ¬ IsEnd s page w f := by
      intro page w
      rw [openEnd_setPipe]
      split
      next hp =>
        subst hp
        rw [hends]
        refine and_congr Iff.rfl (not_congr ⟨?_, fun he => ?_⟩)
        · rintro rfl
          exact hend
        · exact he.2.2.symm.trans hwritable.symm
      next hp =>
        refine ⟨fun ho => ⟨ho, fun he => hp ?_⟩, fun ho => ho.1⟩
        exact he.2.1.symm.trans hpipe.symm
    refine fun _ => post_map.mpr ?_
    rw [hv]
    refine ⟨(hi.setFile ?_).setPipe, hf.close href rfl rfl hiff fun page hpage => ?_, rfl⟩
    · simp [target, hff]
    · by_cases hp : page = ff.pipe
      · subst hp
        simp only [State.setPipe, update_self] at hpage
        obtain ⟨w, hw⟩ := hsome hpage
        exact ⟨w, by rwa [openEnd_setPipe, if_pos rfl]⟩
      · simp only [State.setPipe, update_of_ne hp] at hpage
        obtain ⟨w, hw⟩ := hf.page page hpage
        exact ⟨w, by rwa [openEnd_setPipe, if_neg hp]⟩
  | inode =>
    rw [htype] at hff
    have hi' : InodeRefs (h + Pi.single ff.ip 1) (freed s f) := by
      have hset := hi.repoint (show (freed s f).icache = s.icache from rfl) (.inl f)
        fun b hb => target_setFile hb
      rw [target_setFile_self] at hset
      simpa [target, hff, hip] using hset
    refine fun _ _ => post_map.mpr ((hi'.iput ff.ip).imp (fun s' hs' => ?_))
    refine fun _ => ⟨?_, ?_, hs'.2.proc⟩
    · have hleft := hs'.1
      rwa [add_assoc, ← Pi.single_add, add_neg_cancel, Pi.single_zero, add_zero] at hleft
    · have hclose : FileRefs (g + Pi.single f (-1)) x (freed s f) :=
        hf.close href rfl rfl (fun page w => by
          simp [hnotEnd (by simp [hff]) page w, openEnd, State.setFile]) hf.page
      exact hclose.congr hs'.2
  | none =>
    rw [htype] at hff
    refine ⟨hi.setFile ?_, hf.close href rfl rfl (fun page w => ?_) hf.page, rfl⟩
    · simp [target, hff]
    · simp [hnotEnd (by simp [hff]) page w, openEnd, State.setFile]

/-- **`fileclose`** of a file with a count. -/
theorem fileclose_spec (hi : InodeRefs h s) (hf : FileRefs g x s) (href : 1 ≤ (s.ftable f).ref) :
    (fileclose (some f)).wp (perform p) anyway Safe
      (fun _ s' => InodeRefs h s' ∧ FileRefs (g + Pi.single f (-1)) x s' ∧ s'.proc = s.proc) s := by
  refine fun _ => ?_
  have hlt : ¬ (s.ftable f).ref < 1 := by omega
  simp only [perform, State.filedrop, if_neg hlt]
  split
  next hmore =>
    -- not the last reference
    refine ⟨hi.setFile rfl, hf.shift rfl ?_ ?_ fun _ _ => Iff.rfl, rfl⟩
    · simp only
      omega
    · intro hzero
      simp only at hzero
      omega
  next hlast =>
    exact closeLast_spec hi hf (by omega) rfl rfl rfl rfl

/-! ## Descriptors -/

/-- Files and processes refer to the same inodes as before. -/
theorem InodeRefs.of_target (hs : InodeRefs h s) (hcache : s'.icache = s.icache)
    (htarget : ∀ a, target s' a = target s a) : InodeRefs h s' := by
  refine ⟨fun e => ?_, by rw [hcache]; exact hs.unique⟩
  obtain ⟨n, hn, hcensus⟩ := hs.counted e
  exact ⟨n, by rw [hcache, hn], hcensus.congr fun a => by rw [htarget]⟩

variable {fd : Fd}

/-- A process changes, but not its current directory. -/
theorem InodeRefs.setProc {v : Proc} (hs : InodeRefs h s) (hv : v.cwd = (s.proc p).cwd) :
    InodeRefs h (s.setProc p v) := by
  refine hs.of_target rfl fun a => ?_
  cases a with
  | inl f => rfl
  | inr q =>
    simp only [target, State.setProc, update_apply]
    split
    next hq => rw [hv, hq]
    next => rfl

theorem InodeRefs.setOfile {b : Option FilePtr} (hs : InodeRefs h s) :
    InodeRefs h (s.setOfile p fd b) := hs.setProc rfl

theorem InodeRefs.setLive {live : Bool} (hs : InodeRefs h s) : InodeRefs h (s.setLive p live) :=
  hs.setProc rfl

/-- A process changes its current directory from `a` to `b`. -/
theorem InodeRefs.setCwd {a b : Option InodePtr} (hs : InodeRefs h s) (ha : (s.proc p).cwd = a) :
    InodeRefs (h + pointed a - pointed b) (s.setCwd p b) := by
  have hset := hs.repoint (show (s.setCwd p b).icache = s.icache from rfl) (.inr p) fun c hc => ?_
  · have hself : target (s.setCwd p b) (.inr p) = b := by
      simp [target, State.setCwd, State.setProc]
    rw [hself] at hset
    exact ha ▸ hset
  · cases c with
    | inl f => rfl
    | inr q =>
      have hq : q ≠ p := fun heq => hc (by rw [heq])
      simp [target, State.setCwd, State.setProc, hq]

/-- A free descriptor is made to point to a file. -/
theorem FileRefs.install (hf : FileRefs g x s) (hfd : (s.proc p).ofile fd = none)
    (hp : x = some p ∨ (s.proc p).live = true) :
    FileRefs (g + Pi.single f (-1)) x (s.setOfile p fd (some f)) := by
  have hset := hf.setOfile (b := some f) hfd hp
  rwa [pointed_none, pointed_some, add_zero, sub_eq_add_neg, ← Pi.single_neg] at hset

/-- A descriptor is cleared. -/
theorem FileRefs.clear (hf : FileRefs g x s) (hfd : (s.proc p).ofile fd = some f)
    (hp : x = some p ∨ (s.proc p).live = true) :
    FileRefs (g + Pi.single f 1) x (s.setOfile p fd none) := by
  have hset := hf.setOfile (b := none) hfd hp
  rwa [pointed_none, pointed_some, sub_zero] at hset

theorem add_single_cancel {ι : Type} [DecidableEq ι] (g : ι → ℤ) (i : ι) (d : ℤ) :
    g + Pi.single i d + Pi.single i (-d) = g := by
  rw [add_assoc, ← Pi.single_add, add_neg_cancel, Pi.single_zero, add_zero]

theorem add_neg_single_cancel {ι : Type} [DecidableEq ι] (g : ι → ℤ) (i : ι) :
    g + Pi.single i (-1) + Pi.single i 1 = g := by simpa using add_single_cancel g i (-1)

theorem argfd_spec (fd : Option ℤ) : (argfd fd).wp (perform p) anyway Safe
    (fun r s' => s' = s ∧ ∀ fd f, r = some (fd, f) → (s.proc p).ofile fd = some f) s := by
  unfold argfd
  cases fd with
  | none => exact ⟨rfl, nofun⟩
  | some fd =>
    dsimp only
    split
    · refine fun _ => ⟨rfl, fun fd' f' hr => ?_⟩
      obtain ⟨f, hf, heq⟩ := map_eq_some_iff.mp hr
      cases heq
      exact hf
    · exact ⟨rfl, nofun⟩

/-- **`fdalloc`** takes the first descriptor that is free. -/
theorem fdalloc_spec (f : FilePtr) : (fdalloc f).wp (perform p) anyway Safe
    (fun r s' => match r with
      | none => s' = s
      | some fd => (s.proc p).ofile fd = none ∧ s' = s.setOfile p fd (some f)) s := by
  unfold fdalloc
  induction finRange NOFILE with
  | nil => exact rfl
  | cons fd fds ih =>
    refine fun _ => ?_
    simp only [perform, post_ok]
    cases hfd : (s.proc p).ofile fd with
    | none => exact fun _ => ⟨hfd, rfl⟩
    | some f' => exact ih

/-- **`filealloc`** takes a file that is free. -/
theorem filealloc_spec (hf : FileRefs g x s) : (call .filealloc).wp (perform p) anyway Safe
    (fun r s' => (r = none ∧ s' = s) ∨ ∃ f, r = some f ∧ (s.ftable f).ref = 0 ∧
      (s.ftable f).type = .none ∧ s' = s.setFile f { s.ftable f with ref := 1 } ∧
      FileRefs (g + Pi.single f 1) x s') s := by
  refine fun _ => ?_
  simp only [perform, State.filealloc]
  split
  next f hfind =>
    have hzero := find?_some hfind
    rw [decide_eq_true_eq] at hzero
    refine .inr ⟨f, rfl, hzero, hf.closed f hzero, rfl, hf.shift ?_ zero_le_one (by simp) fun _ _ => Iff.rfl⟩
    rw [hzero]
    rfl
  next => exact .inl ⟨rfl, rfl⟩

/-! ## The calls -/

/-- **Between two calls** all references are counted. -/
structure Rest (s : State) : Prop where
  inodes : InodeRefs (nat 0) s
  files : FileRefs 0 none s

/-- What a program of `fs.c` does to all references. -/
theorem Keeps.run {α : Type} {prog : M α} {k k' : InodePtr → ℕ} {d : α → InodePtr → ℕ}
    (hprog : Keeps p prog k d) (hi : InodeRefs (nat (k' + k)) s) (hf : FileRefs g x s)
    (hcwd : (s.proc p).cwd ≠ none) : prog.wp (perform p) anyway Safe
      (fun a s' => InodeRefs (nat (k' + d a)) s' ∧ FileRefs g x s' ∧ SameFiles s s') s :=
  (hprog k' s hi hcwd).mono fun _ _ hs' => ⟨hs'.1, hf.congr hs'.2, hs'.2⟩

/-- **The call keeps all references counted.** -/
def Settles (p : ℕ) (prog : M ℤ) : Prop :=
  ∀ ⦃s⦄, Rest s → (s.proc p).live = true → prog.wp (perform p) anyway Safe (fun _ s' => Rest s') s

/-- A call that leaves files and processes alone. -/
theorem Ledger.rest {prog : M ℤ} (hprog : (refs p).Turns prog 0 fun _ => 0) : Settles p prog := by
  intro s hs hlive
  have hi := hs.inodes
  rw [← add_zero (0 : InodePtr → ℕ)] at hi
  refine (Keeps.run hprog hi hs.files (hs.files.present p nofun hlive)).mono fun _ s' hs' => ⟨?_, hs'.2.1⟩
  have hi' := hs'.1
  rwa [add_zero] at hi'

theorem sysClose_rest (fd : Option ℤ) : Settles p (sysClose fd) := by
  intro s hs hlive
  refine (argfd_spec fd).bind fun r s₁ ⟨hs₁, hr⟩ => ?_
  subst hs₁
  cases r with
  | none => exact hs
  | some r =>
    obtain ⟨fd, f⟩ := r
    have hclear := hs.files.clear (hr fd f rfl) (.inr hlive)
    refine fun _ => (fileclose_spec hs.inodes.setOfile hclear (hclear.one_le_ref ?_)).bind
      fun _ s₂ ⟨hi, hf, _⟩ => ?_
    · simp
    · rw [add_single_cancel] at hf
      exact ⟨hi, hf⟩

/-- A file that has a reference gets another one. -/
theorem filedup_spec (hi : InodeRefs h s) (hf : FileRefs g x s) (href : 1 ≤ (s.ftable f).ref) :
    (call (.filedup f)).wp (perform p) anyway Safe
      (fun _ s' => InodeRefs h s' ∧ FileRefs (g + Pi.single f 1) x s' ∧ s'.proc = s.proc) s := by
  refine fun _ => post_map.mpr ?_
  rw [State.filedup, if_neg (by omega)]
  refine ⟨hi.setFile rfl, ?_, rfl⟩
  refine hf.shift (v := { s.ftable f with ref := (s.ftable f).ref + 1 }) rfl ?_ ?_ fun _ _ => Iff.rfl
  · simp only
    omega
  · intro hzero
    simp only at hzero
    omega

theorem sysDup_rest (fd : Option ℤ) : Settles p (sysDup fd) := by
  intro s hs hlive
  refine (argfd_spec fd).bind fun r s₁ ⟨hs₁, hr⟩ => ?_
  subst hs₁
  cases r with
  | none => exact hs
  | some r =>
    obtain ⟨fd, f⟩ := r
    have href : 1 ≤ (s₁.ftable f).ref := hs.files.one_le_ref_of_ofile (hr fd f rfl) le_rfl
    refine (fdalloc_spec f).bind fun r s₂ hs₂ => ?_
    cases r with
    | none =>
      subst hs₂
      exact hs
    | some fd' =>
      obtain ⟨hfree, rfl⟩ := hs₂
      have hinstall := hs.files.install (f := f) hfree (.inr hlive)
      -- the descriptor points to the file before the count is raised
      refine (filedup_spec hs.inodes.setOfile hinstall href).bind fun _ s₃ ⟨hi₃, hf₃, _⟩ => ?_
      rw [add_neg_single_cancel] at hf₃
      exact ⟨hi₃, hf₃⟩

/-- A new file becomes an open inode; the reference to the inode is now the file's. -/
theorem setInodeFile_rest {ip : InodePtr} (hi : InodeRefs (nat (0 + one ip)) s)
    (hf : FileRefs 0 none s) (htype : (s.ftable f).type = .none) (href : 1 ≤ (s.ftable f).ref)
    (hv : v.type = .inode) (hvip : v.ip = ip) (hvref : v.ref = (s.ftable f).ref) :
    Rest (s.setFile f v) := by
  constructor
  · have hset := hi.repoint (show (s.setFile f v).icache = s.icache from rfl) (.inl f)
      fun b hb => target_setFile hb
    rw [target_setFile_self, if_pos hv, hvip, nat_add_one] at hset
    simpa [target, htype] using hset
  · have hshift := hf.shift (d := 0) (v := v) (f := f) (by rw [hvref, add_zero]) (by omega)
      (fun hzero => by omega) fun page w => ?_
    · rwa [Pi.single_zero, add_zero] at hshift
    · exact iff_of_false (fun he => by simp [hv] at he) fun he => by simp [IsEnd, htype] at he

theorem sysOpen_rest (path : Option Path) (omode : Option ℕ) : Settles p (sysOpen path omode) := by
  intro s hs hlive
  have hcwd := hs.files.present p nofun hlive
  have hi := hs.inodes
  rw [← add_zero (0 : InodePtr → ℕ)] at hi
  unfold sysOpen
  split
  next path omode =>
    refine fun _ => ((keeps_openInode path omode).run hi hs.files hcwd).bind
      fun r s₁ ⟨hi₁, hf₁, hsame₁⟩ => ?_
    cases r with
    | none => exact fun _ => ⟨hi₁, hf₁⟩
    | some ip =>
      have hlive₁ : (s₁.proc p).live = true := by rwa [hsame₁.proc]
      have hcwd₁ : (s₁.proc p).cwd ≠ none := by rwa [hsame₁.proc]
      -- giving up: the inode is unlocked and put
      have hbad : ∀ t, InodeRefs (nat (0 + one ip)) t → FileRefs 0 none t → (t.proc p).cwd ≠ none →
          (openBad ip).wp (perform p) anyway Safe (fun _ s' => Rest s') t := by
        intro t hit hft hcwdt
        exact ((keeps_openBad ip).run hit hft hcwdt).mono fun _ _ h => ⟨h.1, h.2.1⟩
      refine (filealloc_spec hf₁).bind fun r s₂ hr => ?_
      obtain ⟨rfl, rfl⟩ | ⟨f, rfl, hzero, htype, hs₂, hf₂⟩ := hr
      · exact hbad s₂ hi₁ hf₁ hcwd₁
      · have hi₂ : InodeRefs (nat (0 + one ip)) s₂ := by
          rw [hs₂]
          exact hi₁.setFile rfl
        refine (fdalloc_spec f).bind fun r s₃ hs₃ => ?_
        cases r with
        | none =>
          rw [hs₃]
          refine (fileclose_spec hi₂ hf₂ (hf₂.one_le_ref (by simp))).bind
            fun _ s₄ hs₄ => ?_
          obtain ⟨hi₄, hf₄, hproc₄⟩ := hs₄
          rw [add_single_cancel] at hf₄
          refine hbad s₄ hi₄ hf₄ ?_
          rw [hproc₄, hs₂]
          exact hcwd₁
        | some fd =>
          obtain ⟨hfree, hs₃⟩ := hs₃
          have hf₃ : FileRefs 0 none s₃ := by
            rw [hs₃]
            have hinstall := hf₂.install (f := f) hfree (.inr (by rw [hs₂]; exact hlive₁))
            rwa [add_single_cancel] at hinstall
          have hi₃ : InodeRefs (nat (0 + one ip)) s₃ := by
            rw [hs₃]
            exact hi₂.setOfile
          have hcwd₃ : (s₃.proc p).cwd ≠ none := by
            simp [hs₃, hs₂, State.setOfile, State.setProc, State.setFile, hcwd₁]
          have hfile : s₃.ftable f = { s₁.ftable f with ref := 1 } := by
            simp [hs₃, hs₂, State.setOfile, State.setProc, State.setFile]
          have hunlock := (keeps_call (p := p) (o := .iunlock ip) (h := one ip) rfl).run hi₃ hf₃ hcwd₃
          refine hunlock.bind fun _ s₄ hs₄ => fun _ _ => ?_
          obtain ⟨hi₄, hf₄, hsame₄⟩ := hs₄
          refine setInodeFile_rest hi₄ hf₄ ?_ ?_ rfl rfl rfl
          · rw [hsame₄.type, hfile]
            exact htype
          · rw [hsame₄.ref, hfile]
  next => exact hs

theorem sysChdir_rest (path : Option Path) : Settles p (sysChdir path) := by
  intro s hs hlive
  have hcwd := hs.files.present p nofun hlive
  have hi := hs.inodes
  rw [← add_zero (0 : InodePtr → ℕ)] at hi
  refine fun _ => ?_
  cases path with
  | none => exact fun _ => hs
  | some path =>
    refine ((keeps_namei path).run hi hs.files hcwd).bind fun r s₁ ⟨hi₁, hf₁, hsame₁⟩ => ?_
    have hcwd₁ : (s₁.proc p).cwd ≠ none := by rwa [hsame₁.proc]
    cases r with
    | none => exact fun _ => ⟨hi₁, hf₁⟩
    | some ip =>
      have hlock := (keeps_call (p := p) (o := .ilock ip) (h := one ip) rfl).run hi₁ hf₁ hcwd₁
      refine hlock.bind fun _ s₂ ⟨hi₂, hf₂, hsame₂⟩ => wp_call_bind rfl ?_
      have hcwd₂ : (s₂.proc p).cwd ≠ none := by rwa [hsame₂.proc]
      split
      · refine ((keeps_iunlockput ip).run hi₂ hf₂ hcwd₂).bind fun _ s₃ ⟨hi₃, hf₃, _⟩ => ?_
        exact fun _ => ⟨hi₃, hf₃⟩
      · have hunlock := (keeps_call (p := p) (o := .iunlock ip) (h := one ip) rfl).run hi₂ hf₂ hcwd₂
        refine hunlock.bind fun _ s₃ ⟨hi₃, hf₃, hsame₃⟩ => ?_
        obtain ⟨old, hold⟩ : ∃ old, (s₃.proc p).cwd = some old := by
          rw [hsame₃.proc]
          exact ne_none_iff_exists'.mp hcwd₂
        refine wp_call_bind (show perform p s₃ .cwd = .ok (old, s₃) by simp [perform, hold]) ?_
        -- the old directory is put while it still is the current one
        refine fun _ => post_map.mpr ((hi₃.iput old).imp (fun s₄ hs₄ => ?_))
        obtain ⟨hi₄, hsame₄⟩ := hs₄
        refine fun _ _ => ⟨?_, ?_⟩
        · have hset := hi₄.setCwd (b := some ip) (by rw [hsame₄.proc, hold])
          rw [pointed_some, pointed_some, nat_add_one] at hset
          convert hset using 1
          rw [Pi.single_neg]
          abel
        · refine (hf₃.congr hsame₄).setCwd (some ip) (.inr ⟨?_, by simp⟩)
          rwa [hsame₄.proc, hsame₃.proc, hsame₂.proc, hsame₁.proc]

theorem pipealloc_spec (hi : InodeRefs h s) (hf : FileRefs 0 none s) :
    pipealloc.wp (perform p) anyway Safe
      (fun r s' => InodeRefs h s' ∧ s'.proc = s.proc ∧ match r with
        | none => FileRefs 0 none s'
        | some (f0, f1) => FileRefs (Pi.single f0 1 + Pi.single f1 1) none s') s := by
  refine (filealloc_spec hf).bind fun r s₁ hr => ?_
  obtain ⟨rfl, rfl⟩ | ⟨f0, rfl, -, htype0, hs₁, hf₁⟩ := hr
  · exact ⟨hi, rfl, hf⟩
  have hi₁ : InodeRefs h s₁ := hs₁ ▸ hi.setFile rfl
  refine (filealloc_spec hf₁).bind fun r s₂ hr => ?_
  obtain ⟨rfl, rfl⟩ | ⟨f1, rfl, hzero1, htype1, hs₂, hf₂⟩ := hr
  · refine (fileclose_spec hi₁ hf₁ (hf₁.one_le_ref (by simp))).bind fun _ s₃ hs₃ => ?_
    obtain ⟨hi₃, hf₃, hproc₃⟩ := hs₃
    rw [add_single_cancel] at hf₃
    exact ⟨hi₃, by rw [hproc₃, hs₁]; rfl, hf₃⟩
  have hi₂ : InodeRefs h s₂ := hs₂ ▸ hi₁.setFile rfl
  have hproc₂ : s₂.proc = s.proc := by rw [hs₂, hs₁]; rfl
  -- the first file is taken, so the second is another one
  have hne : f0 ≠ f1 := by
    rintro rfl
    rw [hs₁] at hzero1
    simp [State.setFile] at hzero1
  rw [zero_add] at hf₂
  refine wp_call_bind rfl ?_
  have hf₃ : FileRefs (Pi.single f0 1 + Pi.single f1 1) none s₂.asked := hf₂.congr (.of_eq rfl rfl rfl)
  have hi₃ : InodeRefs h s₂.asked := hi₂.of_target rfl fun _ => rfl
  cases hkalloc : s₂.kalloc with
  | none =>
    refine (fileclose_spec hi₃ hf₃ (hf₃.one_le_ref (by simp [hne]))).bind
      fun _ s₄ hs₄ => ?_
    obtain ⟨hi₄, hf₄, hproc₄⟩ := hs₄
    rw [add_right_comm, ← zero_add (Pi.single f0 1), add_single_cancel] at hf₄
    refine (fileclose_spec hi₄ hf₄ (hf₄.one_le_ref (by simp))).bind fun _ s₅ hs₅ => ?_
    obtain ⟨hi₅, hf₅, hproc₅⟩ := hs₅
    rw [add_single_cancel] at hf₅
    exact ⟨hi₅, by rw [hproc₅, hproc₄]; exact hproc₂, hf₅⟩
  | some page =>
    obtain ⟨⟨-, hnone⟩, hpage⟩ := ite_none_right_eq_some.mp hkalloc
    cases hpage
    have hfile0 : s₂.ftable f0 = { s.ftable f0 with ref := 1 } := by
      simp [hs₂, hs₁, State.setFile, hne]
    have hfile1 : s₂.ftable f1 = { s₁.ftable f1 with ref := 1 } := by
      simp [hs₂, State.setFile]
    refine fun _ _ _ => ⟨?_, hproc₂, ?_⟩
    · refine (hi₃.setPipe.setFile ?_).setFile ?_
      · simp [target, State.setPipe, State.asked, hfile0, htype0]
      · simp [target, State.setPipe, State.setFile, State.asked, hne.symm, hfile1, htype1]
    · refine hf₃.newPipe hne ?_ ?_ ?_ ?_ (isNone_iff_eq_none.mp hnone) (fun f h0 h1 => ?_) ?_ ?_ rfl rfl
      · exact hf₃.one_le_ref (by simp [hne])
      · exact hf₃.one_le_ref (by simp [hne.symm])
      · simp [State.asked, hfile0, htype0]
      · simp [State.asked, hfile1, htype1]
      · simp [State.setFile, State.setPipe, State.asked, h0, h1]
      · simp [State.setFile, State.setPipe, State.asked, hne]
      · simp [State.setFile, State.setPipe, State.asked, hne.symm]

theorem sysPipe_rest (fd : Bool) : Settles p (sysPipe fd) := by
  intro s hs hlive
  unfold sysPipe
  split
  · exact hs
  · refine (pipealloc_spec hs.inodes hs.files).bind fun r s₁ ⟨hi₁, hproc₁, hr⟩ => ?_
    have hlive₁ : (s₁.proc p).live = true := by rwa [hproc₁]
    cases r with
    | none => exact ⟨hi₁, hr⟩
    | some r =>
      obtain ⟨rf, wf⟩ := r
      dsimp only at hr
      -- both files are closed again
      have hclose : ∀ t, InodeRefs (nat 0) t → FileRefs (Pi.single rf 1 + Pi.single wf 1) none t →
          (do fileclose rf; fileclose wf; return (-1 : ℤ)).wp (perform p) anyway Safe
            (fun _ s' => Rest s') t := by
        intro t hit hft
        have hrf : 1 ≤ (Pi.single rf 1 + Pi.single wf 1 : FilePtr → ℤ) rf := by
          by_cases he : rf = wf <;> simp [he]
        refine (fileclose_spec hit hft (hft.one_le_ref hrf)).bind fun _ s₂ ⟨hi₂, hf₂, _⟩ => ?_
        rw [add_right_comm, ← zero_add (Pi.single rf 1), add_single_cancel] at hf₂
        refine (fileclose_spec hi₂ hf₂ (hf₂.one_le_ref (by simp))).bind fun _ s₃ ⟨hi₃, hf₃, _⟩ => ?_
        rw [add_single_cancel] at hf₃
        exact ⟨hi₃, hf₃⟩
      refine (fdalloc_spec rf).bind fun r s₂ hs₂ => ?_
      cases r with
      | none =>
        subst hs₂
        exact hclose s₂ hi₁ hr
      | some fd0 =>
        obtain ⟨hfree, rfl⟩ := hs₂
        have hf₂ := hr.install (f := rf) hfree (.inr hlive₁)
        refine (fdalloc_spec wf).bind fun r s₃ hs₃ => ?_
        cases r with
        | none =>
          subst hs₃
          -- the first descriptor is taken back
          refine fun _ => hclose _ hi₁.setOfile.setOfile ?_
          have hset : ((s₁.setOfile p fd0 (some rf)).proc p).ofile fd0 = some rf := by
            simp [State.setOfile, State.setProc]
          have hclear := hf₂.clear hset
            (.inr (by simp [State.setOfile, State.setProc, hlive₁]))
          rwa [add_neg_single_cancel] at hclear
        | some fd1 =>
          obtain ⟨hfree', rfl⟩ := hs₃
          have hf₃ := hf₂.install (f := wf) hfree'
            (.inr (by simp [State.setOfile, State.setProc, hlive₁]))
          refine ⟨hi₁.setOfile.setOfile, ?_⟩
          have hzero : (Pi.single rf 1 + Pi.single wf 1 + Pi.single rf (-1) + Pi.single wf (-1) :
              FilePtr → ℤ) = 0 := by
            rw [Pi.single_neg, Pi.single_neg]
            abel
          rwa [hzero] at hf₃

/-- The files of a process that is being made or torn down need not be consistent. -/
theorem FileRefs.suspend (hf : FileRefs g none s) (q : ℕ) : FileRefs g (some q) s :=
  { hf with
    absent := fun q _ => hf.absent q nofun
    present := fun q _ => hf.present q nofun }

/-- The loop of `fork`: every open file of `p` gets a reference from the child. -/
theorem forkFiles_spec {np : ℕ} (hne : p ≠ np) (fds : List Fd) (hnodup : fds.Nodup)
    (hi : InodeRefs h s) (hf : FileRefs 0 (some np) s)
    (hfree : ∀ fd ∈ fds, (s.proc np).ofile fd = none) :
    (forkFiles np fds).wp (perform p) anyway Safe (fun _ s' => InodeRefs h s' ∧
      FileRefs 0 (some np) s' ∧ s'.proc p = s.proc p ∧ (s'.proc np).cwd = (s.proc np).cwd) s := by
  induction fds generalizing s with
  | nil => exact ⟨hi, hf, rfl, rfl⟩
  | cons fd fds ih =>
    obtain ⟨hmem, hnodup⟩ := nodup_cons.mp hnodup
    have hrest : ∀ fd ∈ fds, (s.proc np).ofile fd = none := fun fd' h' =>
      hfree fd' (mem_cons_of_mem fd h')
    refine wp_call_bind rfl ?_
    cases hfile : (s.proc p).ofile fd with
    | none => exact ih hnodup hi hf hrest
    | some f =>
      refine (filedup_spec hi hf (hf.one_le_ref_of_ofile hfile le_rfl)).bind
        fun _ s₁ ⟨hi₁, hf₁, hproc₁⟩ => fun _ => ?_
      have hfree₁ : (s₁.proc np).ofile fd = none := by
        rw [hproc₁]
        exact hfree fd mem_cons_self
      have hf₂ := hf₁.install (f := f) hfree₁ (.inl rfl)
      rw [add_single_cancel] at hf₂
      refine (ih hnodup hi₁.setOfile hf₂ fun fd' h' => ?_).mono fun _ s₂ ⟨hi₃, hf₃, hp₃, hnp₃⟩ => ?_
      · have hne' : fd' ≠ fd := fun heq => hmem (heq ▸ h')
        simp [State.setOfile, State.setProc, hne', hproc₁, hrest fd' h']
      · refine ⟨hi₃, hf₃, ?_, ?_⟩
        · rw [hp₃]
          simp [State.setOfile, State.setProc, hne, hproc₁]
        · rw [hnp₃]
          simp [State.setOfile, State.setProc, hproc₁]

theorem fork_rest : Settles p fork := by
  intro s hs hlive
  have hasked : Rest s.asked := ⟨hs.inodes.congr (Steady.asked s).toQuiet, hs.files.congr (.of_eq rfl rfl rfl)⟩
  refine wp_call_bind rfl ?_
  cases halloc : s.allocproc p with
  | none => exact hasked
  | some np =>
    obtain ⟨⟨-, hne, hdead⟩, hnp⟩ := ite_none_right_eq_some.mp halloc
    rw [some.inj hnp] at hne hdead
    have hasked₂ : Rest s.asked.asked :=
      ⟨hasked.inodes.congr (Steady.asked _).toQuiet, hasked.files.congr (.of_eq rfl rfl rfl)⟩
    refine wp_call_bind rfl ?_
    split
    · exact hasked₂
    · obtain ⟨hnocwd, hnofile⟩ := hs.files.absent np nofun hdead
      have hnodup : (finRange NOFILE).Nodup := nodup_finRange NOFILE
      refine (forkFiles_spec hne.symm _ hnodup hasked₂.inodes (hasked₂.files.suspend np)
        fun fd _ => hnofile fd).bind fun _ s₁ ⟨hi₁, hf₁, hp₁, hnp₁⟩ => ?_
      obtain ⟨ip, hip⟩ := ne_none_iff_exists'.mp (hs.files.present p nofun hlive)
      refine wp_call_bind (show perform p s₁ .cwd = .ok (ip, s₁) by
        have hcwd : (s₁.proc p).cwd = some ip := (congrArg Proc.cwd hp₁).trans hip
        simp [perform, hcwd]) ?_
      have hcounted : 0 < (s₁.icache ip).ref := by
        obtain ⟨n, hn, hcensus⟩ := hi₁.counted ip
        have hpos := hcensus.pos
          (show target s₁ (.inr p) = some ip from (congrArg Proc.cwd hp₁).trans hip)
        have hzero : nat 0 ip = 0 := rfl
        omega
      -- the reference that `idup` takes is the child's
      have hi₂ := (hi₁.shift_same ip (d := 1) fun _ => hcounted).setCwd (p := np)
        (b := some ip) (hnp₁.trans hnocwd)
      rw [pointed_none, pointed_some, add_zero, add_sub_cancel_right] at hi₂
      have hsame : SameFiles s₁ (s₁.setCached ip { s₁.icache ip with ref := (s₁.icache ip).ref + 1 }) :=
        .of_eq rfl rfl rfl
      have hf₂ := (hf₁.congr hsame).setCwd (some ip) (.inl rfl)
      refine fun _ _ _ => ⟨?_, ?_⟩
      · exact hi₂.setLive
      · exact hf₂.setLive (fun _ => by simp [State.setCwd, State.setProc]) (by simp)

/-- The loop of `exit`: every open file is closed. -/
theorem exitFiles_spec (fds : List Fd) (hi : InodeRefs h s) (hf : FileRefs 0 (some p) s) :
    (exitFiles fds).wp (perform p) anyway Safe (fun _ s' => InodeRefs h s' ∧ FileRefs 0 (some p) s' ∧
      (s'.proc p).cwd = (s.proc p).cwd ∧
      ∀ fd, fd ∈ fds ∨ (s.proc p).ofile fd = none → (s'.proc p).ofile fd = none) s := by
  induction fds generalizing s with
  | nil => exact ⟨hi, hf, rfl, fun fd hfd => hfd.resolve_left (not_mem_nil)⟩
  | cons fd fds ih =>
    refine wp_call_bind rfl ?_
    cases hfile : (s.proc p).ofile fd with
    | none =>
      refine (ih hi hf).mono fun _ s₁ ⟨hi₁, hf₁, hcwd₁, hclosed⟩ => ⟨hi₁, hf₁, hcwd₁, ?_⟩
      rintro fd' (hmem | hnone)
      · obtain rfl | hmem := mem_cons.mp hmem
        · exact hclosed fd' (.inr hfile)
        · exact hclosed fd' (.inl hmem)
      · exact hclosed fd' (.inr hnone)
    | some f =>
      -- the file is closed while the descriptor still points to it
      refine (fileclose_spec hi hf (hf.one_le_ref_of_ofile hfile le_rfl)).bind
        fun _ s₁ ⟨hi₁, hf₁, hproc₁⟩ => fun _ => ?_
      have hset : (s₁.proc p).ofile fd = some f := by rw [hproc₁]; exact hfile
      have hf₂ := hf₁.clear hset (.inl rfl)
      rw [add_neg_single_cancel] at hf₂
      refine (ih hi₁.setOfile hf₂).mono fun _ s₂ ⟨hi₃, hf₃, hcwd₃, hclosed⟩ => ⟨hi₃, hf₃, ?_, ?_⟩
      · rw [hcwd₃]
        simp [State.setOfile, State.setProc, hproc₁]
      · intro fd' hfd'
        by_cases heq : fd' = fd
        · exact hclosed fd' (.inr (by simp [State.setOfile, State.setProc, heq]))
        · obtain hmem | hnone := hfd'
          · exact hclosed fd' (.inl ((mem_cons.mp hmem).resolve_left heq))
          · exact hclosed fd' (.inr (by simp [State.setOfile, State.setProc, heq, hproc₁, hnone]))

theorem exit_rest : Settles p exit := by
  intro s hs hlive
  refine wp_call_bind rfl ?_
  have hinit : (doIf (decide (p = 0)) (panic "init exiting")).wp (perform p) anyway Safe
      (fun _ s' => s' = s) s := by
    unfold doIf
    split
    · exact fun _ => safe_panic (by decide)
    · rfl
  refine hinit.bind fun _ s₀ hs₀ => ?_
  subst hs₀
  refine (exitFiles_spec _ hs.inodes (hs.files.suspend p)).bind
    fun _ s₁ ⟨hi₁, hf₁, hcwd₁, hclosed⟩ => fun _ => ?_
  obtain ⟨ip, hip⟩ := ne_none_iff_exists'.mp (hs.files.present p nofun hlive)
  rw [hip] at hcwd₁
  refine wp_call_bind (show perform p s₁ .cwd = .ok (ip, s₁) by simp [perform, hcwd₁]) ?_
  -- the directory is put while it still is the current one
  refine fun _ => post_map.mpr ((hi₁.iput ip).imp (fun s₂ hs₂ => ?_))
  obtain ⟨hi₂, hsame₂⟩ := hs₂
  have hi₃ := hi₂.setCwd (p := p) (b := none) (by rw [hsame₂.proc, hcwd₁])
  rw [pointed_none, pointed_some, sub_zero, add_neg_single_cancel] at hi₃
  refine fun _ _ _ => ⟨?_, ?_⟩
  · exact hi₃.setLive
  · refine ((hf₁.congr hsame₂).setCwd none (.inl rfl)).setLive (by simp) fun _ => ⟨?_, fun fd => ?_⟩
    · simp [State.setCwd, State.setProc]
    · simp only [State.setCwd, State.setProc, update_self]
      rw [hsame₂.proc]
      exact hclosed fd (.inl (mem_finRange fd))

end Sysfile
