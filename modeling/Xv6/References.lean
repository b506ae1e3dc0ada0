/-
# Both balances over whole runs

Every call but `sys_symlink` keeps the counts of files and of inodes right, whatever its arguments and
however it ends, and none of them closes or duplicates a file that is not open or touches the page of a
pipe that is gone.  `Transactions` says what is wrong with `sys_symlink`.
-/
import Xv6.FileRefs

namespace Sysfile

open Prog Outcome

/-- The call is `sys_symlink`. -/
def Call.isSymlink : Call → Bool
  | .sysSymlink _ _ => true
  | _ => false

variable {s s' : State} {p : ℕ}

/-- **One call** keeps both counts. -/
theorem call_rest (c : Call) (hc : c.isSymlink = false) : Settles p c.prog := by
  cases c with
  | sysLink old new => exact Ledger.rest ((refs p).sysLink old new)
  | sysUnlink path => exact Ledger.rest ((refs p).sysUnlink path)
  | sysOpen path omode => exact sysOpen_rest path omode
  | sysMkdir path => exact Ledger.rest ((refs p).sysMkdir path)
  | sysMknod path major minor => exact Ledger.rest ((refs p).sysMknod path major minor)
  | sysChdir path => exact sysChdir_rest path
  | sysExec path argv => exact Ledger.rest ((refs p).sysExec path argv)
  | sysClose fd => exact sysClose_rest fd
  | sysWrite fd n b => exact Ledger.rest ((refs p).sysWrite fd n b)
  | sysLseek fd offset => exact Ledger.rest ((refs p).sysLseek fd offset)
  | sysSymlink => cases hc
  | sysRead fd n b => exact Ledger.rest ((refs p).sysRead fd n b)
  | sysDup fd => exact sysDup_rest fd
  | sysPipe fd => exact sysPipe_rest fd
  | fork => exact fork_rest
  | exit => exact exit_rest

theorem Rest.enter (hs : Rest s) (e : Event) : Rest (s.enter e) :=
  have hsteady : Steady s (s.enter e) := .of_eq rfl rfl rfl rfl
  ⟨hs.inodes.congr hsteady.toQuiet, hs.files.congr (.of_eq rfl rfl rfl)⟩

theorem Rest.call (hs : Rest s) (e : Event) (he : e.call.isSymlink = false)
    (hlive : (s.proc e.proc).live = true) : Post (s.call e) (fun r => Rest r.2) Safe :=
  (call_rest e.call he (hs.enter e) hlive).post (meets_of_forall (fun _ _ => trivial) _ _)

/-- A step of the machine is a call that returned. -/
theorem step_eq_some {e : Event} (h : s.step e = some s') :
    (s.proc e.proc).live = true ∧ ∃ r, s.call e = .ok (r, s') := by
  obtain ⟨hlive, h⟩ := Option.ite_none_right_eq_some.mp h
  obtain ⟨⟨r, t⟩, hr, rfl⟩ := Option.map_eq_some_iff.mp h
  exact ⟨hlive, r, toOption_eq_some.mp hr⟩

theorem rest_boot (ninodes : ℕ) (dinode : ℕ → Dinode) (slack : ℕ → UInt32)
    (entry : ℕ → ℕ → Dirent) (blocks : ℕ → ℕ → ℕ) : Rest (.boot ninodes dinode slack entry blocks) := by
  refine ⟨⟨fun e => ?_, fun e e' => ?_⟩, ⟨fun f => ?_, fun f => le_rfl, fun f _ => rfl, fun page w => ?_,
    by rintro _ ⟨⟩, fun page w f f' hf => ?_, fun q _ hq => ?_, fun q _ hq => ?_⟩⟩
  · -- the first process is in the root directory
    by_cases he : e = 0
    · subst he
      refine ⟨1, rfl, (Census.of_not (Q := fun _ : FilePtr ⊕ ℕ => False) fun _ => not_false).enter
        (p := .inr 0) not_false rfl fun a ha => ?_⟩
      rw [iff_false]
      cases a with
      | inl f => simp [target, State.boot]
      | inr q =>
        have hq : q ≠ 0 := fun heq => ha (by rw [heq])
        simp [target, State.boot, hq]
    · refine ⟨0, ?_, .of_not fun a => ?_⟩
      · simp [State.boot, he, nat]
      · cases a with
        | inl f => simp [target, State.boot]
        | inr q =>
          simp only [target, State.boot]
          split
          · simpa [eq_comm] using he
          · simp
  · simp only [State.boot]
    split
    next he =>
      split
      next he' => exact fun _ _ _ _ => he.trans he'.symm
      next => exact fun _ h => absurd h (lt_irrefl 0)
    next => exact fun h => absurd h (lt_irrefl 0)
  · refine ⟨0, by simp [State.boot], .of_not fun q => ?_⟩
    simp only [State.boot]
    split <;> simp
  · exact iff_of_false (by simp [openEnd, State.boot]) (by simp [IsEnd, State.boot])
  · simp [IsEnd, State.boot] at hf
  · simp only [State.boot] at hq ⊢
    split at hq
    · cases hq
    next h => rw [if_neg h]; exact ⟨rfl, fun _ => rfl⟩
  · simp only [State.boot] at hq ⊢
    split at hq
    next h => rw [if_pos h]; simp
    · cases hq

/-- **Every run** keeps both counts. -/
theorem run_rest {es : List Event} (hes : ∀ e ∈ es, e.call.isSymlink = false) (hs : Rest s)
    (hrun : Runs.run State.step s es = some s') : Rest s' := by
  induction es generalizing s with
  | nil =>
    cases hrun
    exact hs
  | cons e es ih =>
    obtain ⟨t, hstep, hrest⟩ := Runs.run_cons_eq_some.mp hrun
    obtain ⟨hlive, r, hcall⟩ := step_eq_some hstep
    have ht := (hs.call e (hes e List.mem_cons_self) hlive).of_ok hcall
    exact ih (fun e' he' => hes e' (List.mem_cons_of_mem e he')) ht hrest

variable {ninodes : ℕ} {dinode : ℕ → Dinode} {slack : ℕ → UInt32} {entry : ℕ → ℕ → Dirent}
  {blocks : ℕ → ℕ → ℕ}

/-- **References to inodes balance.**  After any completed calls, an inode has at most one entry in use,
and the `ref` of an entry is the number of open files on it and of live processes that are in it. -/
theorem inode_references {es : List Event} (hes : ∀ e ∈ es, e.call.isSymlink = false)
    (hrun : Runs.run State.step (.boot ninodes dinode slack entry blocks) es = some s) :
    (∀ e e', 0 < (s.icache e).ref → 0 < (s.icache e').ref → (s.icache e).dev = (s.icache e').dev →
      (s.icache e).inum = (s.icache e').inum → e = e') ∧
    ∀ e, ∃ m n : ℕ, (s.icache e).ref = m + n ∧
      Census (fun f => (s.ftable f).type = .inode ∧ (s.ftable f).ip = e) m ∧
      Census (fun q => (s.proc q).live = true ∧ (s.proc q).cwd = some e) n := by
  have hs := run_rest hes (rest_boot ..) hrun
  refine ⟨hs.inodes.unique, fun e => ?_⟩
  obtain ⟨k, hk, hcensus⟩ := hs.inodes.counted e
  obtain ⟨m, n, rfl, hfiles, hprocs⟩ := hcensus.sum
  refine ⟨m, n, ?_, hfiles.congr fun f => ?_, hprocs.congr fun q => ?_⟩
  · rw [hk]
    simp [nat]
  · simp [target]
  · -- a process that is not live has no current directory
    refine ⟨fun hq => hq.2, fun hq => ⟨?_, hq⟩⟩
    by_contra hdead
    have hnone := (hs.files.absent q (by simp) (Bool.eq_false_iff.mpr hdead)).1
    rw [show (s.proc q).cwd = some e from hq] at hnone
    cases hnone

/-- An image with a root directory and nothing in it. -/
def emptyImage : State :=
  .boot 20 (fun i => if i = ROOTINO then ⟨T_DIR, 0, 0, 1, 32⟩ else ⟨0, 0, 0, 0, 0⟩) (fun _ => 0)
    (fun _ k => if k = 0 then ⟨ROOTINO, dot⟩ else if k = 1 then ⟨ROOTINO, dotdot⟩ else ⟨0, []⟩)
    fun i bn => 64 * i + bn

/-- `open("/")`, a `fork` into process 3, and a `pipe` in the page 7 made by the child. -/
def forkAndPipe : List Event :=
  [⟨0, .sysOpen (some [47]) (some 0), [], id, 0⟩, ⟨0, .fork, [3, 0], id, 0⟩,
    ⟨3, .sysPipe true, [7], id, 0⟩]

theorem inode_references_forkAndPipe :
    ∃ s, Runs.run State.step emptyImage forkAndPipe = some s ∧ (s.icache 0).ref = 3 ∧
      ∃ m n : ℕ, (s.icache 0).ref = m + n ∧
        Census (fun f => (s.ftable f).type = .inode ∧ (s.ftable f).ip = 0) m ∧
        Census (fun q => (s.proc q).live = true ∧ (s.proc q).cwd = some 0) n := by
  have hdone : (Runs.run State.step emptyImage forkAndPipe).map (fun s => (s.icache 0).ref) =
      some 3 := by
    decide +kernel
  obtain ⟨s, hs, href⟩ := Option.map_eq_some_iff.mp hdone
  exact ⟨s, hs, href, (inode_references (by decide) hs).2 0⟩

/-- **References to files balance.**  After any completed calls, the `ref` of a file is the number of
descriptors that point to it; an end of a pipe is open exactly while a file in use is that end, and the
page is there exactly while an end is open; and no further call duplicates or closes a file that is not
open, or closes a pipe whose page has been freed. -/
theorem file_references {es : List Event} (hes : ∀ e ∈ es, e.call.isSymlink = false)
    (hrun : Runs.run State.step (.boot ninodes dinode slack entry blocks) es = some s) :
    (∀ f, ∃ n : ℕ, (s.ftable f).ref = n ∧
      Census (fun q : ℕ × Fd => (s.proc q.1).ofile q.2 = some f) n) ∧
    (∀ f, (s.ftable f).ref = 0 → ∀ q fd, (s.proc q).ofile fd ≠ some f) ∧
    (∀ page w, openEnd s page w = true ↔ ∃ f, 0 < (s.ftable f).ref ∧ IsEnd s page w f) ∧
    (∀ page, (s.pipe page).isSome = true ↔ ∃ w, openEnd s page w = true) ∧
    ∀ e : Event, e.call.isSymlink = false → (s.proc e.proc).live = true →
      s.call e ≠ .error (.panic "filedup") ∧ s.call e ≠ .error (.panic "fileclose") ∧
        s.call e ≠ .error .wild := by
  have hs := run_rest hes (rest_boot ..) hrun
  refine ⟨fun f => ?_, fun f hzero q fd hfd => ?_, fun page w => ?_, fun page => ⟨hs.files.page page, ?_⟩,
    fun e he hlive => ?_⟩
  · obtain ⟨n, hn, hcensus⟩ := hs.files.counted f
    exact ⟨n, by simpa using hn, hcensus⟩
  · have hpos := hs.files.one_le_ref_of_ofile hfd le_rfl
    omega
  · rw [hs.files.isOpen]
    refine ⟨fun ⟨f, hf⟩ => ⟨f, ?_, hf⟩, fun ⟨f, _, hf⟩ => ⟨f, hf⟩⟩
    -- a file that is not in use has no type
    refine lt_of_le_of_ne (hs.files.nonneg f) fun hzero => ?_
    have hnone := hs.files.closed f hzero.symm
    rw [hf.1] at hnone
    cases hnone
  · rintro ⟨w, hw⟩
    obtain ⟨hv, _⟩ := (Option.any_eq_true_iff_get _ _).mp hw
    exact hv
  · have hsafe := hs.call e he hlive
    refine ⟨fun h => ?_, fun h => ?_, fun h => ?_⟩
    · exact (hsafe.of_error h).1 rfl
    · exact (hsafe.of_error h).2.1 rfl
    · exact (hsafe.of_error h).2.2 rfl

theorem file_references_forkAndPipe :
    ∃ s, Runs.run State.step emptyImage forkAndPipe = some s ∧ (s.ftable 0).ref = 2 ∧
      (∃ n : ℕ, (s.ftable 0).ref = n ∧
        Census (fun q : ℕ × Fd => (s.proc q.1).ofile q.2 = some 0) n) ∧
      (openEnd s 7 true = true ↔ ∃ f, 0 < (s.ftable f).ref ∧ IsEnd s 7 true f) := by
  have hdone : (Runs.run State.step emptyImage forkAndPipe).map (fun s => (s.ftable 0).ref) =
      some 2 := by
    decide +kernel
  obtain ⟨s, hs, href⟩ := Option.map_eq_some_iff.mp hdone
  have h := file_references (by decide) hs
  exact ⟨s, hs, href, h.1 0, h.2.2.1 7 true⟩

end Sysfile
