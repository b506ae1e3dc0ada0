/-
# References to inodes

The reference count of an inode cache entry against those who refer to it: the open files and the
processes' current directories, and, while a call runs, the call itself.  What a call holds is a function
`h` from entries to integers; a call may drop a reference before it takes the pointer away, so that it
holds `-1` for a moment.  Inside `fs.c` this does not happen, and what is held is a natural number.

`Keeps p prog h d` says that the program, started with `h`, ends with `d a` if it returns `a`, and leaves
files and processes alone.  This makes a ledger (`refs`), and so it holds of the functions of `fs.c` and
`sysfile.c`.
-/
import Xv6.Census
import Xv6.FileMachine
import Xv6.Ledger

namespace Sysfile

open Prog Outcome

/-! ## References -/

/-- What refers to an entry of the inode cache: a file, and a process by its current directory. -/
def target (s : State) : FilePtr ⊕ ℕ → Option InodePtr
  | .inl f => if (s.ftable f).type = .inode then some (s.ftable f).ip else none
  | .inr p => (s.proc p).cwd

/-- **The counts of the inode cache**, while a call holds `h`: `ref` is right, and no inode has two
entries. -/
structure InodeRefs (h : InodePtr → ℤ) (s : State) : Prop where
  counted : ∀ e, ∃ n : ℕ, (s.icache e).ref = n + h e ∧ Census (fun a => target s a = some e) n
  unique : ∀ e e', 0 < (s.icache e).ref → 0 < (s.icache e').ref →
    (s.icache e).dev = (s.icache e').dev → (s.icache e).inum = (s.icache e').inum → e = e'

/-- Files, pipes and processes are as before, but for the offsets of files. -/
structure SameFiles (s s' : State) : Prop where
  type : ∀ f, (s'.ftable f).type = (s.ftable f).type
  ref : ∀ f, (s'.ftable f).ref = (s.ftable f).ref
  writable : ∀ f, (s'.ftable f).writable = (s.ftable f).writable
  page : ∀ f, (s'.ftable f).pipe = (s.ftable f).pipe
  ip : ∀ f, (s'.ftable f).ip = (s.ftable f).ip
  proc : s'.proc = s.proc
  pipe : s'.pipe = s.pipe

namespace SameFiles

variable {s s' s'' : State}

theorem of_eq (hftable : s'.ftable = s.ftable) (hproc : s'.proc = s.proc) (hpipe : s'.pipe = s.pipe) :
    SameFiles s s' :=
  ⟨fun f => by rw [hftable], fun f => by rw [hftable], fun f => by rw [hftable], fun f => by rw [hftable],
    fun f => by rw [hftable], hproc, hpipe⟩

theorem refl (s : State) : SameFiles s s := .of_eq rfl rfl rfl

theorem trans (h : SameFiles s s') (h' : SameFiles s' s'') : SameFiles s s'' :=
  ⟨fun f => (h'.type f).trans (h.type f), fun f => (h'.ref f).trans (h.ref f),
    fun f => (h'.writable f).trans (h.writable f), fun f => (h'.page f).trans (h.page f),
    fun f => (h'.ip f).trans (h.ip f), h'.proc.trans h.proc, h'.pipe.trans h.pipe⟩

end SameFiles

/-- Nothing changes for those who refer to inodes. -/
structure Quiet (s s' : State) : Prop where
  ref : ∀ e, (s'.icache e).ref = (s.icache e).ref
  dev : ∀ e, (s'.icache e).dev = (s.icache e).dev
  inum : ∀ e, (s'.icache e).inum = (s.icache e).inum
  files : SameFiles s s'

/-- Nor for those who hold the locks of inodes. -/
structure Steady (s s' : State) : Prop extends Quiet s s' where
  locked : ∀ e, (s'.icache e).locked = (s.icache e).locked

/-- An entry changes, but not its identity and count. -/
theorem Quiet.setCached (s : State) {ip : InodePtr} {c : Cached} (href : c.ref = (s.icache ip).ref)
    (hdev : c.dev = (s.icache ip).dev) (hinum : c.inum = (s.icache ip).inum) :
    Quiet s (s.setCached ip c) :=
  ⟨State.setCached_kept Cached.ref href, State.setCached_kept Cached.dev hdev,
    State.setCached_kept Cached.inum hinum, .of_eq rfl rfl rfl⟩

namespace Steady

variable {s s' s'' : State}

theorem refl (s : State) : Steady s s :=
  ⟨⟨fun _ => rfl, fun _ => rfl, fun _ => rfl, .refl s⟩, fun _ => rfl⟩

theorem trans (h : Steady s s') (h' : Steady s' s'') : Steady s s'' :=
  ⟨⟨fun e => (h'.ref e).trans (h.ref e), fun e => (h'.dev e).trans (h.dev e),
    fun e => (h'.inum e).trans (h.inum e), h.files.trans h'.files⟩,
    fun e => (h'.locked e).trans (h.locked e)⟩

/-- Only disk and outcomes change. -/
theorem of_eq (hcache : s'.icache = s.icache) (hftable : s'.ftable = s.ftable) (hproc : s'.proc = s.proc)
    (hpipe : s'.pipe = s.pipe) : Steady s s' :=
  ⟨⟨fun e => by rw [hcache], fun e => by rw [hcache], fun e => by rw [hcache],
    .of_eq hftable hproc hpipe⟩, fun e => by rw [hcache]⟩

theorem asked (s : State) : Steady s s.asked := .of_eq rfl rfl rfl rfl

/-- The blocks of an inode are not seen in the cache. -/
theorem fill (s : State) (ip : InodePtr) (off n : ℕ) : Steady s (s.fill ip off n) := .of_eq rfl rfl rfl rfl

/-- The offset of a file changes. -/
theorem setOff (s : State) (f : FilePtr) (off : ℕ) :
    Steady s (s.setFile f { s.ftable f with off := off }) := by
  have hfile : ∀ f', (s.setFile f { s.ftable f with off := off }).ftable f' =
      { s.ftable f' with off := if f' = f then off else (s.ftable f').off } := by
    intro f'
    simp only [State.setFile, Function.update_apply]
    split
    next hf => rw [hf]
    next => rfl
  exact ⟨⟨fun _ => rfl, fun _ => rfl, fun _ => rfl, fun f' => by rw [hfile], fun f' => by rw [hfile],
    fun f' => by rw [hfile], fun f' => by rw [hfile], fun f' => by rw [hfile], rfl, rfl⟩, fun _ => rfl⟩

/-- An entry changes, but not its lock either. -/
theorem setCached (s : State) {ip : InodePtr} {c : Cached} (href : c.ref = (s.icache ip).ref)
    (hdev : c.dev = (s.icache ip).dev) (hinum : c.inum = (s.icache ip).inum)
    (hlocked : c.locked = (s.icache ip).locked) : Steady s (s.setCached ip c) :=
  ⟨.setCached s href hdev hinum, State.setCached_kept Cached.locked hlocked⟩

theorem iupdate (s : State) (ip : InodePtr) : Steady s (s.iupdate ip) := by
  simp only [State.iupdate, State.setNextWord]
  split
  · exact of_eq rfl rfl rfl rfl
  · exact of_eq rfl rfl rfl rfl

theorem grow (s : State) (ip : InodePtr) (size : ℕ) : Steady s (s.grow ip size) := by
  unfold State.grow
  split
  · refine (setCached s ?_ ?_ ?_ ?_).trans (iupdate _ ip) <;> rfl
  · exact refl s

theorem ifree {ip : InodePtr} (h : s.ifree ip = some s') : Steady s s' := by
  obtain ⟨t, htrunc, rfl⟩ := Option.map_eq_some_iff.mp h
  have ht : Steady s t := by
    have hrest : ∀ (u : State) (bs : ℕ → ℕ), u.icache = s.icache → Steady s u →
        Steady s ((((u.setEntries (s.icache ip).inum fun _ => ⟨0, []⟩).setBlocks (s.icache ip).inum
          bs).setCached ip { s.icache ip with size := 0 }).iupdate ip) := by
      intro u bs hu hq
      have hdata : Steady u ((u.setEntries (s.icache ip).inum fun _ => ⟨0, []⟩).setBlocks
        (s.icache ip).inum bs) := of_eq rfl rfl rfl rfl
      refine (hq.trans hdata).trans ((setCached _ ?_ ?_ ?_ ?_).trans (iupdate _ ip)) <;>
        simp [State.setEntries, State.setBlocks, hu]
    unfold State.itrunc at htrunc
    dsimp only at htrunc
    split at htrunc
    · obtain ⟨-, hs⟩ := Option.ite_none_left_eq_some.mp htrunc
      cases hs
      exact hrest _ _ rfl (of_eq rfl rfl rfl rfl)
    · cases htrunc
      exact hrest s _ rfl (refl s)
  have htype : Steady t (t.setCached ip { t.icache ip with type := 0 }) := by
    refine setCached t ?_ ?_ ?_ ?_ <;> rfl
  refine ((ht.trans htype).trans (iupdate _ ip)).trans (setCached _ ?_ ?_ ?_ ?_) <;> rfl

end Steady

namespace InodeRefs

variable {h : InodePtr → ℤ} {s s' : State}

variable (hs : InodeRefs h s)

include hs

theorem congr (hq : Quiet s s') : InodeRefs h s' := by
  refine ⟨fun e => ?_, fun e e' => ?_⟩
  · obtain ⟨n, hn, hcensus⟩ := hs.counted e
    refine ⟨n, (hq.ref e).trans hn, hcensus.congr fun a => ?_⟩
    cases a with
    | inl f => simp only [target, hq.files.type, hq.files.ip]
    | inr p => simp only [target, hq.files.proc]
  · rw [hq.ref, hq.ref, hq.dev, hq.dev, hq.inum, hq.inum]
    exact hs.unique e e'

/-- **The count of one entry changes**, and what the call holds with it. -/
theorem shift {ip : InodePtr} {c : Cached} {d : ℤ} (href : c.ref = (s.icache ip).ref + d)
    (hunique : 0 < c.ref → ∀ e, e ≠ ip → 0 < (s.icache e).ref →
      ¬ ((s.icache e).dev = c.dev ∧ (s.icache e).inum = c.inum)) :
    InodeRefs (h + Pi.single ip d) (s.setCached ip c) := by
  have hself : (s.setCached ip c).icache ip = c := by simp [State.setCached]
  have hother : ∀ e, e ≠ ip → (s.setCached ip c).icache e = s.icache e := by
    intro e he
    simp [State.setCached, he]
  refine ⟨Counts.shift hs.counted (by rw [hself, href]) fun e he => by rw [hother e he],
    fun e e' hpos hpos' hdev hinum => ?_⟩
  by_contra hne
  by_cases he : e = ip
  · subst he
    rw [hself] at hpos hdev hinum
    rw [hother e' (Ne.symm hne)] at hpos' hdev hinum
    exact hunique hpos e' (Ne.symm hne) hpos' ⟨hdev.symm, hinum.symm⟩
  · rw [hother e he] at hpos hdev hinum
    by_cases he' : e' = ip
    · subst he'
      rw [hself] at hpos' hdev hinum
      exact hunique hpos' e he hpos ⟨hdev, hinum⟩
    · rw [hother e' he'] at hpos' hdev hinum
      exact hne (hs.unique e e' hpos hpos' hdev hinum)

/-- An entry that keeps its identity and was in use stays the only one. -/
theorem shift_same {d : ℤ} (ip : InodePtr)
    (hpos : 0 < (s.icache ip).ref + d → 0 < (s.icache ip).ref) :
    InodeRefs (h + Pi.single ip d)
      (s.setCached ip { s.icache ip with ref := (s.icache ip).ref + d }) := by
  refine hs.shift rfl fun hc e he hpos' ⟨hdev, hinum⟩ => ?_
  exact he (hs.unique e ip hpos' (hpos hc) hdev hinum)

/-- **A file or a process changes what it refers to**; the call holds the difference. -/
theorem repoint (hcache : s'.icache = s.icache) (a : FilePtr ⊕ ℕ)
    (hrest : ∀ b, b ≠ a → target s' b = target s b) :
    InodeRefs (h + pointed (target s a) - pointed (target s' a)) s' :=
  ⟨by rw [hcache]; exact Counts.repoint hs.counted hrest, by rw [hcache]; exact hs.unique⟩

end InodeRefs

/-! ## The judgement -/

/-- The panics and wild pointers that do not occur. -/
def Safe (e : Fault) : Prop := e ≠ .panic "filedup" ∧ e ≠ .panic "fileclose" ∧ e ≠ .wild

/-- No side condition. -/
abbrev anyway : State → Op → Prop := fun _ _ => True

/-- References that are counted by natural numbers. -/
abbrev nat (h : InodePtr → ℕ) : InodePtr → ℤ := fun e => h e

/-- **The program of process `p` turns the references `h` into `d`**, whatever else is held. -/
def Keeps {α : Type} (p : ℕ) (prog : M α) (h : InodePtr → ℕ) (d : α → InodePtr → ℕ) : Prop :=
  ∀ (g : InodePtr → ℕ) (s : State), InodeRefs (nat (g + h)) s → (s.proc p).cwd ≠ none →
    prog.wp (perform p) anyway Safe (fun a s' => InodeRefs (nat (g + d a)) s' ∧ SameFiles s s') s

/-- A reference to an entry. -/
abbrev one (ip : InodePtr) : InodePtr → ℕ := Pi.single ip 1

theorem nat_add_one (g : InodePtr → ℕ) (ip : InodePtr) : nat (g + one ip) = nat g + Pi.single ip 1 := by
  funext e
  simp only [nat, one, Pi.add_apply, Pi.single_apply]
  split <;> simp

/-- What a lookup returns with a reference to it. -/
abbrev found {β : Type} (r : Option (InodePtr × β)) : InodePtr → ℕ := r.elim 0 fun r => one r.1

/-- An inode that is returned with a reference to it. -/
abbrev foundPtr (r : Option InodePtr) : InodePtr → ℕ := r.elim 0 one

namespace Keeps

variable {α β : Type} {p : ℕ} {h : InodePtr → ℕ}

theorem pure (a : α) (d : α → InodePtr → ℕ) : Keeps p (pure a : M α) (d a) d :=
  fun _ s hs _ => ⟨hs, .refl s⟩

variable {prog : M α} {f : α → M β} {d : α → InodePtr → ℕ} {d' : β → InodePtr → ℕ}

/-- **The sequence rule.** -/
theorem bind (hp : Keeps p prog h d) (hf : ∀ a, Keeps p (f a) (d a) d') : Keeps p (prog >>= f) h d' := by
  intro g s hs hcwd
  refine (hp g s hs hcwd).bind fun a s₁ ⟨hs₁, hsame⟩ => ?_
  refine (hf a g s₁ hs₁ (by rwa [hsame.proc])).mono fun b s₂ ⟨hs₂, hsame'⟩ => ?_
  exact ⟨hs₂, hsame.trans hsame'⟩

/-- **The frame rule.** -/
theorem frame (hp : Keeps p prog h d) (k : InodePtr → ℕ) :
    Keeps p prog (k + h) fun a => k + d a := by
  intro g s hs hcwd
  rw [← add_assoc] at hs
  refine (hp (g + k) s hs hcwd).mono fun a s' ⟨hs', hsame⟩ => ⟨?_, hsame⟩
  rwa [← add_assoc]

/-- An operation that is quiet. -/
theorem quiet {o : Op} (ho : ∀ s, (s.proc p).cwd ≠ none →
    Post (perform p s o) (fun r => Quiet s r.2) Safe) : Keeps p (call o) 0 fun _ => 0 := by
  intro g s hs hcwd _
  exact (ho s hcwd).imp fun r hr => ⟨hs.congr hr, hr.files⟩

end Keeps

/-! ## Operations -/

theorem safe_panic {msg : String} (hmsg : Allowed msg) : Safe (.panic msg) := by
  refine ⟨?_, ?_, nofun⟩
  · rintro ⟨⟩
    exact hmsg.1 rfl
  · rintro ⟨⟩
    exact hmsg.2 rfl

theorem safe_blocked : Safe .blocked := ⟨nofun, nofun, nofun⟩

section Quiet

variable (s : State)

theorem quiet_ilock (ip : InodePtr) : Post (s.ilock ip) (Quiet s) Safe := by
  simp only [State.ilock, post_ite]
  refine ⟨fun _ => safe_panic (by decide), fun _ => ⟨fun _ => safe_blocked, fun _ =>
    ⟨fun _ => ?_, fun _ => ⟨fun _ => safe_panic (by decide), fun _ => ?_⟩⟩⟩⟩
  · exact Quiet.setCached s (by rfl) (by rfl) (by rfl)
  · exact Quiet.setCached s (by rfl) (by rfl) (by rfl)

theorem quiet_iunlock (ip : InodePtr) : Post (s.iunlock ip) (Quiet s) Safe := by
  simp only [State.iunlock, post_ite]
  refine ⟨fun _ => safe_panic (by decide), fun _ => ?_⟩
  exact Quiet.setCached s (by rfl) (by rfl) (by rfl)

/-- What may go wrong in an operation that is steady. -/
def Mild (e : Fault) : Prop := Safe e ∧ e ≠ .blocked

theorem mild_panic {msg : String} (hmsg : Allowed msg) : Mild (.panic msg) := ⟨safe_panic hmsg, nofun⟩

/-- The loops over the entries only panic with the message they are given. -/
theorem findDirent_mild {msg : String} (hmsg : Allowed msg) (dp : InodePtr) (cond : ℕ → Dirent → Bool) :
    Post (s.findDirent msg dp cond) (fun _ => True) Mild := by
  simp only [State.findDirent]
  split
  · trivial
  · rw [post_ite]
    exact ⟨fun _ => trivial, fun _ => mild_panic hmsg⟩

theorem steady_writei (ip : InodePtr) (off n : ℕ) : Steady s (s.writei ip off n).2 := by
  simp only [State.writei]
  split
  · exact Steady.asked s
  · split
    · exact .refl s
    · have hentry : Steady s (if (s.icache ip).type = T_DIR then { s with entry := s.scribble s.entry }
          else s) := by
        split
        · exact .of_eq rfl rfl rfl rfl
        · exact .refl s
      split
      · exact hentry
      · exact (hentry.trans (.fill _ ip off n)).trans (.grow _ ip _)

theorem steady_perform {p : ℕ} {o : Op} (ho : isSteady o = true) :
    Post (perform p s o) (fun r => Steady s r.2) Mild := by
  cases o with
  | beginOp | endOp | inode | file | ofile | isInitproc => exact .refl s
  | readElf | setupkvm | loadSegment | buildStack | piperead | pipewrite => exact Steady.asked s
  | iupdate ip => exact Steady.iupdate s ip
  | setDevice ip major minor | setNlink ip nlink =>
    exact Steady.setCached s (by rfl) (by rfl) (by rfl) (by rfl)
  | setOff f off => exact Steady.setOff s f off
  | isdirempty dp =>
    exact (findDirent_mild s (by decide) dp _).seq fun _ _ => Steady.fill s dp _ _
  | emptyDirent dp =>
    have hoff : Post (s.emptyOffset dp) (fun _ => True) Mild :=
      (findDirent_mild s (by decide) dp _).seq fun k _ => by cases k <;> trivial
    exact hoff.seq fun _ _ => Steady.fill s dp _ _
  | writeDirent dp off de =>
    simp only [perform, State.writeDirent]
    split
    · exact Steady.refl s
    · refine Steady.trans (.of_eq ?_ ?_ ?_ ?_) (Steady.grow _ dp _) <;> rfl
  | readi ip off n =>
    simp only [perform, State.readi]
    split
    · exact Steady.asked s
    · split
      · exact Steady.refl s
      · exact Steady.fill s ip _ _
  | writei ip off n => exact steady_writei s ip off n
  | _ => cases ho

theorem quiet_perform {p : ℕ} {o : Op} (ho : isQuiet o = true) (hcwd : (s.proc p).cwd ≠ none) :
    Post (perform p s o) (fun r => Quiet s r.2) Safe := by
  cases o with
  | ilock ip => exact post_map.mpr (quiet_ilock s ip)
  | iunlock ip => exact post_map.mpr (quiet_iunlock s ip)
  | cwd =>
    simp only [perform]
    split
    · exact (Steady.refl s).toQuiet
    · exact absurd ‹_› hcwd
  | _ => exact Post.mono (steady_perform s ho) (fun _ hr => hr.toQuiet) fun _ he => he.1

end Quiet

/-! ## References taken and given back -/

section Rules

variable {p : ℕ} {h : InodePtr → ℤ} {s : State}

theorem InodeRefs.iget {dev inum : ℕ} {r : InodePtr × State} (hs : InodeRefs h s)
    (hr : s.iget dev inum = some r) : InodeRefs (h + Pi.single r.1 1) r.2 ∧ SameFiles s r.2 := by
  unfold State.iget at hr
  split at hr
  next ip hfind =>
    cases hr
    have hip := List.find?_some hfind
    rw [decide_eq_true_eq] at hip
    exact ⟨hs.shift_same ip fun _ => hip.1, .of_eq rfl rfl rfl⟩
  next hnone =>
    split at hr
    next ip hfind =>
      cases hr
      have hip := List.find?_some hfind
      rw [decide_eq_true_eq] at hip
      refine ⟨hs.shift (by simp [hip]) fun _ e _ hpos hid => ?_, .of_eq rfl rfl rfl⟩
      -- the first loop found no entry for the inode
      have he := List.find?_eq_none.mp hnone e (List.mem_finRange e)
      rw [decide_eq_true_eq] at he
      exact he ⟨hpos, hid⟩
    next => cases hr

theorem InodeRefs.igetOrPanic {g : InodePtr → ℕ} (dev inum : ℕ) (hs : InodeRefs (nat g) s) :
    Post (s.igetOrPanic dev inum) (fun r => InodeRefs (nat (g + one r.1)) r.2 ∧ SameFiles s r.2)
      Safe := by
  unfold State.igetOrPanic
  split
  next r hr =>
    rw [post_ok, nat_add_one]
    exact hs.iget hr
  next => exact safe_panic (by decide)

/-- **A reference is dropped.** -/
theorem InodeRefs.iput (hs : InodeRefs h s) (ip : InodePtr) :
    Post (s.iput ip) (fun s' => InodeRefs (h + Pi.single ip (-1)) s' ∧ SameFiles s s') Safe := by
  -- the count goes down by one, whatever happened before
  have hdrop : ∀ t, Quiet s t →
      InodeRefs (h + Pi.single ip (-1))
        (t.setCached ip { t.icache ip with ref := (t.icache ip).ref - 1 }) ∧
      SameFiles s (t.setCached ip { t.icache ip with ref := (t.icache ip).ref - 1 }) := by
    intro t ht
    exact ⟨(hs.congr ht).shift_same ip fun hpos => by omega, ht.files.trans (.of_eq rfl rfl rfl)⟩
  simp only [State.iput, post_ite]
  refine ⟨fun _ => safe_blocked, fun _ => ⟨fun _ => ?_, fun _ => hdrop s (Steady.refl s).toQuiet⟩⟩
  split
  next t ht => exact hdrop t (Steady.ifree ht).toQuiet
  next => exact safe_panic (by decide)

theorem keeps_iget (dev inum : ℕ) : Keeps p (call (.iget dev inum)) 0 one := by
  intro g s hs _ _
  rw [add_zero] at hs
  exact hs.igetOrPanic dev inum

theorem keeps_iput (ip : InodePtr) : Keeps p (call (.iput ip)) (one ip) fun _ => 0 := by
  intro g s hs _ _
  refine post_map.mpr ((hs.iput ip).imp (fun s' hs' => ⟨?_, hs'.2⟩))
  have hleft := hs'.1
  rw [nat_add_one, add_assoc, ← Pi.single_add, add_neg_cancel, Pi.single_zero, add_zero] at hleft
  rwa [add_zero]

theorem keeps_ialloc (dev : ℕ) (type : Int16) : Keeps p (call (.ialloc dev type)) 0 one := by
  intro g s hs _ _
  rw [add_zero] at hs
  simp only [perform, State.ialloc]
  split
  next => exact safe_panic (by decide)
  next inum _ =>
    have hq : Steady s (((s.setDinode inum ⟨type, 0, 0, 0, 0⟩).setEntries inum
        fun _ => ⟨0, []⟩).setBlocks inum fun _ => 0) := .of_eq rfl rfl rfl rfl
    refine ((hs.congr hq.toQuiet).igetOrPanic dev inum).imp fun r hr => ?_
    exact ⟨hr.1, hq.files.trans hr.2⟩

theorem keeps_dirlookup (dp : InodePtr) (name : Name) :
    Keeps p (call (.dirlookup dp name)) 0 found := by
  intro g s hs _ _
  rw [add_zero] at hs
  simp only [perform, State.dirlookup, post_ite]
  refine ⟨fun _ => safe_panic (by decide), fun _ => ?_⟩
  refine (findDirent_mild s (by decide) dp _).bind (fun k _ => ?_) fun _ he => he.1
  have hfill : Steady s (s.scanned dp 0 k) := .fill s dp _ _
  have hs' := hs.congr hfill.toQuiet
  cases k with
  | none =>
    refine ⟨?_, hfill.files⟩
    rw [found, Option.elim_none, add_zero]
    exact hs'
  | some k => exact (hs'.igetOrPanic _ _).seq fun r hr => ⟨hr.1, hfill.files.trans hr.2⟩

/-- The current directory is referred to, so another reference to it is one more. -/
theorem keeps_dupCwd : Keeps p (do let ip ← call .cwd; call (.idup ip); return ip) 0 one := by
  intro g s hs hcwd _
  rw [add_zero] at hs
  simp only [perform]
  split
  next ip hip =>
    intro _
    obtain ⟨n, hn, hcensus⟩ := hs.counted ip
    have hpos : 0 < n := hcensus.pos (show target s (.inr p) = some ip from hip)
    have hshift := hs.shift_same ip (d := 1) fun _ => by
      rw [hn]
      simp only [nat]
      omega
    rw [← nat_add_one] at hshift
    exact ⟨hshift, .of_eq rfl rfl rfl⟩
  next hnone => exact absurd hnone hcwd

theorem keeps_quiet {o : Op} (ho : isQuiet o = true) : Keeps p (call o) 0 fun _ => 0 :=
  .quiet fun s hcwd => quiet_perform s ho hcwd

theorem keeps_call {o : Op} {h : InodePtr → ℕ} (ho : isQuiet o = true) :
    Keeps p (call o) h fun _ => h := by
  have hframe := (keeps_quiet (p := p) ho).frame h
  rwa [add_zero] at hframe

/-- **The ledger of references**, in which a transaction is worth nothing. -/
def refs (p : ℕ) : Ledger (InodePtr → ℕ) where
  Turns prog h d := Keeps p prog h d
  one := one
  txn := 0
  pure := .pure
  bind := .bind
  frame k hp := hp.frame k
  panic hmsg _ _ _ _ _ := safe_panic hmsg
  plain ho := keeps_quiet (decide_eq_true_iff.mp ho).1
  beginOp := keeps_quiet rfl
  endOp := keeps_quiet rfl
  iget := keeps_iget
  iput := keeps_iput
  ialloc := keeps_ialloc
  dirlookup := keeps_dirlookup
  dupCwd := keeps_dupCwd

theorem keeps_openInode (path : Path) (omode : ℕ) : Keeps p (openInode path omode) 0 foundPtr :=
  (refs p).openInode path omode

theorem keeps_openBad (ip : InodePtr) : Keeps p (openBad ip) (one ip) fun _ => 0 := by
  rw [← zero_add (one ip)]
  exact (refs p).openBad ip

theorem keeps_namei (path : Path) : Keeps p (namei path) 0 foundPtr := (refs p).namei path

theorem keeps_iunlockput (ip : InodePtr) : Keeps p (iunlockput ip) (one ip) fun _ => 0 :=
  (refs p).iunlockput ip

end Rules

end Sysfile
