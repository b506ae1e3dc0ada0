/-
# A failed `exec` changes nothing

`exec` of `exec.c` as a whole: the path is looked up inside a transaction, the program is loaded into a new address
space, the inode and the transaction are given back, the stack is built, and only then does the process get its new
image.  There are a dozen ways to fail on the way.  The file system part runs on the machine of `FileMachine`, the
memory part on the allocator of `Vm`; any call of `kalloc` may fail.  What `readi` gives is a function of the offset.

* `Since` says what a call holds of the inode cache, compared with the state in which it started.
* `Outside` frames are those that were not free when the call started; the memory part leaves them alone.
* `exec_failed` is the result.
-/
import Xv6.Isolation
import Xv6.Loading
import Xv6.Locks
import Xv6.ProcAccounts

open Outcome Option

/-! ## What a walk along a path does to the inode cache -/

namespace Sysfile

open Prog

variable {p : ℕ} {s₀ s s' : State} {h : InodePtr → ℕ} {l : Option InodePtr}

/-- Since the state `s₀` the call has taken the references `h`, and it holds the lock `l`; otherwise the inode cache
is as it was for those who use it. -/
structure Since (s₀ : State) (h : InodePtr → ℕ) (l : Option InodePtr) (s : State) : Prop where
  ref : ∀ e, (s.icache e).ref = (s₀.icache e).ref + h e
  locked : ∀ e, (s.icache e).locked = ((s₀.icache e).locked || decide (l = some e))
  free : ∀ e, l = some e → (s₀.icache e).locked = false
  same : ∀ e, 0 < (s₀.icache e).ref →
    (s.icache e).dev = (s₀.icache e).dev ∧ (s.icache e).inum = (s₀.icache e).inum
  files : SameFiles s₀ s

theorem Since.refl (s : State) : Since s 0 none s :=
  ⟨fun _ => by simp, fun _ => by simp, fun _ he => (by cases he), fun _ _ => ⟨rfl, rfl⟩, .refl s⟩

variable {ip : InodePtr}

section

variable (hs : Since s₀ h l s)

include hs

/-- One entry of the cache changes. -/
theorem Since.setCached {c : Cached} {h' : InodePtr → ℕ} {l' : Option InodePtr}
    (hne : ∀ e, e ≠ ip → h' e = h e ∧ (l' = some e ↔ l = some e))
    (href : c.ref = (s₀.icache ip).ref + h' ip)
    (hlock : c.locked = ((s₀.icache ip).locked || decide (l' = some ip)))
    (hfree : l' = some ip → (s₀.icache ip).locked = false)
    (hsame : 0 < (s₀.icache ip).ref → c.dev = (s₀.icache ip).dev ∧ c.inum = (s₀.icache ip).inum) :
    Since s₀ h' l' (s.setCached ip c) := by
  refine ⟨?_, ?_, fun e he => ?_, ?_, hs.files.trans (.of_eq rfl rfl rfl)⟩
  · refine (State.forall_setCached fun e v => v.ref = (s₀.icache e).ref + h' e).mpr ⟨href, fun e he => ?_⟩
    rw [hs.ref, (hne e he).1]
  · refine (State.forall_setCached fun e v => v.locked = ((s₀.icache e).locked || decide (l' = some e))).mpr
      ⟨hlock, fun e he => ?_⟩
    rw [hs.locked, decide_eq_decide.mpr (hne e he).2]
  · by_cases heq : e = ip
    · exact heq ▸ hfree (heq ▸ he)
    · exact hs.free e ((hne e heq).2.mp he)
  · exact (State.forall_setCached fun e v => 0 < (s₀.icache e).ref →
      v.dev = (s₀.icache e).dev ∧ v.inum = (s₀.icache e).inum).mpr ⟨hsame, fun e _ => hs.same e⟩

theorem Since.iget {dev inum : ℕ} {r : InodePtr × State} (hr : s.iget dev inum = some r) :
    Since s₀ (h + one r.1) l r.2 := by
  have hother : ∀ ip e : InodePtr, e ≠ ip → (h + one ip) e = h e ∧ (l = some e ↔ l = some e) := by
    intro ip e he
    exact ⟨by simp [Pi.single_eq_of_ne he], Iff.rfl⟩
  unfold State.iget at hr
  split at hr
  next ip hfind =>
    cases hr
    refine hs.setCached (hother ip) ?_ (hs.locked ip) (hs.free ip) (hs.same ip)
    simp only [hs.ref ip, Pi.add_apply, Pi.single_eq_same, Nat.cast_add, Nat.cast_one]
    omega
  next =>
    split at hr
    next ip hfind =>
      cases hr
      have hip := List.find?_some hfind
      rw [decide_eq_true_eq, hs.ref ip] at hip
      refine hs.setCached (hother ip) ?_ (hs.locked ip) (hs.free ip) fun hpos => ?_
      · simp only [Pi.add_apply, Pi.single_eq_same, Nat.cast_add, Nat.cast_one]
        omega
      · omega
    next => cases hr

theorem Since.igetOrPanic (dev inum : ℕ) :
    Post (s.igetOrPanic dev inum) (fun r => Since s₀ (h + one r.1) l r.2) fun _ => True := by
  unfold State.igetOrPanic
  split
  next r hr => exact hs.iget hr
  next => trivial

theorem Since.steady (hq : Steady s s') : Since s₀ h l s' :=
  ⟨fun e => by rw [hq.ref, hs.ref], fun e => by rw [hq.locked, hs.locked], hs.free,
    fun e he => by rw [hq.dev, hq.inum]; exact hs.same e he, hs.files.trans hq.files⟩

theorem Since.dirlookup (dp : InodePtr) (name : Name) :
    Post (s.dirlookup dp name) (fun r => Since s₀ (h + found r.1) l r.2) fun _ => True := by
  simp only [State.dirlookup, post_ite]
  refine ⟨fun _ => trivial, fun _ => ?_⟩
  refine (findDirent_mild s (by decide) dp _).bind (fun k _ => ?_) fun _ _ => trivial
  have hs' : Since s₀ h l (s.scanned dp 0 k) := hs.steady (.fill s dp _ _)
  cases k with
  | none =>
    show Since s₀ (h + 0) l _
    rwa [add_zero]
  | some k => exact (hs'.igetOrPanic _ _).seq fun r hr => hr

theorem Since.idup (ip : InodePtr) :
    Since s₀ (h + one ip) l (s.setCached ip { s.icache ip with ref := (s.icache ip).ref + 1 }) := by
  refine hs.setCached (fun e he => ⟨by simp [Pi.single_eq_of_ne he], Iff.rfl⟩) ?_ (hs.locked ip) (hs.free ip)
    (hs.same ip)
  simp only [hs.ref ip, Pi.add_apply, Pi.single_eq_same, Nat.cast_add, Nat.cast_one]
  omega

end

theorem Since.ilock (hs : Since s₀ h none s) (ip : InodePtr) :
    Post (s.ilock ip) (Since s₀ h (some ip)) fun _ => True := by
  have hother : ∀ e, e ≠ ip → h e = h e ∧ (some ip = some e ↔ none = some e) := by
    intro e he
    exact ⟨rfl, fun heq => absurd (some.inj heq).symm he, nofun⟩
  have hlock := hs.locked ip
  simp only [State.ilock, post_ite]
  refine ⟨fun _ => trivial, fun _ => ⟨fun _ => trivial, fun hun => ⟨fun _ => ?_, fun _ => ⟨fun _ => trivial, fun _ => ?_⟩⟩⟩⟩
  · have hfree : (s₀.icache ip).locked = false := by simpa [hlock] using hun
    exact hs.setCached hother (hs.ref ip) (by simp [hfree]) (fun _ => hfree) (hs.same ip)
  · have hfree : (s₀.icache ip).locked = false := by simpa [hlock] using hun
    exact hs.setCached hother (hs.ref ip) (by simp [hfree]) (fun _ => hfree) (hs.same ip)

theorem Since.iunlock (hs : Since s₀ h (some ip) s) :
    Post (s.iunlock ip) (Since s₀ h none) fun _ => True := by
  simp only [State.iunlock, post_ite]
  refine ⟨fun _ => trivial, fun _ => ?_⟩
  have hfree := hs.free ip rfl
  refine hs.setCached (fun e he => ⟨rfl, by simp, fun heq => absurd (some.inj heq).symm he⟩) (hs.ref ip)
    (by simp [hfree]) (fun heq => (by cases heq)) (hs.same ip)

theorem Since.iput (hs : Since s₀ (h + one ip) l s) :
    Post (s.iput ip) (Since s₀ h l) fun _ => True := by
  have hdrop : ∀ t, Since s₀ (h + one ip) l t →
      Since s₀ h l (t.setCached ip { t.icache ip with ref := (t.icache ip).ref - 1 }) := by
    intro t ht
    refine ht.setCached (fun e he => ⟨by simp [Pi.single_eq_of_ne he], Iff.rfl⟩) ?_ (ht.locked ip) (ht.free ip)
      (ht.same ip)
    simp only [ht.ref ip, Pi.add_apply, Pi.single_eq_same, Nat.cast_add, Nat.cast_one]
    omega
  simp only [State.iput, post_ite]
  refine ⟨fun _ => trivial, fun _ => ⟨fun _ => ?_, fun _ => hdrop s hs⟩⟩
  split
  next t ht => exact hdrop t (hs.steady (.ifree ht))
  next => trivial

/-- What a part of a call ends with, if it returns. -/
abbrev Ends {α : Type} (p : ℕ) (prog : M α) (Q : α → State → Prop) (s : State) : Prop :=
  prog.wp (perform p) anyway (fun _ => True) Q s

/-- An operation, and what follows it. -/
theorem ends_call {β : Type} {o : Op} {f : Ans o → M β} {Q : β → State → Prop}
    (hpost : Post (perform p s o) (fun r => Ends p (f r.1) Q r.2) fun _ => True) : Ends p (call o >>= f) Q s :=
  fun _ => hpost

theorem ends_iunlockput {β : Type} {f : Unit → M β} {Q : β → State → Prop}
    (hs : Since s₀ (h + one ip) (some ip) s) (hf : ∀ t, Since s₀ h none t → Ends p (f ()) Q t) :
    Ends p (iunlockput ip >>= f) Q s := by
  refine wp.bind (R := fun _ t => Since s₀ h none t) ?_ fun _ t ht => hf t ht
  refine ends_call (post_map.mpr (hs.iunlock.imp (fun t ht => ?_)))
  exact fun _ => post_map.mpr ht.iput

/-- **The loop of `namex`** gives back every reference but the one to the inode that it returns, and every lock. -/
theorem ends_namexLoop (names : List Name) : ∀ (ip : InodePtr) (s : State), Since s₀ (one ip) none s →
    Ends p (namexLoop false ip names) (fun r t => Since s₀ (found r) none t) s := by
  induction names with
  | nil => exact fun ip s hs => hs
  | cons name rest ih =>
    intro ip s hs
    unfold namexLoop
    refine ends_call (post_map.mpr ((hs.ilock ip).imp (fun t ht => ?_)))
    refine ends_call ?_
    show Ends p _ _ t
    have ht0 : Since s₀ (0 + one ip) (some ip) t := by rwa [zero_add]
    split
    · exact ends_iunlockput ht0 fun u hu => hu
    · rw [if_neg (fun hc => absurd hc.1 Bool.false_ne_true)]
      refine ends_call ((ht.dirlookup ip name).imp (fun r hr => ?_))
      obtain ⟨r, u⟩ := r
      cases r with
      | none =>
        have hu : Since s₀ (0 + one ip) (some ip) u := by
          rw [zero_add]
          exact hr
        exact ends_iunlockput hu fun v hv => hv
      | some r =>
        have hu : Since s₀ (one r.1 + one ip) (some ip) u := by
          rw [add_comm]
          exact hr
        exact ends_iunlockput hu fun v hv => ih r.1 v hv

theorem ends_namei (path : Path) (s : State) :
    Ends p (namei path) (fun r t => Since s (foundPtr r) none t) s := by
  have hstart : Ends p (namexStart path) (fun ip t => Since s (one ip) none t) s := by
    unfold namexStart
    split
    · refine fun _ => ((Since.refl s).igetOrPanic ROOTDEV ROOTINO).imp fun r hr => ?_
      rw [zero_add] at hr
      exact hr
    · refine ends_call ?_
      simp only [perform]
      split
      next ip hip =>
        refine ends_call ?_
        have hdup := (Since.refl s).idup ip
        rw [zero_add] at hdup
        exact hdup
      next => trivial
  refine wp.bind (hstart.bind fun ip t ht => ends_namexLoop _ ip t ht) fun r t ht => ?_
  cases r with
  | none => exact ht
  | some r => exact ht

end Sysfile

/-! ## `exec` -/

/-- `struct trapframe`. -/
structure Trapframe where
  eip : ℕ
  esp : ℕ
  /-- The other registers. -/
  regs : ℕ → ℕ

/-- `struct proc`: what `exec` assigns. -/
structure Curproc where
  pgdir : Pgdir
  sz : ℕ
  name : List UInt8
  priority : ℤ
  tf : Trapframe

/-- The kernel, as seen by a process in `exec`. -/
structure Kernel where
  files : Sysfile.State
  /-- `log.outstanding` -/
  outstanding : ℤ
  kmem : Kmem
  curproc : Curproc

/-- Why `exec` does not return. -/
inductive Halt where
  | files (e : Sysfile.Fault)
  | memory (e : Stop)

namespace Kernel

open Sysfile Pgdir

variable {α : Type} {ld : Linker} {p : ℕ} {s s' : Kernel}

/-- A part of `exec` that works on files. -/
def inFiles (s : Kernel) (p : ℕ) (prog : M α) : Except Halt (α × Kernel) :=
  match prog.run (perform p) s.files with
  | .ok (a, t) => .ok (a, { s with files := t })
  | .error e => .error (.files e)

/-- A part of `exec` that works on memory. -/
def inMemory (r : Except Stop α) : Except Halt α :=
  match r with
  | .ok a => .ok a
  | .error e => .error (.memory e)

def begin_op (s : Kernel) : Kernel := { s with outstanding := s.outstanding + 1 }

def end_op (s : Kernel) : Kernel := { s with outstanding := s.outstanding - 1 }

/-- The label `bad`, with the inode still locked: it is given back, and the transaction ended. -/
def badInode (p : ℕ) (ip : InodePtr) (s : Kernel) : Except Halt (ℤ × Kernel) := do
  let (_, s) ← s.inFiles p (iunlockput ip)
  return (-1, s.end_op)

/-- The program name: what comes after the last slash, in an array of 16 bytes. -/
def progName (path : Path) : List UInt8 := ((path.reverse.takeWhile (· ≠ slash)).reverse).take 15

/-- Commit to the user image. -/
def commit (ld : Linker) (path : Path) (pg : Pgdir) (sz entry sp : ℕ) (s : Kernel) : Except Halt (ℤ × Kernel) := do
  let k ← inMemory (freevm ld s.kmem s.curproc.pgdir)
  return (0, { s with
    kmem := k
    curproc := ⟨pg, sz, progName path, ProcAccounts.LOW, { s.curproc.tf with eip := entry, esp := sp }⟩ })

/-- The part after the program is loaded: the stack, and the commit. -/
def finish (ld : Linker) (path : Path) (argv : List (List UInt8)) (entry : ℕ) (pg : Pgdir) (sz : ℕ) (s : Kernel) :
    Except Halt (ℤ × Kernel) := do
  let (r, k, pg) ← inMemory (Exec.addStack ld argv s.kmem pg (pgroundup sz))
  match r with
  | none =>
    let k ← inMemory (freevm ld k pg)
    return (-1, { s with kmem := k })
  | some (sz, sp) => commit ld path pg sz entry sp { s with kmem := k }

/-- Load the program of the locked inode `ip`, and go on. -/
def loadFrom (ld : Linker) (p : ℕ) (path : Path) (argv : List (List UInt8)) (ip : InodePtr) (elf : File)
    (s : Kernel) : Except Halt (ℤ × Kernel) :=
  if elf.size < 52 then badInode p ip s
  else if elf.field 0 4 ≠ ELF_MAGIC then badInode p ip s
  else do
    let (pg, k) ← inMemory (setupkvm ld s.kmem)
    match pg with
    | none => badInode p ip { s with kmem := k }
    | some pg =>
      let (sz, k, pg) ← inMemory (Exec.loadProgram ld elf (elf.field 44 2) (elf.field 28 4) k pg 0)
      match sz with
      | none =>
        let k ← inMemory (freevm ld k pg)
        badInode p ip { s with kmem := k }
      | some sz =>
        let (_, s) ← inFiles { s with kmem := k } p (iunlockput ip)
        finish ld path argv (elf.field 24 4) pg sz s.end_op

/-- `exec` of process `p`; `contents` is what `readi` gives for each inode. -/
def exec (ld : Linker) (p : ℕ) (contents : InodePtr → File) (path : Path) (argv : List (List UInt8)) (s : Kernel) :
    Except Halt (ℤ × Kernel) := do
  let (r, s) ← s.begin_op.inFiles p (namei path)
  match r with
  | none => return (-1, s.end_op)
  | some ip =>
    let (_, s) ← s.inFiles p (call (.ilock ip))
    loadFrom ld p path argv ip (contents ip) s

/-! ## The result -/

/-- The allocator has the same free pages, and no page that was in use has changed. -/
structure Kept (ld : Linker) (k k' : Kmem) : Prop where
  good : k'.Good ld
  free_iff : ∀ f, f ∈ k'.freelist ↔ f ∈ k.freelist
  page_eq : ∀ f, f ∉ k.freelist → k'.page f = k.page f

/-- Everything that a failed `exec` must leave alone is as it was. -/
structure Unchanged (s s' : Kernel) : Prop where
  /-- The page directory, size, name, priority and trap frame of the process. -/
  curproc : s'.curproc = s.curproc
  /-- Its memory. -/
  memory : ∀ j e, s.curproc.pgdir.UserPage j e → s'.kmem.page e.frame = s.kmem.page e.frame
  free_iff : ∀ f, f ∈ s'.kmem.freelist ↔ f ∈ s.kmem.freelist
  ref : ∀ e, (s'.files.icache e).ref = (s.files.icache e).ref
  locked : ∀ e, (s'.files.icache e).locked = (s.files.icache e).locked
  /-- An entry of the inode cache that is in use is for the same inode. -/
  inode : ∀ e, 0 < (s.files.icache e).ref →
    (s'.files.icache e).dev = (s.files.icache e).dev ∧ (s'.files.icache e).inum = (s.files.icache e).inum
  outstanding : s'.outstanding = s.outstanding

/-- A stage of `exec`: what it holds of the files, and how many transactions it has begun; the process is as it
was. -/
structure Stage (s₀ : Kernel) (h : InodePtr → ℕ) (l : Option InodePtr) (d : ℤ) (s : Kernel) : Prop where
  files : Since s₀.files h l s.files
  outstanding : s.outstanding = s₀.outstanding + d
  curproc : s.curproc = s₀.curproc

variable {s₀ : Kernel}

theorem Stage.unchanged (h : Stage s₀ 0 none 0 s) (hk : Kept ld s₀.kmem s.kmem)
    (hown : NoneFree s₀.kmem s₀.curproc.pgdir) : Unchanged s₀ s where
  curproc := h.curproc
  memory := fun j e he => hk.page_eq _ (hown j e he)
  free_iff := hk.free_iff
  ref := fun e => by simpa using h.files.ref e
  locked := fun e => by simpa using h.files.locked e
  inode := h.files.same
  outstanding := by simpa using h.outstanding

variable {d : ℤ}

theorem Stage.kmem {h : InodePtr → ℕ} {l : Option InodePtr} (hs : Stage s₀ h l d s) (k : Kmem) :
    Stage s₀ h l d { s with kmem := k } := ⟨hs.files, hs.outstanding, hs.curproc⟩

theorem Stage.end_op {h : InodePtr → ℕ} {l : Option InodePtr} (hs : Stage s₀ h l (d + 1) s) :
    Stage s₀ h l d s.end_op :=
  ⟨hs.files, by have := hs.outstanding; show s.outstanding - 1 = _; omega, hs.curproc⟩

/-- A part that works on files leaves the rest of the kernel alone. -/
theorem inFiles_post {prog : M α} {Q : α → Sysfile.State → Prop} (h : Ends p prog Q s.files) :
    Post (s.inFiles p prog)
      (fun r => Q r.1 r.2.files ∧ r.2.kmem = s.kmem ∧ r.2.outstanding = s.outstanding ∧ r.2.curproc = s.curproc)
      fun _ => True := by
  have hpost := h.post (Prog.meets_of_forall (fun _ _ => trivial) prog s.files)
  unfold inFiles
  cases hr : prog.run (perform p) s.files with
  | error e => trivial
  | ok r =>
    rw [hr] at hpost
    exact ⟨hpost, rfl, rfl, rfl⟩

theorem inMemory_post {r : Except Stop α} {P : α → Prop} (h : Post r P fun _ => True) :
    Post (inMemory r) P fun _ => True := by
  cases r with
  | error e => trivial
  | ok a => exact h

variable {ip : InodePtr}

/-- The inode is given back, in a stage that holds it and its lock. -/
theorem Stage.iunlockput (hs : Stage s₀ (Sysfile.one ip) (some ip) d s) :
    Post (s.inFiles p (Sysfile.iunlockput ip)) (fun r => Stage s₀ 0 none d r.2 ∧ r.2.kmem = s.kmem) fun _ => True := by
  have hfiles : Since s₀.files (0 + Sysfile.one ip) (some ip) s.files := by
    rw [zero_add]
    exact hs.files
  have hends : Ends p (Sysfile.iunlockput ip) (fun _ t => Since s₀.files 0 none t) s.files :=
    ends_call (post_map.mpr (hfiles.iunlock.imp (fun t ht _ => post_map.mpr ht.iput)))
  refine (inFiles_post hends).imp ?_
  rintro ⟨_, t⟩ ⟨ht, hkmem, hout, hcur⟩
  exact ⟨⟨ht, hout.trans hs.outstanding, hcur.trans hs.curproc⟩, hkmem⟩

/-- **The label `bad`** gives back the inode, its lock and the transaction. -/
theorem badInode_post (hs : Stage s₀ (Sysfile.one ip) (some ip) 1 s) (hk : Kept ld s₀.kmem s.kmem)
    (hown : NoneFree s₀.kmem s₀.curproc.pgdir) :
    Post (badInode p ip s) (fun r => r.1 = -1 → Unchanged s₀ r.2) fun _ => True := by
  refine hs.iunlockput.seq ?_
  rintro ⟨_, t⟩ ⟨ht, hkmem⟩ -
  have hend : Stage s₀ 0 none 0 t.end_op := Stage.end_op (by rwa [zero_add])
  have hkept : Kept ld s₀.kmem t.end_op.kmem := by
    rw [show t.end_op.kmem = s.kmem from hkmem]
    exact hk
  exact hend.unchanged hkept hown

/-- The new address space is freed. -/
theorem freevm_kept {k k₁ : Kmem} {pg : Pgdir} (hheld : Held ld {f | f ∈ k.freelist} k₁ pg)
    (hpage : ∀ f, f ∉ k.freelist → k₁.page f = k.page f) : Post (freevm ld k₁ pg) (Kept ld k) fun _ => True := by
  obtain ⟨k₂, hfree, hgood, hmem, hkeep, -⟩ := freevm_spec hheld.sound
  rw [hheld.frames_eq] at hmem hkeep
  rw [hfree]
  exact ⟨hgood, hmem, fun f hf => (hkeep f hf).trans (hpage f hf)⟩

/-- **The stack and the commit**: if there is no stack, the new address space is freed. -/
theorem finish_post {pg : Pgdir} {sz : ℕ} (hs : Stage s₀ 0 none 0 s)
    (hload : Loaded ld {f | f ∈ s₀.kmem.freelist} s.kmem pg sz)
    (hpage : ∀ f, f ∉ s₀.kmem.freelist → s.kmem.page f = s₀.kmem.page f)
    (hown : NoneFree s₀.kmem s₀.curproc.pgdir) (path : Path) (argv : List (List UInt8)) (entry : ℕ) :
    Post (finish ld path argv entry pg sz s) (fun r => r.1 = -1 → Unchanged s₀ r.2) fun _ => True := by
  have hround := hload.roundUp
  rw [pgroundup_eq hload.sz_le] at hround
  unfold finish
  rw [pgroundup_eq hload.sz_le]
  cases ha : Exec.addStack ld argv s.kmem pg (npages sz * PGSIZE) with
  | error e => trivial
  | ok r =>
    obtain ⟨r, k, pg'⟩ := r
    obtain ⟨hheld, -, hstack⟩ := (Exec.addStack_post hround rfl argv).of_ok ha
    have hkeep : ∀ f, f ∉ s₀.kmem.freelist → k.page f = s₀.kmem.page f := fun f hf =>
      (hstack f hf).trans (hpage f hf)
    cases r with
    | none =>
      refine (inMemory_post (freevm_kept hheld hkeep)).seq ?_
      exact fun k' hk' _ => (hs.kmem k').unchanged hk' hown
    | some r =>
      -- after the commit the call does not return `-1`
      show Post (commit ld path pg' r.1 entry r.2 { s with kmem := k }) _ _
      unfold commit
      cases inMemory (freevm ld k s.curproc.pgdir) with
      | error e => trivial
      | ok k => exact fun h => absurd h (show ¬ (0 : ℤ) = -1 by decide)

/-- **Loading**: each failure frees what was built so far. -/
theorem loadFrom_post {elf : File} (hs : Stage s₀ (Sysfile.one ip) (some ip) 1 s)
    (hkmem : s.kmem = s₀.kmem) (hgood : s₀.kmem.Good ld) (hown : NoneFree s₀.kmem s₀.curproc.pgdir)
    (helf : elf.size < 2 ^ 32) (path : Path) (argv : List (List UInt8)) :
    Post (loadFrom ld p path argv ip elf s) (fun r => r.1 = -1 → Unchanged s₀ r.2) fun _ => True := by
  have hsame : Kept ld s₀.kmem s.kmem := by
    rw [hkmem]
    exact ⟨hgood, fun _ => Iff.rfl, fun _ _ => rfl⟩
  unfold loadFrom
  split
  · exact badInode_post hs hsame hown
  split
  · exact badInode_post hs hsame hown
  rw [hkmem]
  rcases setupkvm_spec hgood with ⟨k₁, heq, hgood₁, hmem, hkeep, -⟩ | ⟨k₁, d, heq, hset⟩
  · rw [heq]
    exact badInode_post (hs.kmem k₁) ⟨hgood₁, hmem, hkeep⟩ hown
  · rw [heq]
    obtain ⟨⟨r, k₂, pg₂⟩, hload, hl⟩ := Exec.loadProgram_spec helf (elf.field 44 2) (elf.field 28 4)
      (hset.filled fun _ => 0) fun _ _ => rfl
    have hkeep : ∀ f, f ∉ s₀.kmem.freelist → k₂.page f = s₀.kmem.page f := by
      intro f hf
      rw [hl.outside f hf, hset.page_eq]
    show Post (inMemory (Exec.loadProgram ld elf _ _ k₁ d 0) >>= _) _ _
    rw [hload]
    cases r with
    | none =>
      refine (inMemory_post (freevm_kept hl.held hkeep)).seq ?_
      exact fun k₃ hk₃ => badInode_post (hs.kmem k₃) hk₃ hown
    | some sz =>
      have hfill := (hl.filled sz rfl).2.1
      refine (hs.kmem k₂).iunlockput.seq ?_
      rintro ⟨_, t⟩ ⟨ht, htk⟩
      have hend : Stage s₀ 0 none 0 t.end_op := Stage.end_op (by rwa [zero_add])
      have hk : t.end_op.kmem = k₂ := htk
      refine finish_post hend ?_ ?_ hown path argv _
      · rw [hk]
        exact hfill.toLoaded
      · rw [hk]
        exact hkeep

/-- **A failed `exec` changes nothing**: whatever the path, the arguments and the file are, and whichever calls of
`kalloc` fail, if `exec` returns `-1` then the process and its memory, the free pages, the reference counts and locks of
the inode cache and the number of open transactions are as they were. -/
theorem exec_failed (hgood : s.kmem.Good ld) (hown : NoneFree s.kmem s.curproc.pgdir)
    {contents : InodePtr → File} (hfile : ∀ ip, (contents ip).size < 2 ^ 32) {path : Path}
    {argv : List (List UInt8)} (heq : exec ld p contents path argv s = .ok (-1, s')) : Unchanged s s' := by
  have hpost : Post (exec ld p contents path argv s) (fun r => r.1 = -1 → Unchanged s r.2) fun _ => True := by
    refine (inFiles_post (ends_namei path s.begin_op.files)).seq ?_
    rintro ⟨r, t⟩ ⟨ht, hkmem, hout, hcur⟩
    have hstage : Stage s (foundPtr r) none 1 t := ⟨ht, hout, hcur⟩
    cases r with
    | none =>
      have hend : Stage s 0 none 0 t.end_op := Stage.end_op (by rwa [zero_add])
      have hkept : Kept ld s.kmem t.end_op.kmem := by
        rw [show t.end_op.kmem = s.kmem from hkmem]
        exact ⟨hgood, fun _ => Iff.rfl, fun _ _ => rfl⟩
      exact fun _ => hend.unchanged hkept hown
    | some ip =>
      have hlock : Ends p (call (.ilock ip)) (fun _ u => Since s.files (Sysfile.one ip) (some ip) u) t.files :=
        fun _ => post_map.mpr (hstage.files.ilock ip)
      refine (inFiles_post hlock).seq ?_
      rintro ⟨_, u⟩ ⟨hu, hukmem, huout, hucur⟩
      exact loadFrom_post ⟨hu, huout.trans hout, hucur.trans hcur⟩ (hukmem.trans hkmem) hgood hown (hfile ip) path
        argv
  exact hpost.of_ok heq rfl

/-- A kernel with an empty file `x` in the root directory, and a process with one page. -/
def small : Kernel where
  files := Sysfile.State.boot 8
    (fun i => if i = 1 then ⟨T_DIR, 0, 0, 1, 16⟩ else if i = 2 then ⟨T_FILE, 0, 0, 1, 0⟩ else ⟨0, 0, 0, 0, 0⟩)
    (fun _ => 0) (fun i k => if i = 1 ∧ k = 0 then ⟨2, [120]⟩ else ⟨0, []⟩) fun i bn => 64 * i + bn
  outstanding := 0
  kmem := ProcMem.bootKmem
  curproc := ⟨singlePage 2000, PGSIZE, [105], 1, ⟨0, PGSIZE, fun _ => 0⟩⟩

/-- The file `x` is no program. -/
theorem exec_failed_small : ∃ s', exec ProcMem.bootLinker 0 (fun _ => ⟨0, fun _ => 0⟩) [120] [] small = .ok (-1, s') ∧
    Unchanged small s' := by
  obtain ⟨s', heq⟩ : ∃ s', exec ProcMem.bootLinker 0 (fun _ => ⟨0, fun _ => 0⟩) [120] [] small = .ok (-1, s') :=
    ⟨_, rfl⟩
  exact ⟨s', heq, exec_failed ProcMem.bootKmem_good noneFree_singlePage (fun _ => by decide) heq⟩

end Kernel
