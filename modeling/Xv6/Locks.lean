/-
# The inode locks that a call holds

`Locks L s` says which sleep-locks of the inode cache are held.  Only `ilock` takes one and only `iunlock`
releases one, and `iput` waits for one without keeping it; all other operations leave them alone.

`Unblocked p L prog L'` says that the program, started with the locks `L`, does not wait for one of them,
and which it holds at its end.  It is proved here for what the calls have in common.
-/
import Xv6.FileRefs

namespace Sysfile

open Prog Outcome List

/-- The locks that are held. -/
def Locks (L : List InodePtr) (s : State) : Prop := ∀ e, (s.icache e).locked = true ↔ e ∈ L

variable {p : ℕ} {s s' : State} {ip dp : InodePtr} {L : List InodePtr} {α β : Type}

theorem Locks.of_not_mem (h : Locks L s) (hip : ip ∉ L) : (s.icache ip).locked = false :=
  Bool.eq_false_iff.mpr fun hl => hip ((h ip).mp hl)

theorem Locks.of_mem (h : Locks L s) (hip : ip ∈ L) : (s.icache ip).locked = true := (h ip).mpr hip

/-- The order does not matter. -/
theorem Locks.swap (h : Locks (ip :: dp :: L) s) : Locks (dp :: ip :: L) s := fun e => by
  rw [h e]
  simp only [mem_cons]
  tauto

/-- The same locks are held. -/
def SameLocks (s s' : State) : Prop := ∀ e, (s'.icache e).locked = (s.icache e).locked

theorem Locks.congr (h : Locks L s) (hsame : SameLocks s s') : Locks L s' := fun e => by
  rw [hsame e]
  exact h e

namespace SameLocks

variable {s'' : State}

theorem of_icache (h : s'.icache = s.icache) : SameLocks s s' := fun e => by rw [h]

theorem refl (s : State) : SameLocks s s := fun _ => rfl

theorem trans (h : SameLocks s s') (h' : SameLocks s' s'') : SameLocks s s'' := fun e =>
  (h' e).trans (h e)

/-- An entry changes, but not its lock. -/
theorem setCached (s : State) {c : Cached} (hc : c.locked = (s.icache ip).locked) :
    SameLocks s (s.setCached ip c) := State.setCached_kept Cached.locked hc

theorem iupdate (s : State) (ip : InodePtr) : SameLocks s (s.iupdate ip) :=
  (Steady.iupdate s ip).locked

theorem iget {dev inum : ℕ} {r : InodePtr × State} (h : s.iget dev inum = some r) :
    SameLocks s r.2 := by
  unfold State.iget at h
  split at h
  · cases h
    exact setCached s (by rfl)
  · split at h
    · cases h
      exact setCached s (by rfl)
    · cases h

end SameLocks

/-- What does not wait. -/
abbrev NotBlocked : Fault → Prop := fun e => e ≠ .blocked

theorem notBlocked_panic (msg : String) : NotBlocked (.panic msg) := nofun

theorem sameLocks_igetOrPanic (s : State) (dev inum : ℕ) :
    Post (s.igetOrPanic dev inum) (fun r => SameLocks s r.2) NotBlocked := by
  unfold State.igetOrPanic
  split
  next r hr => exact SameLocks.iget hr
  next => exact notBlocked_panic _

/-! ## Operations -/

/-- The operations that neither take nor release a lock, nor wait for one. -/
def isCalm : Op → Bool
  | .ilock _ | .iunlock _ | .iput _ => false
  | _ => true

/-- **The other operations leave the locks alone.** -/
theorem calm_perform (s : State) {o : Op} (ho : isCalm o = true) :
    Post (perform p s o) (fun r => SameLocks s r.2) NotBlocked := by
  cases o with
  | ilock | iunlock | iput => cases ho
  | panic msg => exact notBlocked_panic msg
  | kalloc | initPipe | setInodeFile | setPipeFile | setOfile | setCwd | childOfile | childCwd
  | childRunnable | zombie | copyuvm | allocproc => exact SameLocks.refl s
  | iget dev inum => exact sameLocks_igetOrPanic s dev inum
  | idup ip => exact SameLocks.setCached s (by rfl)
  | ialloc dev type =>
    simp only [perform, State.ialloc]
    split
    · exact notBlocked_panic _
    · exact sameLocks_igetOrPanic _ dev _
  | dirlookup dp name =>
    simp only [perform, State.dirlookup, post_ite]
    refine ⟨fun _ => notBlocked_panic _, fun _ => ?_⟩
    refine (findDirent_mild s (by decide) dp _).bind (fun k _ => ?_) fun _ he => he.2
    cases k with
    | none => exact SameLocks.refl s
    | some k => exact (sameLocks_igetOrPanic _ _ _).seq fun r hr => hr
  | filealloc =>
    simp only [perform, State.filealloc]
    split <;> exact SameLocks.refl s
  | filedup f =>
    simp only [perform, State.filedup]
    split
    · exact notBlocked_panic _
    · exact SameLocks.refl s
  | filedrop f =>
    cases f with
    | none => rintro ⟨⟩
    | some f =>
      simp only [perform, State.filedrop]
      split
      · exact notBlocked_panic _
      · split <;> exact SameLocks.refl s
  | pipeclose page writable =>
    refine post_map.mpr ?_
    simp only [State.pipeclose]
    split
    · rintro ⟨⟩
    · rw [post_ite]
      exact ⟨fun _ => SameLocks.refl s, fun _ => SameLocks.refl s⟩
  | cwd =>
    simp only [perform]
    split
    · exact SameLocks.refl s
    · rintro ⟨⟩
  | _ => exact Post.mono (steady_perform s rfl) (fun _ hr => hr.locked) fun _ he => he.2

/-- Taking a lock that is free. -/
theorem locks_ilock (hs : Locks L s) (hip : ip ∉ L) :
    Post (s.ilock ip) (fun s' => Locks (ip :: L) s') NotBlocked := by
  have hset : ∀ c : Cached, c.locked = true → Locks (ip :: L) (s.setCached ip c) := by
    intro c hc
    refine (State.forall_setCached fun e v => v.locked = true ↔ e ∈ ip :: L).mpr ⟨by simp [hc], fun e he => ?_⟩
    rw [hs e, mem_cons, or_iff_right he]
  simp only [State.ilock, post_ite]
  refine ⟨fun _ => notBlocked_panic _, fun _ => ⟨fun hl => ?_, fun _ => ⟨fun _ => hset _ rfl, fun _ =>
    ⟨fun _ => notBlocked_panic _, fun _ => hset _ rfl⟩⟩⟩⟩
  exact absurd hl (Bool.eq_false_iff.mp (hs.of_not_mem hip))

theorem locks_iunlock (hs : Locks (ip :: L) s) (hip : ip ∉ L) :
    Post (s.iunlock ip) (fun s' => Locks L s') NotBlocked := by
  simp only [State.iunlock, post_ite]
  refine ⟨fun _ => notBlocked_panic _, fun _ =>
    (State.forall_setCached fun e v => v.locked = true ↔ e ∈ L).mpr ⟨by simpa using hip, fun e he => ?_⟩⟩
  rw [hs e, mem_cons, or_iff_right he]

theorem locks_iput (hs : Locks L s) (hip : ip ∉ L) :
    Post (s.iput ip) (fun s' => Locks L s') NotBlocked := by
  simp only [State.iput, post_ite]
  refine ⟨fun hl => ?_, fun _ => ⟨fun _ => ?_, fun _ => hs.congr (SameLocks.setCached s (by rfl))⟩⟩
  · exact absurd hl (Bool.eq_false_iff.mp (hs.of_not_mem hip))
  · split
    next t ht => exact hs.congr (SameLocks.trans (Steady.ifree ht).locked (.setCached t (by rfl)))
    next => exact notBlocked_panic _

/-! ## Programs -/

/-- What follows a check that panics. -/
theorem wp_check {K : State → Op → Prop} {E : Fault → Prop} {Q : α → State → Prop} {c : Prop}
    [Decidable c] {msg : String} {f : Unit → M α} (hE : E (.panic msg))
    (hf : ¬ c → (f ()).wp (perform p) K E Q s) :
    (doIf c (panic msg) >>= f).wp (perform p) K E Q s := by
  unfold doIf
  split
  · exact fun _ => hE
  next hc => exact hf hc

/-- **The program of process `p` does not wait for the locks `L` that it holds**, and ends with `L'`. -/
def Unblocked (p : ℕ) (L : List InodePtr) (prog : M α) (L' : α → List InodePtr) : Prop :=
  ∀ s, Locks L s → prog.wp (perform p) anyway NotBlocked (fun a s' => Locks (L' a) s') s

namespace Unblocked

/-- A result, with the locks as they are. -/
theorem ret (a : α) : Unblocked p L (Pure.pure a : M α) fun _ => L := fun _ hs => hs

theorem bind {prog : M α} {f : α → M β} {L' : α → List InodePtr} {L'' : β → List InodePtr}
    (hp : Unblocked p L prog L') (hf : ∀ a, Unblocked p (L' a) (f a) L'') :
    Unblocked p L (prog >>= f) L'' := fun s hs => (hp s hs).bind fun a s' hs' => hf a s' hs'

theorem calm {o : Op} (ho : isCalm o = true) : Unblocked p L (call o) fun _ => L :=
  fun s hs _ => (calm_perform s ho).imp fun _ hr => hs.congr hr

/-- An operation that is calm, and what follows it. -/
theorem calm_bind {o : Op} {f : Ans o → M β} {L' : β → List InodePtr} (ho : isCalm o = true)
    (hf : ∀ r, Unblocked p L (f r) L') : Unblocked p L (call o >>= f) L' := (calm ho).bind hf

theorem ilock (hip : ip ∉ L) : Unblocked p L (call (.ilock ip)) fun _ => ip :: L :=
  fun _ hs _ => post_map.mpr (locks_ilock hs hip)

theorem iunlock (hip : ip ∉ L) : Unblocked p (ip :: L) (call (.iunlock ip)) fun _ => L :=
  fun _ hs _ => post_map.mpr (locks_iunlock hs hip)

theorem iput (hip : ip ∉ L) : Unblocked p L (call (.iput ip)) fun _ => L :=
  fun _ hs _ => post_map.mpr (locks_iput hs hip)

/-- The lock that was taken first is released. -/
theorem swap {prog : M α} {L' : α → List InodePtr} (hp : Unblocked p (dp :: ip :: L) prog L') :
    Unblocked p (ip :: dp :: L) prog L' := fun s hs => hp s hs.swap

theorem iunlockput (hip : ip ∉ L) : Unblocked p (ip :: L) (iunlockput ip) fun _ => L :=
  (iunlock hip).bind fun _ => iput hip

theorem doIf {c : Prop} [Decidable c] {prog : M Unit} (hp : Unblocked p L prog fun _ => L) :
    Unblocked p L (doIf c prog) fun _ => L := by
  unfold Sysfile.doIf
  split
  · exact hp
  · exact ret ()

/-- The end of a call that has unlocked and puts an inode. -/
theorem linkBad (ip : InodePtr) : Unblocked p [] (linkBad ip) fun _ => [] :=
  (ilock not_mem_nil).bind fun _ => calm_bind rfl fun _ => calm_bind rfl fun _ =>
    calm_bind rfl fun _ => (iunlockput not_mem_nil).bind fun _ => calm_bind rfl fun _ =>
      ret (-1 : ℤ)

theorem unlinkBad (dp : InodePtr) : Unblocked p [dp] (unlinkBad dp) fun _ => [] :=
  (iunlockput not_mem_nil).bind fun _ => calm_bind rfl fun _ => ret (-1 : ℤ)

end Unblocked

end Sysfile
