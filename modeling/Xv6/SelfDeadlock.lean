/-
# Calls that wait for themselves

A call of `link`, `unlink`, `mkdir`, `mknod`, `open` or `chdir` that is alone in the file system waits only
for a lock that it holds itself.  Whether it does so is read off the state before the call.  A directory is
locked while a name is looked up in it.  When the name stands for that directory, `dirlink` puts the
reference it has been given, and `unlink` locks the inode it has found, and either waits for ever.
-/
import Xv6.NameCalls

namespace Sysfile

open Prog Outcome Image List

variable {p : ℕ} {s : State} {ip : InodePtr}

/-- **Between two calls, with nobody in the file system**: no lock is held, the cache agrees with the
disk, and what nobody refers to and has no links is empty or has no name. -/
structure Idle (s : State) : Prop where
  rest : Rest s
  unlocked : Locks [] s
  dev : ∀ e, 0 < (s.icache e).ref → (s.icache e).dev = ROOTDEV
  coherent : ∀ e, 0 < (s.icache e).ref → (s.icache e).valid = true →
    s.dinode (s.icache e).inum = (s.icache e).dinode ∧ (s.icache e).type ≠ 0 ∧ s.WordKept e
  kept : Bare s ∨ Linked s

theorem Idle.cache (hs : Idle s) : Cache s := by
  refine ⟨⟨fun e => ?_, hs.dev, fun e e' he he' => ?_⟩, fun e he hv => ?_⟩
  · obtain ⟨n, hn, -⟩ := hs.rest.inodes.counted e
    rw [hn]
    simp [nat]
  · refine hs.rest.inodes.unique e e' he he' ?_
    rw [hs.dev e he, hs.dev e' he']
  · obtain ⟨hsame, htype, -⟩ := hs.coherent e he hv
    exact ⟨hsame, htype⟩

theorem Idle.words (hs : Idle s) : Words s := fun e he hv => (hs.coherent e he hv).2.2

theorem Idle.cwd (hs : Idle s) (hlive : (s.proc p).live = true) :
    ∃ cwd, (s.proc p).cwd = some cwd ∧ 0 < (s.icache cwd).ref := by
  obtain ⟨cwd, hcwd⟩ := Option.ne_none_iff_exists'.mp (hs.rest.files.present p nofun hlive)
  obtain ⟨n, hn, hcensus⟩ := hs.rest.inodes.counted cwd
  have hpos := hcensus.pos (show target s (.inr p) = some cwd from hcwd)
  simp only [nat] at hn
  exact ⟨cwd, hcwd, by omega⟩

theorem Idle.ready (hs : Idle s) (hlive : (s.proc p).live = true) : Ready s p :=
  ⟨hs.cache, hs.kept, hs.unlocked, hs.cwd hlive⟩

theorem sysChdir_unblocked (hs : Ready s p) (path : Path) : (sysChdir (some path)).wp (perform p) anyway NotBlocked
    (fun _ _ => True) s := by
  obtain ⟨cwd, hcwd, hpos⟩ := hs.cwd
  unfold sysChdir
  refine wp_call_bind rfl (((namei_resolves hs.cache hs.unlocked hcwd hpos hs.kept path).weaken
    (fun _ _ hq => hq.1) fun _ he => he.1).bind fun r t hlt => ?_)
  obtain _ | ip := r
  · exact fun _ => trivial
  have hrest : Unblocked p [] (do
      call (.ilock ip)
      let c ← call (.inode ip)
      if c.type ≠ T_DIR then
        iunlockput ip
        call .endOp
        return (-1 : ℤ)
      call (.iunlock ip)
      let cwd ← call .cwd
      call (.iput cwd)
      call .endOp
      call (.setCwd ip)
      return (0 : ℤ)) fun _ => [] := by
    refine (Unblocked.ilock not_mem_nil).bind fun _ => .calm_bind rfl fun c => ?_
    split
    · exact (Unblocked.iunlockput not_mem_nil).bind fun _ => .calm_bind rfl fun _ => .ret (-1 : ℤ)
    · exact (Unblocked.iunlock not_mem_nil).bind fun _ => .calm_bind rfl fun _ =>
        (Unblocked.iput not_mem_nil).bind fun _ => .calm_bind rfl fun _ => .calm_bind rfl fun _ =>
          .ret (0 : ℤ)
  exact (hrest t hlt).mono fun _ _ _ => trivial

/-- What `mkdir` and `mknod` do in the end. -/
theorem putCreated_unblocked (r : Option InodePtr) : Unblocked p r.toList (putCreated r) fun _ => [] := by
  cases r with
  | none => exact .calm_bind rfl fun _ => .ret (-1 : ℤ)
  | some ip =>
    exact (Unblocked.iunlockput not_mem_nil).bind fun _ => .calm_bind rfl fun _ => .ret (0 : ℤ)

/-- The calls that work on names. -/
def Call.isNamespace : Call → Bool
  | .sysLink _ _ | .sysUnlink _ | .sysMkdir _ | .sysMknod _ _ _ | .sysOpen _ _ | .sysChdir _ => true
  | _ => false

theorem Idle.enter (hs : Idle s) (e : Event) : Idle (s.enter e) :=
  ⟨hs.rest.enter e, hs.unlocked, hs.dev, hs.coherent, hs.kept.imp id fun h => ⟨h.root, h.entry⟩⟩

/-- What `create` is used for. -/
theorem created_unblocked (hs : Ready s p) (path : Path) (type major minor : Int16) :
    (do putCreated (← create path type major minor)).wp (perform p) anyway NotBlocked
      (fun _ _ => True) s := by
  refine (create_spec hs path type major minor).bind fun r t hr => ?_
  have hlt : Locks r.toList t := by
    rcases r with _ | ip
    · exact hr.1
    · exact hr.1
  exact (putCreated_unblocked r t hlt).mono fun _ _ _ => trivial

theorem call_waits (hs : Idle s) (hlive : (s.proc p).live = true) (c : Call)
    (hc : c.isNamespace = true) : c.prog.wp (perform p) anyway
      (fun e => e = .blocked ↔ s.WaitsForItself p c) (fun _ _ => ¬ s.WaitsForItself p c) s := by
  have hready := hs.ready hlive
  -- the calls that never wait
  have hnever : ∀ {prog : M ℤ} {Q : ℤ → State → Prop}, ¬ s.WaitsForItself p c →
      prog.wp (perform p) anyway NotBlocked Q s →
      prog.wp (perform p) anyway (fun e => e = .blocked ↔ s.WaitsForItself p c)
        (fun _ _ => ¬ s.WaitsForItself p c) s :=
    fun hW hprog => (wp_idle hW hprog).mono fun _ _ hq => hq.1
  cases c with
  | sysLink old new =>
    obtain _ | old := old
    · exact id
    · obtain _ | new := new
      · exact id
      · exact (sysLink_spec hready hs.words old new).mono fun _ _ hq => hq.1
  | sysUnlink path =>
    obtain _ | path := path
    · exact id
    · exact (sysUnlink_spec hready path).mono fun _ _ hq => hq.1
  | sysOpen path omode =>
    obtain _ | path := path
    · exact id
    · obtain _ | omode := omode
      · exact id
      · exact hnever id (sysOpen_spec hready hs.rest hlive path omode)
  | sysMkdir path =>
    refine hnever (Q := fun _ _ => True) id (wp_call_bind rfl ?_)
    obtain _ | path := path
    · exact fun _ => trivial
    · exact created_unblocked hready path T_DIR 0 0
  | sysMknod path major minor =>
    refine hnever (Q := fun _ _ => True) id (wp_call_bind rfl ?_)
    split
    · exact created_unblocked hready _ T_DEV _ _
    · exact fun _ => trivial
  | sysChdir path =>
    obtain _ | path := path
    · exact hnever (Q := fun _ _ => True) id (wp_call_bind rfl fun _ => trivial)
    · exact hnever id (sysChdir_unblocked hready path)
  | _ => cases hc

/-- After `userinit` nobody is in the file system. -/
theorem idle_boot {ninodes : ℕ} {dinode : ℕ → Dinode} {slack : ℕ → UInt32} {entry : ℕ → ℕ → Dirent}
    {blocks : ℕ → ℕ → ℕ} (hbare : ∀ i, i ≠ ROOTINO → (dinode i).nlink = 0 → (dinode i).size = 0) :
    Idle (.boot ninodes dinode slack entry blocks) := by
  set s := State.boot ninodes dinode slack entry blocks with hs
  have hentry : ∀ e, (s.icache e).locked = false ∧ (s.icache e).valid = false ∧
      (0 < (s.icache e).ref → (s.icache e).dev = ROOTDEV) := by
    intro e
    simp only [hs, State.boot]
    split <;> simp
  refine ⟨rest_boot .., fun e => ?_, fun e => (hentry e).2.2, fun e _ hv => ?_,
    .inl fun i hi => hbare i ?_⟩
  · rw [(hentry e).1]
    simp
  · rw [(hentry e).2.1] at hv
    cases hv
  · rintro rfl
    exact hi (mem_cached.mpr ⟨0, by simp [hs, State.boot], by simp [hs, State.boot]⟩)

/-- An image with the file "f" in the root. -/
def fileImage : State :=
  .boot 20 (fun i => if i = ROOTINO then ⟨T_DIR, 0, 0, 1, 48⟩ else if i = 2 then ⟨T_FILE, 0, 0, 1, 0⟩
      else ⟨0, 0, 0, 0, 0⟩) (fun _ => 0)
    (fun i k => if i ≠ ROOTINO then ⟨0, []⟩ else if k = 0 then ⟨ROOTINO, dot⟩
      else if k = 1 then ⟨ROOTINO, dotdot⟩ else if k = 2 then ⟨2, [102]⟩ else ⟨0, []⟩)
    fun i bn => 64 * i + bn

theorem idle_fileImage : Idle fileImage := by
  refine idle_boot fun i hi => ?_
  rw [if_neg hi]
  split
  · exact fun _ => rfl
  · exact fun _ => rfl

/-- `link("f", ".")`. -/
def linkDot : Event := ⟨0, .sysLink (some [102]) (some dot), [], id, 0⟩

theorem fileImage_linkDot : fileImage.call linkDot = .error .blocked := by
  have hfault : (match fileImage.call linkDot with | .ok _ => none | .error e => some e) =
      some Fault.blocked := by
    decide +kernel
  cases hcall : fileImage.call linkDot with
  | ok r => simp [hcall] at hfault
  | error e => simpa [hcall] using hfault

end Sysfile
