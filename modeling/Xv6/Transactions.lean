/-
# Transactions of the file system calls

Every file system call runs its changes between `begin_op` and `end_op`.  A call is balanced when it
executes as many of one as of the other before it returns: `log.outstanding` is then what it was before,
and the log can commit.  All calls are balanced on every path, with one exception: `sys_symlink` returns
without `end_op` when it cannot create the inode or has no file for it.
-/
import Xv6.Ledger

namespace Sysfile

open Prog List

/-- **The call is balanced** on a path: it executes as many `end_op` as `begin_op`. -/
def Balanced (l : List (Sigma Ans)) : Prop := weight outstanding l = 0

/-! ## The ledger -/

/-- The operations on every path make up the difference. -/
def Weighs {α : Type} (prog : M α) (h : ℤ) (d : α → ℤ) : Prop :=
  ∀ l a, prog.Path l a → h + weight outstanding l = d a

theorem weighs_call {o : Op} {n : ℤ} (ho : outstanding o = n) : Weighs (call o) 0 fun _ => n := by
  intro l a h
  obtain ⟨r, l', rfl, hret⟩ := path_op.mp h
  obtain ⟨rfl, -⟩ := path_ret.mp hret
  simp [ho]

theorem Weighs.frame {α : Type} {prog : M α} {h : ℤ} {d : α → ℤ} (k : ℤ) (hp : Weighs prog h d) :
    Weighs prog (k + h) fun a => k + d a := by
  intro l a hl
  rw [add_assoc, hp l a hl]

/-- **The ledger of transactions**, in which a reference to an inode is worth nothing. -/
def transactions : Ledger ℤ where
  Turns prog h d := Weighs prog h d
  one _ := 0
  txn := 1
  pure a d l b h := by
    obtain ⟨rfl, rfl⟩ := path_ret.mp h
    simp
  bind {_ _ _ _ _ _ _} hp hf l b h := by
    obtain ⟨l₁, a, l₂, rfl, h₁, h₂⟩ := path_bind.mp h
    rw [weight_append, ← add_assoc, hp l₁ a h₁, hf a l₂ b h₂]
  frame k hp := hp.frame k
  panic _ l a h := by
    obtain ⟨r, -⟩ := path_op.mp h
    exact r.elim
  plain ho := weighs_call (decide_eq_true_iff.mp ho).2
  beginOp := weighs_call rfl
  endOp := (weighs_call rfl).frame 1
  iget _ _ := weighs_call rfl
  iput _ := weighs_call rfl
  ialloc _ _ := weighs_call rfl
  dirlookup _ _ l a h := by
    rw [weighs_call (n := 0) rfl l a h]
    cases a <;> rfl
  dupCwd l a h := by
    obtain ⟨_, l₁, rfl, h₁⟩ := path_call_bind.mp h
    obtain ⟨_, l₂, rfl, h₂⟩ := path_call_bind.mp h₁
    obtain ⟨rfl, -⟩ := path_ret.mp h₂
    rfl

variable {β : Type} {h : ℤ} {d : β → ℤ}

/-- An operation other than `begin_op` and `end_op`, and what follows it. -/
theorem pass {o : Op} {f : Ans o → M β} (ho : outstanding o = 0)
    (hf : ∀ r, transactions.Turns (f r) h d) : transactions.Turns (call o >>= f) h d :=
  Ledger.skip (weighs_call ho) hf

/-- An answer that may be missing. -/
theorem passOption {γ : Type} {f : Option γ → M β} (hnone : transactions.Turns (f none) h d)
    (hsome : ∀ a, transactions.Turns (f (some a)) h d) (r : Option γ) :
    transactions.Turns (f r) h d := by
  cases r with
  | none => exact hnone
  | some a => exact hsome a

/-! ## Files -/

theorem turns_fdalloc (f : FilePtr) : transactions.Turns (fdalloc f) 0 fun _ => 0 := by
  unfold fdalloc
  induction finRange NOFILE with
  | nil => exact transactions.ret none
  | cons fd fds ih =>
    exact pass rfl (passOption (pass rfl fun _ => transactions.ret _) fun _ => ih)

theorem turns_fileclose (f : Option FilePtr) : transactions.Turns (fileclose f) 0 fun _ => 0 := by
  refine pass rfl (passOption (transactions.ret ()) fun ff => ?_)
  dsimp only
  unfold closeLast
  split
  · exact weighs_call (o := .pipeclose ff.pipe ff.writable) rfl
  · exact transactions.begins (pass rfl fun _ => transactions.endOp)
  · exact transactions.ret ()

theorem turns_pipealloc : transactions.Turns pipealloc 0 fun _ => 0 := by
  refine pass rfl (passOption (transactions.ret _) fun f0 => pass rfl (passOption ?_ fun f1 =>
    pass rfl (passOption ?_ fun page => ?_)))
  · exact Ledger.skip (turns_fileclose f0) fun _ => transactions.ret _
  · exact Ledger.skip (turns_fileclose f0) fun _ => Ledger.skip (turns_fileclose f1) fun _ =>
      transactions.ret _
  · exact pass rfl fun _ => pass rfl fun _ => pass rfl fun _ => transactions.ret _

/-! ## The calls -/

theorem turns_sysOpen (path : Option Path) (omode : Option ℕ) :
    transactions.Turns (sysOpen path omode) 0 fun _ => 0 := by
  unfold sysOpen
  split
  next path omode =>
    refine transactions.begins (Ledger.branch (transactions.openInode path omode)
      (transactions.ends (transactions.ret (-1))) fun ip => ?_)
    refine pass rfl (passOption (transactions.openBad ip) fun f => ?_)
    refine Ledger.skip (turns_fdalloc f) (passOption ?_ fun fd => ?_)
    · exact Ledger.skip (turns_fileclose f) fun _ => transactions.openBad ip
    · exact pass rfl fun _ => transactions.ends (pass rfl fun _ => transactions.ret _)
  next => exact transactions.ret (-1)

theorem turns_sysChdir (path : Option Path) : transactions.Turns (sysChdir path) 0 fun _ => 0 := by
  refine transactions.begins ?_
  cases path with
  | none => exact transactions.ends (transactions.ret (-1))
  | some path =>
    refine Ledger.branch (transactions.namei path) (transactions.ends (transactions.ret (-1))) fun ip => ?_
    refine pass rfl fun _ => pass rfl fun c => ?_
    split
    · exact transactions.putLast ip (-1)
    · exact pass rfl fun _ => pass rfl fun _ => pass rfl fun _ =>
        transactions.ends (pass rfl fun _ => transactions.ret 0)

theorem turns_sysClose (fd : Option ℤ) : transactions.Turns (sysClose fd) 0 fun _ => 0 := by
  refine transactions.bind (transactions.argfd fd) (passOption (transactions.ret (-1)) fun r => ?_)
  exact pass rfl fun _ => Ledger.skip (turns_fileclose r.2) fun _ => transactions.ret 0

theorem turns_sysDup (fd : Option ℤ) : transactions.Turns (sysDup fd) 0 fun _ => 0 := by
  refine transactions.bind (transactions.argfd fd) (passOption (transactions.ret (-1)) fun r => ?_)
  refine transactions.bind (turns_fdalloc r.2) (passOption (transactions.ret (-1)) fun fd => ?_)
  exact pass rfl fun _ => transactions.ret _

theorem turns_sysPipe (fd : Bool) : transactions.Turns (sysPipe fd) 0 fun _ => 0 := by
  unfold sysPipe
  split
  · exact transactions.ret (-1)
  · refine transactions.bind turns_pipealloc (passOption (transactions.ret (-1)) fun r => ?_)
    have hclose : transactions.Turns (do
        fileclose r.1
        fileclose r.2
        return (-1 : ℤ)) 0 fun _ => 0 :=
      Ledger.skip (turns_fileclose r.1) fun _ => Ledger.skip (turns_fileclose r.2) fun _ =>
        transactions.ret (-1)
    refine transactions.bind (turns_fdalloc r.1) (passOption hclose fun fd0 => ?_)
    exact transactions.bind (turns_fdalloc r.2) (passOption (pass rfl fun _ => hclose) fun fd1 =>
      transactions.ret 0)

theorem turns_fork : transactions.Turns fork 0 fun _ => 0 := by
  refine pass rfl (passOption (transactions.ret (-1)) fun np => pass rfl fun _ => ?_)
  split
  · exact transactions.ret (-1)
  · refine Ledger.skip ?_ fun _ => pass rfl fun ip => pass rfl fun _ => pass rfl fun _ =>
      pass rfl fun _ => transactions.ret _
    induction finRange NOFILE with
    | nil => exact transactions.ret ()
    | cons fd fds ih => exact pass rfl (passOption ih fun f => pass rfl fun _ => pass rfl fun _ => ih)

theorem turns_exit : transactions.Turns exit 0 fun _ => 0 := by
  refine pass rfl fun _ => transactions.check (by decide) (Ledger.skip ?_ fun _ =>
    transactions.begins (pass rfl fun _ => pass rfl fun _ => transactions.ends (pass rfl fun _ =>
      pass rfl fun _ => transactions.ret _)))
  induction finRange NOFILE with
  | nil => exact transactions.ret ()
  | cons fd fds ih =>
    exact pass rfl (passOption ih fun f => Ledger.skip (turns_fileclose f) fun _ => pass rfl fun _ => ih)

/-! ## The exception -/

/-- What `sys_symlink` needs of the calls it makes: `create` returns an inode, and then `filealloc` a
file. -/
def SymlinkServed (path : Path) (l : List (Sigma Ans)) : Prop :=
  ∃ l₁ inode f l₂, l = ⟨.beginOp, ()⟩ :: (l₁ ++ ⟨.filealloc, some f⟩ :: l₂) ∧
    (create path T_SYMLINK 0 0).Path l₁ (some inode)

theorem balanced_symlink_iff {target path : Path} {l : List (Sigma Ans)} {r : ℤ}
    (h : (sysSymlink (some target) (some path)).Path l r) : Balanced l ↔ SymlinkServed path l := by
  obtain ⟨_, l', rfl, hbody⟩ := path_call_bind.mp h
  obtain ⟨l₁, inode, l₂, rfl, hcreate, hrest⟩ := path_bind.mp hbody
  have hzero : weight outstanding l₁ = 0 := by
    have hturns := transactions.create path T_SYMLINK 0 0 l₁ inode hcreate
    rw [zero_add] at hturns
    cases inode <;> exact hturns
  -- the call is balanced when what follows `create` makes up for `begin_op`
  have hbalanced : Balanced (⟨.beginOp, ()⟩ :: (l₁ ++ l₂)) ↔ 1 + weight outstanding l₂ = 0 := by
    unfold Balanced
    rw [weight_cons, weight_append, hzero, zero_add]
    rfl
  rw [hbalanced]
  -- and the answers tell what `create` returned
  have hserved : ∀ {l}, SymlinkServed path (⟨.beginOp, ()⟩ :: (l₁ ++ l)) →
      ∃ ip f l', inode = some ip ∧ l = ⟨.filealloc, some f⟩ :: l' := by
    rintro l ⟨l₁', ip, f, l', heq, hcreate'⟩
    have htail := (cons.inj heq).2
    obtain ⟨rfl, rfl⟩ := hcreate.eq_of_append hcreate' htail
    exact ⟨ip, f, l', rfl, append_cancel_left htail⟩
  cases inode with
  | none =>
    obtain ⟨rfl, -⟩ := path_ret.mp hrest
    refine iff_of_false (by simp) fun hs => ?_
    obtain ⟨ip, -, -, hip, -⟩ := hserved hs
    cases hip
  | some inode =>
    obtain ⟨f, l₃, rfl, hfile⟩ := path_call_bind.mp hrest
    cases f with
    | none =>
      have hweight := Ledger.skip (turns_fileclose none) (fun _ => transactions.ret (-1 : ℤ)) l₃ r hfile
      rw [zero_add] at hweight
      refine iff_of_false ?_ fun hs => ?_
      · rw [weight_cons, hweight]
        decide
      · obtain ⟨-, f, l', -, heq⟩ := hserved hs
        cases heq
    | some f =>
      have hclosed : transactions.Turns (do
          fileclose f
          call .endOp
          return (0 : ℤ)) 1 fun _ => 0 :=
        Ledger.skip (turns_fileclose f) fun _ => transactions.ends (transactions.ret 0)
      have hweight := (pass (o := .setInodeFile f inode false true) rfl fun _ =>
        Ledger.skip (transactions.filewrite f _) fun _ => hclosed) l₃ r hfile
      refine iff_of_true ?_ ⟨l₁, inode, f, l₃, rfl, hcreate⟩
      rw [weight_cons]
      exact (congrArg _ (zero_add _)).trans hweight

/-- A call that ends with no transaction of its own. -/
theorem balanced_of_turns {prog : M ℤ} {l : List (Sigma Ans)} {r : ℤ}
    (hprog : transactions.Turns prog 0 fun _ => 0) (h : prog.Path l r) : Balanced l := by
  have hweight := hprog l r h
  rwa [zero_add] at hweight

/-- **Transaction balance**: a call is balanced on a path exactly when it is not a `symlink` for which
`create` or `filealloc` fails. -/
theorem balanced_iff (c : Call) {l : List (Sigma Ans)} {r : ℤ} (h : c.prog.Path l r) :
    Balanced l ↔ ∀ target path, c = .sysSymlink (some target) (some path) → SymlinkServed path l := by
  cases c with
  | sysSymlink target path =>
    cases target with
    | none => exact iff_of_true (balanced_of_turns (transactions.ret (-1)) h) nofun
    | some target =>
      cases path with
      | none => exact iff_of_true (balanced_of_turns (transactions.ret (-1)) h) nofun
      | some path =>
        rw [balanced_symlink_iff h]
        constructor
        · rintro hs _ _ ⟨⟩
          exact hs
        · exact fun hs => hs target path rfl
  | sysLink old new => exact iff_of_true (balanced_of_turns (transactions.sysLink old new) h) nofun
  | sysUnlink path => exact iff_of_true (balanced_of_turns (transactions.sysUnlink path) h) nofun
  | sysOpen path omode => exact iff_of_true (balanced_of_turns (turns_sysOpen path omode) h) nofun
  | sysMkdir path => exact iff_of_true (balanced_of_turns (transactions.sysMkdir path) h) nofun
  | sysMknod path major minor => exact iff_of_true (balanced_of_turns (transactions.sysMknod path major minor) h) nofun
  | sysChdir path => exact iff_of_true (balanced_of_turns (turns_sysChdir path) h) nofun
  | sysExec path argv => exact iff_of_true (balanced_of_turns (transactions.sysExec path argv) h) nofun
  | sysClose fd => exact iff_of_true (balanced_of_turns (turns_sysClose fd) h) nofun
  | sysWrite fd n p => exact iff_of_true (balanced_of_turns (transactions.sysWrite fd n p) h) nofun
  | sysLseek fd offset => exact iff_of_true (balanced_of_turns (transactions.sysLseek fd offset) h) nofun
  | sysRead fd n p => exact iff_of_true (balanced_of_turns (transactions.sysRead fd n p) h) nofun
  | sysDup fd => exact iff_of_true (balanced_of_turns (turns_sysDup fd) h) nofun
  | sysPipe fd => exact iff_of_true (balanced_of_turns (turns_sysPipe fd) h) nofun
  | fork => exact iff_of_true (balanced_of_turns turns_fork h) nofun
  | exit => exact iff_of_true (balanced_of_turns turns_exit h) nofun

/-- `unlink` of the empty path: there is no parent directory, and the transaction is closed. -/
theorem balanced_emptyUnlink : ∃ l, (Call.sysUnlink (some [])).prog.Path l (-1) ∧ Balanced l := by
  have hpath : (Call.sysUnlink (some [])).prog.Path
      [⟨.beginOp, ()⟩, ⟨.cwd, 0⟩, ⟨.idup 0, ()⟩, ⟨.iput 0, ()⟩, ⟨.endOp, ()⟩] (-1) := by
    repeat constructor
  exact ⟨_, hpath, (balanced_iff _ hpath).mpr nofun⟩

/-- **`symlink` to the empty path leaves its transaction open.** -/
theorem not_balanced_emptySymlink :
    ∃ l, (Call.sysSymlink (some [97]) (some [])).prog.Path l (-1) ∧ ¬ Balanced l := by
  have hpath : (Call.sysSymlink (some [97]) (some [])).prog.Path
      [⟨.beginOp, ()⟩, ⟨.cwd, 0⟩, ⟨.idup 0, ()⟩, ⟨.iput 0, ()⟩] (-1) := by
    repeat constructor
  refine ⟨_, hpath, ?_⟩
  unfold Balanced
  decide

end Sysfile
