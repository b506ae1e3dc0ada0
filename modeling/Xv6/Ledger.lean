/-
# What a call holds

While it runs, a call of the file system holds references to inodes and a transaction.  How the functions of
`fs.c` and `sysfile.c` take them and give them back is the same whatever is counted.  A ledger says what a
reference to an inode and a transaction are worth, and which programs turn what is held into what; its rules
follow the shape of a program, as those of a separation logic do.  Each function gets one statement, for all
ledgers: `InodeRefs` counts the references, and for `Transactions` only a transaction is worth something.
-/
import Xv6.Sysfile

namespace Sysfile

open Prog

/-- What an operation adds to `log.outstanding` for good. -/
def outstanding : Op → ℤ
  | .beginOp => 1
  | .endOp => -1
  | _ => 0

/-- The operations that leave files, processes and the locks and counts of inodes alone. -/
def isSteady : Op → Bool
  | .beginOp | .endOp | .iupdate _ | .inode _ | .setDevice _ _ _ | .setNlink _ _ | .isdirempty _
  | .emptyDirent _ | .writeDirent _ _ _ | .readi _ _ _ | .writei _ _ _ | .file _ | .ofile _ | .readElf _
  | .setupkvm | .loadSegment _ | .buildStack | .piperead _ _ | .pipewrite _ _ | .setOff _ _
  | .isInitproc => true
  | _ => false

/-- The operations that leave all but the locks of inodes alone. -/
def isQuiet : Op → Bool
  | .ilock _ | .iunlock _ | .cwd => true
  | o => isSteady o

/-- The operations that take nothing and give nothing back. -/
def isPlain (o : Op) : Bool := isQuiet o ∧ outstanding o = 0

/-- The panics that every ledger allows for. -/
def Allowed (msg : String) : Prop := msg ≠ "filedup" ∧ msg ≠ "fileclose"

instance (msg : String) : Decidable (Allowed msg) := inferInstanceAs (Decidable (_ ∧ _))

/-- **A ledger**: `Turns prog h d` says that the program, started with `h`, ends with `d a` if it returns
`a`. -/
structure Ledger (R : Type) [AddCommMonoid R] where
  Turns : {α : Type} → M α → R → (α → R) → Prop
  one : InodePtr → R
  txn : R
  pure : ∀ {α : Type} (a : α) (d : α → R), Turns (pure a) (d a) d
  bind : ∀ {α β : Type} {prog : M α} {f : α → M β} {h : R} {d : α → R} {d' : β → R},
    Turns prog h d → (∀ a, Turns (f a) (d a) d') → Turns (prog >>= f) h d'
  frame : ∀ {α : Type} {prog : M α} {h : R} {d : α → R} (k : R),
    Turns prog h d → Turns prog (k + h) fun a => k + d a
  panic : ∀ {α : Type} {msg : String} {h : R} {d : α → R}, Allowed msg → Turns (panic msg) h d
  plain : ∀ {o : Op}, isPlain o = true → Turns (call o) 0 fun _ => 0
  beginOp : Turns (call .beginOp) 0 fun _ => txn
  endOp : Turns (call .endOp) txn fun _ => 0
  iget : ∀ dev inum, Turns (call (.iget dev inum)) 0 one
  iput : ∀ ip, Turns (call (.iput ip)) (one ip) fun _ => 0
  ialloc : ∀ dev type, Turns (call (.ialloc dev type)) 0 one
  dirlookup : ∀ dp name, Turns (call (.dirlookup dp name)) 0 fun r => r.elim 0 fun r => one r.1
  dupCwd : Turns (do let ip ← call .cwd; call (.idup ip); return ip) 0 one

namespace Ledger

variable {R : Type} [AddCommMonoid R] (J : Ledger R) {α β : Type} {prog : M α} {f : α → M β} {h : R}
  {d : α → R} {d' : β → R}

/-! ## Rules -/

variable {J} in
/-- A sequence whose first part does not care about what is held. -/
theorem step (hp : J.Turns prog 0 d) (hf : ∀ a, J.Turns (f a) (h + d a) d') :
    J.Turns (prog >>= f) h d' := by
  have hframe := J.frame h hp
  rw [add_zero] at hframe
  exact J.bind hframe hf

variable {J} in
/-- A program that ends as it began. -/
theorem skip (hp : J.Turns prog 0 fun _ => 0) (hf : ∀ a, J.Turns (f a) h d') :
    J.Turns (prog >>= f) h d' :=
  step hp fun a => by rw [add_zero]; exact hf a

variable {J} in
/-- A program that may return something with a reference to it. -/
theorem branch {γ : Type} {prog : M (Option γ)} {f : Option γ → M β} {w : γ → R}
    (hp : J.Turns prog 0 fun r => r.elim 0 w) (hnone : J.Turns (f none) h d')
    (hsome : ∀ a, J.Turns (f (some a)) (h + w a) d') : J.Turns (prog >>= f) h d' := by
  refine step hp fun r => ?_
  cases r with
  | none =>
    rw [Option.elim_none, add_zero]
    exact hnone
  | some a => exact hsome a

variable {J} in
/-- A program that gives a reference back. -/
theorem give {ip : InodePtr} (hp : J.Turns prog (J.one ip) fun _ => 0) (hf : ∀ a, J.Turns (f a) h d') :
    J.Turns (prog >>= f) (h + J.one ip) d' := by
  refine J.bind (J.frame h hp) fun a => ?_
  rw [add_zero]
  exact hf a

/-- A plain operation, and what follows it. -/
theorem after {o : Op} {f : Ans o → M β} (ho : isPlain o = true) (hf : ∀ r, J.Turns (f r) h d') :
    J.Turns (call o >>= f) h d' := skip (J.plain ho) hf

variable {J} in
theorem doIf {c : Prop} [Decidable c] {prog : M Unit} (hp : J.Turns prog h fun _ => h) :
    J.Turns (doIf c prog) h fun _ => h := by
  unfold Sysfile.doIf
  split
  · exact hp
  · exact J.pure () fun _ => h

/-- A check that panics. -/
theorem check {c : Prop} [Decidable c] {msg : String} {f : Unit → M β} (hmsg : Allowed msg)
    (hf : J.Turns (f ()) h d') : J.Turns (Sysfile.doIf c (Sysfile.panic msg) >>= f) h d' :=
  J.bind (doIf (J.panic hmsg)) fun _ => hf

/-- A transaction begins. -/
theorem begins {f : Unit → M β} (hf : J.Turns (f ()) J.txn d') : J.Turns (call .beginOp >>= f) 0 d' :=
  J.bind J.beginOp fun _ => hf

/-- The transaction ends, and with it what is held. -/
theorem ends {f : Unit → M β} (hf : J.Turns (f ()) 0 d') : J.Turns (call .endOp >>= f) J.txn d' :=
  J.bind J.endOp fun _ => hf

/-- The call returns. -/
theorem ret (a : α) : J.Turns (Pure.pure a : M α) 0 fun _ => 0 := J.pure a fun _ => 0

/-- What a lookup returns with a reference to it. -/
abbrev found {β : Type} (r : Option (InodePtr × β)) : R := r.elim 0 fun r => J.one r.1

/-- An inode that is returned with a reference to it. -/
abbrev foundPtr (r : Option InodePtr) : R := r.elim 0 J.one

/-! ## The functions of `fs.c` -/

theorem iunlockput (ip : InodePtr) : J.Turns (iunlockput ip) (J.one ip) fun _ => 0 :=
  J.after rfl fun _ => J.iput ip

theorem namexLoop (nameiparent : Bool) (names : List Name) : ∀ ip : InodePtr,
    J.Turns (namexLoop nameiparent ip names) (J.one ip) J.found := by
  induction names with
  | nil =>
    intro ip
    unfold Sysfile.namexLoop
    split
    · exact J.bind (J.iput ip) fun _ => J.pure none J.found
    · exact J.pure (some (ip, [])) J.found
  | cons name rest ih =>
    intro ip
    have hnone : J.Turns (do Sysfile.iunlockput ip; return none) (J.one ip) (J.found (β := Name)) :=
      J.bind (J.iunlockput ip) fun _ => J.pure none J.found
    unfold Sysfile.namexLoop
    refine J.after rfl fun _ => J.after rfl fun c => ?_
    split
    · exact hnone
    · split
      · exact J.after rfl fun _ => J.pure (some (ip, name)) J.found
      · refine branch (J.dirlookup ip name) hnone fun r => ?_
        rw [add_comm]
        exact give (J.iunlockput ip) fun _ => ih r.1

theorem namex (path : Path) (nameiparent : Bool) : J.Turns (namex path nameiparent) 0 J.found := by
  have hstart : J.Turns (namexStart path) 0 J.one := by
    unfold namexStart
    split
    · exact J.iget ROOTDEV ROOTINO
    · exact J.dupCwd
  exact J.bind hstart fun ip => J.namexLoop nameiparent _ ip

theorem namei (path : Path) : J.Turns (namei path) 0 J.foundPtr := by
  refine J.bind (J.namex path false) fun r => ?_
  cases r with
  | none => exact J.pure none J.foundPtr
  | some r => exact J.pure (some r.1) J.foundPtr

theorem dirlink (dp : InodePtr) (name : Name) (inum : ℕ) :
    J.Turns (dirlink dp name inum) 0 fun _ => 0 := by
  refine J.bind (J.dirlookup dp name) fun r => ?_
  cases r with
  | none => exact J.after rfl fun off => J.after rfl fun _ => J.check (by decide) (J.ret true)
  | some r => exact J.bind (J.iput r.1) fun _ => J.ret false

/-! ## The functions of `sysfile.c` -/

theorem createDots (ip dp : InodePtr) : J.Turns (createDots ip dp) 0 fun _ => 0 := by
  refine J.after rfl fun d => J.after rfl fun _ => J.after rfl fun _ => J.after rfl fun c =>
    J.bind (J.dirlink ip dot c.inum) fun _ => J.check (by decide) ?_
  exact J.bind (J.dirlink ip dotdot d.inum) fun _ => doIf (J.panic (by decide))

theorem createNew (dp : InodePtr) (name : Name) (type major minor : Int16) :
    J.Turns (createNew dp name type major minor) (J.one dp) J.one := by
  refine J.after rfl fun d => step (J.ialloc d.dev type) fun ip => ?_
  rw [add_comm]
  refine J.after rfl fun _ => J.after rfl fun _ => J.after rfl fun _ => J.after rfl fun _ =>
    skip (doIf (J.createDots ip dp)) fun _ => ?_
  refine J.after rfl fun c => skip (J.dirlink dp name c.inum) fun _ => J.check (by decide) ?_
  exact give (J.iunlockput dp) fun _ => J.pure ip J.one

theorem create (path : Path) (type major minor : Int16) :
    J.Turns (create path type major minor) 0 J.foundPtr := by
  refine J.bind (J.namex path true) fun r => ?_
  cases r with
  | none => exact J.pure none J.foundPtr
  | some r =>
    refine J.after rfl fun _ => branch (J.dirlookup r.1 r.2) ?_ fun e => ?_
    · exact J.bind (J.createNew r.1 r.2 type major minor) fun ip => J.pure (some ip) J.foundPtr
    · rw [add_comm]
      refine give (J.iunlockput r.1) fun _ => J.after rfl fun _ => J.after rfl fun c => ?_
      split
      · exact J.pure (some e.1) J.foundPtr
      · exact J.bind (J.iunlockput e.1) fun _ => J.pure none J.foundPtr

theorem openInode (path : Path) (omode : ℕ) : J.Turns (openInode path omode) 0 J.foundPtr := by
  unfold Sysfile.openInode
  split
  · -- the two flags are the same bit
    exact J.create path T_EXTENT 0 0
  · refine J.bind (J.namei path) fun r => ?_
    cases r with
    | none => exact J.pure none J.foundPtr
    | some ip =>
      refine J.after rfl fun _ => J.after rfl fun c => ?_
      refine skip (doIf (J.after rfl fun _ => J.ret ())) fun _ => ?_
      split
      · exact J.bind (J.iunlockput ip) fun _ => J.pure none J.foundPtr
      · exact J.pure (some ip) J.foundPtr

/-- A call gives its last inode back and returns. -/
theorem putLast (ip : InodePtr) (r : ℤ) : J.Turns (do Sysfile.iunlockput ip; call .endOp; return r)
    (J.txn + J.one ip) fun _ => 0 := give (J.iunlockput ip) fun _ => J.ends (J.ret r)

theorem openBad (ip : InodePtr) : J.Turns (openBad ip) (J.txn + J.one ip) fun _ => 0 := J.putLast ip (-1)

theorem linkBad (ip : InodePtr) : J.Turns (linkBad ip) (J.txn + J.one ip) fun _ => 0 :=
  J.after rfl fun _ => J.after rfl fun _ => J.after rfl fun _ => J.after rfl fun _ => J.putLast ip (-1)

theorem sysLink (old new : Option Path) : J.Turns (sysLink old new) 0 fun _ => 0 := by
  unfold Sysfile.sysLink
  split
  next old new =>
    refine J.begins (branch (J.namei old) (J.ends (J.ret (-1))) fun ip => ?_)
    refine J.after rfl fun _ => J.after rfl fun c => ?_
    split
    · exact J.putLast ip (-1)
    · refine J.after rfl fun _ => J.after rfl fun _ => J.after rfl fun _ =>
        branch (J.namex new true) (J.linkBad ip) fun r => ?_
      refine J.after rfl fun _ => J.after rfl fun d => J.after rfl fun c => ?_
      have hlinked : J.Turns (if d.dev ≠ c.dev then Pure.pure false
          else Sysfile.dirlink r.1 r.2 c.inum) 0 fun _ => 0 := by
        split
        · exact J.ret false
        · exact J.dirlink r.1 r.2 c.inum
      refine skip hlinked fun linked => ?_
      split
      · exact give (J.iunlockput r.1) fun _ => J.linkBad ip
      · exact give (J.iunlockput r.1) fun _ => give (J.iput ip) fun _ => J.ends (J.ret 0)
  next => exact J.ret (-1)

theorem unlinkBad (dp : InodePtr) : J.Turns (unlinkBad dp) (J.txn + J.one dp) fun _ => 0 :=
  J.putLast dp (-1)

theorem sysUnlink (path : Option Path) : J.Turns (sysUnlink path) 0 fun _ => 0 := by
  unfold Sysfile.sysUnlink
  cases path with
  | none => exact J.ret (-1)
  | some path =>
    refine J.begins (branch (J.namex path true) (J.ends (J.ret (-1))) fun r => ?_)
    obtain ⟨dp, name⟩ := r
    refine J.after rfl fun _ => ?_
    split
    · exact J.unlinkBad dp
    · refine branch (J.dirlookup dp name) (J.unlinkBad dp) fun e => ?_
      obtain ⟨ip, off⟩ := e
      refine J.after rfl fun _ => J.after rfl fun c => J.check (by decide) ?_
      have hempty : J.Turns (if c.type = T_DIR then call (.isdirempty ip) else Pure.pure true) 0
          fun _ => 0 := by
        split
        · exact J.plain rfl
        · exact J.ret true
      refine skip hempty fun empty => ?_
      split
      · exact give (J.iunlockput ip) fun _ => J.unlinkBad dp
      · rw [add_right_comm]
        refine J.after rfl fun _ => J.check (by decide) (skip (doIf ?_) fun _ =>
          give (J.iunlockput dp) fun _ => J.after rfl fun _ => J.after rfl fun _ =>
            J.after rfl fun _ => J.putLast ip 0)
        exact J.after rfl fun _ => J.after rfl fun _ => J.plain rfl

/-- The end of `sys_mkdir` and `sys_mknod`. -/
theorem putCreated {prog : M (Option InodePtr)} (hp : J.Turns prog 0 J.foundPtr) :
    J.Turns (prog >>= putCreated) J.txn fun _ => 0 :=
  branch hp (J.ends (J.ret (-1))) fun ip => J.putLast ip 0

theorem sysMkdir (path : Option Path) : J.Turns (sysMkdir path) 0 fun _ => 0 := by
  refine J.begins ?_
  cases path with
  | none => exact J.ends (J.ret (-1))
  | some path => exact J.putCreated (J.create path T_DIR 0 0)

theorem sysMknod (path : Option Path) (major minor : Option Int16) :
    J.Turns (sysMknod path major minor) 0 fun _ => 0 := by
  refine J.begins ?_
  split
  next path major minor => exact J.putCreated (J.create path T_DEV major minor)
  next => exact J.ends (J.ret (-1))

theorem loadProgram (ip : InodePtr) : J.Turns (loadProgram ip) 0 fun _ => 0 := by
  refine J.after rfl fun r => ?_
  cases r with
  | none => exact J.ret false
  | some phnum =>
    refine J.after rfl fun _ => ?_
    split
    · exact J.ret false
    · induction phnum with
      | zero => exact J.ret true
      | succ count ih =>
        refine J.after rfl fun _ => ?_
        split
        · exact J.ret false
        · exact ih

theorem sysExec (path : Option Path) (argv : Bool) : J.Turns (sysExec path argv) 0 fun _ => 0 := by
  unfold Sysfile.sysExec
  split
  next path =>
    refine J.begins (branch (J.namei path) (J.ends (J.ret (-1))) fun ip => ?_)
    refine J.after rfl fun _ => skip (J.loadProgram ip) fun loaded => ?_
    split
    · exact J.putLast ip (-1)
    · exact give (J.iunlockput ip) fun _ => J.ends (J.after rfl fun ok => J.ret _)
  next => exact J.ret (-1)

/-! ## Reading and writing -/

theorem argfd (fd : Option ℤ) : J.Turns (argfd fd) 0 fun _ => 0 := by
  unfold Sysfile.argfd
  cases fd with
  | none => exact J.ret none
  | some fd =>
    dsimp only
    split
    · exact J.after rfl fun _ => J.ret _
    · exact J.ret none

theorem fileread (f : FilePtr) (n : ℤ) : J.Turns (fileread f n) 0 fun _ => 0 := by
  refine J.after rfl fun ff => ?_
  split
  · exact J.ret (-1)
  · split
    · exact J.plain rfl
    · exact J.after rfl fun _ => J.after rfl fun r => J.bind (doIf (J.plain rfl)) fun _ =>
        J.after rfl fun _ => J.ret r
    · exact J.panic (by decide)

theorem fillLoop (ip : InodePtr) (rounds : ℕ) : ∀ i, J.Turns (fillLoop ip rounds i) 0 fun _ => 0 := by
  induction rounds with
  | zero => exact fun _ => J.ret ()
  | succ rounds ih =>
    intro i
    exact J.begins (J.after rfl fun _ => J.after rfl fun _ => J.after rfl fun _ => J.after rfl fun _ =>
      J.ends (ih (i + 1)))

theorem writeLoop (f : FilePtr) (ip : InodePtr) (size rounds : ℕ) :
    ∀ i, J.Turns (writeLoop f ip size rounds i) 0 fun _ => 0 := by
  induction rounds with
  | zero => exact fun i => J.ret i
  | succ rounds ih =>
    intro i
    unfold Sysfile.writeLoop
    split
    · refine J.begins (J.after rfl fun _ => J.after rfl fun ff => J.after rfl fun r =>
        skip (doIf (J.plain rfl)) fun _ => J.after rfl fun _ => J.ends ?_)
      split
      · exact J.ret i
      · split
        · exact J.panic (by decide)
        · exact ih _
    · exact J.ret i

theorem filewrite (f : FilePtr) (size : ℤ) : J.Turns (filewrite f size) 0 fun _ => 0 := by
  refine J.after rfl fun ff => ?_
  split
  · exact J.ret (-1)
  · split
    · exact J.plain rfl
    · refine J.after rfl fun c => J.bind (doIf (J.fillLoop ff.ip _ 0)) fun _ => ?_
      exact J.bind (J.writeLoop f ff.ip _ _ 0) fun i => J.ret _
    · exact J.panic (by decide)

theorem filelseek (f : FilePtr) (offset : ℤ) : J.Turns (filelseek f offset) 0 fun _ => 0 :=
  J.begins (J.after rfl fun _ => J.check (by decide) (J.after rfl fun _ => J.ends (J.ret _)))

theorem sysRead (fd n : Option ℤ) (b : Bool) : J.Turns (sysRead fd n b) 0 fun _ => 0 := by
  refine J.bind (J.argfd fd) fun r => ?_
  split
  next f n => exact J.fileread f n
  next => exact J.ret (-1)

theorem sysWrite (fd n : Option ℤ) (b : Bool) : J.Turns (sysWrite fd n b) 0 fun _ => 0 := by
  refine J.bind (J.argfd fd) fun r => ?_
  split
  next f n => exact J.filewrite f n
  next => exact J.ret (-1)

theorem sysLseek (fd offset : Option ℤ) : J.Turns (sysLseek fd offset) 0 fun _ => 0 := by
  refine J.bind (J.argfd fd) fun r => ?_
  split
  next f offset => exact J.filelseek f offset
  next => exact J.ret (-1)

end Ledger

end Sysfile
