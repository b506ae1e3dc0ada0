/-
# The machine that the file system calls run on

What the operations of `Sysfile` do: the inode cache and the inodes on disk (`fs.c`), the file table
(`file.c`), pipes (`pipe.c`) and the processes' descriptors and current directories.  A call runs to its
end before the next one starts.

An inode on disk is a record; the address that has no room in it lies over the first word of the next
record of the block (see `InodeTable`), and so `iupdate` writes and `ilock` reads that word.  The data of
a directory are its entries; the data of other files are not modelled.  The blocks of an inode are those
that `bmap` finds.  It allocates one that is missing, for reading too, so that looking at a directory may
change them.  What it finds in the extents of a `T_EXTENT` inode is left open, and freeing them takes them
for block numbers: it clears bits that belong to other blocks, or panics.  There is one device.

The machine has no buffers.  Where a directory is so long that `bmap` leaves a buffer locked, the block
level is what holds (see `DirLookup`).

What lies outside (memory, the contents of files, a free process) answers as a list of outcomes says.
-/
import Xv6.Runs
import Xv6.Sysfile

open Function

namespace Sysfile

/-! ## State -/

/-- Why a call does not return. -/
inductive Fault where
  | panic (msg : String)
  /-- It waits for a lock that it holds itself. -/
  | blocked
  /-- It follows a pointer that is null or points to a page that has been freed. -/
  | wild
deriving DecidableEq

/-- `struct dinode` up to the block addresses. -/
structure Dinode where
  type : Int16
  major : Int16
  minor : Int16
  nlink : Int16
  size : ℕ
deriving DecidableEq

/-- `struct pipe`: which ends are open. -/
structure Pipe where
  readopen : Bool
  writeopen : Bool

/-- `struct proc`: what concerns files. -/
structure Proc where
  /-- Neither unused nor a zombie. -/
  live : Bool
  ofile : Fd → Option FilePtr
  cwd : Option InodePtr

/-- The kernel between two operations. -/
structure State where
  /-- `sb.ninodes` -/
  ninodes : ℕ
  dinode : ℕ → Dinode
  /-- The word behind the last record of a block, by the number of that inode. -/
  slack : ℕ → UInt32
  /-- The entries in the data of a directory. -/
  entry : ℕ → ℕ → Dirent
  /-- The blocks of an inode, by their number in it; 0 for one that is missing. -/
  blocks : ℕ → ℕ → ℕ
  icache : InodePtr → Cached
  ftable : FilePtr → FileEntry
  /-- The pages that hold a pipe. -/
  pipe : ℕ → Option Pipe
  proc : ℕ → Proc
  /-- What the layers outside answer next. -/
  outcomes : List ℤ
  /-- What becomes of the entries when bits of other blocks are cleared. -/
  scribble : (ℕ → ℕ → Dirent) → ℕ → ℕ → Dirent
  /-- What `balloc` returns for a block of an inode. -/
  balloc : ℕ → ℕ → ℕ

/-- `sizeof(struct dirent)`. -/
abbrev DIRENT : ℕ := 16

namespace State

variable (s : State)

/-- The next answer from outside. -/
def ask : ℤ := s.outcomes.headD 0

/-- It has been given. -/
def asked : State := { s with outcomes := s.outcomes.tail }

def setCached (ip : InodePtr) (c : Cached) : State := { s with icache := update s.icache ip c }

variable {s} in
/-- What holds of all entries after one has changed. -/
theorem forall_setCached {ip : InodePtr} {c : Cached} (P : InodePtr → Cached → Prop) :
    (∀ e, P e ((s.setCached ip c).icache e)) ↔ P ip c ∧ ∀ e, e ≠ ip → P e (s.icache e) :=
  forall_update_iff s.icache P

variable {s} in
/-- What one entry keeps when it changes, all entries keep. -/
theorem setCached_kept {α : Type} {ip : InodePtr} {c : Cached} (g : Cached → α)
    (hc : g c = g (s.icache ip)) : ∀ e, g ((s.setCached ip c).icache e) = g (s.icache e) :=
  (forall_setCached fun e v => g v = g (s.icache e)).mpr ⟨hc, fun _ _ => rfl⟩

def setFile (f : FilePtr) (v : FileEntry) : State := { s with ftable := update s.ftable f v }

def setProc (p : ℕ) (v : Proc) : State := { s with proc := update s.proc p v }

def setDinode (i : ℕ) (d : Dinode) : State := { s with dinode := update s.dinode i d }

def setEntries (i : ℕ) (es : ℕ → Dirent) : State := { s with entry := update s.entry i es }

def setBlocks (i : ℕ) (bs : ℕ → ℕ) : State := { s with blocks := update s.blocks i bs }

def setPipe (page : ℕ) (v : Option Pipe) : State := { s with pipe := update s.pipe page v }

/-! ## Inodes on disk -/

/-- Inode `i` is the last of its block. -/
def lastOfBlock (i : ℕ) : Prop := i % IPB = IPB - 1

instance (i : ℕ) : Decidable (lastOfBlock i) := inferInstanceAs (Decidable (_ = _))

/-- `type` and `major` as one word. -/
def word (type major : Int16) : UInt32 := UInt32.ofNat (short type + 2 ^ 16 * short major)

/-- The word behind the record of inode `i`. -/
def nextWord (i : ℕ) : UInt32 :=
  if lastOfBlock i then s.slack i else word (s.dinode (i + 1)).type (s.dinode (i + 1)).major

/-- Write the word behind the record of inode `i`. -/
def setNextWord (i : ℕ) (w : UInt32) : State :=
  if lastOfBlock i then { s with slack := update s.slack i w }
  else s.setDinode (i + 1) { s.dinode (i + 1) with
    type := toShort (w.toNat % 2 ^ 16), major := toShort (w.toNat / 2 ^ 16) }

/-- Copy a modified in-memory inode to disk. -/
def iupdate (ip : InodePtr) : State :=
  let c := s.icache ip
  (s.setDinode c.inum ⟨c.type, c.major, c.minor, c.nlink, c.size⟩).setNextWord c.inum c.last

/-! ## The inode cache -/

/-- The in-memory copy of inode `inum`; `none` for the panic "iget: no inodes". -/
def iget (dev inum : ℕ) : Option (InodePtr × State) :=
  match (List.finRange NINODE).find? fun ip =>
      0 < (s.icache ip).ref ∧ (s.icache ip).dev = dev ∧ (s.icache ip).inum = inum with
  | some ip => some (ip, s.setCached ip { s.icache ip with ref := (s.icache ip).ref + 1 })
  | none =>
    match (List.finRange NINODE).find? fun ip => (s.icache ip).ref = 0 with
    | some ip =>
      some (ip, s.setCached ip { s.icache ip with dev := dev, inum := inum, ref := 1, valid := false })
    | none => none

/-- `iget`, with the panic. -/
def igetOrPanic (dev inum : ℕ) : Except Fault (InodePtr × State) :=
  match s.iget dev inum with
  | some r => .ok r
  | none => .error (.panic "iget: no inodes")

/-- The copy of a record that `ilock` makes. -/
def load (ip : InodePtr) : Cached :=
  let c := s.icache ip
  let d := s.dinode c.inum
  { c with
    type := d.type, major := d.major, minor := d.minor, nlink := d.nlink, size := d.size
    last := s.nextWord c.inum, valid := true }

/-- Lock the given inode. -/
def ilock (ip : InodePtr) : Except Fault State :=
  let c := s.icache ip
  if c.ref < 1 then .error (.panic "ilock")
  else if c.locked then .error .blocked
  else if c.valid then .ok (s.setCached ip { c with locked := true })
  else if (s.load ip).type = 0 then .error (.panic "ilock: no type")
  else .ok (s.setCached ip { s.load ip with locked := true })

/-- Unlock the given inode. -/
def iunlock (ip : InodePtr) : Except Fault State :=
  let c := s.icache ip
  if c.locked = false ∨ c.ref < 1 then .error (.panic "iunlock")
  else .ok (s.setCached ip { c with locked := false })

/-- Truncate inode (discard contents); `none` for the panic "freeing free block". -/
def itrunc (ip : InodePtr) : Option State :=
  let c := s.icache ip
  let rest (s : State) (bs : ℕ → ℕ) : State :=
    (((s.setEntries c.inum fun _ => ⟨0, []⟩).setBlocks c.inum bs).setCached ip
      { c with size := 0 }).iupdate ip
  if c.type = T_EXTENT ∧ c.size ≠ 0 then
    if s.ask < 0 then none
    else some (rest { s.asked with entry := s.scribble s.entry } (s.balloc c.inum))
  else
    -- the blocks behind the doubly indirect one stay
    some (rest s fun bn => if bn < NDIRECT + NINDIRECT then 0 else s.blocks c.inum bn)

/-- An inode without links is truncated and freed. -/
def ifree (ip : InodePtr) : Option State :=
  (s.itrunc ip).map fun s =>
    let s := (s.setCached ip { s.icache ip with type := 0 }).iupdate ip
    s.setCached ip { s.icache ip with valid := false }

/-- Drop a reference to an in-memory inode. -/
def iput (ip : InodePtr) : Except Fault State :=
  let c := s.icache ip
  let drop (s : State) : State := s.setCached ip { s.icache ip with ref := (s.icache ip).ref - 1 }
  if c.locked then .error .blocked
  else if c.valid ∧ c.nlink = 0 ∧ c.ref = 1 then
    match s.ifree ip with
    | some s => .ok (drop s)
    | none => .error (.panic "freeing free block")
  else .ok (drop s)

/-- Allocate an inode. -/
def ialloc (dev : ℕ) (type : Int16) : Except Fault (InodePtr × State) :=
  match (List.range' 1 (s.ninodes - 1)).find? fun inum => (s.dinode inum).type = 0 with
  | none => .error (.panic "ialloc: no inodes")
  | some inum =>
    (((s.setDinode inum ⟨type, 0, 0, 0, 0⟩).setEntries inum fun _ => ⟨0, []⟩).setBlocks inum
      fun _ => 0).igetOrPanic dev inum

/-- `bmap` for `n` bytes from `off` on: the blocks that are missing are allocated. -/
def fill (ip : InodePtr) (off n : ℕ) : State :=
  let c := s.icache ip
  s.setBlocks c.inum fun bn =>
    if c.type = T_EXTENT ∨ 0 < n ∧ off / BSIZE ≤ bn ∧ bn * BSIZE < off + n ∧ s.blocks c.inum bn = 0
    then s.balloc c.inum bn else s.blocks c.inum bn

@[simp] theorem fill_icache (ip : InodePtr) (off n : ℕ) : (s.fill ip off n).icache = s.icache := rfl

@[simp] theorem fill_entry (ip : InodePtr) (off n : ℕ) : (s.fill ip off n).entry = s.entry := rfl

/-! ## Directories -/

/-- The loops over the entries of a directory: the first one that satisfies the condition.  They panic
with `msg` when the directory ends inside an entry. -/
def findDirent (msg : String) (dp : InodePtr) (cond : ℕ → Dirent → Bool) : Except Fault (Option ℕ) :=
  let c := s.icache dp
  match (List.range (c.size / DIRENT)).find? fun k => cond k (s.entry c.inum k) with
  | some k => .ok (some k)
  | none => if c.size % DIRENT = 0 then .ok none else .error (.panic msg)

/-- A loop has read the entries from number `first` on, up to the one it has found or to the end. -/
def scanned (dp : InodePtr) (first : ℕ) (k : Option ℕ) : State :=
  s.fill dp (first * DIRENT) (k.elim (s.icache dp).size (fun k => (k + 1) * DIRENT) - first * DIRENT)

/-- Look for a directory entry: its inode and its offset. -/
def dirlookup (dp : InodePtr) (name : Name) : Except Fault (Option (InodePtr × ℕ) × State) := do
  if (s.icache dp).type ≠ T_DIR then .error (.panic "dirlookup not DIR")
  else
    match ← s.findDirent "dirlookup read" dp fun _ de => de.inum ≠ 0 ∧ de.name = name with
    | none => .ok (none, s.scanned dp 0 none)
    | some k =>
      let (ip, s) ← (s.scanned dp 0 (some k)).igetOrPanic (s.icache dp).dev
        (s.entry (s.icache dp).inum k).inum
      .ok (some (ip, k * DIRENT), s)

/-- Is the directory empty except for "." and ".." ? -/
def isdirempty (dp : InodePtr) : Except Fault (Bool × State) := do
  let k ← s.findDirent "isdirempty: readi" dp fun k de => 2 ≤ k ∧ de.inum ≠ 0
  .ok (k.isNone, s.scanned dp 2 k)

/-- The offset of an empty entry, or the end. -/
def emptyOffset (dp : InodePtr) : Except Fault ℕ := do
  match ← s.findDirent "dirlink read" dp fun _ de => de.inum = 0 with
  | some k => .ok (k * DIRENT)
  | none => .ok (s.icache dp).size

/-- The loop of `dirlink` that looks for an empty entry. -/
def emptyDirent (dp : InodePtr) : Except Fault (ℕ × State) := do
  let off ← s.emptyOffset dp
  .ok (off, s.fill dp 0 (min (off + DIRENT) (s.icache dp).size))

/-- The end of `writei`: the size grows and the inode is written back. -/
def grow (ip : InodePtr) (size : ℕ) : State :=
  if (s.icache ip).size < size then (s.setCached ip { s.icache ip with size := size }).iupdate ip else s

/-- `writei` of one entry, of which the inode number has 16 bits. -/
def writeDirent (dp : InodePtr) (off : ℕ) (de : Dirent) : Bool × State :=
  let i := (s.icache dp).inum
  if MAXFILE * BSIZE < u32 (off + DIRENT) then (false, s)
  else
    (true, ((s.fill dp off DIRENT).setEntries i (update (s.entry i) (off / DIRENT)
      ⟨de.inum % 2 ^ 16, de.name⟩)).grow dp (u32 (off + DIRENT)))

/-- `readi` of a file: how many bytes are read. -/
def readi (ip : InodePtr) (off n : ℕ) : ℤ × State :=
  let c := s.icache ip
  if c.type = T_DEV then (s.ask, s.asked)
  else if c.size < off ∨ u32 (off + n) < off then (-1, s)
  else (cint (min n (c.size - off)), s.fill ip off (min n (c.size - off)))

/-- `writei` to a file: how many bytes are written. -/
def writei (ip : InodePtr) (off n : ℕ) : ℤ × State :=
  let c := s.icache ip
  if c.type = T_DEV then (s.ask, s.asked)
  else if MAXFILE * BSIZE < u32 (off + n) then (-1, s)
  else
    let s := if c.type = T_DIR then { s with entry := s.scribble s.entry } else s
    (cint n, if n = 0 then s else (s.fill ip off n).grow ip (u32 (off + n)))

/-! ## Files, pipes and processes -/

/-- Allocate a file structure. -/
def filealloc : Option FilePtr × State :=
  match (List.finRange NFILE).find? fun f => (s.ftable f).ref = 0 with
  | some f => (some f, s.setFile f { s.ftable f with ref := 1 })
  | none => (none, s)

/-- Increment ref count for file `f`. -/
def filedup (f : FilePtr) : Except Fault State :=
  if (s.ftable f).ref < 1 then .error (.panic "filedup")
  else .ok (s.setFile f { s.ftable f with ref := (s.ftable f).ref + 1 })

/-- The critical section of `fileclose`: what the file was when this was its last reference. -/
def filedrop (f : FilePtr) : Except Fault (Option FileEntry × State) :=
  let v := s.ftable f
  if v.ref < 1 then .error (.panic "fileclose")
  else if 0 < v.ref - 1 then .ok (none, s.setFile f { v with ref := v.ref - 1 })
  else .ok (some { v with ref := v.ref - 1 }, s.setFile f { v with ref := 0, type := .none })

/-- Close an end of a pipe; with both ends closed the page is freed. -/
def pipeclose (page : ℕ) (writable : Bool) : Except Fault State :=
  match s.pipe page with
  | none => .error .wild
  | some p =>
    let p : Pipe := if writable then { p with writeopen := false } else { p with readopen := false }
    if p.readopen = false ∧ p.writeopen = false then .ok (s.setPipe page none)
    else .ok (s.setPipe page (some p))

/-- A page for a pipe. -/
def kalloc : Option ℕ := if 0 ≤ s.ask ∧ (s.pipe s.ask.toNat).isNone then some s.ask.toNat else none

/-- An unused process, other than the current one. -/
def allocproc (p : ℕ) : Option ℕ :=
  if 0 ≤ s.ask ∧ s.ask.toNat ≠ p ∧ (s.proc s.ask.toNat).live = false then some s.ask.toNat else none

/-- A process is given an open file. -/
def setOfile (p : ℕ) (fd : Fd) (f : Option FilePtr) : State :=
  s.setProc p { s.proc p with ofile := update (s.proc p).ofile fd f }

def setCwd (p : ℕ) (ip : Option InodePtr) : State := s.setProc p { s.proc p with cwd := ip }

def setLive (p : ℕ) (live : Bool) : State := s.setProc p { s.proc p with live := live }

end State

/-! ## Operations -/

/-- **What an operation of process `p` does.** -/
def perform (p : ℕ) (s : State) : (o : Op) → Except Fault (Ans o × State)
  | .beginOp | .endOp => .ok ((), s)
  | .panic msg => .error (.panic msg)
  | .iget dev inum => s.igetOrPanic dev inum
  | .idup ip => .ok ((), s.setCached ip { s.icache ip with ref := (s.icache ip).ref + 1 })
  | .ilock ip => (s.ilock ip).map fun s => ((), s)
  | .iunlock ip => (s.iunlock ip).map fun s => ((), s)
  | .iput ip => (s.iput ip).map fun s => ((), s)
  | .iupdate ip => .ok ((), s.iupdate ip)
  | .ialloc dev type => s.ialloc dev type
  | .inode ip => .ok (s.icache ip, s)
  | .setDevice ip major minor =>
    .ok ((), s.setCached ip { s.icache ip with major := major, minor := minor })
  | .setNlink ip nlink => .ok ((), s.setCached ip { s.icache ip with nlink := nlink })
  | .dirlookup dp name => s.dirlookup dp name
  | .isdirempty dp => s.isdirempty dp
  | .emptyDirent dp => s.emptyDirent dp
  | .writeDirent dp off de => .ok (s.writeDirent dp off de)
  | .readi ip off n => .ok (s.readi ip off n)
  | .writei ip off n => .ok (s.writei ip off n)
  | .filealloc => .ok s.filealloc
  | .filedup f => (s.filedup f).map fun s => ((), s)
  | .filedrop f =>
    match f with
    | some f => s.filedrop f
    | none => .error .wild
  | .file f => .ok (s.ftable f, s)
  | .setInodeFile f ip readable writable =>
    .ok ((), s.setFile f { s.ftable f with
      type := .inode, ip := ip, off := 0, readable := readable, writable := writable })
  | .setPipeFile f page readable writable =>
    .ok ((), s.setFile f { s.ftable f with
      type := .pipe, pipe := page, readable := readable, writable := writable })
  | .setOff f off => .ok ((), s.setFile f { s.ftable f with off := off })
  | .kalloc => .ok (s.kalloc, s.asked)
  | .initPipe page => .ok ((), s.setPipe page (some ⟨true, true⟩))
  | .pipeclose page writable => (s.pipeclose page writable).map fun s => ((), s)
  | .piperead _ _ | .pipewrite _ _ => .ok (s.ask, s.asked)
  | .ofile fd => .ok ((s.proc p).ofile fd, s)
  | .setOfile fd f => .ok ((), s.setOfile p fd f)
  | .cwd =>
    match (s.proc p).cwd with
    | some ip => .ok (ip, s)
    | none => .error .wild
  | .setCwd ip => .ok ((), s.setCwd p ip)
  | .readElf _ => .ok (if 0 ≤ s.ask then some s.ask.toNat else none, s.asked)
  | .setupkvm | .loadSegment _ | .buildStack | .copyuvm => .ok (0 ≤ s.ask, s.asked)
  | .allocproc => .ok (s.allocproc p, s.asked)
  | .childOfile np fd f => .ok ((), s.setOfile np fd (some f))
  | .childCwd np ip => .ok ((), s.setCwd np (some ip))
  | .childRunnable np => .ok ((), s.setLive np true)
  | .isInitproc => .ok (p = 0, s)
  | .zombie => .ok ((), s.setLive p false)

/-! ## Runs -/

/-- A call of a process, with what the layers outside answer during it. -/
structure Event where
  proc : ℕ
  call : Call
  outcomes : List ℤ
  scribble : (ℕ → ℕ → Dirent) → ℕ → ℕ → Dirent
  balloc : ℕ → ℕ → ℕ

/-- The state in which a call starts. -/
def State.enter (s : State) (e : Event) : State :=
  { s with outcomes := e.outcomes, scribble := e.scribble, balloc := e.balloc }

/-- The outcome of a call of a live process. -/
def State.call (s : State) (e : Event) : Except Fault (ℤ × State) :=
  e.call.prog.run (perform e.proc) (s.enter e)

/-- **One call**; `none` when it does not return, or its process is not there. -/
def State.step (s : State) (e : Event) : Option State :=
  if (s.proc e.proc).live then (s.call e).toOption.map Prod.snd else none

/-- The state after `userinit`: the first process, in the root directory. -/
def State.boot (ninodes : ℕ) (dinode : ℕ → Dinode) (slack : ℕ → UInt32) (entry : ℕ → ℕ → Dirent)
    (blocks : ℕ → ℕ → ℕ) : State where
  ninodes := ninodes
  dinode := dinode
  slack := slack
  entry := entry
  blocks := blocks
  icache := fun ip =>
    if ip = 0 then ⟨ROOTDEV, ROOTINO, 1, false, false, 0, 0, 0, 0, 0, 0⟩
    else ⟨0, 0, 0, false, false, 0, 0, 0, 0, 0, 0⟩
  ftable := fun _ => ⟨.none, 0, false, false, 0, 0, 0⟩
  pipe := fun _ => none
  proc := fun p => if p = 0 then ⟨true, fun _ => none, some 0⟩ else ⟨false, fun _ => none, none⟩
  outcomes := []
  scribble := id
  balloc := fun _ _ => 0

end Sysfile
