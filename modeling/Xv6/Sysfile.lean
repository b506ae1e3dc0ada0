/-
# The file system calls (`sysfile.c`)

The system calls on files as programs over the operations of the layers below: `link`, `unlink`,
`open`, `mkdir`, `mknod`, `chdir`, `symlink`, `lseek`, `read`, `write`, `dup`, `close` and `pipe`, with
what they are made of in `fs.c` (`namex`, `dirlink`), `file.c` (`fileclose`, `fileread`, `filewrite`,
`filelseek`) and `pipe.c` (`pipealloc`), and the parts of `exec`, `fork` and `exit` that are about files.

An operation is a call into a lower layer, or an access to a field of an inode, a file or the current
process.  The programs say in which order these are called, and what is done after each outcome.  An
argument is `none` when it cannot be fetched.
-/
import Xv6.FileWrite
import Xv6.Prog

namespace Sysfile

/-! ## Constants (`param.h`, `fs.h`, `fcntl.h`) -/

/-- Open files per process. -/
abbrev NOFILE : ℕ := 16

/-- Open files per system. -/
abbrev NFILE : ℕ := 100

/-- Device number of file system root disk. -/
abbrev ROOTDEV : ℕ := 1

/-- Root i-number. -/
abbrev ROOTINO : ℕ := 1

/-- Length of a directory entry's name. -/
abbrev DIRSIZ : ℕ := 14

abbrev O_WRONLY : ℕ := 0x001
abbrev O_RDWR : ℕ := 0x002
abbrev O_CREATE : ℕ := 0x200
abbrev O_EXTENT : ℕ := 0x200

/-! ## What the calls work on -/

/-- A pointer to an entry of the inode cache. -/
abbrev InodePtr : Type := Fin NINODE

/-- A pointer to an entry of the file table. -/
abbrev FilePtr : Type := Fin NFILE

/-- A file descriptor. -/
abbrev Fd : Type := Fin NOFILE

/-- A path, without the terminating zero. -/
abbrev Path : Type := List UInt8

/-- A path element, of at most `DIRSIZ` bytes. -/
abbrev Name : Type := List UInt8

/-- `'/'`. -/
def slash : UInt8 := 47

/-- `"."`. -/
def dot : Name := [46]

/-- `".."`. -/
def dotdot : Name := [46, 46]

/-- `struct dirent`. -/
structure Dirent where
  inum : ℕ
  name : Name
deriving DecidableEq

/-- An entry of the inode cache: `struct inode` up to the block addresses, of which the last is the one
that has no room in the record on disk. -/
structure Cached where
  dev : ℕ
  inum : ℕ
  ref : ℤ
  /-- The sleep-lock is held. -/
  locked : Bool
  valid : Bool
  type : Int16
  major : Int16
  minor : Int16
  nlink : Int16
  size : ℕ
  /-- `addrs[NDIRECT+1]` -/
  last : UInt32

/-- `struct file`. -/
structure FileEntry where
  type : FdType
  ref : ℤ
  readable : Bool
  writable : Bool
  /-- The page of the pipe. -/
  pipe : ℕ
  ip : InodePtr
  off : ℕ

/-! ## Operations -/

/-- What a call can do. -/
inductive Op where
  | beginOp
  | endOp
  | panic (msg : String)
  -- `fs.c`
  | iget (dev inum : ℕ)
  | idup (ip : InodePtr)
  | ilock (ip : InodePtr)
  | iunlock (ip : InodePtr)
  | iput (ip : InodePtr)
  | iupdate (ip : InodePtr)
  | ialloc (dev : ℕ) (type : Int16)
  /-- The fields of an inode. -/
  | inode (ip : InodePtr)
  /-- `ip->major = major; ip->minor = minor;` -/
  | setDevice (ip : InodePtr) (major minor : Int16)
  /-- `ip->nlink = nlink;` -/
  | setNlink (ip : InodePtr) (nlink : Int16)
  | dirlookup (dp : InodePtr) (name : Name)
  | isdirempty (dp : InodePtr)
  /-- The second loop of `dirlink`: the offset of an empty entry. -/
  | emptyDirent (dp : InodePtr)
  /-- `writei` of one entry; `false` when it does not write all of it. -/
  | writeDirent (dp : InodePtr) (off : ℕ) (de : Dirent)
  | readi (ip : InodePtr) (off n : ℕ)
  | writei (ip : InodePtr) (off n : ℕ)
  -- `file.c`
  | filealloc
  | filedup (f : FilePtr)
  /-- The critical section of `fileclose`; `none` is the null pointer. -/
  | filedrop (f : Option FilePtr)
  /-- The fields of a file. -/
  | file (f : FilePtr)
  | setInodeFile (f : FilePtr) (ip : InodePtr) (readable writable : Bool)
  | setPipeFile (f : FilePtr) (page : ℕ) (readable writable : Bool)
  /-- `f->off = off;` -/
  | setOff (f : FilePtr) (off : ℕ)
  -- `pipe.c` and `kalloc.c`
  | kalloc
  /-- `p->readopen = 1; p->writeopen = 1;` -/
  | initPipe (page : ℕ)
  | pipeclose (page : ℕ) (writable : Bool)
  | piperead (page : ℕ) (n : ℤ)
  | pipewrite (page : ℕ) (n : ℤ)
  -- the current process
  | ofile (fd : Fd)
  | setOfile (fd : Fd) (f : Option FilePtr)
  | cwd
  | setCwd (ip : Option InodePtr)
  -- `exec.c` and `proc.c`
  /-- Read and check the ELF header; the number of program headers. -/
  | readElf (ip : InodePtr)
  | setupkvm
  /-- Read, check and load what one program header describes. -/
  | loadSegment (ip : InodePtr)
  /-- The stack with the arguments. -/
  | buildStack
  | allocproc
  | copyuvm
  | childOfile (np : ℕ) (fd : Fd) (f : FilePtr)
  | childCwd (np : ℕ) (ip : InodePtr)
  /-- `np->state = RUNNABLE;` -/
  | childRunnable (np : ℕ)
  /-- `curproc == initproc` -/
  | isInitproc
  /-- `curproc->state = ZOMBIE;` -/
  | zombie

/-- What an operation answers. -/
abbrev Ans : Op → Type
  | .panic _ => Empty
  | .iget _ _ | .ialloc _ _ | .cwd => InodePtr
  | .inode _ => Cached
  | .dirlookup _ _ => Option (InodePtr × ℕ)
  | .emptyDirent _ => ℕ
  | .readi _ _ _ | .writei _ _ _ | .piperead _ _ | .pipewrite _ _ => ℤ
  | .filealloc | .ofile _ => Option FilePtr
  | .filedrop _ => Option FileEntry
  | .file _ => FileEntry
  | .kalloc | .readElf _ | .allocproc => Option ℕ
  | .isdirempty _ | .writeDirent _ _ _ | .setupkvm | .loadSegment _ | .buildStack | .copyuvm | .isInitproc => Bool
  | _ => Unit

/-- Programs over these operations. -/
abbrev M : Type → Type := Prog Op Ans

/-- Call an operation. -/
abbrev call (o : Op) : M (Ans o) := Prog.call o

/-- A panic does not return. -/
def panic {α : Type} (msg : String) : M α := .op (.panic msg) Empty.elim

/-- `if(c) p`. -/
def doIf (c : Prop) [Decidable c] (p : M Unit) : M Unit := if c then p else return ()

/-! ## Paths and directories (`fs.c`) -/

/-- Copy the next path element: its name and the path after it. -/
def skipelem (path : Path) : Option (Name × Path) :=
  let path := path.dropWhile (· = slash)
  if path = [] then none
  else
    let s := path.takeWhile (· ≠ slash)
    some (s.take DIRSIZ, (path.dropWhile (· ≠ slash)).dropWhile (· = slash))

/-- The elements that repeated calls of `skipelem` give.  An element has at least one byte, so there
are at most as many as bytes. -/
def elems : ℕ → Path → List Name
  | 0, _ => []
  | fuel + 1, path =>
    match skipelem path with
    | none => []
    | some (name, path) => name :: elems fuel path

/-- Unlock, then put. -/
def iunlockput (ip : InodePtr) : M Unit := do
  call (.iunlock ip)
  call (.iput ip)

/-- The loop of `namex`. -/
def namexLoop (nameiparent : Bool) : InodePtr → List Name → M (Option (InodePtr × Name))
  | ip, [] => do
    if nameiparent then
      call (.iput ip)
      return none
    return some (ip, [])
  | ip, name :: rest => do
    call (.ilock ip)
    let c ← call (.inode ip)
    if c.type ≠ T_DIR then
      iunlockput ip
      return none
    if nameiparent ∧ rest = [] then
      -- Stop one level early.
      call (.iunlock ip)
      return some (ip, name)
    match ← call (.dirlookup ip name) with
    | none =>
      iunlockput ip
      return none
    | some (next, _) =>
      iunlockput ip
      namexLoop nameiparent next rest

/-- The first inode of a path, with a reference to it. -/
def namexStart (path : Path) : M InodePtr := do
  if path.head? = some slash then
    call (.iget ROOTDEV ROOTINO)
  else
    let ip ← call .cwd
    call (.idup ip)
    return ip

/-- Look up the inode for a path name; with `nameiparent` that of the parent, and the final element. -/
def namex (path : Path) (nameiparent : Bool) : M (Option (InodePtr × Name)) := do
  let ip ← namexStart path
  namexLoop nameiparent ip (elems path.length path)

def namei (path : Path) : M (Option InodePtr) := do
  let r ← namex path false
  return r.map Prod.fst

def nameiparent (path : Path) : M (Option (InodePtr × Name)) := namex path true

/-- Write a new directory entry into `dp`; `false` stands for the result `-1`. -/
def dirlink (dp : InodePtr) (name : Name) (inum : ℕ) : M Bool := do
  -- Check that name is not present.
  match ← call (.dirlookup dp name) with
  | some (ip, _) =>
    call (.iput ip)
    return false
  | none =>
    let off ← call (.emptyDirent dp)
    let written ← call (.writeDirent dp off ⟨inum, name⟩)
    doIf (written = false) (panic "dirlink")
    return true

/-! ## Files (`file.c`, `pipe.c`) -/

/-- The end of `fileclose`, for a file that nobody refers to any more. -/
def closeLast (ff : FileEntry) : M Unit :=
  match ff.type with
  | .pipe => call (.pipeclose ff.pipe ff.writable)
  | .inode => do
    call .beginOp
    call (.iput ff.ip)
    call .endOp
  | .none => return ()

/-- Close a file; `none` is the null pointer. -/
def fileclose (f : Option FilePtr) : M Unit := do
  match ← call (.filedrop f) with
  | none => return ()
  | some ff => closeLast ff

/-- Read from file. -/
def fileread (f : FilePtr) (n : ℤ) : M ℤ := do
  let ff ← call (.file f)
  if ff.readable = false then return -1
  match ff.type with
  | .pipe => call (.piperead ff.pipe n)
  | .inode => do
    call (.ilock ff.ip)
    let r ← call (.readi ff.ip ff.off n.toNat)
    doIf (0 < r) (call (.setOff f (u32 (ff.off + r.toNat))))
    call (.iunlock ff.ip)
    return r
  | .none => panic "fileread"

/-- The loop of `filewrite` that fills the gap, with the rounds left. -/
def fillLoop (ip : InodePtr) : ℕ → ℕ → M Unit
  | 0, _ => return ()
  | rounds + 1, i => do
    call .beginOp
    call (.ilock ip)
    let c ← call (.inode ip)
    let _ ← call (.writei ip (u32 (c.size + i)) 1)
    call (.iunlock ip)
    call .endOp
    fillLoop ip rounds (i + 1)

/-- The loop of `filewrite` that writes the data; the number of bytes written.  A round writes at least
one byte. -/
def writeLoop (f : FilePtr) (ip : InodePtr) (size : ℕ) : ℕ → ℕ → M ℕ
  | 0, i => return i
  | rounds + 1, i => do
    if i < size then
      let n1 := min (size - i) MAXCHUNK
      call .beginOp
      call (.ilock ip)
      let ff ← call (.file f)
      let r ← call (.writei ip ff.off n1)
      doIf (0 < r) (call (.setOff f (u32 (ff.off + r.toNat))))
      call (.iunlock ip)
      call .endOp
      if r < 0 then return i
      else if r ≠ n1 then panic "short filewrite"
      else writeLoop f ip size rounds (i + n1)
    else return i

/-- Write to file. -/
def filewrite (f : FilePtr) (size : ℤ) : M ℤ := do
  let ff ← call (.file f)
  if ff.writable = false then return -1
  match ff.type with
  | .pipe => call (.pipewrite ff.pipe size)
  | .inode => do
    let c ← call (.inode ff.ip)
    -- filling with nullbytes
    doIf (c.size < ff.off ∧ size ≠ 0) (fillLoop ff.ip (ff.off - c.size) 0)
    let i ← writeLoop f ff.ip size.toNat size.toNat 0
    return if (i : ℤ) = size then size else -1
  | .none => panic "filewrite"

/-- Move the offset of a file. -/
def filelseek (f : FilePtr) (offset : ℤ) : M ℤ := do
  call .beginOp
  let ff ← call (.file f)
  let temp := cint (((ff.off : ℤ) + offset) % 2 ^ 32).toNat
  doIf (temp < 0) (panic "lseek offset negative reach\n")
  call (.setOff f temp.toNat)
  call .endOp
  return temp

/-- Allocate a pipe and its two files.  When something is missing, the files that were allocated are
closed again. -/
def pipealloc : M (Option (FilePtr × FilePtr)) := do
  match ← call .filealloc with
  | none => return none
  | some f0 =>
    match ← call .filealloc with
    | none =>
      fileclose f0
      return none
    | some f1 =>
      match ← call .kalloc with
      | none =>
        fileclose f0
        fileclose f1
        return none
      | some page =>
        call (.initPipe page)
        call (.setPipeFile f0 page true false)
        call (.setPipeFile f1 page false true)
        return some (f0, f1)

/-! ## System calls (`sysfile.c`) -/

/-- The descriptor with a number that is in range. -/
def fdOf (fd : ℤ) (h : 0 ≤ fd ∧ fd < NOFILE) : Fd := ⟨fd.toNat, by omega⟩

/-- Fetch a file descriptor argument: the descriptor and the corresponding file. -/
def argfd (fd : Option ℤ) : M (Option (Fd × FilePtr)) := do
  match fd with
  | none => return none
  | some fd =>
    if h : 0 ≤ fd ∧ fd < NOFILE then
      let fd := fdOf fd h
      let f ← call (.ofile fd)
      return f.map fun f => (fd, f)
    else return none

/-- The loop of `fdalloc`. -/
def fdallocLoop (f : FilePtr) : List Fd → M (Option Fd)
  | [] => return none
  | fd :: fds => do
    match ← call (.ofile fd) with
    | none =>
      call (.setOfile fd (some f))
      return some fd
    | some _ => fdallocLoop f fds

/-- Allocate a file descriptor for the given file. -/
def fdalloc (f : FilePtr) : M (Option Fd) := fdallocLoop f (List.finRange NOFILE)

def sysDup (fd : Option ℤ) : M ℤ := do
  match ← argfd fd with
  | none => return -1
  | some (_, f) =>
    match ← fdalloc f with
    | none => return -1
    | some fd =>
      call (.filedup f)
      return fd

def sysRead (fd n : Option ℤ) (p : Bool) : M ℤ := do
  match ← argfd fd, n, p with
  | some (_, f), some n, true => fileread f n
  | _, _, _ => return -1

def sysWrite (fd n : Option ℤ) (p : Bool) : M ℤ := do
  match ← argfd fd, n, p with
  | some (_, f), some n, true => filewrite f n
  | _, _, _ => return -1

def sysClose (fd : Option ℤ) : M ℤ := do
  match ← argfd fd with
  | none => return -1
  | some (fd, f) =>
    call (.setOfile fd none)
    fileclose f
    return 0

def sysLseek (fd offset : Option ℤ) : M ℤ := do
  match ← argfd fd, offset with
  | some (_, f), some offset => filelseek f offset
  | _, _ => return -1

/-- `bad` of `sys_link`. -/
def linkBad (ip : InodePtr) : M ℤ := do
  call (.ilock ip)
  let c ← call (.inode ip)
  call (.setNlink ip (c.nlink - 1))
  call (.iupdate ip)
  iunlockput ip
  call .endOp
  return -1

/-- Create the path `new` as a link to the same inode as `old`. -/
def sysLink (old new : Option Path) : M ℤ := do
  match old, new with
  | some old, some new => do
    call .beginOp
    match ← namei old with
    | none =>
      call .endOp
      return -1
    | some ip =>
      call (.ilock ip)
      let c ← call (.inode ip)
      if c.type = T_DIR then
        iunlockput ip
        call .endOp
        return -1
      call (.setNlink ip (c.nlink + 1))
      call (.iupdate ip)
      call (.iunlock ip)
      match ← nameiparent new with
      | none => linkBad ip
      | some (dp, name) =>
        call (.ilock dp)
        let d ← call (.inode dp)
        let c ← call (.inode ip)
        let linked ← (if d.dev ≠ c.dev then pure false else dirlink dp name c.inum)
        if linked = false then
          iunlockput dp
          linkBad ip
        else
          iunlockput dp
          call (.iput ip)
          call .endOp
          return 0
  | _, _ => return -1

/-- `bad` of `sys_unlink`. -/
def unlinkBad (dp : InodePtr) : M ℤ := do
  iunlockput dp
  call .endOp
  return -1

/-- `dp->nlink--` for the ".." of a directory that is removed. -/
def dropDotdot (dp : InodePtr) : M Unit := do
  let d ← call (.inode dp)
  call (.setNlink dp (d.nlink - 1))
  call (.iupdate dp)

def sysUnlink (path : Option Path) : M ℤ := do
  match path with
  | none => return -1
  | some path =>
    call .beginOp
    match ← nameiparent path with
    | none =>
      call .endOp
      return -1
    | some (dp, name) =>
      call (.ilock dp)
      -- Cannot unlink "." or "..".
      if name = dot ∨ name = dotdot then
        unlinkBad dp
      else
        match ← call (.dirlookup dp name) with
        | none => unlinkBad dp
        | some (ip, off) =>
          call (.ilock ip)
          let c ← call (.inode ip)
          doIf (c.nlink < 1) (panic "unlink: nlink < 1")
          let empty ← (if c.type = T_DIR then call (.isdirempty ip) else pure true)
          if empty = false then
            iunlockput ip
            unlinkBad dp
          else
            let written ← call (.writeDirent dp off ⟨0, []⟩)
            doIf (written = false) (panic "unlink: writei")
            doIf (c.type = T_DIR) (dropDotdot dp)
            iunlockput dp
            let c ← call (.inode ip)
            call (.setNlink ip (c.nlink - 1))
            call (.iupdate ip)
            iunlockput ip
            call .endOp
            return 0

/-- The entries "." and ".." of a new directory. -/
def createDots (ip dp : InodePtr) : M Unit := do
  let d ← call (.inode dp)
  call (.setNlink dp (d.nlink + 1))
  call (.iupdate dp)
  -- No ip->nlink++ for ".": avoid cyclic ref count.
  let c ← call (.inode ip)
  let linked ← dirlink ip dot c.inum
  doIf (linked = false) (panic "create dots")
  let linked ← dirlink ip dotdot d.inum
  doIf (linked = false) (panic "create dots")

/-- `create` in the directory `dp`, which has no entry `name`. -/
def createNew (dp : InodePtr) (name : Name) (type major minor : Int16) : M InodePtr := do
  let d ← call (.inode dp)
  let ip ← call (.ialloc d.dev type)
  call (.ilock ip)
  call (.setDevice ip major minor)
  call (.setNlink ip 1)
  call (.iupdate ip)
  doIf (type = T_DIR) (createDots ip dp)
  let c ← call (.inode ip)
  let linked ← dirlink dp name c.inum
  doIf (linked = false) (panic "create: dirlink")
  iunlockput dp
  return ip

/-- Create an inode at a path; it is returned locked. -/
def create (path : Path) (type major minor : Int16) : M (Option InodePtr) := do
  match ← nameiparent path with
  | none => return none
  | some (dp, name) =>
    call (.ilock dp)
    match ← call (.dirlookup dp name) with
    | some (ip, _) =>
      iunlockput dp
      call (.ilock ip)
      let c ← call (.inode ip)
      if type = T_FILE ∧ c.type = T_FILE then return some ip
      iunlockput ip
      return none
    | none => some <$> createNew dp name type major minor

/-- The inode that `sys_open` opens, locked. -/
def openInode (path : Path) (omode : ℕ) : M (Option InodePtr) := do
  if omode &&& O_CREATE ≠ 0 then
    if omode &&& O_EXTENT ≠ 0 then create path T_EXTENT 0 0
    else create path T_FILE 0 0
  else
    match ← namei path with
    | none => return none
    | some ip =>
      call (.ilock ip)
      let c ← call (.inode ip)
      doIf (c.type = T_SYMLINK) do
        let _ ← call (.readi ip 0 20)
      if c.type = T_DIR ∧ omode ≠ 0 then
        iunlockput ip
        return none
      return some ip

/-- `sys_open` when there is no file or no descriptor left. -/
def openBad (ip : InodePtr) : M ℤ := do
  iunlockput ip
  call .endOp
  return -1

def sysOpen (path : Option Path) (omode : Option ℕ) : M ℤ := do
  match path, omode with
  | some path, some omode => do
    call .beginOp
    match ← openInode path omode with
    | none =>
      call .endOp
      return -1
    | some ip =>
      match ← call .filealloc with
      | none => openBad ip
      | some f =>
        match ← fdalloc f with
        | none =>
          fileclose f
          openBad ip
        | some fd =>
          call (.iunlock ip)
          call .endOp
          call (.setInodeFile f ip (omode &&& O_WRONLY = 0)
            (omode &&& O_WRONLY ≠ 0 ∨ omode &&& O_RDWR ≠ 0))
          return fd
  | _, _ => return -1

/-- What `sys_mkdir` and `sys_mknod` do with the outcome of `create`. -/
def putCreated (ip : Option InodePtr) : M ℤ := do
  match ip with
  | none =>
    call .endOp
    return -1
  | some ip =>
    iunlockput ip
    call .endOp
    return 0

def sysMkdir (path : Option Path) : M ℤ := do
  call .beginOp
  match path with
  | none => putCreated none
  | some path => putCreated (← create path T_DIR 0 0)

def sysMknod (path : Option Path) (major minor : Option Int16) : M ℤ := do
  call .beginOp
  match path, major, minor with
  | some path, some major, some minor => putCreated (← create path T_DEV major minor)
  | _, _, _ => putCreated none

def sysChdir (path : Option Path) : M ℤ := do
  call .beginOp
  match path with
  | none =>
    call .endOp
    return -1
  | some path =>
    match ← namei path with
    | none =>
      call .endOp
      return -1
    | some ip =>
      call (.ilock ip)
      let c ← call (.inode ip)
      if c.type ≠ T_DIR then
        iunlockput ip
        call .endOp
        return -1
      call (.iunlock ip)
      let cwd ← call .cwd
      call (.iput cwd)
      call .endOp
      call (.setCwd ip)
      return 0

def sysPipe (fd : Bool) : M ℤ := do
  if fd = false then return -1
  match ← pipealloc with
  | none => return -1
  | some (rf, wf) =>
    match ← fdalloc rf with
    | none =>
      fileclose rf
      fileclose wf
      return -1
    | some fd0 =>
      match ← fdalloc wf with
      | none =>
        call (.setOfile fd0 none)
        fileclose rf
        fileclose wf
        return -1
      | some _ => return 0

/-- `sys_symlink`: the target becomes the data of the new inode. -/
def sysSymlink (target path : Option Path) : M ℤ := do
  match target, path with
  | some target, some path => do
    call .beginOp
    match ← create path T_SYMLINK 0 0 with
    | none => return -1
    | some inode =>
      match ← call .filealloc with
      | none =>
        fileclose none
        return -1
      | some f =>
        call (.setInodeFile f inode false true)
        let _ ← filewrite f (target.length + 1)
        -- the result that is compared with 0 there is the address of the function
        fileclose f
        call .endOp
        return 0
  | _, _ => return -1

/-! ## Processes (`exec.c`, `proc.c`) -/

/-- The loop over the program headers. -/
def loadSegments (ip : InodePtr) : ℕ → M Bool
  | 0 => return true
  | count + 1 => do
    if (← call (.loadSegment ip)) = false then return false
    loadSegments ip count

/-- `exec` up to the point where it has the program in memory; `false` stands for `goto bad`. -/
def loadProgram (ip : InodePtr) : M Bool := do
  match ← call (.readElf ip) with
  | none => return false
  | some phnum =>
    if (← call .setupkvm) = false then return false
    loadSegments ip phnum

def exec (path : Path) : M ℤ := do
  call .beginOp
  match ← namei path with
  | none =>
    call .endOp
    return -1
  | some ip =>
    call (.ilock ip)
    if (← loadProgram ip) = false then
      iunlockput ip
      call .endOp
      return -1
    iunlockput ip
    call .endOp
    return if (← call .buildStack) then 0 else -1

/-- `sys_exec`; `argv` tells whether the arguments could be fetched. -/
def sysExec (path : Option Path) (argv : Bool) : M ℤ := do
  match path, argv with
  | some path, true => exec path
  | _, _ => return -1

/-- The loop of `fork` over the open files. -/
def forkFiles (np : ℕ) : List Fd → M Unit
  | [] => return ()
  | fd :: fds => do
    match ← call (.ofile fd) with
    | none => forkFiles np fds
    | some f =>
      call (.filedup f)
      call (.childOfile np fd f)
      forkFiles np fds

def fork : M ℤ := do
  match ← call .allocproc with
  | none => return -1
  | some np =>
    if (← call .copyuvm) = false then return -1
    forkFiles np (List.finRange NOFILE)
    let ip ← call .cwd
    call (.idup ip)
    call (.childCwd np ip)
    call (.childRunnable np)
    return np

/-- The loop of `exit` over the open files. -/
def exitFiles : List Fd → M Unit
  | [] => return ()
  | fd :: fds => do
    match ← call (.ofile fd) with
    | none => exitFiles fds
    | some f =>
      fileclose f
      call (.setOfile fd none)
      exitFiles fds

/-- `exit`, which does not return to its caller. -/
def exit : M ℤ := do
  let init ← call .isInitproc
  doIf init (panic "init exiting")
  exitFiles (List.finRange NOFILE)
  call .beginOp
  let ip ← call .cwd
  call (.iput ip)
  call .endOp
  call (.setCwd none)
  call .zombie
  return 0

/-! ## All calls -/

/-- A system call with its arguments. -/
inductive Call where
  | sysLink (old new : Option Path)
  | sysUnlink (path : Option Path)
  | sysOpen (path : Option Path) (omode : Option ℕ)
  | sysMkdir (path : Option Path)
  | sysMknod (path : Option Path) (major minor : Option Int16)
  | sysChdir (path : Option Path)
  | sysExec (path : Option Path) (argv : Bool)
  | sysClose (fd : Option ℤ)
  | sysWrite (fd n : Option ℤ) (p : Bool)
  | sysLseek (fd offset : Option ℤ)
  | sysSymlink (target path : Option Path)
  | sysRead (fd n : Option ℤ) (p : Bool)
  | sysDup (fd : Option ℤ)
  | sysPipe (fd : Bool)
  | fork
  | exit

/-- What a call does. -/
def Call.prog : Call → M ℤ
  | .sysLink old new => Sysfile.sysLink old new
  | .sysUnlink path => Sysfile.sysUnlink path
  | .sysOpen path omode => Sysfile.sysOpen path omode
  | .sysMkdir path => Sysfile.sysMkdir path
  | .sysMknod path major minor => Sysfile.sysMknod path major minor
  | .sysChdir path => Sysfile.sysChdir path
  | .sysExec path argv => Sysfile.sysExec path argv
  | .sysClose fd => Sysfile.sysClose fd
  | .sysWrite fd n p => Sysfile.sysWrite fd n p
  | .sysLseek fd offset => Sysfile.sysLseek fd offset
  | .sysSymlink target path => Sysfile.sysSymlink target path
  | .sysRead fd n p => Sysfile.sysRead fd n p
  | .sysDup fd => Sysfile.sysDup fd
  | .sysPipe fd => Sysfile.sysPipe fd
  | .fork => Sysfile.fork
  | .exit => Sysfile.exit

end Sysfile
