/-
# The log (`log.c`) over the buffer cache (`bio.c`)

The model of the redo log.  The machine is the disk, the buffer cache, the in-memory `struct
log`, the operations between their `begin_op` and `end_op`, and the place commit or recovery
has reached.  One step is one critical section of `log.lock`, one `log_write`, or one
iteration of a commit or recovery loop, so that every step writes at most one disk sector and
a crash may come between any two of them.

* The cache maps a block number to its buffer, if it has one.  A buffer that is not `B_DIRTY`
  may be recycled at any time (`evict`), whatever `bget`'s order of replacement.
* `log.lh` is the list of the first `lh.n` entries of its `block` array; the entries past
  `lh.n` are never read.
* An operation that has to sleep in `begin_op`, and a `panic`, are steps that are not enabled.
-/
import Xv6.Block
import Xv6.Runs

open Function

/-- Maximum number of blocks one operation writes (`param.h`). -/
abbrev MAXOPBLOCKS : ℕ := 10

/-- Data blocks in the on-disk log (`param.h`). -/
abbrev LOGSIZE : ℕ := MAXOPBLOCKS * 3

/-! ## The header block -/

/-- `struct logheader` written into the header block: `n`, then `block[0], …, block[n - 1]`.
The rest of the block keeps what was there. -/
def encodeHead (b : Block) (lh : List ℕ) : Block :=
  (List.range lh.length).foldl (fun b i => b.setWord (i + 1) (lh.getD i 0))
    (b.setWord 0 lh.length)

/-- `struct logheader` read from the header block.  `n` is an `int`: the copying loop does not
run when it is negative. -/
def decodeHead (b : Block) : List ℕ :=
  if b.word 0 < 2 ^ 31 then (List.range (b.word 0)).map (fun i => b.word (i + 1)) else []

/-- The words of the header block after the copying loop has stored `n` entries. -/
theorem word_encodeHead_loop (b : Block) (lh : List ℕ) (hlt : ∀ c ∈ lh, c < 2 ^ 32) (n : ℕ)
    (hn : n ≤ lh.length) (hfit : n < 127) (j : ℕ) :
    ((List.range n).foldl (fun b i => b.setWord (i + 1) (lh.getD i 0)) b).word j =
      if 1 ≤ j ∧ j ≤ n then lh.getD (j - 1) 0 else b.word j := by
  induction n with
  | zero =>
    rw [if_neg (by omega)]
    rfl
  | succ n ih =>
    have hentry : lh.getD n 0 < 2 ^ 32 := by
      rw [List.getD_eq_getElem lh 0 (by omega)]
      exact hlt _ (List.getElem_mem _)
    rw [List.range_succ, List.foldl_concat, Block.word_setWord _ (by omega) hentry,
      ih (by omega) (by omega)]
    by_cases hj : j = n + 1
    · rw [if_pos hj, if_pos (by omega), hj, Nat.add_sub_cancel]
    · rw [if_neg hj]
      by_cases hj' : 1 ≤ j ∧ j ≤ n
      · rw [if_pos hj', if_pos (by omega)]
      · rw [if_neg hj', if_neg (by omega)]

/-- **The header round-trips**: what `write_head` stores, `read_head` reads. -/
theorem decodeHead_encodeHead (b : Block) {lh : List ℕ} (hlt : ∀ c ∈ lh, c < 2 ^ 32)
    (hlen : lh.length ≤ LOGSIZE) : decodeHead (encodeHead b lh) = lh := by
  have hlen' : lh.length ≤ 30 := hlen
  have hword : ∀ j, (encodeHead b lh).word j =
      if 1 ≤ j ∧ j ≤ lh.length then lh.getD (j - 1) 0 else (b.setWord 0 lh.length).word j :=
    word_encodeHead_loop _ lh hlt lh.length le_rfl (by omega)
  have hn : (encodeHead b lh).word 0 = lh.length := by
    rw [hword, if_neg (by omega), Block.word_setWord_self b (by omega) (by omega)]
  unfold decodeHead
  rw [hn, if_pos (by omega)]
  apply List.ext_getElem
  · simp
  · intro i hi hi'
    rw [List.getElem_map, List.getElem_range, hword, if_pos (by omega), Nat.add_sub_cancel,
      List.getD_eq_getElem lh 0 hi']

/-! ## The machine -/

/-- A valid buffer: its contents and its `B_DIRTY` flag. -/
structure Buf where
  data : Block
  dirty : Bool

/-- `struct log`. -/
structure Log where
  /-- Block number of the header block. -/
  start : ℕ
  /-- Number of blocks of the log area, header included. -/
  size : ℕ
  /-- How many operations are executing. -/
  outstanding : ℕ
  /-- In `commit()`, please wait. -/
  committing : Bool
  /-- The block numbers in the in-memory header. -/
  lh : List ℕ

/-- Where the committing or recovering process stands. -/
inductive Pc where
  /-- No commit is in progress. -/
  | running
  /-- `write_log`, about to copy entry `tail`. -/
  | writeLog (tail : ℕ)
  /-- About to write the header that commits. -/
  | writeHead
  /-- `install_trans` in `commit`, about to copy entry `tail`. -/
  | installTrans (tail : ℕ)
  /-- About to write the header that erases the transaction. -/
  | eraseHead
  /-- `commit()` has returned and `log.committing` is still set. -/
  | committed
  /-- Booted: about to `read_head`. -/
  | readHead
  /-- `install_trans` in `recover_from_log`, about to copy entry `tail`. -/
  | recoverTrans (tail : ℕ)
  /-- `recover_from_log`, about to clear the log. -/
  | recoverErase
  deriving DecidableEq

/-- The machine. -/
structure Machine where
  disk : Disk
  cache : ℕ → Option Buf
  log : Log
  /-- The operations between their `begin_op` and their `end_op`. -/
  ops : List ℕ
  /-- All operations that have begun; an operation begins once. -/
  begun : List ℕ
  pc : Pc

namespace Machine

/-- `bread` leaves the block in the cache. -/
def fill (m : Machine) (b : ℕ) : Machine :=
  match m.cache b with
  | some _ => m
  | none => { m with cache := update m.cache b (some ⟨m.disk b, false⟩) }

/-- The contents of the buffer that `bread` returns. -/
def bread (m : Machine) (b : ℕ) : Block :=
  match m.cache b with
  | some buf => buf.data
  | none => m.disk b

/-- `bwrite` of a buffer with the given contents: one sector reaches the disk and `B_DIRTY`
is cleared when the write is done. -/
def bwrite (m : Machine) (b : ℕ) (data : Block) : Machine :=
  { m with
    disk := update m.disk b data
    cache := update m.cache b (some ⟨data, false⟩) }

/-- The body of the loop of `write_log`. -/
def writeLogEntry (m : Machine) (tail : ℕ) : Machine :=
  let dst := m.log.start + tail + 1
  let src := m.log.lh.getD tail 0
  let m := (m.fill dst).fill src
  m.bwrite dst (m.bread src)

/-- The body of the loop of `install_trans`. -/
def installEntry (m : Machine) (tail : ℕ) : Machine :=
  let lbuf := m.log.start + tail + 1
  let dbuf := m.log.lh.getD tail 0
  let m := (m.fill lbuf).fill dbuf
  m.bwrite dbuf (m.bread lbuf)

/-- `write_head`. -/
def writeHeader (m : Machine) : Machine :=
  let m := m.fill m.log.start
  m.bwrite m.log.start (encodeHead (m.bread m.log.start) m.log.lh)

/-- `log.lh.n = 0` and `write_head`, which erases the transaction from the log. -/
def eraseLog (m : Machine) : Machine :=
  writeHeader { m with log := { m.log with lh := [] } }

/-- The in-memory half of `log_write`: the header absorbs a block it already holds, and
`B_DIRTY` pins the buffer. -/
def logWrite (m : Machine) (b : ℕ) (data : Block) : Machine :=
  { m with
    cache := update m.cache b (some ⟨data, true⟩)
    log := { m.log with lh := if b ∈ m.log.lh then m.log.lh else m.log.lh ++ [b] } }

/-- A crash empties the memory; the next boot starts by reading the header. -/
def crash (m : Machine) : Machine :=
  { m with
    cache := fun _ => none
    log := { m.log with outstanding := 0, committing := false, lh := [] }
    ops := []
    pc := .readHead }

/-- `log.outstanding -= 1` as the operation `op` ends. -/
def leave (m : Machine) (op : ℕ) : Machine :=
  { m with
    log := { m.log with outstanding := m.log.outstanding - 1 }
    ops := m.ops.erase op }

/-- The last outstanding operation sets `log.committing` and enters `commit()`, which has
nothing to do for an empty transaction. -/
def startCommit (m : Machine) : Machine :=
  { m with
    log := { m.log with committing := true }
    pc := if m.log.lh.length > 0 then .writeLog 0 else .committed }

end Machine

/-! ## Steps -/

/-- The steps of the machine. -/
inductive Event where
  /-- `begin_op` of the operation `op` gets past its loop. -/
  | beginOp (op : ℕ)
  /-- The operation has given the buffer of block `b` the contents `data` and calls
  `log_write`. -/
  | logWrite (op b : ℕ) (data : Block)
  /-- The first critical section of `end_op`. -/
  | endOp (op : ℕ)
  /-- One iteration of `write_log`. -/
  | writeLog
  /-- The committing `write_head`. -/
  | writeHead
  /-- One iteration of `install_trans` in `commit`. -/
  | installTrans
  /-- The erasing `write_head`. -/
  | eraseHead
  /-- The second critical section of `end_op`. -/
  | endCommit
  /-- Some process reads block `b` through the cache. -/
  | read (b : ℕ)
  /-- `bget` recycles the buffer of block `b`. -/
  | evict (b : ℕ)
  /-- Power is lost. -/
  | crash
  /-- `read_head` in `recover_from_log`. -/
  | readHead
  /-- One iteration of `install_trans` in `recover_from_log`. -/
  | recoverTrans
  /-- `recover_from_log` clears the log. -/
  | recoverErase

namespace Machine

/-- The place after entry `tail` of a loop over the header. -/
def nextEntry (m : Machine) (tail : ℕ) (loop : ℕ → Pc) (done : Pc) : Pc :=
  if tail + 1 < m.log.lh.length then loop (tail + 1) else done

/-- One step of the machine; `none` when the event is not enabled. -/
def step (m : Machine) : Event → Option Machine
  | .beginOp op =>
    if m.pc = .running ∧ m.log.committing = false ∧ op ∉ m.begun ∧
        m.log.lh.length + (m.log.outstanding + 1) * MAXOPBLOCKS ≤ LOGSIZE then
      some { m with
        log := { m.log with outstanding := m.log.outstanding + 1 }
        ops := op :: m.ops
        begun := op :: m.begun }
    else none
  | .logWrite op b data =>
    if op ∈ m.ops ∧ m.log.lh.length < LOGSIZE ∧ m.log.lh.length + 1 < m.log.size ∧
        1 ≤ m.log.outstanding then
      some ((m.fill b).logWrite b data)
    else none
  | .endOp op =>
    if op ∈ m.ops ∧ m.log.committing = false then
      if (m.leave op).log.outstanding = 0 then some (m.leave op).startCommit
      else some (m.leave op)
    else none
  | .writeLog =>
    match m.pc with
    | .writeLog t =>
      some { m.writeLogEntry t with pc := m.nextEntry t .writeLog .writeHead }
    | _ => none
  | .writeHead =>
    if m.pc = .writeHead then some { m.writeHeader with pc := .installTrans 0 } else none
  | .installTrans =>
    match m.pc with
    | .installTrans t =>
      some { m.installEntry t with pc := m.nextEntry t .installTrans .eraseHead }
    | _ => none
  | .eraseHead =>
    if m.pc = .eraseHead then some { m.eraseLog with pc := .committed } else none
  | .endCommit =>
    if m.pc = .committed then
      some { m with log := { m.log with committing := false }, pc := .running }
    else none
  | .read b => some (m.fill b)
  | .evict b =>
    match m.cache b with
    | some buf =>
      if buf.dirty then none
      else some { m with cache := update m.cache b none }
    | none => none
  | .crash => some m.crash
  | .readHead =>
    if m.pc = .readHead then
      let lh := decodeHead ((m.fill m.log.start).bread m.log.start)
      some { m.fill m.log.start with
        log := { m.log with lh := lh }
        pc := if lh.length > 0 then .recoverTrans 0 else .recoverErase }
    else none
  | .recoverTrans =>
    match m.pc with
    | .recoverTrans t =>
      some { m.installEntry t with pc := m.nextEntry t .recoverTrans .recoverErase }
    | _ => none
  | .recoverErase =>
    if m.pc = .recoverErase then some { m.eraseLog with pc := .running } else none

end Machine
