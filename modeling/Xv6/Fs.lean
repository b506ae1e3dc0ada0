/-
# The file system functions on blocks and inodes

`balloc`, `bfree`, `bmap`, `itrunc`, `readi`, `writei`, `ialloc` and `iput` of `fs.c`.  The
state is the disk as seen through the buffer cache, the buffers the caller holds locked, and
the inodes, each viewed as the record that its in-memory copy holds.  A call returns or stops:
it panics, or it waits for a buffer that it holds itself.
-/
import Xv6.Bitmap

open Function

/-! ## The state -/

/-- Why a call does not return. -/
inductive Stop where
  | panic (msg : String)
  /-- It waits for a buffer that nobody releases. -/
  | blocked
  /-- It goes through a null pointer. -/
  | nullDeref
deriving DecidableEq

/-- What the file system functions work on. -/
structure Fs where
  /-- The blocks, as the buffer cache shows them. -/
  disk : Disk
  /-- The blocks whose buffers are locked; `none` when buffers are viewed as the blocks they
  cache, without their locks. -/
  held : Option (Finset ℕ)
  /-- The inodes by number. -/
  inode : ℕ → Inode
  inum_eq : ∀ i, (inode i).inum = i

/-- Device switch table: the functions of each major device number. -/
structure Devsw where
  read : ℕ → Option (Inode → ℕ → ℤ × List UInt8)
  write : ℕ → Option (Inode → List UInt8 → ℤ)

/-- Blocks reached through the doubly indirect block. -/
abbrev NDOUBLY_INDIRECT : ℕ := 16384

/-- `NDIRECT + NINDIRECT * NDOUBLY_INDIRECT`. -/
abbrev MAXFILE : ℕ := 2097163

/-- Maximum major device number. -/
abbrev NDEV : ℕ := 10

/-- Size of file system in blocks. -/
abbrev FSSIZE : ℕ := 250000

/-- Maximum number of active i-nodes. -/
abbrev NINODE : ℕ := 50

namespace Fs

/-- Change the contents of a buffer. -/
def setBlock (f : Fs) (b : ℕ) (blk : Block) : Fs :=
  { f with disk := update f.disk b blk }

/-- Change an inode; its number stays. -/
def setInode (f : Fs) (i : ℕ) (ip : Inode) : Fs :=
  { f with
    inode := update f.inode i { ip with inum := i }
    inum_eq := fun j => by
      by_cases hj : j = i
      · rw [hj, update_self]
      · rw [update_of_ne hj, f.inum_eq] }

@[simp] theorem setInode_disk (f : Fs) (i : ℕ) (ip : Inode) : (f.setInode i ip).disk = f.disk := rfl

@[simp] theorem setInode_held (f : Fs) (i : ℕ) (ip : Inode) : (f.setInode i ip).held = f.held := rfl

@[simp] theorem setInode_inode_self (f : Fs) (i : ℕ) (ip : Inode) :
    (f.setInode i ip).inode i = { ip with inum := i } := update_self _ _ _

theorem setInode_inode_of_ne (f : Fs) {i j : ℕ} (ip : Inode) (hj : j ≠ i) :
    (f.setInode i ip).inode j = f.inode j := update_of_ne hj _ _

/-- `ip->addrs[k] = v`. -/
def setAddr (f : Fs) (i : ℕ) (k : Fin (NDIRECT + 2)) (v : UInt32) : Fs :=
  f.setInode i { f.inode i with addrs := update (f.inode i).addrs k v }

/-- `ip->size = v`. -/
def setSize (f : Fs) (i : ℕ) (v : UInt32) : Fs := f.setInode i { f.inode i with size := v }

/-! ## Buffers -/

/-- Lock the buffer of block `b`. -/
def bread (f : Fs) (b : ℕ) : Except Stop Fs :=
  match f.held with
  | none => .ok f
  | some h => if b ∈ h then .error .blocked else .ok { f with held := some (insert b h) }

/-- Release the buffer of block `b`. -/
def brelse (f : Fs) (b : ℕ) : Fs := { f with held := f.held.map (Finset.erase · b) }

/-- Change the contents of block `b`: lock its buffer, change it, log it and release it. -/
def updateBlock (f : Fs) (b : ℕ) (change : Block → Block) : Except Stop Fs := do
  let f ← f.bread b
  let f := f.setBlock b (change (f.disk b))
  .ok (f.brelse b)

/-- Zero a block. -/
def bzero (f : Fs) (bno : ℕ) : Except Stop Fs := f.updateBlock bno fun _ => Block.zero

/-! ## Blocks -/

/-- The inner loop of `balloc`: the first clear bit of a bitmap block, of those that stand for
blocks below `sb.size`. -/
def clearBitAt (bp : Block) (left : ℕ) : Option ℕ :=
  (List.range (min BPB left)).find? fun bi => !bp.bit bi

/-- The outer loop of `balloc`, over the block numbers that start a bitmap block. -/
def ballocFrom (sb : Superblock) : Fs → List ℕ → Except Stop (ℕ × Fs)
  | _, [] => .error (.panic "balloc: out of blocks")
  | f, b :: bs => do
    let f ← f.bread (bblock sb b)
    match clearBitAt (f.disk (bblock sb b)) (sb.size - b) with
    | some bi =>
      let f := f.setBlock (bblock sb b) ((f.disk (bblock sb b)).setBit bi)
      let f := f.brelse (bblock sb b)
      let f ← f.bzero (b + bi)
      .ok (b + bi, f)
    | none => ballocFrom sb (f.brelse (bblock sb b)) bs

/-- Allocate a zeroed disk block. -/
def balloc (sb : Superblock) (f : Fs) : Except Stop (ℕ × Fs) :=
  ballocFrom sb f ((List.range ((sb.size + BPB - 1) / BPB)).map (· * BPB))

/-- Free a disk block. -/
def bfree (sb : Superblock) (f : Fs) (b : ℕ) : Except Stop Fs := do
  let f ← f.bread (bblock sb b)
  if (f.disk (bblock sb b)).bit (b % BPB) = false then .error (.panic "freeing free block")
  else
    let f := f.setBlock (bblock sb b) ((f.disk (bblock sb b)).clearBit (b % BPB))
    .ok (f.brelse (bblock sb b))

/-- Copy a modified in-memory inode to disk. -/
def iupdate (sb : Superblock) (f : Fs) (i : ℕ) : Except Stop Fs :=
  f.updateBlock (iblock sb i) fun bp => storeDinode bp (i % IPB * DINODE) (f.inode i)

/-! ## Inode content -/

/-- `if((addr = ip->addrs[k]) == 0) ip->addrs[k] = addr = balloc(ip->dev);` -/
def addrAt (sb : Superblock) (f : Fs) (i : ℕ) (k : Fin (NDIRECT + 2)) : Except Stop (ℕ × Fs) :=
  if (f.inode i).addrs k = 0 then do
    let (addr, f) ← balloc sb f
    .ok (addr, f.setAddr i k (UInt32.ofNat addr))
  else .ok (((f.inode i).addrs k).toNat, f)

/-- `bp = bread(ip->dev, b); a = (uint*)bp->data;` and then
`if((addr = a[j]) == 0){ a[j] = addr = balloc(ip->dev); log_write(bp); }`.
The buffer stays locked. -/
def entryAt (sb : Superblock) (f : Fs) (b j : ℕ) : Except Stop (ℕ × Fs) := do
  let f ← f.bread b
  if (f.disk b).word j = 0 then do
    let (addr, f) ← balloc sb f
    .ok (addr, f.setBlock b ((f.disk b).setWord j addr))
  else .ok ((f.disk b).word j, f)

/-- `EXT_LENGTH`: the number of blocks of an extent. -/
def extLength (address : UInt32) : ℕ := (address &&& 0xff).toNat

/-- `EXT_ADDRESS`: the first block of an extent. -/
def extAddress (address : UInt32) : ℕ := (address >>> 8).toNat

/-- `GEN_ADDRESS`. -/
def genAddress (address : ℕ) (length : UInt32) : UInt32 := UInt32.ofNat address <<< 8 ||| length

/-- The extents of `addrs` searched for block `bn`, with `currentLength` blocks before the next
one: its disk address, or the index at which the loop ended. -/
def findExtent (addrs : Fin (NDIRECT + 2) → UInt32) (bn : ℕ) :
    List (Fin (NDIRECT + 2)) → ℕ → ℕ ⊕ ℕ
  | [], _ => .inr (NDIRECT + 2)
  | k :: ks, currentLength =>
    if addrs k = 0 then .inr k
    else
      let length := extLength (addrs k)
      if currentLength ≤ bn ∧ bn < currentLength + length then
        .inl (extAddress (addrs k) + bn - currentLength)
      else if NDIRECT < k.val then .inr k
      else findExtent addrs bn ks (currentLength + length)

/-- `ip->addrs[i-1]`, which for `i = 0` is the field before the array, `ip->size`. -/
def lastExtent (ip : Inode) (k : ℕ) : UInt32 :=
  if k = 0 then ip.size else ip.addrs (Fin.ofNat _ (k - 1))

/-- `ip->addrs[i-1] = v`. -/
def setLastExtent (f : Fs) (i k : ℕ) (v : UInt32) : Fs :=
  if k = 0 then f.setSize i v else f.setAddr i (Fin.ofNat _ (k - 1)) v

/-- The `T_EXTENT` case of `bmap`. -/
def bmapExtent (sb : Superblock) (f : Fs) (i bn : ℕ) : Except Stop (ℕ × Fs) :=
  match findExtent (f.inode i).addrs bn (List.finRange _) 0 with
  | .inl addr => .ok (addr, f)
  | .inr k =>
    if NDIRECT < k then .error (.panic "extent based kinda did not wo really well\n")
    else do
      let (newBlock, f) ← balloc sb f
      let last := lastExtent (f.inode i) k
      if newBlock = extAddress last + extLength last ∧ extLength last < 0xff then
        .ok (newBlock, f.setLastExtent i k (last + 1))
      else .ok (newBlock, f.setAddr i (Fin.ofNat _ k) (genAddress newBlock 1))

/-- The disk block address of the `bn`th block of an inode; if there is no such block, one is
allocated. -/
def bmap (sb : Superblock) (f : Fs) (i bn : ℕ) : Except Stop (ℕ × Fs) :=
  if (f.inode i).type = T_EXTENT then bmapExtent sb f i bn
  else if bn < NDIRECT then addrAt sb f i (Fin.ofNat _ bn)
  else if bn - NDIRECT < NINDIRECT then do
    let (b, f) ← addrAt sb f i (Fin.ofNat _ NDIRECT)
    let (addr, f) ← entryAt sb f b (bn - NDIRECT)
    .ok (addr, f.brelse b)
  else if bn - NDIRECT - NINDIRECT < NDOUBLY_INDIRECT then do
    let (b, f) ← addrAt sb f i (Fin.ofNat _ (NDIRECT + 1))
    let (b', f) ← entryAt sb f b ((bn - NDIRECT - NINDIRECT) / NINDIRECT)
    let f := f.brelse b
    -- the buffer of the second-level block is not released
    entryAt sb f b' ((bn - NDIRECT - NINDIRECT) % NINDIRECT)
  else .error (.panic "bmap: out of range")

/-- One round of the first loop of `itrunc`. -/
def itruncDirect (sb : Superblock) (i : ℕ) (f : Fs) (k : Fin NDIRECT) : Except Stop Fs :=
  let k := k.castLE direct_le
  if (f.inode i).addrs k = 0 then .ok f
  else do
    let f ← bfree sb f ((f.inode i).addrs k).toNat
    .ok (f.setAddr i k 0)

/-- One round of the second loop of `itrunc`, over the entries of the block `b`. -/
def itruncEntry (sb : Superblock) (b : ℕ) (f : Fs) (j : ℕ) : Except Stop Fs :=
  if (f.disk b).word j = 0 then .ok f else bfree sb f ((f.disk b).word j)

/-- The indirect block of `itrunc`. -/
def itruncIndirect (sb : Superblock) (f : Fs) (i : ℕ) : Except Stop Fs :=
  let k := Fin.ofNat (NDIRECT + 2) NDIRECT
  if (f.inode i).addrs k = 0 then .ok f
  else do
    let b := ((f.inode i).addrs k).toNat
    let f ← f.bread b
    let f ← (List.range NINDIRECT).foldlM (itruncEntry sb b) f
    let f := f.brelse b
    let f ← bfree sb f b
    .ok (f.setAddr i k 0)

/-- Truncate inode (discard contents). -/
def itrunc (sb : Superblock) (f : Fs) (i : ℕ) : Except Stop Fs := do
  let f ← (List.finRange NDIRECT).foldlM (itruncDirect sb i) f
  let f ← itruncIndirect sb f i
  iupdate sb (f.setSize i 0) i

/-! ## Reading and writing -/

/-- The loop of `readi`, with `n` bytes left to read at `off`.  A round reads at least one byte,
so `n` rounds are enough. -/
def readLoop (sb : Superblock) (i : ℕ) : ℕ → Fs → ℕ → ℕ → Except Stop (List UInt8 × Fs)
  | 0, f, _, _ => .ok ([], f)
  | rounds + 1, f, off, n =>
    if n = 0 then .ok ([], f)
    else do
      let (b, f) ← bmap sb f i (off / BSIZE)
      let f ← f.bread b
      let m := min n (BSIZE - off % BSIZE)
      let chunk := (List.range m).map fun k => (f.disk b).byte (off % BSIZE + k)
      let f := f.brelse b
      let (rest, f) ← readLoop sb i rounds f (u32 (off + m)) (n - m)
      .ok (chunk ++ rest, f)

/-- Read data from inode: the value returned and the bytes copied to `dst`. -/
def readi (sb : Superblock) (devsw : Devsw) (f : Fs) (i off n : ℕ) :
    Except Stop ((ℤ × List UInt8) × Fs) :=
  let ip := f.inode i
  if ip.type = T_DEV then
    if ip.major < 0 ∨ (NDEV : ℤ) ≤ ip.major.toInt then .ok ((-1, []), f)
    else match devsw.read ip.major.toInt.toNat with
      | none => .ok ((-1, []), f)
      | some read => .ok (read ip n, f)
  else if ip.size.toNat < off ∨ u32 (off + n) < off then .ok ((-1, []), f)
  else do
    let n := if ip.size.toNat < u32 (off + n) then ip.size.toNat - off else n
    let (dst, f) ← readLoop sb i n f off n
    .ok ((cint n, dst), f)

/-- The loop of `writei`, with the bytes `src` left to write at `off`; returns the `off` it ends
with. -/
def writeLoop (sb : Superblock) (i : ℕ) : ℕ → Fs → ℕ → List UInt8 → Except Stop (ℕ × Fs)
  | 0, f, off, _ => .ok (off, f)
  | rounds + 1, f, off, src =>
    if src = [] then .ok (off, f)
    else do
      let (b, f) ← bmap sb f i (off / BSIZE)
      let m := min src.length (BSIZE - off % BSIZE)
      let f ← f.updateBlock b fun bp => bp.memmove (off % BSIZE) m fun k => src.getD k 0
      writeLoop sb i rounds f (u32 (off + m)) (src.drop m)

/-- Write data to inode. -/
def writei (sb : Superblock) (devsw : Devsw) (f : Fs) (i : ℕ) (src : List UInt8) (off : ℕ) :
    Except Stop (ℤ × Fs) :=
  let ip := f.inode i
  let n := src.length
  if ip.type = T_DEV then
    if ip.major < 0 ∨ (NDEV : ℤ) ≤ ip.major.toInt then .ok (-1, f)
    else match devsw.write ip.major.toInt.toNat with
      | none => .ok (-1, f)
      | some write => .ok (write ip src, f)
  -- `n < 0` is false of a `uint`
  else if MAXFILE * BSIZE < u32 (off + n) then .ok (-1, f)
  else do
    let (off, f) ← writeLoop sb i n f off src
    if 0 < n ∧ (f.inode i).size.toNat < off then do
      let f ← iupdate sb (f.setSize i (UInt32.ofNat off)) i
      .ok (cint n, f)
    else .ok (cint n, f)

/-! ## Allocating and freeing inodes -/

/-- The in-memory copy of inode `inum`: a reference more to it, or a new entry that is still to
be read from disk. -/
def iget (sb : Superblock) (f : Fs) (inum : ℕ) : Except Stop Fs :=
  let ip := f.inode inum
  if 0 < ip.ref then .ok (f.setInode inum { ip with ref := ip.ref + 1 })
  else if NINODE ≤ (List.range sb.ninodes).countP fun j => 0 < (f.inode j).ref then
    .error (.panic "iget: no inodes")
  else .ok (f.setInode inum { ip with ref := 1, valid := false })

/-- `memset(dip, 0, sizeof(*dip)); dip->type = type;` -/
def clearDinode (bp : Block) (dip : ℕ) (type : Int16) : Block :=
  (bp.memmove dip DINODE fun _ => 0).set dip 2 (short type)

/-- The record left by `clearDinode`. -/
def clearedInode (ip : Inode) (type : Int16) : Inode :=
  { ip with type := type, major := 0, minor := 0, nlink := 0, size := 0, addrs := fun _ => 0 }

/-- The loop of `ialloc`. -/
def iallocFrom (sb : Superblock) (type : Int16) : Fs → List ℕ → Except Stop (ℕ × Fs)
  | _, [] => .error (.panic "ialloc: no inodes")
  | f, inum :: inums => do
    let f ← f.bread (iblock sb inum)
    if (f.inode inum).type = 0 then do
      let f := f.setBlock (iblock sb inum)
        (clearDinode (f.disk (iblock sb inum)) (inum % IPB * DINODE) type)
      let f := f.setInode inum (clearedInode (f.inode inum) type)
      let f ← iget sb (f.brelse (iblock sb inum)) inum
      .ok (inum, f)
    else iallocFrom sb type (f.brelse (iblock sb inum)) inums

/-- Allocate an inode: mark it as allocated by giving it type `type`. -/
def ialloc (sb : Superblock) (f : Fs) (type : Int16) : Except Stop (ℕ × Fs) :=
  iallocFrom sb type f (List.range' 1 (sb.ninodes - 1))

/-- Drop a reference to an in-memory inode; with the last reference an inode without links is
truncated and freed. -/
def iput (sb : Superblock) (f : Fs) (i : ℕ) : Except Stop Fs := do
  let f ← if (f.inode i).valid ∧ (f.inode i).nlink = 0 ∧ (f.inode i).ref = 1 then do
      let f ← itrunc sb f i
      let f ← iupdate sb (f.setInode i { f.inode i with type := 0 }) i
      .ok (f.setInode i { f.inode i with valid := false })
    else .ok f
  .ok (f.setInode i { f.inode i with ref := (f.inode i).ref - 1 })

end Fs
