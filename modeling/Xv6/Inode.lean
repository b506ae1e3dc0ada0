/-
# Inodes on disk and in memory

The superblock, the packed `struct dinode` of the inode table (`fs.h`), the in-memory
`struct inode` (`file.h`), and the two functions that copy one to the other: `iupdate` and
`ilock` (`fs.c`).  The disk is seen through the buffer cache.  Both functions copy
`sizeof(ip->addrs)` bytes, the size of the in-memory array of `NDIRECT + 2` addresses, while
the on-disk record has room for `NDIRECT + 1`.
-/
import Xv6.Block

/-! ## Constants (`fs.h`, `stat.h`) -/

/-- Number of direct block addresses. -/
abbrev NDIRECT : ℕ := 11

/-- `BSIZE / sizeof(uint)`. -/
abbrev NINDIRECT : ℕ := 128

instance (priority := high) neZero_addrs : NeZero (NDIRECT + 2) := ⟨by decide⟩

instance neZero_entries : NeZero NINDIRECT := ⟨by decide⟩

theorem direct_le : NDIRECT ≤ NDIRECT + 2 := by norm_num

/-- `sizeof(struct dinode)`: four shorts, the size and `NDIRECT + 1` addresses. -/
abbrev DINODE : ℕ := 60

/-- Inodes per block, `BSIZE / sizeof(struct dinode)`. -/
abbrev IPB : ℕ := 8

def T_DIR : Int16 := 1
def T_FILE : Int16 := 2
def T_DEV : Int16 := 3
def T_SYMLINK : Int16 := 4
def T_EXTENT : Int16 := 5

/-- `struct superblock`. -/
structure Superblock where
  /-- Size of file system image (blocks). -/
  size : ℕ
  /-- Number of data blocks. -/
  nblocks : ℕ
  ninodes : ℕ
  /-- Number of log blocks. -/
  nlog : ℕ
  /-- Block number of first log block. -/
  logstart : ℕ
  /-- Block number of first inode block. -/
  inodestart : ℕ
  /-- Block number of first free map block. -/
  bmapstart : ℕ

/-- `IBLOCK(i, sb)`: the block containing inode `i`. -/
def iblock (sb : Superblock) (i : ℕ) : ℕ := i / IPB + sb.inodestart

/-- The in-memory copy of an inode. -/
structure Inode where
  inum : ℕ
  /-- Reference count. -/
  ref : ℤ
  /-- The inode has been read from disk. -/
  valid : Bool
  type : Int16
  major : Int16
  minor : Int16
  nlink : Int16
  size : UInt32
  addrs : Fin (NDIRECT + 2) → UInt32

/-! ## Copying inodes -/

/-- The two bytes of a `short` as a number. -/
def short (x : Int16) : ℕ := x.toUInt16.toNat

/-- The `short` with the given two bytes. -/
def toShort (n : ℕ) : Int16 := (UInt16.ofNat n).toInt16

/-- The assignments of `iupdate` to the `struct dinode` at offset `dip` of its block. -/
def storeDinode (bp : Block) (dip : ℕ) (ip : Inode) : Block :=
  let bp := bp.set dip 2 (short ip.type)
  let bp := bp.set (dip + 2) 2 (short ip.major)
  let bp := bp.set (dip + 4) 2 (short ip.minor)
  let bp := bp.set (dip + 6) 2 (short ip.nlink)
  let bp := bp.set (dip + 8) 4 ip.size.toNat
  bp.memmove (dip + 12) (4 * (NDIRECT + 2))
    fun k => leByte (ip.addrs (Fin.ofNat _ (k / 4))).toNat (k % 4)

/-- Copy a modified in-memory inode to disk. -/
def iupdate (sb : Superblock) (d : Disk) (ip : Inode) : Disk :=
  let bn := iblock sb ip.inum
  let dip := ip.inum % IPB * DINODE
  Function.update d bn (storeDinode (d bn) dip ip)

/-- Lock an inode, reading it from disk if necessary.  `none` is a panic: no reference, or
`ilock: no type`. -/
def ilock (sb : Superblock) (d : Disk) (ip : Inode) : Option Inode :=
  if ip.ref < 1 then none
  else if ip.valid then some ip
  else
    let dip := ip.inum % IPB * DINODE
    let bp := d (iblock sb ip.inum)
    let ip := { ip with
      valid := true
      type := toShort (bp.get dip 2)
      major := toShort (bp.get (dip + 2) 2)
      minor := toShort (bp.get (dip + 4) 2)
      nlink := toShort (bp.get (dip + 6) 2)
      size := UInt32.ofNat (bp.get (dip + 8) 4)
      addrs := fun k => UInt32.ofNat (bp.get (dip + 12 + 4 * k) 4) }
    if ip.type = 0 then none else some ip

/-! ## The record an inode is copied to -/

/-- The bytes that `iupdate` stores, counted from the start of the record. -/
def Inode.image (ip : Inode) (k : ℕ) : UInt8 :=
  if k < 2 then leByte (short ip.type) k
  else if k < 4 then leByte (short ip.major) (k - 2)
  else if k < 6 then leByte (short ip.minor) (k - 4)
  else if k < 8 then leByte (short ip.nlink) (k - 6)
  else if k < 12 then leByte ip.size.toNat (k - 8)
  else leByte (ip.addrs (Fin.ofNat _ ((k - 12) / 4))).toNat ((k - 12) % 4)

/-- How many bytes `iupdate` stores and `ilock` reads: `4` more than a `struct dinode`. -/
abbrev IMAGE : ℕ := 64

/-- The assignments are one copy of the image over the start of the record. -/
theorem storeDinode_eq (bp : Block) (dip : ℕ) (ip : Inode) :
    storeDinode bp dip ip = bp.memmove dip IMAGE ip.image := by
  simp only [storeDinode, Block.set]
  rw [Block.memmove_append bp dip 2 2, Block.memmove_append bp dip 4 2,
    Block.memmove_append bp dip 6 2, Block.memmove_append bp dip 8 4,
    Block.memmove_append bp dip 12 (4 * (NDIRECT + 2))]
  apply Block.memmove_congr
  intro k hk
  unfold Inode.image
  split_ifs <;> first | rfl | omega
