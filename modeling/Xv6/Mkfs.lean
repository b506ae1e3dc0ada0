/-
# The image that `mkfs` makes

`mkfs.c` builds the initial file system: `rsect`, `wsect`, `rinode`, `winode`, `ialloc`, `iappend`
and `balloc`, on an image of `FSSIZE` blocks that are zero at first.  The names of the files, the
entries of the root directory and the checks at the start of `main` are left out: here `main` is any
sequence of calls of `ialloc` and `iappend`.

`iappend` re-implements the block map of the kernel with direct blocks and one indirect block.  Its
guard is `fbn < MAXFILE`, which is beyond what one indirect block can map, so that the array
`indirect` can be read behind its end (`Failure.overrun`).
-/
import Xv6.Bitmap
import Xv6.Fs

open Function

/-! ## The program -/

namespace Mkfs

abbrev NINODES : ℕ := 200

/-- Number of blocks of the log, of the inodes and of the bitmap. -/
abbrev nlog : ℕ := 30
abbrev ninodeblocks : ℕ := NINODES / IPB + 1
abbrev nbitmap : ℕ := FSSIZE / (BSIZE * 8) + 1

/-- Number of meta blocks (boot, sb, nlog, inode, bitmap). -/
abbrev nmeta : ℕ := 2 + nlog + ninodeblocks + nbitmap

def sb : Superblock where
  size := FSSIZE
  nblocks := FSSIZE - nmeta
  ninodes := NINODES
  nlog := nlog
  logstart := 2
  inodestart := 2 + nlog
  bmapstart := 2 + nlog + ninodeblocks

/-- Why `mkfs` does not go on. -/
inductive Failure where
  /-- An assertion fails. -/
  | assertion
  /-- `exit(1)` -/
  | exit
  /-- An array is read behind its end. -/
  | overrun
deriving DecidableEq

/-- `struct dinode`. -/
@[ext]
structure Dinode where
  type : Int16
  major : Int16
  minor : Int16
  nlink : Int16
  size : UInt32
  addrs : Fin (NDIRECT + 1) → UInt32

instance (priority := high) neZero_dinodeAddrs : NeZero (NDIRECT + 1) := ⟨by decide⟩

/-- The bytes of the record, little-endian by `xshort` and `xint`. -/
def Dinode.bytes (din : Dinode) (k : ℕ) : UInt8 :=
  if k < 2 then leByte (short din.type) k
  else if k < 4 then leByte (short din.major) (k - 2)
  else if k < 6 then leByte (short din.minor) (k - 4)
  else if k < 8 then leByte (short din.nlink) (k - 6)
  else if k < 12 then leByte din.size.toNat (k - 8)
  else leByte (din.addrs (Fin.ofNat _ ((k - 12) / 4))).toNat ((k - 12) % 4)

/-- The record at offset `dip` of a block. -/
def loadDinode (bp : Block) (dip : ℕ) : Dinode where
  type := toShort (bp.get dip 2)
  major := toShort (bp.get (dip + 2) 2)
  minor := toShort (bp.get (dip + 4) 2)
  nlink := toShort (bp.get (dip + 6) 2)
  size := UInt32.ofNat (bp.get (dip + 8) 4)
  addrs := fun k => UInt32.ofNat (bp.get (dip + 12 + 4 * k) 4)

/-- The image, and the first inode and the first block that are free. -/
structure State where
  disk : Disk
  freeinode : ℕ
  freeblock : ℕ

namespace State

/-- The block with the super block. -/
def superBlock : Block :=
  ((((((Block.zero.setWord 0 sb.size).setWord 1 sb.nblocks).setWord 2 sb.ninodes).setWord 3
    sb.nlog).setWord 4 sb.logstart).setWord 5 sb.inodestart).setWord 6 sb.bmapstart

/-- The image with zeroes and the super block. -/
def start : State := ⟨update (fun _ => Block.zero) 1 superBlock, 1, nmeta⟩

/-- A sector behind the end of the image cannot be read. -/
def rsect (m : State) (sec : ℕ) : Except Failure Block :=
  if sec < FSSIZE then .ok (m.disk sec) else .error .exit

def wsect (m : State) (sec : ℕ) (buf : Block) : State :=
  { m with disk := update m.disk sec buf }

def winode (m : State) (inum : ℕ) (ip : Dinode) : Except Failure State := do
  let buf ← m.rsect (iblock sb inum)
  .ok (m.wsect (iblock sb inum) (buf.memmove (inum % IPB * DINODE) DINODE ip.bytes))

def rinode (m : State) (inum : ℕ) : Except Failure Dinode := do
  let buf ← m.rsect (iblock sb inum)
  .ok (loadDinode buf (inum % IPB * DINODE))

def ialloc (m : State) (type : Int16) : Except Failure (ℕ × State) := do
  let inum := m.freeinode
  let m := { m with freeinode := m.freeinode + 1 }
  let m ← m.winode inum ⟨type, 0, 0, 1, 0, fun _ => 0⟩
  .ok (inum, m)

/-- Mark the first `used` blocks. -/
def balloc (m : State) (used : ℕ) : Except Failure State :=
  if used < BSIZE * 8 then
    .ok (m.wsect sb.bmapstart ((List.range used).foldl Block.setBit Block.zero))
  else .error .assertion

/-- `if(xint(din.addrs[k]) == 0){ din.addrs[k] = xint(freeblock++); }` -/
def addrAt (m : State) (din : Dinode) (k : Fin (NDIRECT + 1)) : Dinode × State :=
  if din.addrs k = 0 then
    ({ din with addrs := update din.addrs k (UInt32.ofNat m.freeblock) },
      { m with freeblock := m.freeblock + 1 })
  else (din, m)

/-- The block `x` for block `fbn` of the file. -/
def locate (m : State) (din : Dinode) (fbn : ℕ) : Except Failure (ℕ × Dinode × State) :=
  if fbn < NDIRECT then
    let (din, m) := m.addrAt din (Fin.ofNat _ fbn)
    .ok ((din.addrs (Fin.ofNat _ fbn)).toNat, din, m)
  else do
    let (din, m) := m.addrAt din (Fin.ofNat _ NDIRECT)
    let b := (din.addrs (Fin.ofNat _ NDIRECT)).toNat
    let indirect ← m.rsect b
    if NINDIRECT ≤ fbn - NDIRECT then .error .overrun
    else if indirect.word (fbn - NDIRECT) = 0 then
      let indirect := indirect.setWord (fbn - NDIRECT) m.freeblock
      let m := { m with freeblock := m.freeblock + 1 }
      .ok (indirect.word (fbn - NDIRECT), din, m.wsect b indirect)
    else .ok (indirect.word (fbn - NDIRECT), din, m)

/-- The loop of `iappend`, with the bytes `p` left to write at `off`.  A round writes at least one
byte. -/
def iappendLoop : ℕ → State → Dinode → ℕ → List UInt8 → Except Failure (ℕ × Dinode × State)
  | 0, m, din, off, _ => .ok (off, din, m)
  | rounds + 1, m, din, off, p =>
    if p = [] then .ok (off, din, m)
    else
      let fbn := off / BSIZE
      if MAXFILE ≤ fbn then .error .assertion
      else do
        let (x, din, m) ← m.locate din fbn
        let n1 := min p.length ((fbn + 1) * BSIZE - off)
        let buf ← m.rsect x
        let m := m.wsect x (buf.memmove (off - fbn * BSIZE) n1 fun k => p.getD k 0)
        iappendLoop rounds m din (u32 (off + n1)) (p.drop n1)

def iappend (m : State) (inum : ℕ) (p : List UInt8) : Except Failure State := do
  let din ← m.rinode inum
  let (off, din, m) ← iappendLoop p.length m din din.size.toNat p
  m.winode inum { din with size := UInt32.ofNat off }

end State

/-- A call. -/
inductive Op where
  | ialloc (type : Int16)
  | iappend (inum : ℕ) (p : List UInt8)

/-- One call. -/
def State.call (m : State) : Op → Except Failure State
  | .ialloc type => (m.ialloc type).map Prod.snd
  | .iappend inum p => m.iappend inum p

/-- A sequence of calls. -/
def run (ops : List Op) : Except Failure State := ops.foldlM State.call State.start

/-- The calls that `main` makes, with `n` the next inode: it makes directories and files, as many as
there are inodes, and appends to those that it has made. -/
def Valid : ℕ → List Op → Prop
  | _, [] => True
  | n, .ialloc type :: ops => n < NINODES ∧ (type = T_DIR ∨ type = T_FILE) ∧ Valid (n + 1) ops
  | n, .iappend inum _ :: ops => (0 < inum ∧ inum < n) ∧ Valid n ops

/-- The data appended to an inode. -/
def appended (inum : ℕ) : List Op → List UInt8
  | [] => []
  | .ialloc _ :: ops => appended inum ops
  | .iappend j p :: ops => (if j = inum then p else []) ++ appended inum ops

/-! ## Records -/

section Records

variable {din : Dinode} {bp : Block} {dip : ℕ}

theorem toShort_short (x : Int16) : toShort (short x % 256 ^ 2) = x := by
  have hlt : short x % 256 ^ 2 = x.toUInt16.toNat := Nat.mod_eq_of_lt x.toUInt16.toNat_lt
  rw [toShort, hlt, UInt16.ofNat_toNat]
  exact x.toInt16_toUInt16

theorem ofNat_toNat_mod (x : UInt32) : UInt32.ofNat (x.toNat % 256 ^ 4) = x := by
  have hlt : x.toNat % 256 ^ 4 = x.toNat := Nat.mod_eq_of_lt x.toNat_lt
  rw [hlt, UInt32.ofNat_toNat]

/-- **A record that was stored** is loaded. -/
theorem loadDinode_store (hdip : dip + DINODE ≤ BSIZE) :
    loadDinode (bp.memmove dip DINODE din.bytes) dip = din := by
  have hfield : ∀ off n v, off + n ≤ DINODE → (∀ k, k < n → din.bytes (off + k) = leByte v k) →
      (bp.memmove dip DINODE din.bytes).get (dip + off) n = v % 256 ^ n := by
    intro off n v hoff hbytes
    rw [Block.get_memmove_of_mem bp _ (by omega) (by omega) (by omega), ← leValue_leByte]
    refine leValue_congr fun k hk => ?_
    rw [← hbytes k hk]
    congr 1
    omega
  have haddr : ∀ k : Fin (NDIRECT + 1), (bp.memmove dip DINODE din.bytes).get (dip + (12 + 4 * k)) 4 =
      (din.addrs k).toNat % 256 ^ 4 := by
    intro k
    have hk := k.isLt
    refine hfield _ _ _ (by unfold NDIRECT at hk; unfold DINODE; omega) fun j hj => ?_
    unfold Dinode.bytes
    rw [if_neg (by omega), if_neg (by omega), if_neg (by omega), if_neg (by omega), if_neg (by omega)]
    have hdiv : (12 + 4 * k.val + j - 12) / 4 = k := by omega
    have hmod : (12 + 4 * k.val + j - 12) % 4 = j := by omega
    rw [hdiv, hmod, Fin.ofNat_val_eq_self]
  ext1
  · refine (congrArg toShort (hfield 0 2 (short din.type) (by decide) fun k hk => ?_)).trans
      (toShort_short _)
    rw [Dinode.bytes, if_pos (by omega), Nat.zero_add]
  · refine (congrArg toShort (hfield 2 2 (short din.major) (by decide) fun k hk => ?_)).trans
      (toShort_short _)
    rw [Dinode.bytes, if_neg (by omega), if_pos (by omega), Nat.add_sub_cancel_left]
  · refine (congrArg toShort (hfield 4 2 (short din.minor) (by decide) fun k hk => ?_)).trans
      (toShort_short _)
    rw [Dinode.bytes, if_neg (by omega), if_neg (by omega), if_pos (by omega), Nat.add_sub_cancel_left]
  · refine (congrArg toShort (hfield 6 2 (short din.nlink) (by decide) fun k hk => ?_)).trans
      (toShort_short _)
    rw [Dinode.bytes, if_neg (by omega), if_neg (by omega), if_neg (by omega), if_pos (by omega),
      Nat.add_sub_cancel_left]
  · refine (congrArg UInt32.ofNat (hfield 8 4 din.size.toNat (by decide) fun k hk => ?_)).trans
      (ofNat_toNat_mod _)
    rw [Dinode.bytes, if_neg (by omega), if_neg (by omega), if_neg (by omega), if_neg (by omega),
      if_pos (by omega), Nat.add_sub_cancel_left]
  · funext k
    refine (congrArg UInt32.ofNat ?_).trans (ofNat_toNat_mod _)
    rw [← haddr k, Nat.add_assoc]

/-- The other records of the block stay. -/
theorem loadDinode_store_of_disjoint {dip' : ℕ} (h : dip' + DINODE ≤ dip ∨ dip + DINODE ≤ dip') :
    loadDinode (bp.memmove dip DINODE din.bytes) dip' = loadDinode bp dip' := by
  have hget : ∀ off n, off + n ≤ DINODE →
      (bp.memmove dip DINODE din.bytes).get (dip' + off) n = bp.get (dip' + off) n := by
    intro off n hoff
    exact Block.get_memmove_of_disjoint bp _ (by omega)
  unfold loadDinode
  rw [hget 2 2 (by decide), hget 4 2 (by decide), hget 6 2 (by decide), hget 8 4 (by decide),
    show (bp.memmove dip DINODE din.bytes).get dip' 2 = bp.get dip' 2 from hget 0 2 (by decide)]
  congr 1
  funext k
  have hk := k.isLt
  rw [Nat.add_assoc, hget _ _ (by unfold NDIRECT at hk; unfold DINODE; omega)]

end Records

namespace State

variable {m : State} {i j : ℕ}

/-- The record of inode `i` in the image. -/
def dinode (m : State) (i : ℕ) : Dinode := loadDinode (m.disk (iblock sb i)) (i % IPB * DINODE)

theorem bmapstart_eq : sb.bmapstart = 58 := rfl

theorem iblock_lt (hi : i < NINODES) : iblock sb i < sb.bmapstart := by
  have hstart : iblock sb i = i / IPB + 32 := rfl
  rw [hstart, bmapstart_eq]
  unfold NINODES at hi
  unfold IPB
  omega

theorem rinode_eq (hi : i < NINODES) : m.rinode i = .ok (m.dinode i) := by
  unfold rinode rsect
  rw [if_pos ((iblock_lt hi).trans (by decide))]
  rfl

/-- **`winode`** writes one record. -/
theorem winode_spec (hi : i < NINODES) (ip : Dinode) :
    ∃ m', m.winode i ip = .ok m' ∧ m'.freeinode = m.freeinode ∧ m'.freeblock = m.freeblock ∧
      (∀ j, m'.dinode j = if j = i then ip else m.dinode j) ∧
      ∀ b, sb.bmapstart ≤ b → m'.disk b = m.disk b := by
  have hblock := iblock_lt hi
  refine ⟨m.wsect (iblock sb i)
    ((m.disk (iblock sb i)).memmove (i % IPB * DINODE) DINODE ip.bytes), ?_, rfl, rfl, fun j => ?_,
    fun b hb => ?_⟩
  · unfold winode rsect
    rw [if_pos (hblock.trans (by decide))]
    rfl
  · unfold dinode wsect
    have hlt := Nat.mod_lt i (show 0 < IPB by decide)
    by_cases hj : iblock sb j = iblock sb i
    · rw [hj]
      simp only [update_self]
      split
      next heq =>
        subst heq
        exact loadDinode_store (by unfold IPB at hlt; unfold IPB DINODE BSIZE; omega)
      next hne =>
        rw [loadDinode_store_of_disjoint]
        unfold iblock IPB at *
        unfold DINODE
        omega
    · simp only [update_of_ne hj]
      rw [if_neg fun heq => hj (by rw [heq])]
  · exact update_of_ne (by omega) _ _

end State

end Mkfs
