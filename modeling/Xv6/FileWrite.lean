/-
# Writing past the end of a file

`filelseek` and `filewrite` of `file.c`.  A write at an offset past the end first fills the gap,
one zero byte for each byte of the gap, each written at `ip->size + i`.  The size grows with
every byte written, so the bytes land further and further apart: after `k` of them the size has
grown by `tri k`.  The write ends with the right size just when the data covers what the loop
has added, and this is the exact condition for it to do what it should, next to the blocks and
buffers that it needs.
-/
import Xv6.WriteRead

open Outcome List

/-! ## Open files -/

/-- What an open file stands for. -/
inductive FdType where
  | none
  | pipe
  | inode
deriving DecidableEq

/-- `struct file`. -/
structure OpenFile where
  type : FdType
  writable : Bool
  /-- The inode, by number. -/
  ip : ℕ
  off : ℕ

/-- `((MAXOPBLOCKS-1-1-2) / 2) * 512`: how many bytes are written in one transaction. -/
abbrev MAXCHUNK : ℕ := 1536

/-- `filelseek`: the offset is moved by `offset`, in 32-bit arithmetic; a negative offset is a
panic. -/
def filelseek (f : OpenFile) (offset : ℤ) : Except Stop (ℤ × OpenFile) :=
  let temp := cint (((f.off : ℤ) + offset) % 2 ^ 32).toNat
  if temp < 0 then .error (.panic "lseek offset negative reach\n")
  else .ok (temp, { f with off := temp.toNat })

namespace Fs

/-- One round of the loop that fills the gap: a zero byte at `ip->size + i`. -/
def fillByte (sb : Superblock) (devsw : Devsw) (ip : ℕ) (f : Fs) (i : ℕ) : Except Stop Fs := do
  let (_, f) ← f.writei sb devsw ip [0] (u32 ((f.inode ip).size.toNat + i))
  .ok f

/-- The loop that writes the data, one transaction at a time: the number of bytes written and
the offset after them. -/
def writeChunks (sb : Superblock) (devsw : Devsw) (ip : ℕ) :
    ℕ → Fs → ℕ → List UInt8 → Except Stop (ℕ × ℕ × Fs)
  | 0, f, off, _ => .ok (0, off, f)
  | rounds + 1, f, off, src =>
    if src = [] then .ok (0, off, f)
    else do
      let n1 := min src.length MAXCHUNK
      let (r, f) ← f.writei sb devsw ip (src.take n1) off
      if r < 0 then .ok (0, off, f)
      else if r ≠ n1 then .error (.panic "short filewrite")
      else do
        let (i, off, f) ← writeChunks sb devsw ip rounds f (u32 (off + n1)) (src.drop n1)
        .ok (n1 + i, off, f)

/-- Write to file `fd`. -/
def filewrite (sb : Superblock) (devsw : Devsw)
    (pipewrite : Fs → OpenFile → List UInt8 → Except Stop (ℤ × Fs)) (f : Fs) (fd : OpenFile)
    (addr : List UInt8) : Except Stop (ℤ × OpenFile × Fs) :=
  if fd.writable = false then .ok (-1, fd, f)
  else match fd.type with
    | .pipe => do
      let (r, f) ← pipewrite f fd addr
      .ok (r, fd, f)
    | .inode => do
      let s := (f.inode fd.ip).size.toNat
      -- filling with nullbytes
      let f ← if s < fd.off ∧ addr ≠ [] then
          (range (fd.off - s)).foldlM (fillByte sb devsw fd.ip) f
        else .ok f
      let (i, off, f) ← writeChunks sb devsw fd.ip addr.length f fd.off addr
      .ok (if i = addr.length then (addr.length : ℤ) else -1, { fd with off := off }, f)
    | .none => .error (.panic "filewrite")

end Fs

/-! ## The gap -/

/-- How much `k` rounds of the gap loop add to the size. -/
def tri : ℕ → ℕ
  | 0 => 0
  | k + 1 => tri k + k + 1

theorem two_mul_tri (k : ℕ) : 2 * tri k = k * (k + 1) := by
  induction k with
  | zero => rfl
  | succ k ih =>
    rw [tri]
    linarith

theorem tri_mono {j k : ℕ} (h : j ≤ k) : tri j ≤ tri k := by
  induction h with
  | refl => exact le_rfl
  | step _ ih =>
    rw [tri]
    omega

/-- Where round `k` of the gap loop writes its zero byte. -/
def gapByte (s k : ℕ) : ℕ := s + tri k + k

/-- The file after `k` rounds of the gap loop. -/
def File.fill (c : File) : ℕ → File
  | 0 => c
  | k + 1 => (c.fill k).write (gapByte c.size k) [0]

theorem File.fill_size (c : File) (k : ℕ) : (c.fill k).size = c.size + tri k := by
  induction k with
  | zero => rfl
  | succ k ih =>
    show max (c.fill k).size (gapByte c.size k + 1) = _
    rw [ih, gapByte, tri]
    omega

/-- The bytes that the loop writes are zero, the others stay. -/
theorem File.fill_byte (c : File) (k o : ℕ) :
    (c.fill k).byte o = if ∃ j, j < k ∧ o = gapByte c.size j then 0 else c.byte o := by
  induction k with
  | zero =>
    rw [if_neg (by rintro ⟨j, hj, -⟩; omega)]
    rfl
  | succ k ih =>
    show (if _ then _ else (c.fill k).byte o) = _
    by_cases ho : o = gapByte c.size k
    · rw [if_pos (by simp [ho]), if_pos ⟨k, Nat.lt_succ_self k, ho⟩]
      simp [ho]
    · rw [if_neg (by simp only [length_singleton]; omega), ih]
      refine if_congr ?_ rfl rfl
      constructor
      · rintro ⟨j, hj, hoj⟩
        exact ⟨j, by omega, hoj⟩
      · rintro ⟨j, hj, hoj⟩
        refine ⟨j, ?_, hoj⟩
        by_contra hjk
        obtain rfl : j = k := by omega
        exact ho hoj

/-- The blocks that the gap loop goes through, in order. -/
def gapBlocks (s d : ℕ) : List ℕ := (range d).map fun k => gapByte s k / BSIZE

theorem gapBlocks_succ (s d : ℕ) : gapBlocks s (d + 1) = gapBlocks s d ++ [gapByte s d / BSIZE] := by
  unfold gapBlocks
  rw [range_succ, map_append, map_singleton]

theorem gapBlocks_of_le (s : ℕ) {k d : ℕ} (h : k ≤ d) :
    ∃ rest, gapBlocks s d = gapBlocks s k ++ rest := by
  obtain ⟨m, rfl⟩ := Nat.exists_eq_add_of_le h
  unfold gapBlocks
  rw [range_add, map_append]
  exact ⟨_, rfl⟩

/-- What a call that goes through the blocks `bns` of inode `i` can stop for. -/
def BlocksStop (sb : Superblock) (i : ℕ) (bns : List ℕ) (f : Fs) (e : Stop) : Prop :=
  Stops sb i (slotsOf bns) (seconds bns) f e

/-- A call has gone through the blocks `bns` of inode `i`, and the file is now `c`. -/
def BlocksDone (sb : Superblock) (i : ℕ) (bns : List ℕ) (c : File) (f g : Fs) : Prop :=
  Done sb i (slotsOf bns) (seconds bns) c f g

section Blocks

variable {sb : Superblock} {i : ℕ} {as bs : List ℕ} {c d : File} {f g h : Fs} {e : Stop}

theorem BlocksDone.trans (hfg : BlocksDone sb i as c f g) (hgh : BlocksDone sb i bs d g h) :
    BlocksDone sb i (as ++ bs) d f h := by
  unfold BlocksDone
  rw [slotsOf_append, seconds_append]
  exact Done.trans hfg hgh

theorem BlocksDone.stops (hfg : BlocksDone sb i as c f g) (he : BlocksStop sb i bs g e) :
    BlocksStop sb i (as ++ bs) f e := by
  unfold BlocksStop
  rw [slotsOf_append, seconds_append]
  exact Done.stops hfg he

theorem BlocksStop.left (he : BlocksStop sb i as f e) (bs : List ℕ) :
    BlocksStop sb i (as ++ bs) f e := by
  unfold BlocksStop
  rw [slotsOf_append, seconds_append]
  exact Stops.left he

theorem BlocksDone.type_eq (hfg : BlocksDone sb i as c f g) :
    (g.inode i).type = (f.inode i).type := by
  obtain ⟨A, -, hch⟩ := Done.change hfg
  exact hch.type_eq i

end Blocks

theorem blocksOf_one (p : ℕ) : blocksOf p 1 = [p / BSIZE] := by
  unfold blocksOf
  rw [if_neg one_ne_zero, Nat.add_sub_cancel, Nat.sub_self]
  rfl

section Gap

variable {sb : Superblock} {i : ℕ} {f : Fs} (hsb : sb.Layout) (devsw : Devsw)
include hsb

/-- One round of the gap loop writes its byte, or stops at its block. -/
theorem fillByte_post (hown : f.Owned sb) (htype : (f.inode i).type = T_FILE) {s k : ℕ}
    (hsize : (f.file i).size = s + tri k) (hs : s + tri k ≤ MAXMAP * BSIZE)
    (hk : k ≤ MAXMAP * BSIZE) :
    Post (f.fillByte sb devsw i k)
      (fun g => s + tri (k + 1) ≤ MAXMAP * BSIZE ∧
        BlocksDone sb i [gapByte s k / BSIZE] ((f.file i).write (gapByte s k) [0]) f g)
      (fun e => BlocksStop sb i [gapByte s k / BSIZE] f e ∨
        e = .panic "bmap: out of range" ∧ MAXMAP * BSIZE < s + tri (k + 1)) := by
  have hplain : PlainType (f.inode i).type := Or.inl htype
  have hpos : u32 ((f.inode i).size.toNat + k) = gapByte s k := by
    have hsize : (f.inode i).size.toNat = s + tri k := hsize
    unfold MAXMAP BSIZE at hs hk
    rw [hsize]
    exact Nat.mod_eq_of_lt (by omega)
  have hnext : gapByte s k + 1 = s + tri (k + 1) := by
    rw [gapByte, tri]
    omega
  unfold Fs.fillByte
  rw [hpos]
  have hpost := @writei_post sb i (gapByte s k) f hsb hown hplain.live hplain.ne_dev devsw [0]
  rw [length_singleton] at hpost
  refine hpost.bind ?_ ?_
  · rintro ⟨r, g⟩ (⟨-, hdone⟩ | ⟨-, hmax⟩)
    · have hfits := hdone.fits one_ne_zero
      refine ⟨by omega, ?_⟩
      have := hdone.done
      rwa [blocksOf_one] at this
    · -- the byte is too near to the end to be refused
      exfalso
      unfold u32 MAXFILE BSIZE at hmax
      unfold MAXMAP BSIZE at hs hk
      unfold gapByte at hmax
      omega
  · rintro e (he | ⟨rfl, -, hlt⟩)
    · rw [blocksOf_one] at he
      exact Or.inl he
    · exact Or.inr ⟨rfl, by omega⟩

/-- **The gap loop** adds `tri d` bytes to the file. -/
theorem fillGap_post (hown : f.Owned sb) (htype : (f.inode i).type = T_FILE) (d : ℕ)
    (hs : (f.file i).size + d ≤ MAXMAP * BSIZE) :
    Post ((range d).foldlM (Fs.fillByte sb devsw i) f)
      (fun g => (f.file i).size + tri d ≤ MAXMAP * BSIZE ∧
        BlocksDone sb i (gapBlocks (f.file i).size d) ((f.file i).fill d) f g)
      (fun e => BlocksStop sb i (gapBlocks (f.file i).size d) f e ∨
        e = .panic "bmap: out of range" ∧ MAXMAP * BSIZE < (f.file i).size + tri d) := by
  set s := (f.file i).size with hsdef
  have hpost := Post.foldlM (f := Fs.fillByte sb devsw i) (s := f)
    (E := fun e => BlocksStop sb i (gapBlocks s d) f e ∨
      e = .panic "bmap: out of range" ∧ MAXMAP * BSIZE < s + tri d)
    (I := fun before g => s + tri before.length ≤ MAXMAP * BSIZE ∧
      BlocksDone sb i (gapBlocks s before.length) ((f.file i).fill before.length) f g)
    (range d) ?_ ?_
  · rwa [length_range] at hpost
  · intro before k after hlist g ⟨hle, hdone⟩
    -- round `k` is the one after the first `k`
    have hk : (range d)[before.length]? = some k := by
      rw [← hlist]
      simp
    have hlt : before.length < d := by
      by_contra hge
      rw [getElem?_eq_none (by rw [length_range]; omega)] at hk
      exact absurd hk (by simp)
    rw [getElem?_range hlt, Option.some.injEq] at hk
    subst hk
    have hfile : g.file i = (f.file i).fill before.length := Done.file_eq hdone
    have hsize : (g.file i).size = s + tri before.length := by rw [hfile, File.fill_size]
    obtain ⟨rest, hrest⟩ := gapBlocks_of_le s (Nat.succ_le_of_lt hlt)
    refine (fillByte_post hsb devsw (Done.own hdone) (hdone.type_eq.trans htype) hsize hle
      (by omega)).mono ?_ ?_
    · rintro h ⟨hle', hdone'⟩
      rw [length_append, length_singleton, gapBlocks_succ]
      refine ⟨hle', ?_⟩
      rw [hfile] at hdone'
      exact hdone.trans hdone'
    · rintro e (he | ⟨rfl, hgt⟩)
      · left
        rw [hrest, gapBlocks_succ]
        exact (hdone.stops he).left rest
      · have hmono : tri (before.length + 1) ≤ tri d := tri_mono hlt
        exact Or.inr ⟨rfl, by omega⟩
  · refine ⟨?_, Done.refl hown (PlainType.live (Or.inl htype))⟩
    show s + 0 ≤ _
    omega

end Gap

/-! ## The data -/

namespace File

theorem write_nil (c : File) (off : ℕ) : c.write off [] = c := by
  unfold write
  rw [store_nil, if_pos rfl]

/-- Writing two pieces one after the other. -/
theorem write_append (c : File) (off : ℕ) {xs : List UInt8} (hxs : xs ≠ []) (ys : List UInt8) :
    (c.write off xs).write (off + xs.length) ys = c.write off (xs ++ ys) := by
  have hne : xs ++ ys ≠ [] := fun h => hxs (append_eq_nil_iff.mp h).1
  apply File.ext
  · simp only [write, store, if_neg hxs, if_neg hne, length_append]
    by_cases hys : ys = []
    · rw [if_pos hys, hys, length_nil, add_zero]
    · rw [if_neg hys]
      omega
  · show ((c.store off xs).store (off + xs.length) ys).byte = (c.store off (xs ++ ys)).byte
    rw [store_append]

end File

/-- The blocks that the loop over the transactions goes through, in order. -/
def chunkBlocks : ℕ → ℕ → ℕ → List ℕ
  | 0, _, _ => []
  | rounds + 1, off, n =>
    if n = 0 then []
    else blocksOf off (min n MAXCHUNK) ++
      chunkBlocks rounds (off + min n MAXCHUNK) (n - min n MAXCHUNK)

section Chunks

variable {sb : Superblock} {i : ℕ} (hsb : sb.Layout) (devsw : Devsw)
include hsb

/-- **The data loop** writes all of the data. -/
theorem writeChunks_post (rounds : ℕ) (f : Fs) (off : ℕ) (src : List UInt8) (hown : f.Owned sb)
    (htype : (f.inode i).type = T_FILE) (hrounds : src.length ≤ rounds)
    (hfits : off + src.length ≤ MAXMAP * BSIZE) :
    Post (f.writeChunks sb devsw i rounds off src)
      (fun r => r.1 = src.length ∧
        BlocksDone sb i (chunkBlocks rounds off src.length) ((f.file i).write off src) f r.2.2)
      (BlocksStop sb i (chunkBlocks rounds off src.length) f) := by
  have hplain : PlainType (f.inode i).type := Or.inl htype
  induction rounds generalizing f off src with
  | zero =>
    obtain rfl : src = [] := eq_nil_of_length_eq_zero (by omega)
    refine ⟨rfl, ?_⟩
    rw [File.write_nil]
    exact Done.refl hown hplain.live
  | succ rounds ih =>
    rw [Fs.writeChunks]
    by_cases hsrc : src = []
    · subst hsrc
      rw [if_pos rfl]
      refine ⟨rfl, ?_⟩
      rw [File.write_nil]
      exact Done.refl hown hplain.live
    have hlen : src.length ≠ 0 := fun h => hsrc (eq_nil_of_length_eq_zero h)
    rw [if_neg hsrc, chunkBlocks, if_neg hlen]
    set m := min src.length MAXCHUNK with hm
    have hle : m ≤ src.length := min_le_left _ _
    have hpos : 0 < m := by
      rw [hm, lt_min_iff]
      exact ⟨Nat.pos_of_ne_zero hlen, by norm_num⟩
    have htake : (src.take m).length = m := by rw [length_take, min_eq_left hle]
    have hdrop : (src.drop m).length = src.length - m := length_drop
    have hne : src.take m ≠ [] := fun h => by
      rw [h, length_nil] at htake
      omega
    have hfile : ((f.file i).write off (src.take m)).write (off + m) (src.drop m) =
        (f.file i).write off src := by
      conv_rhs => rw [← take_append_drop m src, ← File.write_append _ _ hne, htake]
    have hpost := @writei_post sb i off f hsb hown hplain.live hplain.ne_dev devsw (src.take m)
    rw [htake] at hpost
    refine hpost.bind ?_ ?_
    · rintro ⟨r, g⟩ (⟨hr, hdone⟩ | ⟨-, hmax⟩)
      · obtain rfl : r = (m : ℤ) := hr
        have hfirst : BlocksDone sb i (blocksOf off m) ((f.file i).write off (src.take m)) f g :=
          hdone.done
        have hnext : u32 (off + m) = off + m := by
          unfold MAXMAP BSIZE at hfits
          exact Nat.mod_eq_of_lt (by omega)
        have htype' := hfirst.type_eq.trans htype
        have hrest := ih g (off + m) (src.drop m) (Done.own hfirst) htype' (by omega) (by omega)
          (Or.inl htype')
        rw [hdrop, Done.file_eq hfirst, hfile] at hrest
        simp only [if_neg (show ¬ (m : ℤ) < 0 by omega), hnext, ne_eq, not_true_eq_false, if_false]
        refine hrest.bind ?_ (fun e he => hfirst.stops he)
        rintro ⟨n, off', h⟩ ⟨hn, hdone'⟩
        refine ⟨?_, hfirst.trans hdone'⟩
        have hn : n = src.length - m := hn
        show m + n = _
        omega
      · -- a request this small is never refused
        exfalso
        unfold MAXMAP BSIZE at hfits
        unfold u32 MAXFILE BSIZE at hmax
        omega
    · rintro e (he | ⟨-, -, hlt⟩)
      · exact BlocksStop.left he _
      · omega

end Chunks

/-! ## The whole write -/

/-- The blocks that a write of `n` bytes at `off` goes through in a file of size `s < off`. -/
def seekBlocks (s off n : ℕ) : List ℕ := gapBlocks s (off - s) ++ chunkBlocks n off n

section Write

variable {sb : Superblock} {f : Fs} {fd : OpenFile} {src : List UInt8} (hsb : sb.Layout)
  (devsw : Devsw) (pipewrite : Fs → OpenFile → List UInt8 → Except Stop (ℤ × Fs))
  (hown : f.Owned sb) (htype : (f.inode fd.ip).type = T_FILE) (hfd : fd.type = .inode)
  (hwritable : fd.writable = true) (hsrc : src ≠ []) (hoff : (f.file fd.ip).size < fd.off)
  (hfits : fd.off + src.length ≤ MAXMAP * BSIZE)
include hsb hown htype hfd hwritable hsrc hoff hfits

/-- `filewrite` fills the gap and writes the data, or stops at one of the blocks. -/
theorem filewrite_post :
    Post (f.filewrite sb devsw pipewrite fd src)
      (fun r => r.1 = src.length ∧
        BlocksDone sb fd.ip (seekBlocks (f.file fd.ip).size fd.off src.length)
          (((f.file fd.ip).fill (fd.off - (f.file fd.ip).size)).write fd.off src) f r.2.2)
      (fun e => BlocksStop sb fd.ip (seekBlocks (f.file fd.ip).size fd.off src.length) f e ∨
        MAXMAP * BSIZE < (f.file fd.ip).size + tri (fd.off - (f.file fd.ip).size)) := by
  unfold Fs.filewrite
  rw [if_neg (by simp [hwritable]), hfd]
  simp only [if_pos (show (f.inode fd.ip).size.toNat < fd.off ∧ src ≠ [] from ⟨hoff, hsrc⟩)]
  refine (fillGap_post hsb devsw hown htype (fd.off - (f.file fd.ip).size) (by omega)).bind ?_ ?_
  · rintro g ⟨-, hgap⟩
    have hpost := writeChunks_post hsb devsw src.length g fd.off src (Done.own hgap)
      (hgap.type_eq.trans htype) le_rfl hfits
    rw [Done.file_eq hgap] at hpost
    refine hpost.bind ?_ (fun e he => Or.inl (hgap.stops he))
    rintro ⟨n, off, h⟩ ⟨hn, hdata⟩
    have hn : n = src.length := hn
    refine ⟨?_, hgap.trans hdata⟩
    show (if n = src.length then (src.length : ℤ) else -1) = _
    rw [if_pos hn]
  · rintro e (he | ⟨-, hgt⟩)
    · exact Or.inl (he.left _)
    · exact Or.inr hgt

end Write

/-- A write of `src` at the offset of `fd`, past the end of the file, does what it should: the
bytes up to the old end stay, the gap is zero and the data follows, to the new end. -/
def SeekWritten (sb : Superblock) (devsw : Devsw)
    (pipewrite : Fs → OpenFile → List UInt8 → Except Stop (ℤ × Fs)) (f : Fs) (fd : OpenFile)
    (src : List UInt8) : Prop :=
  ∃ fd' g, f.filewrite sb devsw pipewrite fd src = .ok ((src.length : ℤ), fd', g) ∧
    (g.inode fd.ip).size.toNat = fd.off + src.length ∧
    (∀ o, o < (f.inode fd.ip).size.toNat → g.content fd.ip o = f.content fd.ip o) ∧
    (∀ o, (f.inode fd.ip).size.toNat ≤ o → o < fd.off → g.content fd.ip o = 0) ∧
    (∀ k, k < src.length → g.content fd.ip (fd.off + k) = src.getD k 0)

/-- When it does: the data covers what the gap loop adds to the size, there are blocks for the
empty slots on the way, no second-level block is met twice or still locked, and the bytes of the
gap that the loop leaves out are zero already. -/
def GapCovered (sb : Superblock) (f : Fs) (i off n : ℕ) : Prop :=
  let s := (f.inode i).size.toNat
  (off - s) * (off - s - 1) ≤ 2 * n ∧
  f.need i (slotsOf (seekBlocks s off n)) ≤ freeBlocks sb f.disk ∧
  f.Open i (seconds (seekBlocks s off n)) ∧
  ∀ o, s ≤ o → o < off → (∃ k, k < off - s ∧ o = gapByte s k) ∨ f.content i o = 0

/-- The first condition is that the loop ends before the data does. -/
theorem tri_le_iff (d n : ℕ) : tri d ≤ d + n ↔ d * (d - 1) ≤ 2 * n := by
  have h := two_mul_tri d
  cases d with
  | zero => simp [tri]
  | succ d =>
    rw [Nat.add_sub_cancel]
    constructor
    · intro hle
      nlinarith
    · intro hle
      nlinarith

/-- **Seek past the end, then write.**  The write does what it should just when the gap is
covered. -/
theorem seekWritten_iff {sb : Superblock} (hsb : sb.Layout) (devsw : Devsw)
    (pipewrite : Fs → OpenFile → List UInt8 → Except Stop (ℤ × Fs)) {f : Fs}
    (hown : f.Owned sb) (hheld : f.HeldOk sb) {fd₀ fd : OpenFile} {offset r : ℤ}
    (_hseek : filelseek fd₀ offset = .ok (r, fd)) (hfd : fd.type = .inode)
    (hwritable : fd.writable = true) (htype : (f.inode fd.ip).type = T_FILE) {src : List UInt8}
    (hsrc : src ≠ []) (hoff : (f.inode fd.ip).size.toNat < fd.off)
    (hfits : fd.off + src.length ≤ MAXMAP * BSIZE) :
    SeekWritten sb devsw pipewrite f fd src ↔ GapCovered sb f fd.ip fd.off src.length := by
  set s := (f.inode fd.ip).size.toNat with hs
  have hpost := filewrite_post hsb devsw pipewrite hown htype hfd hwritable hsrc hoff hfits
  set d := fd.off - s with hd
  have hsize : (((f.file fd.ip).fill d).write fd.off src).size = max (s + tri d) (fd.off + src.length) := by
    show (if src = [] then _ else max ((f.file fd.ip).fill d).size _) = _
    rw [if_neg hsrc, File.fill_size]
    rfl
  have hbyte : ∀ o, o < fd.off → (((f.file fd.ip).fill d).write fd.off src).byte o =
      if ∃ k, k < d ∧ o = gapByte s k then 0 else f.content fd.ip o := by
    intro o ho
    show (if _ then _ else ((f.file fd.ip).fill d).byte o) = _
    rw [if_neg (by omega), File.fill_byte]
    rfl
  constructor
  · rintro ⟨fd', g, heq, hsz, -, hzero, -⟩
    obtain ⟨-, hdone⟩ := hpost.of_ok heq
    have hfile : g.file fd.ip = ((f.file fd.ip).fill d).write fd.off src := Done.file_eq hdone
    refine ⟨?_, ?_, Done.unlocked hdone hheld, ?_⟩
    · have hmax : max (s + tri d) (fd.off + src.length) = fd.off + src.length := by
        rw [← hsize, ← hfile]
        exact hsz
      refine (tri_le_iff d src.length).mp ?_
      omega
    · exact le_of_le_of_eq (Nat.le_add_right _ _) (Done.free_eq hdone)
    · intro o hlo hhi
      have hz := hzero o hlo hhi
      have hb : g.content fd.ip o = _ := (congrFun (congrArg File.byte hfile) o).trans (hbyte o hhi)
      rw [hz] at hb
      by_cases hgap : ∃ k, k < d ∧ o = gapByte s k
      · exact Or.inl hgap
      · rw [if_neg hgap] at hb
        exact Or.inr hb.symm
  · rintro ⟨hcover, hfree, hopen, hzero⟩
    have htri := (tri_le_iff d src.length).mpr hcover
    obtain ⟨⟨ret, fd', g⟩, heq, hret, hdone⟩ := hpost.exists_ok (by
      rintro e ((⟨-, hlt⟩ | ⟨-, hblocked⟩) | hgt)
      · exact absurd hlt (not_lt.mpr hfree)
      · exact hblocked hheld hopen
      · have hgt : MAXMAP * BSIZE < s + tri d := hgt
        omega)
    obtain rfl : ret = (src.length : ℤ) := hret
    have hfile : g.file fd.ip = ((f.file fd.ip).fill d).write fd.off src := Done.file_eq hdone
    have hcontent : ∀ o, g.content fd.ip o = (((f.file fd.ip).fill d).write fd.off src).byte o :=
      fun o => congrFun (congrArg File.byte hfile) o
    refine ⟨fd', g, heq, ?_, ?_, ?_, ?_⟩
    · have : (g.file fd.ip).size = _ := (congrArg File.size hfile).trans hsize
      rw [max_eq_right (by omega)] at this
      exact this
    · intro o ho
      rw [hcontent, hbyte o (by omega), if_neg]
      rintro ⟨k, -, rfl⟩
      unfold gapByte at ho
      omega
    · intro o hlo hhi
      rw [hcontent, hbyte o hhi]
      split_ifs with hgap
      · rfl
      · exact (hzero o hlo hhi).resolve_left hgap
    · intro k hk
      rw [hcontent]
      show (if _ then _ else _) = _
      rw [if_pos (by omega), Nat.add_sub_cancel_left]

/-! ## A gap of three bytes and a gap of one -/

/-- No pipe is written to. -/
def noPipe : Fs → OpenFile → List UInt8 → Except Stop (ℤ × Fs) := fun f _ _ => .ok (-1, f)

/-- The empty file of `smallFs`, opened for writing. -/
def smallFd (off : ℕ) : OpenFile := ⟨.inode, true, 1, off⟩

theorem smallFs_heldOk : (smallFs (some ∅)).HeldOk smallSb := by
  rintro b ⟨h, hh, hb⟩
  obtain rfl : ∅ = h := Option.some.inj hh
  exact absurd hb (Finset.notMem_empty b)

/-- A byte written at offset `3` of an empty file leaves a file of `6` bytes. -/
theorem not_seekWritten_three : (smallFs (some ∅)).Owned smallSb ∧
    (smallFs (some ∅)).HeldOk smallSb ∧ filelseek (smallFd 0) 3 = .ok (3, smallFd 3) ∧
    ¬ SeekWritten smallSb noDevices noPipe (smallFs (some ∅)) (smallFd 3) [7] := by
  refine ⟨smallFs_owned _, smallFs_heldOk, rfl, ?_⟩
  rintro ⟨fd', g, heq, hsize, -⟩
  have hsix : ((smallFs (some ∅)).filewrite smallSb noDevices noPipe (smallFd 3) [7]).map
      (fun r => (r.2.2.inode 1).size.toNat) = .ok 6 := rfl
  rw [heq] at hsix
  have hsix : (g.inode 1).size.toNat = 6 := Except.ok.inj hsix
  have hsize : (g.inode 1).size.toNat = 4 := hsize
  omega

/-- A byte written at offset `1` of an empty file. -/
theorem seekWritten_one : filelseek (smallFd 0) 1 = .ok (1, smallFd 1) ∧
    SeekWritten smallSb noDevices noPipe (smallFs (some ∅)) (smallFd 1) [7] := by
  have hseek : filelseek (smallFd 0) 1 = .ok (1, smallFd 1) := rfl
  refine ⟨hseek, (seekWritten_iff smallSb_layout noDevices noPipe (smallFs_owned _) smallFs_heldOk
    hseek rfl rfl rfl (by decide) (by decide) (by decide)).mpr ⟨by decide, ?_, ?_, ?_⟩⟩
  · decide
  · have hnil : seconds (seekBlocks 0 1 1) = [] := by decide
    intro _
    show (seconds (seekBlocks 0 1 1)).Nodup ∧ ∀ j ∈ seconds (seekBlocks 0 1 1), _
    rw [hnil]
    exact ⟨nodup_nil, fun _ hj => absurd hj not_mem_nil⟩
  · intro o _ ho
    obtain rfl : o = 0 := Nat.lt_one_iff.mp ho
    exact Or.inl ⟨0, by decide, rfl⟩
