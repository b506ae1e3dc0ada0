/-
# Two models of one directory

`Fs.dirlookup` reads the entries of a directory as bytes of its blocks, through buffers; the calls of
`Sysfile` work on entries that are read as a whole.  `OnDisk` says that the blocks hold the entries.

In a directory of at most `NEAR` bytes the lookup in the blocks returns with the entry that the other one
finds (`OnDisk.dirlookup_eq`, `State.dirlookup_eq`), and leaves no buffer locked.  `longDir` is a directory
in which a name that is missing is looked for without end.
-/
import Xv6.DirectoryOps
import Xv6.WriteRead
import Xv6.PathWalk

open List

/-! ## Names that end with a zero byte -/

/-- What `strncpy` writes ends where the name does. -/
theorem takeWhile_strncpy (t : List UInt8) (n : ℕ) :
    (strncpy t n).takeWhile (· ≠ 0) = (t.take n).takeWhile (· ≠ 0) := by
  induction n generalizing t with
  | zero => rfl
  | succ n ih =>
    rcases t with _ | ⟨c, t⟩
    · simp [strncpy]
    · by_cases hc : c = 0
      · simp [strncpy, hc]
      · rw [strncpy, headD_cons, if_pos hc, tail_cons, take_succ_cons,
          takeWhile_cons_of_pos (by simpa using hc), takeWhile_cons_of_pos (by simpa using hc), ih]

/-- The bytes behind the end of a name are not copied. -/
theorem strncpy_takeWhile (t : List UInt8) (n : ℕ) :
    strncpy ((t.take n).takeWhile (· ≠ 0)) n = strncpy t n := by
  induction n generalizing t with
  | zero => rfl
  | succ n ih =>
    rcases t with _ | ⟨c, t⟩
    · rfl
    · by_cases hc : c = 0
      · simp [strncpy, hc]
      · rw [take_succ_cons, takeWhile_cons_of_pos (by simpa using hc), strncpy, strncpy, headD_cons,
          headD_cons, tail_cons, tail_cons, ih]

namespace Fs

/-- The name in an entry, without the zero bytes behind it. -/
def stringOf (de : List UInt8) : List UInt8 := ((direntName de).take DIRSIZ).takeWhile (· ≠ 0)

/-- **Comparing names**: a string is found where the entry holds it. -/
theorem named_iff_stringOf {name de : List UInt8} (hzero : 0 ∉ name) (hlen : name.length ≤ DIRSIZ) :
    named name de = true ↔ direntInum de ≠ 0 ∧ stringOf de = name := by
  unfold named
  rw [decide_eq_true_iff, namecmp_eq_zero_iff]
  refine and_congr_right fun _ => ⟨fun h => ?_, fun h => ?_⟩
  · have hname : (name.take DIRSIZ).takeWhile (· ≠ 0) = name := by
      rw [take_of_length_le hlen, takeWhile_eq_self_iff]
      intro c hc
      exact decide_eq_true fun h => hzero (h ▸ hc)
    have hkey : strncpy name DIRSIZ = strncpy (direntName de) DIRSIZ := h
    rw [stringOf, ← takeWhile_strncpy, ← hkey, takeWhile_strncpy, hname]
  · rw [← h]
    exact strncpy_takeWhile _ _

/-- The entry of a name is the first that holds it. -/
theorem entry?_eq_find (f : Fs) (dp : ℕ) (name : List UInt8) :
    f.entry? dp name = ((range (f.file dp).entries).find? fun k => named name ((f.file dp).dirent k)).map
      fun k => (k, direntInum ((f.file dp).dirent k)) := by
  cases hentry : f.entry? dp name with
  | none =>
    symm
    rw [Option.map_eq_none_iff, find?_eq_none]
    intro k hk
    rw [entry?_eq_none hentry (mem_range.mp hk)]
    exact Bool.false_ne_true
  | some kv =>
    obtain ⟨k, v⟩ := kv
    obtain ⟨hlt, hslot, hbefore⟩ := entry?_eq_some hentry
    have hfind : (range (f.file dp).entries).find? (fun k => named name ((f.file dp).dirent k)) = some k := by
      rw [find?_range_eq_some]
      exact ⟨named_iff.mpr ⟨v, hslot⟩, mem_range.mpr hlt, fun j hj => by rw [hbefore j hj]; rfl⟩
    rw [hfind, Option.map_some, direntInum_of_slotOf hslot]

end Fs

namespace Sysfile

/-! ## One directory -/

/-- An entry as the calls see it. -/
def direntOf (de : List UInt8) : Dirent := ⟨Fs.direntInum de, Fs.stringOf de⟩

namespace Image

/-- **The blocks hold directory `d`**: its size, and every entry. -/
structure OnDisk (D : Image) (f : Fs) (d : ℕ) : Prop where
  directory : f.Directory d
  size_eq : (f.file d).size = (D.dinode d).size
  entry_eq : ∀ k < (f.file d).entries, D.entry d k = direntOf ((f.file d).dirent k)

namespace OnDisk

variable {D : Image} {f : Fs} {d : ℕ} {name : Name} (h : D.OnDisk f d) (hzero : 0 ∉ name)
  (hlen : name.length ≤ DIRSIZ)
include h

theorem inum_eq {k : ℕ} (hk : D.find d name = some k) :
    (D.entry d k).inum = Fs.direntInum ((f.file d).dirent k) := by
  have hlt := mem_range.mp (mem_of_find?_eq_some hk)
  rw [← h.size_eq] at hlt
  rw [h.entry_eq k hlt]
  rfl

include hzero hlen

/-- Both models find the same entry. -/
theorem entry?_eq : f.entry? d name = (D.find d name).map fun k => (k, (D.entry d k).inum) := by
  have hfind : (range (f.file d).entries).find? (fun k => Fs.named name ((f.file d).dirent k)) =
      D.find d name := by
    unfold find
    rw [← h.size_eq]
    refine find?_congr fun k hk => ?_
    rw [Bool.eq_iff_iff, Fs.named_iff_stringOf hzero hlen, decide_eq_true_iff,
      h.entry_eq k (mem_range.mp hk)]
    rfl
  rw [Fs.entry?_eq_find, hfind]
  refine Option.map_congr fun k hk => ?_
  rw [h.inum_eq hk]

section Lookup

variable {sb : Superblock} (devsw : Devsw) (hsb : sb.Layout) (hown : f.Owned sb)
  (hfree : ∀ b, ¬ f.Locked b)
include hsb hown hfree

/-- **The lookup in the blocks of a short directory** returns with the entry. -/
theorem dirlookup_eq (hnear : (D.dinode d).size ≤ Fs.NEAR) :
    Fs.dirlookup sb devsw f d name = match D.find d name with
      | none => .ok (none, f)
      | some k => (Fs.iget sb f (D.entry d k).inum).map fun g =>
          (some ((D.entry d k).inum, Fs.DIRENT * k), g) := by
  have hentries : (f.file d).entries ≤ Fs.FAR := by
    unfold File.entries
    rw [h.size_eq]
    exact Nat.div_le_div_right hnear
  have hentry := h.entry?_eq hzero hlen
  cases hfind : D.find d name with
  | none =>
    rw [hfind] at hentry
    obtain ⟨g, -, hgf, heq⟩ := Fs.dirlookup_none devsw hsb hown h.directory hfree hentry
      fun _ => hentries.trans (Nat.le_succ _)
    rw [heq, hgf fun _ => hentries]
  | some k =>
    rw [hfind] at hentry
    have hlt := (Fs.entry?_eq_some hentry).1
    obtain ⟨g, -, hgf, heq⟩ := Fs.dirlookup_some devsw hsb hown h.directory hfree hentry
      fun _ => by omega
    obtain rfl : g = f := hgf fun _ => by omega
    exact heq

end Lookup

end OnDisk

end Image

end Sysfile

namespace Fs

/-! ## A directory that is too long -/

/-- The disk of `smallSb`, with more data blocks. -/
def longSb : Superblock := { smallSb with size := 200, nblocks := 195 }

theorem longSb_layout : longSb.Layout := ⟨by decide, by decide, by decide, by decide, by decide⟩

/-- All blocks are in use.  Block 16 is the indirect block, block 17 the doubly indirect block and
block 146 its first second-level block; the others are zero. -/
def longDisk : Disk := fun b o =>
  if b = longSb.bmapstart then 0xff
  else if b = 16 then if o.val % 4 = 0 then UInt8.ofNat (18 + o / 4) else 0
  else if b = 17 ∧ o.val = 0 then 146
  else if b = 146 ∧ o.val = 0 then 147
  else 0

/-- A directory of `FAR + 2` free entries, inode `1`; no buffer is locked. -/
def longDir : Fs where
  disk := longDisk
  held := some ∅
  inode i :=
    { inum := i, ref := 0, valid := true, type := if i = 1 then T_DIR else 0, major := 0, minor := 0
      nlink := 1, size := 71200, addrs := fun k => if i = 1 then UInt32.ofNat (5 + k) else 0 }
  inum_eq _ := rfl

/-- The blocks of the directory. -/
def longPtr : Slot → ℕ
  | .root k => 5 + k
  | .ind j => 18 + j
  | .dbl j => if j = 0 then 146 else 0
  | .leaf j l => if j = 0 ∧ l = 0 then 147 else 0

theorem longDir_ptr (t : Slot) : longDir.ptr 1 t = longPtr t := by
  have hroot : ∀ k : Fin (NDIRECT + 2), (UInt32.ofNat (5 + k)).toNat = 5 + k := by decide
  have hind : ∀ j : Fin NINDIRECT, childOf longDisk 16 j = 18 + j := by decide +kernel
  have hdbl : ∀ j : Fin NINDIRECT, childOf longDisk 17 j = if j = 0 then 146 else 0 := by decide +kernel
  have hleaf : ∀ l : Fin NINDIRECT, childOf longDisk 146 l = if l = 0 then 147 else 0 := by decide +kernel
  cases t with
  | root k => exact hroot k
  | ind j => exact hind j
  | dbl j => exact hdbl j
  | leaf j l =>
    show childOf longDisk (childOf longDisk 17 j) l = _
    rw [hdbl, longPtr]
    by_cases hj : j = 0
    · rw [if_pos hj, hleaf]
      simp only [hj, true_and]
    · rw [if_neg hj, if_neg fun h => hj h.1]
      rfl

theorem longDir_live {i : ℕ} (hi : longDir.Live i) : i = 1 := by
  by_contra h
  exact hi.1 (if_neg h)

/-- The slot that a block stands in. -/
def longSlot (b : ℕ) : Slot :=
  if b < 18 then .root (Fin.ofNat _ (b - 5)) else if b < 146 then .ind (Fin.ofNat _ (b - 18))
  else if b = 146 then .dbl 0 else .leaf 0 0

/-- A block stands in one slot, and all are on the disk. -/
theorem longSlot_longPtr {t : Slot} (ht : longPtr t ≠ 0) :
    longSlot (longPtr t) = t ∧ longSb.dataStart ≤ longPtr t ∧ longPtr t < longSb.size := by
  have hroot : ∀ k : Fin (NDIRECT + 2), longSlot (5 + k) = .root k ∧ longSb.dataStart ≤ 5 + k ∧
    5 + k < longSb.size := by decide
  have hind : ∀ j : Fin NINDIRECT, longSlot (18 + j) = .ind j ∧ longSb.dataStart ≤ 18 + j ∧
    18 + j < longSb.size := by decide +kernel
  cases t with
  | root k => exact hroot k
  | ind j => exact hind j
  | dbl j =>
    by_cases hj : j = 0
    · rw [hj]
      decide
    · exact absurd (if_neg hj) ht
  | leaf j l =>
    by_cases hj : j = 0 ∧ l = 0
    · rw [hj.1, hj.2]
      decide
    · exact absurd (if_neg hj) ht

theorem longDisk_marked : ∀ b < longSb.size, marked longSb longDisk b = true := by decide +kernel

theorem longDir_owned : longDir.Owned longSb where
  inum_lt i hi := by
    rw [longDir_live hi]
    decide
  meta_marked b hb := longDisk_marked b (hb.trans (by decide))
  unshared i j s t hi hj hne heq := by
    obtain rfl := longDir_live hi
    obtain rfl := longDir_live hj
    rw [longDir_ptr] at hne
    rw [longDir_ptr, longDir_ptr] at heq
    refine ⟨rfl, ?_⟩
    rw [← (longSlot_longPtr hne).1, heq, (longSlot_longPtr (heq ▸ hne)).1]
  in_data i t hi hne := by
    obtain rfl := longDir_live hi
    rw [longDir_ptr] at hne ⊢
    exact (longSlot_longPtr hne).2
  ptr_marked i t hi hne := by
    obtain rfl := longDir_live hi
    rw [longDir_ptr] at hne ⊢
    exact longDisk_marked _ (longSlot_longPtr hne).2.2

/-- The data blocks are zero. -/
theorem longDisk_data {t : Slot} (ht : t.IsData) (o : ℕ) : (longDisk (longPtr t)).byte o = 0 := by
  have hslot : ∀ b, b ≠ 0 → longPtr t = b → longSlot b = t := by
    rintro b hb rfl
    exact (longSlot_longPtr hb).1
  unfold Block.byte longDisk
  split
  swap
  · rfl
  rw [if_neg fun h => ?_, if_neg fun h => ?_, if_neg fun h => ?_, if_neg fun h => ?_]
  · exact ht (.leaf 0 0) 0 (congrArg _ (congrArg (·, 0) (hslot 146 (by decide) h.1)))
  · exact ht (.dbl 0) 0 (congrArg _ (congrArg (·, 0) (hslot 17 (by decide) h.1)))
  · exact ht (.ind 0) 0 (congrArg _ (congrArg (·, 0) (hslot 16 (by decide) h)))
  · have hstart := (longSlot_longPtr (t := t) (by rw [h]; decide)).2.1
    rw [h] at hstart
    exact absurd hstart (by decide)

theorem longDir_content (o : ℕ) : longDir.content 1 o = 0 := by
  unfold content
  rw [longDir_ptr]
  split
  · exact longDisk_data (isData_dataSlot _) _
  · rfl

theorem longDir_dirent (k : ℕ) : (longDir.file 1).dirent k = replicate DIRENT 0 := by
  unfold File.dirent File.read
  rw [eq_replicate_iff]
  refine ⟨by simp, fun c hc => ?_⟩
  obtain ⟨o, -, rfl⟩ := mem_map.mp hc
  exact longDir_content _

theorem longDir_directory : longDir.Directory 1 where
  type_eq := rfl
  size_mod := by decide
  mapped bn hbn := by
    have hsize : (longDir.file 1).size = 71200 := rfl
    have hlt : bn < 140 := by
      rw [hsize] at hbn
      unfold BSIZE at hbn
      omega
    have hall : ∀ bn < 140, bn < MAXMAP ∧ longPtr (dataSlot bn) ≠ 0 := by decide +kernel
    rw [longDir_ptr]
    exact hall bn hlt
  unique := by
    have hkeys : Slots.keys (longDir.file 1).slots = [] := by
      unfold Slots.keys File.slots
      rw [filterMap_eq_nil_iff]
      intro e he
      obtain ⟨k, -, rfl⟩ := mem_map.mp he
      rw [longDir_dirent]
      rfl
    rw [hkeys]
    exact nodup_nil

/-- **A name is looked for without end**: the read of entry `FAR` leaves the buffer locked that the next
one waits for. -/
theorem longDir_dirlookup : dirlookup longSb noDevices longDir 1 [97] = .error .blocked := by
  refine dirlookup_far noDevices longSb_layout longDir_owned longDir_directory ?_ nofun (by decide)
    fun j _ => ?_
  · rintro b ⟨h, hheld, hb⟩
    obtain rfl := Option.some.inj hheld
    exact Finset.notMem_empty b hb
  · rw [longDir_dirent]
    rfl

end Fs
