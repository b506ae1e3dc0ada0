/-
# Directories on disk

A directory is a file of 16-byte entries: two bytes with an inode number, zero for a free entry, and
fourteen with a name, which ends with a zero byte if it is shorter.  `dirlookup` and `dirlink` read
the entries one after the other with `readi`, and an entry is written with `writei`.

The entries are read off the bytes of the file as the slots of a table, the name of an entry as
`strncpy` would write it: two names are the same for `namecmp` just when `strncpy` writes the same
bytes for them.  The rest of the module is the loop that goes through the entries.  A read of an
entry behind the blocks of the indirect block leaves the buffer of a second-level block locked, so a
loop that gets past the first such entry never comes back.
-/
import Xv6.Reading
import Xv6.Slots

open Outcome List

/-! ## Names -/

/-- Compare at most `n` characters. -/
def strncmp : List UInt8 → List UInt8 → ℕ → ℤ
  | _, _, 0 => 0
  | p, q, n + 1 =>
    if p.headD 0 ≠ 0 ∧ p.headD 0 = q.headD 0 then strncmp p.tail q.tail n
    else (p.headD 0).toNat - (q.headD 0).toNat

/-- The `n` characters that are copied: `t` up to its end, and zeros. -/
def strncpy : List UInt8 → ℕ → List UInt8
  | _, 0 => []
  | t, n + 1 => t.headD 0 :: if t.headD 0 ≠ 0 then strncpy t.tail n else replicate n 0

/-- Directory is a file containing a sequence of `dirent` structures with names of this size. -/
abbrev DIRSIZ : ℕ := 14

def namecmp (s t : List UInt8) : ℤ := strncmp s t DIRSIZ

theorem length_strncpy (t : List UInt8) (n : ℕ) : (strncpy t n).length = n := by
  induction n generalizing t with
  | zero => rfl
  | succ n ih =>
    rw [strncpy, length_cons]
    split
    · rw [ih]
    · rw [length_replicate]

/-- **Names that compare equal** are those that are stored alike. -/
theorem strncmp_eq_zero_iff (p q : List UInt8) (n : ℕ) :
    strncmp p q n = 0 ↔ strncpy p n = strncpy q n := by
  induction n generalizing p q with
  | zero => exact iff_of_true rfl rfl
  | succ n ih =>
    rw [strncmp, strncpy, strncpy]
    by_cases heq : p.headD 0 = q.headD 0
    · rw [heq]
      by_cases hzero : q.headD 0 = 0
      · rw [hzero, if_neg (fun h => h.1 rfl), if_neg (not_not.mpr rfl), if_neg (not_not.mpr rfl)]
        exact iff_of_true (sub_self _) rfl
      · rw [if_pos ⟨hzero, rfl⟩, if_pos hzero, if_pos hzero, ih, cons_inj_right]
    · rw [if_neg (fun h => heq h.2)]
      refine iff_of_false (fun h => heq ?_) (fun h => heq (cons_eq_cons.mp h).1)
      rw [← UInt8.toNat_inj]
      omega

/-- A stored name is stored as it is. -/
theorem strncpy_strncpy (t : List UInt8) (n : ℕ) : strncpy (strncpy t n) n = strncpy t n := by
  induction n generalizing t with
  | zero => rfl
  | succ n ih =>
    rw [strncpy.eq_2 t n]
    by_cases hzero : t.headD 0 = 0
    · rw [hzero]
      simp [strncpy]
    · rw [if_pos hzero, strncpy]
      show t.headD 0 :: (if t.headD 0 ≠ 0 then strncpy (strncpy t.tail n) n else _) = _
      rw [if_pos hzero, ih]

namespace Fs

/-! ## Entries -/

/-- `sizeof(struct dirent)`. -/
abbrev DIRENT : ℕ := 16

/-- `de.inum`, of type `ushort`. -/
def direntInum (de : List UInt8) : ℕ := leValue 2 fun k => de.getD k 0

/-- `de.name`. -/
def direntName (de : List UInt8) : List UInt8 := de.drop 2

/-- The entry that `dirlink` fills in: `strncpy(de.name, name, DIRSIZ); de.inum = inum;`. -/
def dirent (name : List UInt8) (inum : ℕ) : List UInt8 :=
  leByte inum 0 :: leByte inum 1 :: strncpy name DIRSIZ

theorem length_dirent (name : List UInt8) (inum : ℕ) : (dirent name inum).length = DIRENT := by
  rw [dirent, length_cons, length_cons, length_strncpy]

theorem direntInum_lt (de : List UInt8) : direntInum de < 2 ^ 16 := leValue_lt 2 _

theorem direntInum_dirent (name : List UInt8) (inum : ℕ) :
    direntInum (dirent name inum) = inum % 2 ^ 16 := by
  refine (leValue_congr fun k hk => ?_).trans (leValue_leByte 2 inum)
  interval_cases k <;> rfl

/-- What an entry says: nothing if it is free. -/
def slotOf (de : List UInt8) : Option (List UInt8 × ℕ) :=
  if direntInum de = 0 then none else some (strncpy (direntName de) DIRSIZ, direntInum de)

theorem slotOf_zero : slotOf (replicate DIRENT 0) = none := rfl

end Fs

namespace File

/-- Entry `k` of a directory. -/
def dirent (c : File) (k : ℕ) : List UInt8 := c.read (Fs.DIRENT * k) Fs.DIRENT

/-- The number of entries. -/
def entries (c : File) : ℕ := c.size / Fs.DIRENT

/-- The directory as a table. -/
def slots (c : File) : List (Option (List UInt8 × ℕ)) :=
  (range c.entries).map fun k => Fs.slotOf (c.dirent k)

theorem length_slots (c : File) : c.slots.length = c.entries := by
  rw [slots, length_map, length_range]

theorem getElem?_slots (c : File) {k : ℕ} (hk : k < c.entries) :
    c.slots[k]? = some (Fs.slotOf (c.dirent k)) := by
  unfold slots
  rw [getElem?_map, getElem?_range hk]
  rfl

section Write

variable (c : File) {k : ℕ} {de : List UInt8} (hde : de.length = Fs.DIRENT)
include hde

theorem dirent_write_self : (c.write (Fs.DIRENT * k) de).dirent k = de := by
  unfold dirent
  rw [← hde]
  exact read_write c _ de

theorem dirent_write_of_ne {j : ℕ} (hj : j ≠ k) :
    (c.write (Fs.DIRENT * k) de).dirent j = c.dirent j := by
  unfold dirent read
  refine map_congr_left fun o ho => ?_
  rw [mem_range] at ho
  have hout : ¬ (Fs.DIRENT * k ≤ Fs.DIRENT * j + o ∧
      Fs.DIRENT * j + o < Fs.DIRENT * k + de.length) := by
    rw [hde]
    unfold Fs.DIRENT at *
    omega
  exact if_neg hout

theorem size_write : (c.write (Fs.DIRENT * k) de).size = max c.size (Fs.DIRENT * k + Fs.DIRENT) := by
  have hne : de ≠ [] := by
    rintro rfl
    exact absurd hde (by decide)
  unfold write
  rw [← hde]
  exact if_neg hne

/-- An entry is written over one that is there. -/
theorem slots_write_of_lt (hsize : c.size % Fs.DIRENT = 0) (hk : k < c.entries) :
    (c.write (Fs.DIRENT * k) de).slots = c.slots.set k (Fs.slotOf de) := by
  have hentries : (c.write (Fs.DIRENT * k) de).entries = c.entries := by
    unfold entries at *
    rw [c.size_write hde, max_eq_left]
    unfold Fs.DIRENT at *
    omega
  apply ext_getElem?
  intro j
  by_cases hj : j < c.entries
  · rw [getElem?_slots _ (hentries ▸ hj), getElem?_set, length_slots, if_pos hk]
    split
    next h => rw [← h, c.dirent_write_self hde]
    next h => rw [c.dirent_write_of_ne hde (Ne.symm h), c.getElem?_slots hj]
  · rw [getElem?_eq_none (by rw [length_slots, hentries]; omega),
      getElem?_eq_none (by rw [length_set, length_slots]; omega)]

/-- An entry is written after the last one. -/
theorem slots_write_end (hsize : c.size % Fs.DIRENT = 0) :
    (c.write (Fs.DIRENT * c.entries) de).slots = c.slots ++ [Fs.slotOf de] := by
  have hentries : (c.write (Fs.DIRENT * c.entries) de).entries = c.entries + 1 := by
    unfold entries at *
    rw [c.size_write hde, max_eq_right]
    · unfold Fs.DIRENT at *
      omega
    · unfold Fs.DIRENT at *
      omega
  apply ext_getElem?
  intro j
  rcases lt_trichotomy j c.entries with hj | rfl | hj
  · rw [getElem?_slots _ (by omega), getElem?_append_left (by rw [length_slots]; exact hj),
      c.dirent_write_of_ne hde (by omega), c.getElem?_slots hj]
  · rw [getElem?_slots _ (by omega), c.dirent_write_self hde, ← length_slots,
      getElem?_concat_length]
  · rw [getElem?_eq_none (by rw [length_slots]; omega),
      getElem?_eq_none (by rw [length_append, length_slots, length_singleton]; omega)]

end Write

end File

namespace Fs

/-! ## `dirlookup` and `dirlink` -/

section Model

variable (sb : Superblock) (devsw : Devsw)

/-- The loops of `dirlookup` and `dirlink`: read the entries from `off` on up to the first with
`cond`.  Each round reads an entry, so as many rounds as there are entries are enough.  Returns the
`off` the loop ends with, and the entry it stopped at. -/
def scan (msg : String) (cond : List UInt8 → Bool) (dp : ℕ) :
    ℕ → Fs → ℕ → Except Stop ((ℕ × Option (List UInt8)) × Fs)
  | 0, f, off => .ok ((off, none), f)
  | rounds + 1, f, off =>
    if off < (f.inode dp).size.toNat then do
      let ((n, de), f) ← readi sb devsw f dp off DIRENT
      if n ≠ DIRENT then .error (.panic msg)
      else if cond de then .ok ((off, some de), f)
      else scan msg cond dp rounds f (u32 (off + DIRENT))
    else .ok ((off, none), f)

/-- Enough rounds for any directory; the last one is for an entry that is cut short. -/
def rounds (f : Fs) (dp : ℕ) : ℕ := (f.inode dp).size.toNat / DIRENT + 1

/-- The entry is in use and its name is `name`. -/
def named (name de : List UInt8) : Bool := direntInum de ≠ 0 ∧ namecmp name (direntName de) = 0

/-- The entry is free. -/
def unused (de : List UInt8) : Bool := direntInum de = 0

/-- Look for a directory entry in a directory: the inode number and the byte offset of the entry. -/
def dirlookup (f : Fs) (dp : ℕ) (name : List UInt8) : Except Stop (Option (ℕ × ℕ) × Fs) :=
  if (f.inode dp).type ≠ T_DIR then .error (.panic "dirlookup not DIR")
  else do
    let ((off, de), f) ← scan sb devsw "dirlookup read" (named name) dp (f.rounds dp) f 0
    match de with
    | none => .ok (none, f)
    | some de => do
      let f ← iget sb f (direntInum de)
      .ok (some (direntInum de, off), f)

/-- `iput(ip)` by a process that holds the lock of `dp`: it begins with `acquiresleep(&ip->lock)`. -/
def iputHolding (f : Fs) (dp ip : ℕ) : Except Stop Fs :=
  if ip = dp then .error .blocked else iput sb f ip

/-- Write a new directory entry `(name, inum)` into the directory `dp`, whose lock is held. -/
def dirlink (f : Fs) (dp : ℕ) (name : List UInt8) (inum : ℕ) : Except Stop (ℤ × Fs) := do
  let (found, f) ← dirlookup sb devsw f dp name
  match found with
  | some (ip, _) => do
    let f ← iputHolding sb f dp ip
    .ok (-1, f)
  | none => do
    let ((off, _), f) ← scan sb devsw "dirlink read" unused dp (f.rounds dp) f 0
    let (n, f) ← writei sb devsw f dp (dirent name inum) off
    if n ≠ DIRENT then .error (.panic "dirlink") else .ok (0, f)

/-- The entry-clearing step of `sys_unlink`:
`memset(&de, 0, sizeof(de)); writei(dp, (char*)&de, off, sizeof(de))`. -/
def clearDirent (f : Fs) (dp off : ℕ) : Except Stop Fs := do
  let (n, f) ← writei sb devsw f dp (replicate DIRENT 0) off
  if n ≠ DIRENT then .error (.panic "unlink: writei") else .ok f

end Model

/-- A directory: its blocks are there, no entry is cut short, and no name stands twice. -/
structure Directory (f : Fs) (dp : ℕ) : Prop where
  type_eq : (f.inode dp).type = T_DIR
  size_mod : (f.file dp).size % DIRENT = 0
  mapped : f.MappedTo dp (f.file dp).size
  unique : (Slots.keys (f.file dp).slots).Nodup

/-! ## Reading an entry -/

/-- An entry lies in one block. -/
theorem blocksOf_dirent (k : ℕ) : blocksOf (DIRENT * k) DIRENT = [DIRENT * k / BSIZE] := by
  unfold blocksOf
  rw [if_neg (by decide)]
  have hone : (DIRENT * k + DIRENT - 1) / BSIZE - DIRENT * k / BSIZE + 1 = 1 := by
    unfold DIRENT BSIZE
    omega
  rw [hone]
  rfl

theorem seconds_dirent (k : ℕ) :
    seconds (blocksOf (DIRENT * k) DIRENT) = second (DIRENT * k / BSIZE) := by
  rw [blocksOf_dirent, seconds, flatMap_singleton]

theorem slotsOf_dirent (k : ℕ) :
    slotsOf (blocksOf (DIRENT * k) DIRENT) = path (DIRENT * k / BSIZE) := by
  rw [blocksOf_dirent, slotsOf, slotsOf, Finset.union_empty]

/-- Entry `k` is reached without the doubly indirect block. -/
abbrev Near (k : ℕ) : Prop := DIRENT * (k + 1) ≤ NEAR

variable {k : ℕ}

theorem second_of_near (hk : Near k) : second (DIRENT * k / BSIZE) = [] := by
  have hlt : DIRENT * k / BSIZE < NDIRECT + NINDIRECT := by
    unfold Near NEAR NDIRECT NINDIRECT DIRENT BSIZE at *
    omega
  unfold second
  split_ifs with h h'
  · rfl
  · rfl
  · exact absurd hlt (by omega)

theorem second_of_not_near (hk : ¬ Near k) :
    second (DIRENT * k / BSIZE) =
      [Fin.ofNat _ ((DIRENT * k / BSIZE - NDIRECT - NINDIRECT) / NINDIRECT)] := by
  have hge : NDIRECT + NINDIRECT ≤ DIRENT * k / BSIZE := by
    unfold Near NEAR NDIRECT NINDIRECT DIRENT BSIZE at *
    omega
  unfold second
  rw [if_neg (by omega), if_neg (by omega)]

variable {f : Fs}

/-- One buffer can be locked if none is. -/
theorem open_second (hfree : ∀ b, ¬ f.Locked b) (i bn : ℕ) : f.Open i (second bn) := by
  intro _
  refine ⟨?_, fun j _ => hfree _⟩
  unfold second
  split_ifs
  · exact nodup_nil
  · exact nodup_nil
  · exact nodup_singleton _

variable {sb : Superblock}

theorem heldOk_of_free (hfree : ∀ b, ¬ f.Locked b) : f.HeldOk sb :=
  fun b hb => absurd hb (hfree b)

variable {f g : Fs}

/-- The state is its disk, its inodes and its locks. -/
theorem Same.eq_of_locked (h : Same f g) (hlocked : ∀ b, g.Locked b ↔ f.Locked b) : g = f := by
  have hheld : g.held = f.held := by
    match hg : g.held, hf : f.held with
    | none, none => rfl
    | none, some _ => exact absurd hg (h.tracks.mpr (by rw [Tracks, hf]; simp))
    | some _, none => exact absurd hf (h.tracks.mp (by rw [Tracks, hg]; simp))
    | some u, some v =>
      congr 1
      ext b
      have := hlocked b
      unfold Locked at this
      rw [hg, hf] at this
      simpa using this
  obtain ⟨disk, held, inode, _⟩ := f
  obtain ⟨disk', held', inode', _⟩ := g
  obtain rfl : disk' = disk := h.disk
  obtain rfl : inode' = inode := h.inode
  obtain rfl : held' = held := hheld
  rfl

theorem Same.file_eq (h : Same f g) (i : ℕ) : g.file i = f.file i := by
  unfold file
  rw [h.inode, funext (h.content_eq i)]

section Entry

variable {sb : Superblock} {f g : Fs} {dp : ℕ}

theorem Directory.live (hdir : f.Directory dp) : f.Live dp := by
  unfold Live
  rw [hdir.type_eq]
  decide

theorem Directory.ne_dev (hdir : f.Directory dp) : (f.inode dp).type ≠ T_DEV := by
  rw [hdir.type_eq]
  decide

theorem Directory.same (hdir : f.Directory dp) (hfg : Same f g) : g.Directory dp where
  type_eq := by rw [hfg.inode, hdir.type_eq]
  size_mod := by rw [hfg.file_eq, hdir.size_mod]
  mapped := by
    intro bn hbn
    rw [hfg.file_eq] at hbn
    rw [hfg.ptr_eq]
    exact hdir.mapped bn hbn
  unique := by rw [hfg.file_eq]; exact hdir.unique

theorem Directory.size_eq (hdir : f.Directory dp) :
    (f.inode dp).size.toNat = DIRENT * (f.file dp).entries := by
  have := hdir.size_mod
  show (f.file dp).size = _
  unfold File.entries DIRENT at *
  omega

theorem Owned.same (hown : f.Owned sb) (hfg : Same f g) : g.Owned sb := by
  have hlive : ∀ i, g.Live i ↔ f.Live i := by
    intro i
    unfold Live
    rw [hfg.inode]
  refine ⟨?_, ?_, ?_, ?_, ?_⟩
  · intro i hi
    exact hown.inum_lt i ((hlive i).mp hi)
  · intro b hb
    rw [hfg.disk]
    exact hown.meta_marked b hb
  · intro i j s t hi hj hne heq
    rw [hfg.ptr_eq] at hne
    rw [hfg.ptr_eq, hfg.ptr_eq] at heq
    exact hown.unshared i j s t ((hlive i).mp hi) ((hlive j).mp hj) hne heq
  · intro i s hi hne
    rw [hfg.ptr_eq] at hne ⊢
    exact hown.in_data i s ((hlive i).mp hi) hne
  · intro i s hi hne
    rw [hfg.ptr_eq] at hne ⊢
    rw [hfg.disk]
    exact hown.ptr_marked i s ((hlive i).mp hi) hne

/-- What a read of entry `k` does: nothing, but for the buffer it leaves locked. -/
structure ReadEntry (sb : Superblock) (dp k : ℕ) (f g : Fs) : Prop where
  same : Same f g
  heldOk : g.HeldOk sb
  opened : f.Open dp (second (DIRENT * k / BSIZE))
  locked : ∀ b, g.Locked b ↔
    f.Locked b ∨ f.Tracks ∧ ∃ j ∈ second (DIRENT * k / BSIZE), f.ptr dp (.dbl j) = b

variable (hsb : sb.Layout) (hown : f.Owned sb) (hdir : f.Directory dp) (devsw : Devsw)
include hsb hown hdir

theorem readi_dirent (hheld : f.HeldOk sb) (hk : k < (f.file dp).entries) :
    Post (readi sb devsw f dp (DIRENT * k) DIRENT)
      (fun r => r.1 = ((DIRENT : ℤ), (f.file dp).dirent k) ∧ ReadEntry sb dp k f r.2)
      (fun e => e = .blocked ∧ ¬ f.Open dp (second (DIRENT * k / BSIZE))) := by
  have hsize := hdir.size_eq
  have hlt := (f.inode dp).size.toNat_lt
  have hle : DIRENT * k + DIRENT ≤ (f.inode dp).size.toNat := by
    rw [hsize]
    unfold DIRENT
    omega
  have hread : Post (readi sb devsw f dp (DIRENT * k) DIRENT) _ _ :=
    readi_mapped devsw hdir.ne_dev hdir.live.2 hdir.mapped
      (le_trans (Nat.le_add_right _ _) hle) (hle.trans_lt hlt)
  refine ((readi_post hsb hown hdir.live hdir.ne_dev devsw hle).and hread).mono ?_ ?_
  · rintro ⟨ret, g⟩ ⟨⟨hret, hdone⟩, -, hsame, -⟩
    obtain ⟨A, -, hch⟩ := hdone.done.change
    refine ⟨hret, hsame, hdone.done.heldOk hheld, ?_, fun b => ?_⟩
    · rw [← seconds_dirent]
      exact hdone.done.unlocked hheld
    · rw [hch.locked, seconds_dirent]
      simp only [mem_toFinset, hsame.ptr_eq]
  · rintro e ⟨hstop, rfl, -⟩
    rcases hstop with (⟨h, -⟩ | ⟨-, hblocked⟩) | ⟨h, -⟩
    · exact absurd h nofun
    · rw [seconds_dirent] at hblocked
      exact ⟨rfl, hblocked hheld⟩
    · exact absurd h nofun

/-- Where no buffer is locked, an entry is read. -/
theorem readi_dirent_free (hfree : ∀ b, ¬ f.Locked b) (hk : k < (f.file dp).entries) :
    ∃ g, readi sb devsw f dp (DIRENT * k) DIRENT = .ok (((DIRENT : ℤ), (f.file dp).dirent k), g) ∧
      Same f g ∧ ((f.Tracks → Near k) → g = f) := by
  obtain ⟨⟨ret, g⟩, heq, hret, hg⟩ := (readi_dirent hsb hown hdir devsw (heldOk_of_free hfree) hk).exists_ok
    fun _ h => h.2 (open_second hfree dp _)
  obtain rfl : ret = ((DIRENT : ℤ), (f.file dp).dirent k) := hret
  refine ⟨g, heq, hg.same, fun hnear => hg.same.eq_of_locked fun b => ?_⟩
  rw [hg.locked]
  refine or_iff_left ?_
  rintro ⟨htr, j, hj, -⟩
  rw [second_of_near (hnear htr)] at hj
  exact not_mem_nil hj

end Entry

/-! ## Going through the entries -/

/-- The first entry that is reached through the doubly indirect block. -/
abbrev FAR : ℕ := NEAR / DIRENT

theorem near_iff : Near k ↔ k < FAR := by
  unfold Near FAR NEAR NDIRECT NINDIRECT DIRENT BSIZE
  omega

/-- The entries from `FAR` on that are looked at here share their second-level block. -/
theorem second_far (hk : FAR ≤ k) (hk' : k ≤ FAR + 1) :
    second (DIRENT * k / BSIZE) = [Fin.ofNat _ 0] := by
  have hzero : (DIRENT * k / BSIZE - NDIRECT - NINDIRECT) / NINDIRECT = 0 := by
    unfold FAR NEAR NDIRECT NINDIRECT DIRENT BSIZE at *
    omega
  rw [second_of_not_near (fun h => absurd (near_iff.mp h) (not_lt.mpr hk)), hzero]

/-- The buffer of the first second-level block of the directory is locked. -/
def Stuck (f : Fs) (dp : ℕ) : Prop := f.Tracks ∧ f.Locked (f.ptr dp (.dbl (Fin.ofNat _ 0)))

/-- What reading does: nothing, but for the buffers that are left locked. -/
structure Onward (sb : Superblock) (f g : Fs) : Prop where
  same : Same f g
  heldOk : g.HeldOk sb
  locked : ∀ b, f.Locked b → g.Locked b

theorem Onward.refl (hheld : f.HeldOk sb) : Onward sb f f :=
  ⟨Same.refl f, hheld, fun _ h => h⟩

theorem Onward.trans {f g h : Fs} (hfg : Onward sb f g) (hgh : Onward sb g h) :
    Onward sb f h :=
  ⟨hfg.same.trans hgh.same, hgh.heldOk, fun b hb => hgh.locked b (hfg.locked b hb)⟩

theorem Onward.stuck {dp : ℕ} (hfg : Onward sb f g) (h : f.Stuck dp) :
    g.Stuck dp := by
  refine ⟨hfg.same.tracks.mpr h.1, ?_⟩
  rw [hfg.same.ptr_eq]
  exact hfg.locked _ h.2

theorem ReadEntry.onward {dp k : ℕ} (h : ReadEntry sb dp k f g) :
    Onward sb f g :=
  ⟨h.same, h.heldOk, fun b hb => (h.locked b).mpr (Or.inl hb)⟩

/-- The read of an entry from `FAR` on locks the second-level block, which was not locked. -/
theorem ReadEntry.stuck {dp k : ℕ} (h : ReadEntry sb dp k f g) (hk : FAR ≤ k) (hk' : k ≤ FAR + 1)
    (htr : f.Tracks) : ¬ f.Stuck dp ∧ g.Stuck dp := by
  have hopen := h.opened
  have hlocked := h.locked
  rw [second_far hk hk'] at hopen hlocked
  refine ⟨fun hs => (hopen htr).2 _ (mem_singleton_self _) hs.2, h.same.tracks.mpr htr, ?_⟩
  rw [h.same.ptr_eq]
  exact (hlocked _).mpr (Or.inr ⟨htr, _, mem_singleton_self _, rfl⟩)

/-- What is known of a loop from entry `i` on that has come to its end: it stopped at the first entry
`k` with `cond`, and it changed nothing.  If it went through entry `FAR`, the second-level block was
not locked and now is, and the loop did not read another entry after it. -/
structure Scanned (sb : Superblock) (dp : ℕ) (cond : List UInt8 → Bool) (f : Fs) (i : ℕ)
    (r : (ℕ × Option (List UInt8)) × Fs) : Prop where
  onward : Onward sb f r.2
  found : ∃ k, i ≤ k ∧ k ≤ max i (f.file dp).entries ∧
    (∀ j, i ≤ j → j < k → cond ((f.file dp).dirent j) = false) ∧
    (k < (f.file dp).entries → cond ((f.file dp).dirent k) = true) ∧
    r.1 = (DIRENT * k, if k < (f.file dp).entries then some ((f.file dp).dirent k) else none)
  past : f.Stuck dp → FAR ≤ i → i ≤ FAR + 1 → (f.file dp).entries ≤ i
  far : f.Tracks → i ≤ FAR → FAR < (f.file dp).entries →
    (∀ j, i ≤ j → j < FAR → cond ((f.file dp).dirent j) = false) →
    ¬ f.Stuck dp ∧ r.2.Stuck dp ∧
      ((f.file dp).entries = FAR + 1 ∨ cond ((f.file dp).dirent FAR) = true)

section Scan

variable {sb : Superblock} {devsw : Devsw} {msg : String} {cond : List UInt8 → Bool} {f : Fs} {dp : ℕ}

theorem scan_end (rounds : ℕ) {off : ℕ} (hoff : (f.inode dp).size.toNat ≤ off) :
    scan sb devsw msg cond dp rounds f off = .ok ((off, none), f) := by
  cases rounds with
  | zero => rfl
  | succ rounds => rw [scan, if_neg (not_lt.mpr hoff)]

/-- The offset of the next entry. -/
theorem Directory.next (hdir : f.Directory dp) (hk : k < (f.file dp).entries) :
    u32 (DIRENT * k + DIRENT) = DIRENT * (k + 1) := by
  have hsize := hdir.size_eq
  have hlt := (f.inode dp).size.toNat_lt
  unfold u32
  rw [Nat.mod_eq_of_lt]
  · rfl
  · unfold DIRENT at *
    omega

theorem Directory.lt_size (hdir : f.Directory dp) (hk : k < (f.file dp).entries) :
    DIRENT * k < (f.inode dp).size.toNat := by
  rw [hdir.size_eq]
  exact Nat.mul_lt_mul_of_pos_left hk (by decide)

variable {i : ℕ}

theorem scanned_end (hheld : f.HeldOk sb) (hi : (f.file dp).entries ≤ i) :
    Scanned sb dp cond f i ((DIRENT * i, none), f) where
  onward := Onward.refl hheld
  found := ⟨i, le_rfl, le_max_left _ _, fun j hj hj' => absurd hj (not_le.mpr hj'),
    fun h => absurd h (not_lt.mpr hi), by rw [if_neg (not_lt.mpr hi)]⟩
  past _ _ _ := hi
  far _ hi' hfar _ := absurd hfar (by omega)

theorem ReadEntry.scanned_stop {g : Fs} (hg : ReadEntry sb dp i f g) (hi : i < (f.file dp).entries)
    (hcond : cond ((f.file dp).dirent i) = true) :
    Scanned sb dp cond f i ((DIRENT * i, some ((f.file dp).dirent i)), g) where
  onward := hg.onward
  found := ⟨i, le_rfl, le_max_left _ _, fun j hj hj' => absurd hj (not_le.mpr hj'), fun _ => hcond,
    by rw [if_pos hi]⟩
  past hs hfar hfar' := absurd hs (hg.stuck hfar hfar' hs.1).1
  far htr hle hfar hbefore := by
    obtain rfl : i = FAR := by
      refine le_antisymm hle (not_lt.mp fun hlt => ?_)
      rw [hbefore i le_rfl hlt] at hcond
      exact absurd hcond (by decide)
    obtain ⟨hopen, hstuck⟩ := hg.stuck le_rfl (Nat.le_succ _) htr
    exact ⟨hopen, hstuck, Or.inr hcond⟩

theorem ReadEntry.scanned_next {g : Fs} {r : (ℕ × Option (List UInt8)) × Fs}
    (hg : ReadEntry sb dp i f g) (hi : i < (f.file dp).entries)
    (hcond : cond ((f.file dp).dirent i) = false) (hr : Scanned sb dp cond g (i + 1) r) :
    Scanned sb dp cond f i r := by
  have hfile := hg.same.file_eq dp
  obtain ⟨k, hk, hkn, hbefore, hstop, heq⟩ := hr.found
  have hpast := hr.past
  have hfarther := hr.far
  rw [hfile] at hkn hbefore hstop heq hpast hfarther
  refine ⟨hg.onward.trans hr.onward, ⟨k, by omega, by omega, fun j hj hjk => ?_, hstop, heq⟩,
    fun hs hfar hfar' => absurd hs (hg.stuck hfar hfar' hs.1).1, fun htr hle hfar hfalse => ?_⟩
  · rcases Nat.eq_or_lt_of_le hj with rfl | hj
    · exact hcond
    · exact hbefore j hj hjk
  · have htr' := hg.same.tracks.mpr htr
    rcases Nat.eq_or_lt_of_le hle with rfl | hlt
    · -- entry `FAR` has been read; another one after it cannot be
      obtain ⟨hopen, hstuck⟩ := hg.stuck le_rfl (Nat.le_succ _) htr
      have hlast := hpast hstuck (Nat.le_succ _) le_rfl
      exact ⟨hopen, hr.onward.stuck hstuck, Or.inl (by omega)⟩
    · obtain ⟨hopen, hrest⟩ := hfarther htr' hlt hfar fun j hj hjf => hfalse j (by omega) hjf
      exact ⟨fun hs => hopen (hg.onward.stuck hs), hrest⟩

variable (hsb : sb.Layout)
include hsb

/-- **A loop that comes to its end**, or waits for a buffer. -/
theorem scan_post (rounds : ℕ) (f : Fs) (i : ℕ) (hown : f.Owned sb) (hdir : f.Directory dp)
    (hheld : f.HeldOk sb) (hrounds : (f.file dp).entries ≤ i + rounds) :
    Post (scan sb devsw msg cond dp rounds f (DIRENT * i)) (Scanned sb dp cond f i) (· = .blocked) := by
  induction rounds generalizing f i with
  | zero => exact scanned_end hheld hrounds
  | succ rounds ih =>
    by_cases hi : i < (f.file dp).entries
    swap
    · rw [scan_end _ (by rw [hdir.size_eq]; exact Nat.mul_le_mul_left _ (not_lt.mp hi))]
      exact scanned_end hheld (not_lt.mp hi)
    rw [scan, if_pos (hdir.lt_size hi)]
    refine (readi_dirent hsb hown hdir devsw hheld hi).bind ?_ fun e he => he.1
    rintro ⟨⟨n, de⟩, g⟩ ⟨heq, hg⟩
    obtain ⟨rfl, rfl⟩ : n = DIRENT ∧ de = (f.file dp).dirent i := Prod.mk.inj heq
    simp only [ne_eq, not_true_eq_false, if_false]
    refine post_ite.mpr ⟨fun hcond => hg.scanned_stop hi hcond, fun hcond => ?_⟩
    rw [hdir.next hi]
    refine (ih g (i + 1) (hown.same hg.same) (hdir.same hg.same) hg.heldOk ?_).imp
      (fun r hr => hg.scanned_next hi (Bool.eq_false_iff.mpr hcond) hr)
    rw [hg.same.file_eq]
    omega

variable (devsw) (msg)

/-- **A loop that stays below entry `FAR`, or ends with it, comes to its end** where no buffer is
locked, and leaves none locked if it stays below. -/
theorem scan_ok (hown : f.Owned sb) (hdir : f.Directory dp) (hfree : ∀ b, ¬ f.Locked b)
    (hk : k ≤ (f.file dp).entries) (hbefore : ∀ j < k, cond ((f.file dp).dirent j) = false)
    (hstop : k < (f.file dp).entries → cond ((f.file dp).dirent k) = true)
    (hfar : f.Tracks → min (k + 1) (f.file dp).entries ≤ FAR + 1) (rounds i : ℕ) (hi : i ≤ k)
    (hrounds : (f.file dp).entries ≤ i + rounds) :
    ∃ g, scan sb devsw msg cond dp rounds f (DIRENT * i) =
        .ok ((DIRENT * k, if k < (f.file dp).entries then some ((f.file dp).dirent k) else none), g) ∧
      Same f g ∧ ((f.Tracks → min (k + 1) (f.file dp).entries ≤ FAR) → g = f) := by
  induction rounds generalizing i with
  | zero =>
    obtain rfl : i = k := by omega
    rw [if_neg (by omega)]
    exact ⟨f, rfl, Same.refl f, fun _ => rfl⟩
  | succ rounds ih =>
    by_cases hin : i < (f.file dp).entries
    swap
    · obtain rfl : i = k := by omega
      rw [if_neg hin, scan_end _ (by rw [hdir.size_eq]; exact Nat.mul_le_mul_left _ (not_lt.mp hin))]
      exact ⟨f, rfl, Same.refl f, fun _ => rfl⟩
    obtain ⟨g, hread, hsame, hgf⟩ := readi_dirent_free hsb hown hdir devsw hfree hin
    have hstep : scan sb devsw msg cond dp (rounds + 1) f (DIRENT * i) =
        if cond ((f.file dp).dirent i) then .ok ((DIRENT * i, some ((f.file dp).dirent i)), g)
        else scan sb devsw msg cond dp rounds g (DIRENT * (i + 1)) := by
      rw [scan, if_pos (hdir.lt_size hin), hread, ← hdir.next hin]
      rfl
    rcases Nat.eq_or_lt_of_le hi with rfl | hlt
    · rw [hstep, if_pos (hstop hin), if_pos hin]
      refine ⟨g, rfl, hsame, fun hnear => hgf fun htr => near_iff.mpr ?_⟩
      have := hnear htr
      omega
    rw [hstep, hbefore i hlt, if_neg Bool.false_ne_true]
    by_cases hnear : f.Tracks → Near i
    · rw [hgf hnear]
      exact ih (i + 1) hlt (by omega)
    · -- entry `FAR` has been read, and it is the last one
      rw [Classical.not_imp, near_iff] at hnear
      have hlast := hfar hnear.1
      obtain rfl : k = (f.file dp).entries := by omega
      have hend : i + 1 = (f.file dp).entries := by omega
      rw [scan_end _ (by rw [hsame.inode, hdir.size_eq, hend]), if_neg (lt_irrefl _), hend]
      refine ⟨g, rfl, hsame, fun hn => ?_⟩
      have := hn hnear.1
      omega

end Scan

end Fs
