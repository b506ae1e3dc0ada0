/-
# Writing and reading back

Files are independent byte arrays.  After a `writei` that returns, the file is the old one with
the bytes replaced, every other file is as it was, and a `readi` returns the bytes of the file.
A `readi` is not without effect: it allocates the blocks of the range that are missing, and it
panics when there are not enough free blocks for them.
-/
import Xv6.FileContents

open Outcome

/-! ## The types with blocks of their own -/

/-- A regular file, a directory or a symbolic link. -/
def PlainType (type : Int16) : Prop := type = T_FILE ∨ type = T_DIR ∨ type = T_SYMLINK

instance (type : Int16) : Decidable (PlainType type) := by unfold PlainType; infer_instance

theorem PlainType.ne_dev {type : Int16} (h : PlainType type) : type ≠ T_DEV := by
  rcases h with rfl | rfl | rfl <;> decide

theorem PlainType.live {f : Fs} {i : ℕ} (h : PlainType (f.inode i).type) : f.Live i := by
  unfold Fs.Live
  rcases h with h | h | h <;> rw [h] <;> decide

/-! ## Buffers viewed as blocks -/

section Untracked

variable {sb : Superblock} {i : ℕ} {f : Fs}

theorem not_tracks_of_none (h : f.held = none) : ¬ f.Tracks := fun ht => ht h

theorem not_locked_of_not_tracks (h : ¬ f.Tracks) (b : ℕ) : ¬ f.Locked b := fun hb => h hb.tracks

/-- Without locks a call stops only for want of free blocks. -/
theorem Stops.of_not_tracks {T : Finset Slot} {js : List (Fin NINDIRECT)} {e : Stop}
    (htr : ¬ f.Tracks) (h : Stops sb i T js f e) :
    e = .panic "balloc: out of blocks" ∧ freeBlocks sb f.disk < f.need i T := by
  rcases h with h | ⟨-, hblocked⟩
  · exact h
  · refine absurd (fun ht => absurd ht htr) (hblocked ?_)
    intro b hb
    exact absurd hb (not_locked_of_not_tracks htr b)

end Untracked

section Read

variable {sb : Superblock} {i : ℕ} {f : Fs} (hsb : sb.Layout) (hown : f.Owned sb) (hi : f.Live i)
  (hdev : (f.inode i).type ≠ T_DEV) (devsw : Devsw) (htr : ¬ f.Tracks)
include hsb hown hi hdev htr

/-- A `readi` returns the bytes of the range if the missing blocks can be allocated. -/
theorem readi_eq_ok {o m : ℕ} (hsize : o + m ≤ (f.inode i).size.toNat)
    (hfits : o + m ≤ MAXMAP * BSIZE)
    (hfree : f.need i (slotsOf (blocksOf o m)) ≤ freeBlocks sb f.disk) :
    ∃ g, f.readi sb devsw i o m = .ok (((m : ℤ), (f.file i).read o m), g) := by
  obtain ⟨⟨ret, g⟩, heq, hret, -⟩ := (readi_post hsb hown hi hdev devsw hsize).exists_ok (by
    rintro e (he | ⟨-, -, hlt⟩)
    · exact absurd (he.of_not_tracks htr).2 (not_lt.mpr hfree)
    · exact absurd hlt (not_lt.mpr hfits))
  obtain rfl : ret = ((m : ℤ), (f.file i).read o m) := hret
  exact ⟨g, heq⟩

/-- A `readi` panics if they cannot. -/
theorem readi_eq_error {o m : ℕ} (hsize : o + m ≤ (f.inode i).size.toNat)
    (hfits : o + m ≤ MAXMAP * BSIZE)
    (hfree : freeBlocks sb f.disk < f.need i (slotsOf (blocksOf o m))) :
    f.readi sb devsw i o m = .error (.panic "balloc: out of blocks") := by
  have hpost := readi_post hsb hown hi hdev devsw hsize
  cases heq : f.readi sb devsw i o m with
  | ok r =>
    obtain ⟨-, hdone⟩ := hpost.of_ok heq
    have := hdone.done.free_eq
    omega
  | error e =>
    rcases hpost.of_error heq with he | ⟨-, -, hlt⟩
    · rw [(he.of_not_tracks htr).1]
    · omega

end Read

/-- **Files are byte arrays.**  When `writei` returns the number of bytes, the file has grown to
hold them and no other file has changed.  Reading them back returns them, and any range of the
file reads as the new bytes and the old ones, if the blocks that it lacks can be allocated; if
they cannot, `readi` panics. -/
theorem writei_readi {sb : Superblock} (hsb : sb.Layout) (devsw : Devsw) {f g : Fs} {i : ℕ}
    (hview : f.held = none) (hown : f.Owned sb) (htype : PlainType (f.inode i).type)
    (src : List UInt8) (off : ℕ) (hw : f.writei sb devsw i src off = .ok ((src.length : ℤ), g)) :
    (g.inode i).size.toNat = (if src = [] then (f.inode i).size.toNat
      else max (f.inode i).size.toNat (off + src.length)) ∧
    (∀ j, j ≠ i → f.Live j → g.file j = f.file j) ∧
    (src ≠ [] → ∃ h, g.readi sb devsw i off src.length = .ok ((src.length, src), h)) ∧
    ∀ o m, o + m ≤ (g.inode i).size.toNat → o + m ≤ MAXMAP * BSIZE →
      (g.need i (slotsOf (blocksOf o m)) ≤ freeBlocks sb g.disk →
        ∃ h, g.readi sb devsw i o m = .ok ((m, (List.range m).map fun k =>
          if off ≤ o + k ∧ o + k < off + src.length then src.getD (o + k - off) 0
          else f.content i (o + k)), h)) ∧
      (freeBlocks sb g.disk < g.need i (slotsOf (blocksOf o m)) →
        g.readi sb devsw i o m = .error (.panic "balloc: out of blocks")) := by
  have hi := htype.live
  have hpost := (writei_post hsb hown hi htype.ne_dev devsw src).of_ok hw
  rcases hpost with ⟨-, hdone⟩ | ⟨hrefused, -⟩
  swap
  · -- a refused request returns `-1`
    have : (src.length : ℤ) = -1 := congrArg Prod.fst hrefused
    omega
  obtain ⟨A, -, hch⟩ := hdone.done.change
  have hfile : g.file i = (f.file i).write off src := hdone.done.file_eq
  have hsize : (g.inode i).size.toNat = (if src = [] then (f.inode i).size.toNat
      else max (f.inode i).size.toNat (off + src.length)) := congrArg File.size hfile
  have htr : ¬ g.Tracks := fun ht => not_tracks_of_none hview (hch.tracks.mp ht)
  have hdev : (g.inode i).type ≠ T_DEV := by
    rw [hch.type_eq]
    exact htype.ne_dev
  have hown' := hdone.done.own
  have hi' := hdone.done.live'
  refine ⟨hsize, hch.file_others, ?_, ?_⟩
  · intro hsrc
    have hn : src.length ≠ 0 := fun h => hsrc (List.eq_nil_of_length_eq_zero h)
    have hfull : g.need i (slotsOf (blocksOf off src.length)) = 0 :=
      Finset.card_eq_zero.mpr (Finset.filter_eq_empty_iff.mpr hdone.done.full)
    obtain ⟨h, heq⟩ := readi_eq_ok hsb hown' hi' hdev devsw htr (o := off) (m := src.length)
      (by rw [hsize, if_neg hsrc]; exact le_max_right _ _) (hdone.fits hn)
      (le_of_eq_of_le hfull (Nat.zero_le _))
    refine ⟨h, ?_⟩
    rw [heq, hfile, File.read_write]
  · intro o m hrange hfits
    refine ⟨fun hfree => ?_, readi_eq_error hsb hown' hi' hdev devsw htr hrange hfits⟩
    obtain ⟨h, heq⟩ := readi_eq_ok hsb hown' hi' hdev devsw htr hrange hfits hfree
    rw [hfile] at heq
    exact ⟨h, heq⟩

/-! ## A disk with one data block -/

/-- A disk of six blocks: boot block, super block, a log block, an inode block, a bitmap block
and one data block. -/
def smallSb : Superblock where
  size := 6
  nblocks := 1
  ninodes := 4
  nlog := 1
  logstart := 2
  inodestart := 3
  bmapstart := 4

theorem smallSb_layout : smallSb.Layout := ⟨by decide, by decide, by decide, by decide, by decide⟩

/-- The data block is not in use. -/
def smallDisk : Disk := fun b =>
  if b = smallSb.bmapstart then Block.zero.memmove 0 1 fun _ => 0x1f else Block.zero

/-- An empty regular file, inode `1`. -/
def smallFs (held : Option (Finset ℕ)) : Fs where
  disk := smallDisk
  held := held
  inode i :=
    { inum := i, ref := 1, valid := true, type := if i = 1 then T_FILE else 0, major := 0
      minor := 0, nlink := 1, size := 0, addrs := fun _ => 0 }
  inum_eq _ := rfl

theorem smallFs_ptr (held : Option (Finset ℕ)) (i : ℕ) (t : Slot) : (smallFs held).ptr i t = 0 := by
  cases t <;> rfl

theorem smallFs_owned (held : Option (Finset ℕ)) : (smallFs held).Owned smallSb where
  inum_lt i hi := by
    by_cases h : i = 1
    · rw [h]
      decide
    · exact absurd (if_neg h) hi.1
  meta_marked b hb := by
    have hb : b < 5 := hb
    show marked smallSb smallDisk b = true
    interval_cases b <;> decide
  unshared i j s t _ _ hne := absurd (smallFs_ptr held i s) hne
  in_data i s _ hne := absurd (smallFs_ptr held i s) hne
  ptr_marked i s _ hne := absurd (smallFs_ptr held i s) hne

/-- The device switch table without devices. -/
def noDevices : Devsw := ⟨fun _ => none, fun _ => none⟩

/-- A byte written at offset `512` takes the only data block, and the block before it, which was
never allocated, can no longer be read. -/
theorem writei_readi_hole : (smallFs none).Owned smallSb ∧
    ∃ g, (smallFs none).writei smallSb noDevices 1 [7] 512 = .ok (1, g) ∧
      (g.inode 1).size = 513 ∧
      g.readi smallSb noDevices 1 0 1 = .error (.panic "balloc: out of blocks") :=
  ⟨smallFs_owned none, _, rfl, rfl, rfl⟩

/-- A byte written into the data block and read back. -/
theorem writei_readi_byte : ∃ g, (smallFs none).writei smallSb noDevices 1 [7] 0 = .ok (1, g) ∧
    (g.inode 1).size.toNat = 1 ∧ ∃ h, g.readi smallSb noDevices 1 0 1 = .ok ((1, [7]), h) := by
  refine ⟨_, rfl, ?_⟩
  obtain ⟨hsize, -, hread, -⟩ := writei_readi smallSb_layout noDevices (i := 1) rfl
    (smallFs_owned none) (Or.inl rfl) [7] 0 rfl
  exact ⟨hsize, hread (by decide)⟩
