/-
# Inodes and directories on disk

`State.image` is what the disk holds: the inodes, and the entries of directories.  `iupdate` writes the word
behind the record too (see `InodeTable`).  `WordKept` says that this changes nothing: the address that is
written there is what is there, or nothing of another inode is there.
-/
import Xv6.FileMachine
import Xv6.InodeTable

open Function

namespace Sysfile

/-- The inodes on disk, and the entries of directories. -/
structure Image where
  dinode : ℕ → Dinode
  entry : ℕ → ℕ → Dirent

def State.image (s : State) : Image := ⟨s.dinode, s.entry⟩

@[simp] theorem State.image_dinode (s : State) : s.image.dinode = s.dinode := rfl

namespace Image

variable (D : Image)

/-- The inode is allocated. -/
def Used (i : ℕ) : Prop := (D.dinode i).type ≠ 0

def IsDir (d : ℕ) : Prop := (D.dinode d).type = T_DIR

instance (d : ℕ) : Decidable (D.IsDir d) := inferInstanceAs (Decidable (_ = _))

variable {D}

theorem IsDir.used {d : ℕ} (h : D.IsDir d) : D.Used d := by
  unfold Used
  rw [show (D.dinode d).type = T_DIR from h]
  decide

/-- Only link counts and device numbers change. -/
structure SameShape (D D' : Image) : Prop where
  type : ∀ i, (D'.dinode i).type = (D.dinode i).type
  size : ∀ i, (D'.dinode i).size = (D.dinode i).size
  entry : D'.entry = D.entry

end Image

/-- `iupdate` of the inode leaves the next inode alone. -/
def State.WordKept (s : State) (ip : InodePtr) : Prop :=
  State.lastOfBlock (s.icache ip).inum ∨ (s.icache ip).last = s.nextWord (s.icache ip).inum

/-- `iput` is about to free the inode. -/
def State.Frees (s : State) (ip : InodePtr) : Prop :=
  (s.icache ip).valid = true ∧ (s.icache ip).nlink = 0 ∧ (s.icache ip).ref = 1

/-- The record of an inode in memory. -/
def Cached.dinode (c : Cached) : Dinode := ⟨c.type, c.major, c.minor, c.nlink, c.size⟩

namespace State

variable {s : State} {ip : InodePtr}

theorem toNat_word (type major : Int16) :
    (State.word type major).toNat = short type + 2 ^ 16 * short major := by
  have htype := short_lt type
  have hmajor := short_lt major
  rw [State.word, UInt32.toNat_ofNat', Nat.mod_eq_of_lt]
  omega

/-- A word that is already there is written again. -/
theorem setNextWord_image {i : ℕ} {w : UInt32} (h : State.lastOfBlock i ∨ w = s.nextWord i) :
    (s.setNextWord i w).image = s.image := by
  unfold State.setNextWord
  split
  · rfl
  next hlast =>
    have hw := h.resolve_left hlast
    rw [State.nextWord, if_neg hlast] at hw
    have htype : toShort (w.toNat % 2 ^ 16) = (s.dinode (i + 1)).type := by
      rw [toShort_eq_iff (by omega), hw, toNat_word]
      have hlt := short_lt (s.dinode (i + 1)).type
      omega
    have hmajor : toShort (w.toNat / 2 ^ 16) = (s.dinode (i + 1)).major := by
      have hlt := w.toNat_lt
      rw [toShort_eq_iff (by omega), hw, toNat_word]
      have hlt' := short_lt (s.dinode (i + 1)).type
      omega
    rw [htype, hmajor, State.image, State.setDinode, update_eq_self_iff.mpr rfl]
    rfl

/-- Whether the word is kept depends on few things. -/
theorem wordKept_setCached {t : State} {c : Cached} (hdinode : t.dinode = s.dinode)
    (hslack : t.slack = s.slack) (hinum : c.inum = (s.icache ip).inum)
    (hlast : c.last = (s.icache ip).last) : (t.setCached ip c).WordKept ip ↔ s.WordKept ip := by
  have hself : (t.setCached ip c).icache ip = c := update_self ..
  have hword : (t.setCached ip c).nextWord c.inum = s.nextWord c.inum := by
    simp only [State.nextWord, State.setCached, hdinode, hslack]
  rw [State.WordKept, hself, hword, hinum, hlast]
  rfl

/-- What `iupdate` does. -/
theorem iupdate_image (h : s.WordKept ip) : (s.iupdate ip).image =
    ⟨update s.dinode (s.icache ip).inum (s.icache ip).dinode, s.entry⟩ := by
  unfold State.iupdate
  refine setNextWord_image (h.imp_right fun hw => hw.trans ?_)
  have hother : (s.setDinode (s.icache ip).inum (s.icache ip).dinode).dinode ((s.icache ip).inum + 1) =
      s.dinode ((s.icache ip).inum + 1) := update_of_ne (by omega) _ _
  unfold State.nextWord
  exact if_congr Iff.rfl rfl (by rw [← hother]; rfl)

theorem iupdate_icache (s : State) (ip : InodePtr) : (s.iupdate ip).icache = s.icache := by
  simp only [State.iupdate, State.setNextWord]
  split <;> rfl

theorem iupdate_entry (s : State) (ip : InodePtr) : (s.iupdate ip).entry = s.entry := by
  simp only [State.iupdate, State.setNextWord]
  split <;> rfl

/-- The word behind the record is not the size of an inode. -/
theorem iupdate_size (s : State) (ip : InodePtr) (j : ℕ) : ((s.iupdate ip).dinode j).size =
    if j = (s.icache ip).inum then (s.icache ip).size else (s.dinode j).size := by
  have hset : ((s.setDinode (s.icache ip).inum (s.icache ip).dinode).dinode j).size =
      if j = (s.icache ip).inum then (s.icache ip).size else (s.dinode j).size := by
    by_cases hj : j = (s.icache ip).inum
    · subst hj
      simp [State.setDinode, Cached.dinode]
    · simp [State.setDinode, hj]
  rw [← hset]
  simp only [State.iupdate, State.setNextWord]
  split
  · rfl
  · by_cases hj : j = (s.icache ip).inum + 1
    · subst hj
      simp [State.setDinode, Cached.dinode]
    · simp [State.setDinode, hj, Cached.dinode]

end State

end Sysfile
