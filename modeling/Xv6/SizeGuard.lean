/-
# The size check of `writei`

`writei` refuses a request that ends beyond `MAXFILE * BSIZE`, computed modulo `2 ^ 32`, and passes
the blocks of every other one to `bmap`.  `bmap` maps `MAXMAP` blocks and panics at the next one,
and `MAXFILE` is more than a hundred times `MAXMAP`: the macro multiplies by `NINDIRECT` once too
often.
-/
import Xv6.Buffers

open Outcome List

namespace Fs

variable {sb : Superblock} {i : ℕ} {f : Fs}

/-! ## The block numbers that reach `bmap` -/

/-- The block numbers that the loop of `writei` passes to `bmap`, in order, until it ends or
stops. -/
def writeIndices (sb : Superblock) (i : ℕ) : ℕ → Fs → ℕ → List UInt8 → List ℕ
  | 0, _, _, _ => []
  | rounds + 1, f, off, src =>
    if src = [] then []
    else off / BSIZE ::
      match f.writeRound sb i off src with
      | .error _ => []
      | .ok f =>
        let m := min src.length (BSIZE - off % BSIZE)
        writeIndices sb i rounds f (u32 (off + m)) (src.drop m)

/-- The block numbers that `writei` passes to `bmap`; none if the request is refused. -/
def writeiIndices (sb : Superblock) (f : Fs) (i : ℕ) (src : List UInt8) (off : ℕ) : List ℕ :=
  if MAXFILE * BSIZE < u32 (off + src.length) then []
  else writeIndices sb i src.length f off src

/-- The panic of `bmap`. -/
abbrev outOfRange : Stop := .panic "bmap: out of range"

theorem balloc_ne_outOfRange : Post (balloc sb f) (fun _ => True) (· ≠ outOfRange) := by
  refine (balloc_post sb f).mono (fun _ _ => trivial) ?_
  rintro e (⟨rfl, -⟩ | ⟨rfl, -⟩)
  · decide
  · decide

theorem bread_ne_outOfRange (b : ℕ) : Post (f.bread b) (fun _ => True) (· ≠ outOfRange) := by
  refine (bread_post f b).mono (fun _ _ => trivial) ?_
  rintro e ⟨rfl, -⟩
  decide

theorem addrAt_ne_outOfRange (k : Fin (NDIRECT + 2)) :
    Post (f.addrAt sb i k) (fun _ => True) (· ≠ outOfRange) := by
  unfold addrAt
  refine post_ite.mpr ⟨fun _ => ?_, fun _ => trivial⟩
  refine balloc_ne_outOfRange.seq ?_
  rintro ⟨b, g⟩ -
  trivial

theorem entryAt_ne_outOfRange (b j : ℕ) :
    Post (f.entryAt sb b j) (fun _ => True) (· ≠ outOfRange) := by
  unfold entryAt
  refine (bread_ne_outOfRange b).seq fun g _ => ?_
  refine post_ite.mpr ⟨fun _ => ?_, fun _ => trivial⟩
  refine balloc_ne_outOfRange.seq ?_
  rintro ⟨a, h⟩ -
  trivial

/-- **`bmap` panics at the block numbers that it cannot map, and at no others.** -/
theorem bmap_eq_outOfRange_iff (htype : (f.inode i).type ≠ T_EXTENT) (bn : ℕ) :
    f.bmap sb i bn = .error outOfRange ↔ MAXMAP ≤ bn := by
  refine ⟨fun herror => ?_, bmap_of_ge sb htype⟩
  by_contra hlt
  have hpost : Post (f.bmap sb i bn) (fun _ => True) (· ≠ outOfRange) := by
    unfold bmap
    rw [if_neg htype]
    by_cases hdirect : bn < NDIRECT
    · rw [if_pos hdirect]
      exact addrAt_ne_outOfRange _
    rw [if_neg hdirect]
    by_cases hind : bn - NDIRECT < NINDIRECT
    · rw [if_pos hind]
      refine (addrAt_ne_outOfRange _).seq ?_
      rintro ⟨b, g⟩ -
      refine (entryAt_ne_outOfRange b _).seq ?_
      rintro ⟨addr, h⟩ -
      trivial
    rw [if_neg hind, if_pos (doubly_lt (not_le.mp hlt))]
    refine (addrAt_ne_outOfRange _).seq ?_
    rintro ⟨b, g⟩ -
    refine (entryAt_ne_outOfRange b _).seq ?_
    rintro ⟨b', h⟩ -
    exact entryAt_ne_outOfRange b' _
  exact hpost.of_error herror rfl

variable {off : ℕ} {src : List UInt8}

theorem writeRound_eq_outOfRange (htype : (f.inode i).type ≠ T_EXTENT)
    (h : f.writeRound sb i off src = .error outOfRange) : MAXMAP ≤ off / BSIZE := by
  unfold writeRound at h
  cases hb : f.bmap sb i (off / BSIZE) with
  | error e =>
    rw [hb] at h
    have he : e = outOfRange := Except.error.inj h
    rw [he] at hb
    exact (bmap_eq_outOfRange_iff htype _).mp hb
  | ok r =>
    rw [hb] at h
    have h : r.2.updateBlock r.1 (fun bp => bp.memmove (off % BSIZE)
      (min src.length (BSIZE - off % BSIZE)) fun k => src.getD k 0) = .error outOfRange := h
    exact absurd ((updateBlock_post r.2 r.1 _).of_error h).1 (by decide)

theorem writeRound_type (off : ℕ) (src : List UInt8) :
    Post (f.writeRound sb i off src) (fun g => (g.inode i).type = (f.inode i).type)
      (fun _ => True) := by
  unfold writeRound
  refine (bmap_takes (i := i) _).bindAny ?_
  rintro ⟨b, g⟩ hmap
  exact (updateBlock_takes b _).imp fun h hh => hh.type_eq.trans hmap.type_eq

/-- The loop of `writei` panics at a block number that `bmap` cannot map. -/
theorem writeLoop_outOfRange {rounds off : ℕ} (htype : (f.inode i).type ≠ T_EXTENT)
    (h : f.writeLoop sb i rounds off src = .error outOfRange) :
    ∃ bn ∈ f.writeIndices sb i rounds off src, MAXMAP ≤ bn := by
  induction rounds generalizing f off src with
  | zero => cases h
  | succ rounds ih =>
    by_cases hsrc : src = []
    · rw [writeLoop, if_pos hsrc] at h
      cases h
    rw [writeLoop_succ rounds off hsrc] at h
    rw [writeIndices, if_neg hsrc]
    cases hround : f.writeRound sb i off src with
    | error e =>
      rw [hround] at h
      have he : e = outOfRange := Except.error.inj h
      rw [he] at hround
      exact ⟨_, mem_cons_self, writeRound_eq_outOfRange htype hround⟩
    | ok g =>
      rw [hround] at h
      have htype' : (g.inode i).type ≠ T_EXTENT := by
        rw [(writeRound_type off src).of_ok hround]
        exact htype
      obtain ⟨bn, hbn, hle⟩ := ih htype' h
      exact ⟨bn, mem_cons_of_mem _ hbn, hle⟩

/-- Without a wrap the block numbers are those of the range. -/
theorem writeIndices_subset {rounds off : ℕ} (hend : off + src.length < 2 ^ 32) :
    ∀ bn ∈ f.writeIndices sb i rounds off src, bn ∈ blocksOf off src.length := by
  induction rounds generalizing f off src with
  | zero => nofun
  | succ rounds ih =>
    rw [writeIndices]
    split_ifs with hsrc
    · nofun
    have hr := round_min off (mt length_eq_zero_iff.mp hsrc)
    set m := min src.length (BSIZE - off % BSIZE)
    have hle := hr.le
    have hnext : u32 (off + m) = off + m := Nat.mod_eq_of_lt (by omega)
    rw [hr.blocks]
    intro bn hbn
    rcases mem_cons.mp hbn with rfl | hbn
    · exact mem_cons_self
    · refine mem_cons_of_mem _ ?_
      cases hround : f.writeRound sb i off src with
      | error e =>
        rw [hround] at hbn
        cases hbn
      | ok g =>
        simp only [hround, hnext] at hbn
        rw [← length_drop]
        exact ih (by rw [length_drop]; omega) bn hbn

/-! ## What the check guards -/

/-- What the size check is for: no block number that `bmap` cannot map is passed to it, `writei`
does not panic there, and a refused request leaves everything as it is. -/
structure Guarded (sb : Superblock) (devsw : Devsw) (f : Fs) (i : ℕ) (src : List UInt8)
    (off : ℕ) : Prop where
  indices : ∀ bn ∈ f.writeiIndices sb i src off, bn < MAXMAP
  no_panic : f.writei sb devsw i src off ≠ .error outOfRange
  refused : ∀ g, f.writei sb devsw i src off = .ok (-1, g) → g = f

/-- The request is refused, writes nothing, or ends where the blocks of `bmap` end. -/
def InRange (off n : ℕ) : Prop :=
  MAXFILE * BSIZE < u32 (off + n) ∨ n = 0 ∨ off + n ≤ MAXMAP * BSIZE

instance (off n : ℕ) : Decidable (InRange off n) := by
  unfold InRange
  infer_instance

theorem writei_guarded (devsw : Devsw) (hdev : (f.inode i).type ≠ T_DEV)
    (htype : (f.inode i).type ≠ T_EXTENT) (hin : InRange off src.length) : Guarded sb devsw f i src off := by
  by_cases href : MAXFILE * BSIZE < u32 (off + src.length)
  · have heq : f.writei sb devsw i src off = .ok (-1, f) := by
      unfold writei
      simp only [if_neg hdev, if_pos href]
    refine ⟨?_, ?_, ?_⟩
    · unfold writeiIndices
      rw [if_pos href]
      nofun
    · rw [heq]
      nofun
    · intro g hg
      rw [heq] at hg
      exact (Prod.mk.inj (Except.ok.inj hg)).2.symm
  have hfits : src.length = 0 ∨ off + src.length ≤ MAXMAP * BSIZE := hin.resolve_left href
  have hindices : ∀ bn ∈ f.writeIndices sb i src.length off src, bn < MAXMAP := by
    rcases hfits with hnil | hfits
    · obtain rfl := eq_nil_of_length_eq_zero hnil
      nofun
    · intro bn hbn
      refine (blocksOf_lt_iff off src.length MAXMAP).mpr (Or.inr hfits) bn
        (writeIndices_subset ?_ bn hbn)
      unfold MAXMAP BSIZE at hfits
      omega
  have hpost : Post (f.writei sb devsw i src off) (fun r => r.1 = cint src.length)
      (· ≠ outOfRange) := by
    unfold writei
    simp only [if_neg hdev, if_neg href]
    have hloop : Post (f.writeLoop sb i src.length off src) (fun _ => True) (· ≠ outOfRange) := by
      cases hrun : f.writeLoop sb i src.length off src with
      | ok r => trivial
      | error e =>
        rintro rfl
        obtain ⟨bn, hbn, hle⟩ := writeLoop_outOfRange htype hrun
        exact absurd (hindices bn hbn) (not_lt.mpr hle)
    refine hloop.seq ?_
    rintro ⟨o, g⟩ -
    refine post_ite.mpr ⟨fun _ => ?_, fun _ => rfl⟩
    refine (updateBlock_post _ _ _).bind (fun _ _ => rfl) ?_
    rintro e ⟨rfl, -⟩
    nofun
  refine ⟨?_, fun herror => hpost.of_error herror rfl, fun g hg => ?_⟩
  · unfold writeiIndices
    rwa [if_neg href]
  · -- a number of bytes is not `-1`
    have hret : cint src.length = -1 := (hpost.of_ok hg).symm
    have hlt : src.length < 2 ^ 31 := by
      unfold MAXMAP BSIZE at hfits
      omega
    rw [cint_of_lt hlt] at hret
    omega

/-! ## A disk with room for every block that `bmap` maps -/

/-- A disk of `20000` blocks. -/
def wideSb : Superblock := { smallSb with size := 20000, nblocks := 19991 }

theorem wideSb_layout : wideSb.Layout := ⟨by decide, by decide, by decide, by decide, by decide⟩

/-- The nine blocks before the data blocks are marked. -/
def wideDisk : Disk := fun b =>
  if b = wideSb.bmapstart then Block.zero.memmove 0 2 fun k => if k = 0 then 0xff else 1
  else Block.zero

/-- An empty regular file, inode `1`. -/
def wideFs : Fs := { smallFs none with disk := wideDisk }

theorem wideFs_ptr (j : ℕ) (t : Slot) : wideFs.ptr j t = 0 := by
  cases t <;> rfl

theorem wideFs_owned : wideFs.Owned wideSb where
  inum_lt j hj := (smallFs_owned none).inum_lt j hj
  meta_marked b hb := by
    have hb : b < 9 := hb
    show marked wideSb wideDisk b = true
    interval_cases b <;> decide
  unshared j k s t _ _ hne := absurd (wideFs_ptr j s) hne
  in_data j s _ hne := absurd (wideFs_ptr j s) hne
  ptr_marked j s _ hne := absurd (wideFs_ptr j s) hne

theorem wideFs_unmarked {b : ℕ} (hb : 9 ≤ b) : marked wideSb wideFs.disk b = false := by
  show (wideDisk (bblock wideSb b)).bit (b % BPB) = false
  have hbblock : bblock wideSb b = b / 4096 + 4 := rfl
  have hstart : wideSb.bmapstart = 4 := rfl
  unfold Block.bit wideDisk
  rw [hbblock, hstart]
  by_cases hfirst : b / 4096 + 4 = 4
  · have hmod : b % BPB = b := Nat.mod_eq_of_lt (by unfold BPB; omega)
    rw [if_pos hfirst, hmod, Block.byte_memmove]
    by_cases hsmall : b < 16
    · interval_cases b <;> decide
    · rw [if_neg (by omega), Block.byte_zero]
      simp
  · rw [if_neg hfirst, Block.byte_zero]
    simp

theorem le_freeBlocks_wideFs : 19991 ≤ freeBlocks wideSb wideFs.disk := by
  have hsub : Finset.Ico 9 20000 ⊆
      (Finset.range wideSb.size).filter fun b => marked wideSb wideFs.disk b = false := by
    intro b hb
    rw [Finset.mem_Ico] at hb
    rw [Finset.mem_filter, Finset.mem_range]
    exact ⟨hb.2, wideFs_unmarked hb.1⟩
  have hcard := Finset.card_le_card hsub
  rwa [Nat.card_Ico] at hcard

/-- All slots of an inode. -/
@[irreducible] def allSlots : Finset Slot :=
  (Finset.univ.image Slot.root ∪ Finset.univ.image Slot.ind) ∪
    (Finset.univ.image Slot.dbl ∪
      Finset.univ.image fun p : Fin NINDIRECT × Fin NINDIRECT => Slot.leaf p.1 p.2)

theorem mem_allSlots (t : Slot) : t ∈ allSlots := by
  unfold allSlots
  cases t <;> simp

theorem card_allSlots_le : allSlots.card ≤ 13 + 128 + (128 + 128 * 128) := by
  unfold allSlots
  refine (Finset.card_union_le _ _).trans (add_le_add ?_ ?_)
  · refine (Finset.card_union_le _ _).trans (add_le_add ?_ ?_)
    · exact Finset.card_image_le.trans (by simp)
    · exact Finset.card_image_le.trans (by simp)
  · refine (Finset.card_union_le _ _).trans (add_le_add ?_ ?_)
    · exact Finset.card_image_le.trans (by simp)
    · exact Finset.card_image_le.trans (by simp [NINDIRECT])

/-- No call needs more blocks than an inode has slots. -/
theorem need_le (f : Fs) (i : ℕ) (T : Finset Slot) :
    f.need i T ≤ 13 + 128 + (128 + 128 * 128) := by
  have hsub : (T.filter fun t => f.ptr i t = 0) ⊆ allSlots := fun t _ => mem_allSlots t
  exact (Finset.card_le_card hsub).trans card_allSlots_le

/-- On this disk a write that is not refused and goes beyond the blocks of `bmap` panics. -/
theorem wideFs_outOfRange (devsw : Devsw) (hout : ¬ InRange off src.length) :
    wideFs.writei wideSb devsw 1 src off = .error outOfRange := by
  unfold InRange at hout
  push Not at hout
  obtain ⟨href, hn, hlt⟩ := hout
  have hlive : wideFs.Live 1 := ⟨by decide, by decide⟩
  have hdev : (wideFs.inode 1).type ≠ T_DEV := by decide
  have hpost : Post (wideFs.writei wideSb devsw 1 src off) _ _ :=
    writei_post wideSb_layout wideFs_owned hlive hdev devsw src
  cases heq : wideFs.writei wideSb devsw 1 src off with
  | ok r =>
    rcases hpost.of_ok heq with ⟨-, hdone⟩ | ⟨-, hlarge⟩
    · exact absurd (hdone.fits hn) (not_le.mpr hlt)
    · exact absurd hlarge (not_lt.mpr href)
  | error e =>
    rcases hpost.of_error heq with hstop | ⟨rfl, -⟩
    · have hfree := (hstop.of_not_tracks (not_tracks_of_none rfl)).2
      have hneed := need_le wideFs 1 (slotsOf (blocksOf off src.length))
      have := le_freeBlocks_wideFs
      omega
    · rfl

/-- **What the size check of `writei` guards**: for an offset and a length, no state, inode and
data make a write reach a block that `bmap` cannot map exactly if the request is refused, is
empty or ends within the `MAXMAP` blocks. -/
theorem guarded_iff (off n : ℕ) :
    (∀ (sb : Superblock) (devsw : Devsw) (f : Fs) (i : ℕ) (src : List UInt8), src.length = n →
      (f.inode i).type ≠ T_DEV → (f.inode i).type ≠ T_EXTENT → Guarded sb devsw f i src off) ↔
      InRange off n := by
  constructor
  · intro hguard
    by_contra hout
    have hlen : (replicate n (0 : UInt8)).length = n := length_replicate
    have hpanic : wideFs.writei wideSb noDevices 1 (replicate n 0) off = .error outOfRange :=
      wideFs_outOfRange noDevices (by rwa [hlen])
    exact (hguard wideSb noDevices wideFs 1 _ hlen (by decide) (by decide)).no_panic hpanic
  · rintro hin sb devsw f i src rfl hdev htype
    exact writei_guarded devsw hdev htype hin

/-- A byte written behind the last block that `bmap` can map. -/
theorem not_guarded_behind : ¬ Guarded smallSb noDevices (smallFs none) 1 [7] (MAXMAP * BSIZE) ∧
    (smallFs none).writei smallSb noDevices 1 [7] (MAXMAP * BSIZE) = .error outOfRange := by
  have hpanic : (smallFs none).writei smallSb noDevices 1 [7] (MAXMAP * BSIZE) =
      .error outOfRange := rfl
  exact ⟨fun h => h.no_panic hpanic, hpanic⟩

end Fs
