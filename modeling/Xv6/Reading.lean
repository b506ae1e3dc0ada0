/-
# Reading what is there

`bmap` is used for reading too, and allocates a block where none is.  If all blocks of a range are
there, it allocates none: `bmap` and `readi` leave the disk and the inodes as they are, and return
the blocks and the bytes.  Nothing is assumed here about who owns the blocks, so that this applies
to any image of a disk.
-/
import Xv6.FileContents

open Outcome

namespace Fs

variable {sb : Superblock} {i : ℕ} {f g h : Fs}

/-- The disk and the inodes are the same. -/
structure Same (f g : Fs) : Prop where
  disk : g.disk = f.disk
  inode : g.inode = f.inode
  tracks : g.Tracks ↔ f.Tracks

theorem Same.refl (f : Fs) : Same f f := ⟨rfl, rfl, Iff.rfl⟩

theorem Same.trans (hfg : Same f g) (hgh : Same g h) : Same f h :=
  ⟨hgh.disk.trans hfg.disk, hgh.inode.trans hfg.inode, hgh.tracks.trans hfg.tracks⟩

theorem same_lock (f : Fs) (b : ℕ) : Same f (f.lock b) := by
  refine ⟨rfl, rfl, not_congr ?_⟩
  show f.held.map _ = none ↔ _
  rw [Option.map_eq_none_iff]

theorem Same.ptr_eq (hfg : Same f g) (i : ℕ) (t : Slot) : g.ptr i t = f.ptr i t := by
  cases t <;> simp only [ptr, hfg.disk, hfg.inode]

theorem Same.content_eq (hfg : Same f g) (i o : ℕ) : g.content i o = f.content i o := by
  unfold content
  rw [hfg.ptr_eq, hfg.disk]

/-- An address that is there. -/
theorem addrAt_of_ne {k : Fin (NDIRECT + 2)} (hk : f.ptr i (.root k) ≠ 0) :
    addrAt sb f i k = .ok (f.ptr i (.root k), f) := by
  unfold addrAt
  rw [if_neg]
  · rfl
  · intro hzero
    refine hk ?_
    show ((f.inode i).addrs k).toNat = 0
    rw [hzero]
    rfl

/-- An entry that is there. -/
theorem entryAt_of_ne {b j : ℕ} (hj : (f.disk b).word j ≠ 0) :
    Post (entryAt sb f b j) (fun r => ¬ f.Locked b ∧ r = ((f.disk b).word j, f.lock b))
      (fun e => e = .blocked ∧ f.Locked b) := by
  refine (bread_post f b).seq ?_
  rintro g ⟨hb, rfl⟩
  rw [lock_disk, if_neg hj]
  exact ⟨hb, rfl⟩

/-- An entry of a block is there only if the block is. -/
theorem childOf_ne_zero {d : Disk} {b j : ℕ} (h : childOf d b j ≠ 0) :
    b ≠ 0 ∧ childOf d b j = (d b).word j := by
  unfold childOf at *
  split at h
  · exact absurd rfl h
  next hb => exact ⟨hb, if_neg hb⟩

/-- **`bmap` of a block that is there** returns it and changes nothing; up to the indirect block it
leaves no buffer locked either. -/
theorem bmap_mapped {bn : ℕ} (hext : (f.inode i).type ≠ T_EXTENT) (hbn : bn < MAXMAP)
    (hmapped : f.ptr i (dataSlot bn) ≠ 0) :
    Post (bmap sb f i bn)
      (fun r => r.1 = f.ptr i (dataSlot bn) ∧ Same f r.2 ∧ (bn < NDIRECT + NINDIRECT → r.2 = f))
      (fun e => e = .blocked ∧ ∃ b, f.Locked b) := by
  unfold bmap
  rw [if_neg hext]
  unfold dataSlot at *
  by_cases hdirect : bn < NDIRECT
  · rw [if_pos hdirect] at hmapped ⊢
    rw [if_pos hdirect, addrAt_of_ne hmapped]
    exact ⟨rfl, Same.refl f, fun _ => rfl⟩
  rw [if_neg hdirect] at hmapped ⊢
  rw [if_neg hdirect]
  by_cases hind : bn - NDIRECT < NINDIRECT
  · rw [if_pos hind] at hmapped ⊢
    rw [if_pos hind]
    have hval : (Fin.ofNat NINDIRECT (bn - NDIRECT)).val = bn - NDIRECT := Nat.mod_eq_of_lt hind
    obtain ⟨hroot, hword⟩ := childOf_ne_zero hmapped
    have hentry : f.ptr i (.ind (Fin.ofNat _ (bn - NDIRECT))) =
        (f.disk (f.ptr i .indirect)).word (bn - NDIRECT) := hword.trans (congrArg _ hval)
    rw [hentry] at hmapped ⊢
    rw [addrAt_of_ne hroot]
    refine (entryAt_of_ne hmapped).bind ?_ (fun e he => ⟨he.1, _, he.2⟩)
    rintro r ⟨hb, rfl⟩
    simp only [brelse_lock hb]
    exact ⟨rfl, Same.refl f, fun _ => rfl⟩
  rw [if_neg hind] at hmapped ⊢
  rw [if_neg hind]
  set q := (bn - NDIRECT - NINDIRECT) / NINDIRECT with hq
  set r := (bn - NDIRECT - NINDIRECT) % NINDIRECT with hr
  have hdbl := doubly_lt hbn
  have hqval : (Fin.ofNat NINDIRECT q).val = q := by
    refine Nat.mod_eq_of_lt ?_
    unfold NDOUBLY_INDIRECT at hdbl
    unfold NINDIRECT at *
    omega
  have hrval : (Fin.ofNat NINDIRECT r).val = r := Nat.mod_eq_of_lt (Nat.mod_lt _ (by norm_num))
  have hleaf : f.ptr i (.leaf (Fin.ofNat _ q) (Fin.ofNat _ r)) =
      childOf f.disk (f.ptr i (.dbl (Fin.ofNat _ q))) (Fin.ofNat NINDIRECT r).val :=
    f.ptr_of_parent i rfl
  have hdouble : f.ptr i (.dbl (Fin.ofNat _ q)) =
      childOf f.disk (f.ptr i .doubly) (Fin.ofNat NINDIRECT q).val := f.ptr_of_parent i rfl
  rw [hrval] at hleaf
  rw [hqval] at hdouble
  rw [hleaf] at hmapped ⊢
  have hword' := (childOf_ne_zero hmapped).2
  have hsecond := (childOf_ne_zero hmapped).1
  rw [hdouble] at hsecond
  have hword := (childOf_ne_zero hsecond).2
  have hroot := (childOf_ne_zero hsecond).1
  rw [hword', hdouble, hword] at hmapped ⊢
  rw [hword] at hsecond
  rw [if_pos hdbl, addrAt_of_ne hroot]
  refine (entryAt_of_ne hsecond).bind ?_ (fun e he => ⟨he.1, _, he.2⟩)
  rintro r' ⟨hb, rfl⟩
  simp only [brelse_lock hb]
  refine (entryAt_of_ne hmapped).mono ?_ (fun e he => ⟨he.1, _, he.2⟩)
  rintro r' ⟨-, rfl⟩
  refine ⟨rfl, same_lock f _, fun hlt => ?_⟩
  unfold NDIRECT NINDIRECT at *
  omega

/-- All blocks of the first `n` bytes of the file are there. -/
def MappedTo (f : Fs) (i n : ℕ) : Prop :=
  ∀ bn, bn * BSIZE < n → bn < MAXMAP ∧ f.ptr i (dataSlot bn) ≠ 0

theorem MappedTo.mono {m n : ℕ} (h : f.MappedTo i n) (hmn : m ≤ n) : f.MappedTo i m :=
  fun bn hbn => h bn (hbn.trans_le hmn)

/-- The blocks up to the last one that is reached without the doubly indirect block. -/
abbrev NEAR : ℕ := (NDIRECT + NINDIRECT) * BSIZE

/-- The loop of `readi`. -/
theorem readLoop_mapped (rounds : ℕ) (f : Fs) (off n : ℕ) (hext : (f.inode i).type ≠ T_EXTENT)
    (hmapped : f.MappedTo i (off + n)) (hrounds : n ≤ rounds) :
    Post (readLoop sb i rounds f off n)
      (fun r => r.1 = (f.file i).read off n ∧ Same f r.2 ∧ (off + n ≤ NEAR → r.2 = f))
      (fun e => e = .blocked ∧ f.Tracks ∧ (off + n ≤ NEAR → ∃ b, f.Locked b)) := by
  induction rounds generalizing f off n with
  | zero =>
    obtain rfl : n = 0 := by omega
    exact ⟨rfl, Same.refl f, fun _ => rfl⟩
  | succ rounds ih =>
    rw [readLoop]
    by_cases hn : n = 0
    · rw [if_pos hn, hn]
      exact ⟨rfl, Same.refl f, fun _ => rfl⟩
    rw [if_neg hn]
    have hr := round_min off hn
    set m := min n (BSIZE - off % BSIZE)
    have hpos := hr.pos
    have hle := hr.le
    have hin := hr.in_block
    obtain ⟨hbn, hptr⟩ := hmapped (off / BSIZE) (by unfold BSIZE; omega)
    have hnear : off + n ≤ NEAR → off / BSIZE < NDIRECT + NINDIRECT := by
      unfold NEAR NDIRECT NINDIRECT BSIZE at *
      omega
    refine (bmap_mapped hext hbn hptr).bind ?_ ?_
    · rintro ⟨b, g⟩ ⟨rfl, hsame, hgf⟩
      have hchunk := chunk_eq_read hbn hptr hr
      rw [← hsame.disk] at hchunk
      refine (bread_post g _).bind ?_ ?_
      · rintro h ⟨hunlocked, rfl⟩
        simp only [brelse_lock hunlocked, lock_disk, hr.next hbn]
        have hrest := ih g (off + m) (n - m) (by rw [hsame.inode]; exact hext)
          (fun bn hlt => ?_) (by omega)
        swap
        · rw [hsame.ptr_eq]
          exact hmapped bn (by omega)
        have hfile : g.file i = f.file i := by
          unfold file
          rw [hsame.inode, funext (hsame.content_eq i)]
        rw [hfile, show off + m + (n - m) = off + n by omega] at hrest
        refine hrest.bind ?_ ?_
        · rintro ⟨rest, h⟩ ⟨hrest, hsame', hgh⟩
          refine ⟨?_, hsame.trans hsame', fun hlt => ?_⟩
          · rw [File.read_split _ _ hle, hchunk]
            exact congrArg _ hrest
          · exact (hgh hlt).trans (hgf (hnear hlt))
        · rintro e ⟨rfl, htracks, hlocked⟩
          refine ⟨rfl, hsame.tracks.mp htracks, fun hlt => ?_⟩
          have hgf' : g = f := hgf (hnear hlt)
          rw [← hgf']
          exact hlocked hlt
      · rintro e ⟨rfl, hlocked⟩
        refine ⟨rfl, hsame.tracks.mp hlocked.tracks, fun hlt => ?_⟩
        have hgf' : g = f := hgf (hnear hlt)
        rw [← hgf']
        exact ⟨_, hlocked⟩
    · rintro e ⟨rfl, b, hlocked⟩
      exact ⟨rfl, hlocked.tracks, fun _ => ⟨b, hlocked⟩⟩

/-- **`readi` of a file whose blocks are there** returns its bytes and changes nothing. -/
theorem readi_mapped (devsw : Devsw) {off n : ℕ} (hdev : (f.inode i).type ≠ T_DEV)
    (hext : (f.inode i).type ≠ T_EXTENT) (hmapped : f.MappedTo i (f.inode i).size.toNat)
    (hoff : off ≤ (f.inode i).size.toNat) (hn : off + n < 2 ^ 32) :
    Post (readi sb devsw f i off n)
      (fun r => r.1 = (cint (min n ((f.inode i).size.toNat - off)),
          (f.file i).read off (min n ((f.inode i).size.toNat - off))) ∧ Same f r.2 ∧
        ((f.inode i).size.toNat ≤ NEAR → r.2 = f))
      (fun e => e = .blocked ∧ f.Tracks ∧
        ((f.inode i).size.toNat ≤ NEAR → ∃ b, f.Locked b)) := by
  have hu : u32 (off + n) = off + n := Nat.mod_eq_of_lt hn
  have hlen : (if (f.inode i).size.toNat < off + n then (f.inode i).size.toNat - off else n) =
      min n ((f.inode i).size.toNat - off) := by
    split <;> omega
  have hle : off + min n ((f.inode i).size.toNat - off) ≤ (f.inode i).size.toNat := by omega
  unfold readi
  simp only [if_neg hdev, hu, hlen]
  rw [if_neg (by omega)]
  refine (readLoop_mapped _ f off _ hext (hmapped.mono hle) le_rfl).bind ?_ ?_
  · rintro ⟨dst, g⟩ ⟨hdst, hsame, hgf⟩
    exact ⟨congrArg _ hdst, hsame, fun hlt => hgf (hle.trans hlt)⟩
  · rintro e ⟨rfl, htracks, hlocked⟩
    exact ⟨rfl, htracks, fun hlt => hlocked (hle.trans hlt)⟩

end Fs
