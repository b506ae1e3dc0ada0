/-
# What `itrunc` frees

`itrunc` takes the first `NDIRECT` addresses of an inode and the entries of its indirect block
for block numbers and frees these blocks.  It does not look at the type of the inode, nor at its
doubly indirect block.  So it frees exactly the blocks of the file when there is no doubly
indirect block and, for a `T_EXTENT` inode, when the words it takes for block numbers happen to
be the blocks of the extents; as a rule that is an inode without extents.
-/
import Xv6.Buffers

open Function Outcome List

namespace Fs

section Itrunc

variable {sb : Superblock} {f : Fs} {i : ℕ}

/-- After `itrunc`, `B` are the blocks that have been freed, and the inode is empty. -/
def Frees (sb : Superblock) (f : Fs) (i : ℕ) (B : ℕ → Prop) : Prop :=
  ∃ g, f.itrunc sb i = .ok g ∧
    (∀ b, marked sb g.disk b = true ↔ marked sb f.disk b = true ∧ ¬ B b) ∧
    (g.inode i).size = 0 ∧ ∀ k, (g.inode i).addrs k = 0

/-- `itrunc` leaves the address of the doubly indirect block as it is. -/
theorem Frees.doubly_eq_zero {B : ℕ → Prop} (htr : f.Tracks) (hf : Frees sb f i B) :
    (f.inode i).addrs (Fin.last _) = 0 := by
  obtain ⟨g, hg, -, -, haddrs⟩ := hf
  have hempty := (itrunc_emptied sb i fun h => absurd htr h).of_ok hg
  rw [← hempty.cleared.kept (Fin.last _) (Nat.not_succ_le_self NDIRECT), haddrs]

/-- **`itrunc` frees** a set of allocated data blocks exactly when they are the words that it
takes for block numbers, each once, and there is no doubly indirect block. -/
theorem frees_iff (hsb : sb.Layout) (hi : i < sb.ninodes) (htr : f.Tracks)
    (hheld : ∀ b, f.Locked b → sb.dataStart ≤ b) {B : ℕ → Prop}
    (hB : ∀ b, B b → marked sb f.disk b = true ∧ sb.dataStart ≤ b ∧ b < sb.size ∧ ¬ f.Locked b) :
    Frees sb f i B ↔ (f.inode i).addrs (Fin.last _) = 0 ∧ (f.freedWords i).Nodup ∧
      ∀ b, b ∈ f.freedWords i ↔ B b := by
  have hblock := hsb.iblock_lt hi
  have hlow : ∀ b, b < sb.dataStart → ¬ f.Locked b := fun b hb hl => absurd (hheld b hl) (by omega)
  have hpost := itrunc_emptied sb i fun h => absurd htr h
  -- both ways the words are blocks of `B`, and so those of the disk before the call
  have heq : (∀ w ∈ f.directWords i, B w) → (f.indirectAddr i ≠ 0 → B (f.indirectAddr i)) →
      trunced sb f i = f.freedWords i := fun hdirect hind =>
    trunced_eq (fun w hw => (hB w (hdirect w hw)).2.2.1) fun hne => (hB _ (hind hne)).2.1
  constructor
  · intro hf
    refine ⟨hf.doubly_eq_zero htr, ?_⟩
    obtain ⟨g, hg, hmarks, -, -⟩ := hf
    have hempty := hpost.of_ok hg
    have hfree := hempty.freeable
    have hmem : ∀ b, b ∈ trunced sb f i ↔ B b := by
      intro b
      have hb := (hempty.marked_iff hblock b).symm.trans (hmarks b)
      constructor
      · intro hw
        by_contra hn
        exact (hb.mpr ⟨hfree.marked b hw, hn⟩).2 hw
      · intro hBb
        by_contra hn
        exact (hb.mp ⟨(hB b hBb).1, hn⟩).2 hBb
    have hwords := heq (fun w hw => (hmem w).mp (mem_append_left _ hw)) fun hne =>
      (hmem _).mp (mem_append_right _ (indirectAddr_mem _ hne))
    rw [hwords] at hmem hfree
    exact ⟨hfree.nodup, hmem⟩
  · rintro ⟨hlast, hnodup, hmem⟩
    have hwords := heq (fun w hw => (hmem w).mp (mem_append_left _ hw)) fun hne =>
      (hmem _).mp (mem_append_right _ (indirectAddr_mem _ hne))
    have hdata : ∀ w ∈ trunced sb f i, B w := fun w hw => (hmem w).mp (hwords ▸ hw)
    have hfree : f.Freeable sb (trunced sb f i) :=
      ⟨hwords ▸ hnodup, fun w hw => (hB w (hdata w hw)).1, fun w hw =>
        hlow _ (Superblock.bblock_lt (hB w (hdata w hw)).2.2.1)⟩
    have hapart : Apart sb f i (afterDirect sb f i) := by
      intro hne
      have hind := hB _ (hdata _ (mem_append_right _ (indirectAddr_mem _ hne)))
      refine ⟨hind.2.2.2, fun w hw => ?_⟩
      have hw' := hB w (hdata w (mem_append_right _ (entryWords_subset hne hw)))
      exact ((Superblock.bblock_lt hw'.2.2.1).trans_le hind.2.1).ne
    obtain ⟨g, hg, hempty⟩ := hpost.exists_ok fun e he => by
      rcases he with hs | ⟨-, hn | hl⟩
      · exact hs.not_freeable hfree
      · exact hn hapart
      · exact hlow _ (hblock.trans (Superblock.bmapstart_lt sb)) hl
    refine ⟨g, hg, fun b => ?_, hempty.size_eq, fun k => ?_⟩
    · rw [hempty.marked_iff hblock, hwords, hmem]
    · by_cases hk : k.val ≤ NDIRECT
      · exact hempty.cleared.zero k hk
      · have hk' : k = Fin.last _ := Fin.ext (by have := k.isLt; show k.val = NDIRECT + 1; omega)
        rw [hempty.cleared.kept k hk, hk', hlast]

end Itrunc

/-! ## The blocks of a file -/

/-- Block `b` is a block of data or of pointers of inode `i`, as `bmap` maps them. -/
def FileBlock (f : Fs) (i b : ℕ) : Prop :=
  if (f.inode i).type = T_EXTENT then b ∈ f.extentBlocks i else b ≠ 0 ∧ ∃ s, f.ptr i s = b

/-- Ownership of the blocks of a `T_EXTENT` inode: no block is in two places, all are in the
data area and marked, and no buffer of one is locked. -/
structure OwnsExtents (sb : Superblock) (f : Fs) (i : ℕ) : Prop where
  inum_lt : i < sb.ninodes
  nodup : (f.extentBlocks i).Nodup
  in_data : ∀ b ∈ f.extentBlocks i, sb.dataStart ≤ b ∧ b < sb.size
  ext_marked : ∀ b ∈ f.extentBlocks i, marked sb f.disk b = true
  unlocked : ∀ b ∈ f.extentBlocks i, ¬ f.Locked b

section Blocks

variable {sb : Superblock} {f : Fs} {i : ℕ}

/-- Without a doubly indirect block, the words are the block numbers of the slots. -/
theorem mem_freedWords_of_last (hlast : (f.inode i).addrs (Fin.last _) = 0) {w : ℕ} :
    w ∈ f.freedWords i ↔ w ≠ 0 ∧ ∃ s, f.ptr i s = w := by
  rw [mem_freedWords]
  refine and_congr_right fun hw => ⟨fun ⟨s, _, hs⟩ => ⟨s, hs⟩, ?_⟩
  rintro ⟨s, rfl⟩
  refine ⟨s, ?_, rfl⟩
  by_contra hs
  have hbase : s.base = Fin.last _ := Fin.ext (by
    have := s.base.isLt
    show s.base.val = NDIRECT + 1
    omega)
  exact hw (f.ptr_eq_zero i (by rw [hbase, hlast]))

/-- After `itrunc` the blocks of the file are free, no other mark has changed, and the inode is
empty. -/
def FreesFile (sb : Superblock) (f : Fs) (i : ℕ) : Prop := Frees sb f i (f.FileBlock i)

theorem fileBlock_extent (htype : (f.inode i).type = T_EXTENT) (b : ℕ) :
    f.FileBlock i b ↔ b ∈ f.extentBlocks i := by
  unfold FileBlock
  rw [if_pos htype]

theorem fileBlock_plain (htype : (f.inode i).type ≠ T_EXTENT) (b : ℕ) :
    f.FileBlock i b ↔ b ≠ 0 ∧ ∃ s, f.ptr i s = b := by
  unfold FileBlock
  rw [if_neg htype]

end Blocks

/-- **What `itrunc` frees** is the file exactly when there is no doubly indirect block and, for a
`T_EXTENT` inode, when the words taken for block numbers are the blocks of the extents. -/
theorem itrunc_frees_file_iff {sb : Superblock} {f : Fs} {i : ℕ} (hsb : sb.Layout)
    (hown : f.Owned sb) (hext : (f.inode i).type = T_EXTENT → f.OwnsExtents sb i)
    (htr : f.Tracks) (hheld : f.HeldOk sb) (htype : (f.inode i).type ≠ 0) :
    FreesFile sb f i ↔ (f.inode i).addrs (Fin.last _) = 0 ∧
      ((f.inode i).type = T_EXTENT → (f.freedWords i).Perm (f.extentBlocks i)) := by
  by_cases hx : (f.inode i).type = T_EXTENT
  · have hext := hext hx
    have hB : ∀ b, f.FileBlock i b → marked sb f.disk b = true ∧ sb.dataStart ≤ b ∧ b < sb.size ∧
        ¬ f.Locked b := by
      intro b hb
      rw [fileBlock_extent hx] at hb
      exact ⟨hext.ext_marked b hb, (hext.in_data b hb).1, (hext.in_data b hb).2,
        hext.unlocked b hb⟩
    unfold FreesFile
    rw [frees_iff hsb (hext.inum_lt) htr (fun b hb => (hheld b hb).1) hB]
    refine and_congr_right fun _ => ⟨fun ⟨hnodup, hmem⟩ _ => ?_, fun hperm => ?_⟩
    · exact (perm_ext_iff_of_nodup hnodup (hext.nodup)).mpr fun b =>
        (hmem b).trans (fileBlock_extent hx b)
    · exact ⟨(hperm hx).nodup_iff.mpr (hext.nodup), fun b =>
        (hperm hx).mem_iff.trans (fileBlock_extent hx b).symm⟩
  · have hi : f.Live i := ⟨htype, hx⟩
    constructor
    · intro hf
      exact ⟨hf.doubly_eq_zero htr, fun h => absurd h hx⟩
    · rintro ⟨hlast, -⟩
      have hB : ∀ b, f.FileBlock i b → marked sb f.disk b = true ∧ sb.dataStart ≤ b ∧
          b < sb.size ∧ ¬ f.Locked b := by
        intro b hb
        obtain ⟨hne, s, rfl⟩ := (fileBlock_plain hx b).mp hb
        obtain ⟨hdata, hsize⟩ := hown.in_data i s hi hne
        refine ⟨hown.ptr_marked i s hi hne, hdata, hsize, fun hl => ?_⟩
        -- only second-level blocks can be locked, and there are none
        obtain ⟨j, rfl⟩ := (hheld _ hl).2.2.2 i s hi rfl
        exact hne (f.ptr_eq_zero i hlast)
      exact (frees_iff hsb (hown.inum_lt i hi) htr (fun b hb => (hheld b hb).1) hB).mpr
        ⟨hlast, hown.nodup_freedWords hi, fun b =>
          (mem_freedWords_of_last hlast).trans (fileBlock_plain hx b).symm⟩

/-! ## Files that are not freed -/

theorem smallFs_owned_extentSb : (smallFs (some ∅)).Owned extentSb :=
  ⟨(smallFs_owned _).inum_lt, (smallFs_owned _).meta_marked, (smallFs_owned _).unshared,
    fun i s _ hne => absurd (smallFs_ptr _ i s) hne, (smallFs_owned _).ptr_marked⟩

/-- Nothing is locked. -/
theorem smallFs_unlocked (sb : Superblock) : (smallFs (some ∅)).HeldOk sb := by
  rintro b ⟨h, hh, hb⟩
  cases hh
  exact absurd hb (Finset.notMem_empty b)

/-- A file with a doubly indirect block keeps it, and a file of one extent makes `itrunc`
panic: the word of the extent is `1281`, the block is `5`. -/
theorem not_itrunc_frees_file :
    (∃ b g, (smallFs (some ∅)).bmap extentSb 1 NSINGLE = .ok (b, g) ∧ g.Owned extentSb ∧
      g.HeldOk extentSb ∧ ¬ FreesFile extentSb g 1) ∧
    ∃ g, extentFs.bmap extentSb 1 0 = .ok (5, g) ∧ g.OwnsExtents extentSb 1 ∧
      g.itrunc extentSb 1 = .error (.panic "freeing free block") := by
  constructor
  · have hlive : (smallFs (some ∅)).Live 1 := ⟨by decide, by decide⟩
    have hpost := (bmap_post extentSb_layout smallFs_owned_extentSb hlive
      (show NSINGLE < MAXMAP by decide)).and (bmap_takes NSINGLE)
    have hsome : ((smallFs (some ∅)).bmap extentSb 1 NSINGLE).toOption.isSome := by decide +kernel
    obtain ⟨r, hcall⟩ := Option.isSome_iff_exists.mp hsome
    rw [toOption_eq_some] at hcall
    obtain ⟨⟨hdone, -⟩, htakes⟩ := hpost.of_ok hcall
    have hheld := hdone.heldOk (smallFs_unlocked extentSb)
    refine ⟨r.1, r.2, hcall, hdone.own, hheld, fun hf => ?_⟩
    have hlast := hf.doubly_eq_zero (htakes.tracks.mpr nofun)
    exact hdone.full .doubly (by decide) (congrArg UInt32.toNat hlast)
  · have hmap : (extentFs.bmap extentSb 1 0).map Prod.fst = .ok 5 := by decide +kernel
    have hpanic : ((extentFs.bmap extentSb 1 0 >>= fun r => r.2.itrunc extentSb 1).map fun _ => ())
        = .error (.panic "freeing free block") := by decide +kernel
    have hpost := bmap_extent_post extentSb_layout (by decide) extentFs_fresh.built 0
    obtain ⟨⟨b, g⟩, hcall, rfl⟩ := map_eq_ok.mp hmap
    have hgrows : Grows extentSb 1 5 extentFs g := by
      rcases hpost.of_ok hcall with ⟨hfound, -⟩ | ⟨-, hgrows⟩
      · cases hfound
      · exact hgrows
    have hbuilt := hgrows.built
    refine ⟨g, hcall, ⟨hbuilt.inum_lt, hbuilt.nodup, hbuilt.in_data, hbuilt.block_marked, ?_⟩, ?_⟩
    · rintro b - ⟨h, hh, hb⟩
      have hnone : h = ∅ := Option.some.inj (hh.symm.trans hgrows.held)
      rw [hnone] at hb
      exact Finset.notMem_empty b hb
    · rw [hcall] at hpanic
      exact map_eq_error.mp hpanic

/-- The blocks of a file of one block are freed. -/
theorem itrunc_frees_file_block : ∃ b g, (smallFs (some ∅)).bmap extentSb 1 0 = .ok (b, g) ∧
    FreesFile extentSb g 1 := by
  have hlive : (smallFs (some ∅)).Live 1 := ⟨by decide, by decide⟩
  have hpost := (bmap_post extentSb_layout smallFs_owned_extentSb hlive
    (show 0 < MAXMAP by decide)).and (bmap_takes 0)
  have hlast : ((smallFs (some ∅)).bmap extentSb 1 0).map (fun r => (r.2.inode 1).addrs (Fin.last _))
      = .ok 0 := by decide +kernel
  obtain ⟨r, hcall, hlast⟩ := map_eq_ok.mp hlast
  obtain ⟨⟨hdone, -⟩, htakes⟩ := hpost.of_ok hcall
  have htype : (r.2.inode 1).type = T_FILE := htakes.type_eq
  have hplain : (r.2.inode 1).type ≠ T_EXTENT := by
    rw [htype]
    decide
  refine ⟨r.1, r.2, hcall, (itrunc_frees_file_iff extentSb_layout hdone.own
    (fun h => absurd h hplain) (htakes.tracks.mpr nofun)
    (hdone.heldOk (smallFs_unlocked extentSb)) ?_).mpr
    ⟨hlast, fun h => absurd h hplain⟩⟩
  rw [htype]
  decide

end Fs
