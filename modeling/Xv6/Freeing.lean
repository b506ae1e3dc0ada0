/-
# Freeing blocks

What `bfree` and `itrunc` do to the disk, in any state and on any inode.  `itrunc` takes the
first `NDIRECT` addresses of an inode and the entries of its indirect block for block numbers
and frees these blocks one after the other; then it clears the addresses.  It returns exactly
when each of the blocks is marked at the time it is freed and no buffer that it needs is locked.
-/
import Xv6.BlockAlloc

open Function Outcome List

/-! ## Clearing marks -/

/-- `d` with the mark of block `b` cleared, as `bfree` does it. -/
def clearMark (sb : Superblock) (d : Disk) (b : ℕ) : Disk :=
  update d (bblock sb b) ((d (bblock sb b)).clearBit (b % BPB))

/-- `d` with the marks of the blocks `ws` cleared. -/
def clearMarks (sb : Superblock) (d : Disk) (ws : List ℕ) : Disk := ws.foldl (clearMark sb) d

theorem marked_clearMarks (sb : Superblock) (d : Disk) (ws : List ℕ) (b : ℕ) :
    marked sb (clearMarks sb d ws) b = true ↔ marked sb d b = true ∧ b ∉ ws := by
  induction ws generalizing d with
  | nil => simp [clearMarks]
  | cons w ws ih =>
    have hclear : marked sb (clearMark sb d w) b = (!decide (b = w) && marked sb d b) :=
      marked_clearBit sb d w b
    show marked sb (clearMarks sb (clearMark sb d w) ws) b = true ↔ _
    rw [ih, hclear, mem_cons]
    by_cases hb : b = w <;> simp [hb]

/-- Only blocks of the bitmap change. -/
theorem clearMarks_of_ne (sb : Superblock) (d : Disk) {ws : List ℕ} {c : ℕ}
    (hc : ∀ w ∈ ws, bblock sb w ≠ c) : clearMarks sb d ws c = d c := by
  induction ws generalizing d with
  | nil => rfl
  | cons w ws ih =>
    show clearMarks sb (clearMark sb d w) ws c = _
    rw [ih _ fun v hv => hc v (mem_cons_of_mem _ hv)]
    exact update_of_ne (hc w mem_cons_self).symm _ _

namespace Fs

/-! ## Freeing one block after the other -/

/-- The blocks `ws` can be freed one after the other. -/
structure Freeable (sb : Superblock) (f : Fs) (ws : List ℕ) : Prop where
  nodup : ws.Nodup
  marked : ∀ w ∈ ws, marked sb f.disk w = true
  unlocked : ∀ w ∈ ws, ¬ f.Locked (bblock sb w)

/-- The blocks `ws` have been freed one after the other. -/
structure Freed (sb : Superblock) (ws : List ℕ) (f g : Fs) : Prop where
  freeable : f.Freeable sb ws
  disk_eq : g.disk = clearMarks sb f.disk ws
  held_eq : g.held = f.held

/-- Why one of the blocks `ws` could not be freed: the buffer of its mark is locked, or they are
not different blocks that are marked. -/
def Unfreed (sb : Superblock) (ws : List ℕ) (f : Fs) (e : Stop) : Prop :=
  (e = .blocked ∧ ∃ w ∈ ws, f.Locked (bblock sb w)) ∨
    (ws.Nodup → ∃ w ∈ ws, marked sb f.disk w = false)

section Freed

variable {sb : Superblock} {f g h : Fs} {xs ys : List ℕ} {e : Stop}

theorem Unfreed.not_freeable (hs : Unfreed sb xs f e) : ¬ f.Freeable sb xs := by
  intro hf
  rcases hs with ⟨-, w, hw, hl⟩ | hmark
  · exact hf.unlocked w hw hl
  · obtain ⟨w, hw, hclear⟩ := hmark hf.nodup
    rw [hf.marked w hw] at hclear
    cases hclear

theorem Unfreed.append (hs : Unfreed sb xs f e) (ys : List ℕ) : Unfreed sb (xs ++ ys) f e := by
  rcases hs with ⟨he, w, hw, hl⟩ | hmark
  · exact Or.inl ⟨he, w, mem_append_left _ hw, hl⟩
  · refine Or.inr fun hnodup => ?_
    obtain ⟨w, hw, hclear⟩ := hmark hnodup.of_append_left
    exact ⟨w, mem_append_left _ hw, hclear⟩

theorem Freed.refl (sb : Superblock) (f : Fs) : Freed sb [] f f :=
  ⟨⟨nodup_nil, nofun, nofun⟩, rfl, rfl⟩

theorem Freed.marked_iff (hfg : Freed sb xs f g) (b : ℕ) :
    marked sb g.disk b = true ↔ marked sb f.disk b = true ∧ b ∉ xs := by
  rw [hfg.disk_eq, marked_clearMarks]

theorem Freed.trans (hfg : Freed sb xs f g) (hgh : Freed sb ys g h) : Freed sb (xs ++ ys) f h where
  freeable := by
    refine ⟨nodup_append.mpr ⟨hfg.freeable.nodup, hgh.freeable.nodup, ?_⟩, fun w hw => ?_,
      fun w hw => ?_⟩
    · rintro x hx _ hy rfl
      exact ((hfg.marked_iff x).mp (hgh.freeable.marked x hy)).2 hx
    · rcases mem_append.mp hw with hw | hw
      · exact hfg.freeable.marked w hw
      · exact ((hfg.marked_iff w).mp (hgh.freeable.marked w hw)).1
    · rcases mem_append.mp hw with hw | hw
      · exact hfg.freeable.unlocked w hw
      · exact mt (locked_congr hfg.held_eq _).mpr (hgh.freeable.unlocked w hw)
  disk_eq := by
    rw [hgh.disk_eq, hfg.disk_eq]
    unfold clearMarks
    rw [foldl_append]
  held_eq := hgh.held_eq.trans hfg.held_eq

/-- What stops after some blocks were freed stops for a reason that was there before. -/
theorem Freed.unfreed (hfg : Freed sb xs f g) (hs : Unfreed sb ys g e) : Unfreed sb (xs ++ ys) f e := by
  rcases hs with ⟨he, w, hw, hl⟩ | hmark
  · exact Or.inl ⟨he, w, mem_append_right _ hw, (locked_congr hfg.held_eq _).mp hl⟩
  · refine Or.inr fun hnodup => ?_
    obtain ⟨-, hys, hne⟩ := nodup_append.mp hnodup
    obtain ⟨w, hw, hclear⟩ := hmark hys
    refine ⟨w, mem_append_right _ hw, eq_false_of_ne_true fun hmark => ?_⟩
    rw [(hfg.marked_iff w).mpr ⟨hmark, fun hx => hne w hx w hw rfl⟩] at hclear
    cases hclear

/-- `bfree` returns exactly when the block can be freed. -/
theorem bfree_freed (sb : Superblock) (f : Fs) (b : ℕ) :
    Post (f.bfree sb b) (fun g => Freed sb [b] f g ∧ g.inode = f.inode) (Unfreed sb [b] f) := by
  unfold bfree
  refine (bread_post f _).bind ?_ fun e he => Or.inl ⟨he.1, b, mem_cons_self, he.2⟩
  rintro g ⟨hunlocked, rfl⟩
  refine post_ite.mpr ⟨fun hbit => Or.inr fun _ => ⟨b, mem_cons_self, hbit⟩, fun hbit => ?_⟩
  refine post_ok.mpr ⟨⟨⟨nodup_singleton b, ?_, ?_⟩, rfl, held_brelse hunlocked rfl⟩, rfl⟩
  · intro w hw
    rw [mem_singleton.mp hw]
    exact eq_true_of_ne_false hbit
  · intro w hw
    rwa [mem_singleton.mp hw]

end Freed

/-! ## Clearing addresses -/

/-- The addresses `C` of inode `i` have been cleared; nothing else about its addresses, its type
and the other inodes has changed. -/
structure AddrsCleared (i : ℕ) (C : Set (Fin (NDIRECT + 2))) (f g : Fs) : Prop where
  others : ∀ j, j ≠ i → g.inode j = f.inode j
  type_eq : (g.inode i).type = (f.inode i).type
  zero : ∀ k ∈ C, (g.inode i).addrs k = 0
  kept : ∀ k ∉ C, (g.inode i).addrs k = (f.inode i).addrs k

namespace AddrsCleared

variable {i : ℕ} {C D : Set (Fin (NDIRECT + 2))} {f g h : Fs}

theorem of_inode (h : g.inode = f.inode) : AddrsCleared i ∅ f g := by
  refine ⟨fun j _ => ?_, ?_, nofun, fun k _ => ?_⟩ <;> rw [h]

theorem trans (hfg : AddrsCleared i C f g) (hgh : AddrsCleared i D g h) : AddrsCleared i (C ∪ D) f h where
  others j hj := (hgh.others j hj).trans (hfg.others j hj)
  type_eq := hgh.type_eq.trans hfg.type_eq
  zero k hk := by
    by_cases hD : k ∈ D
    · exact hgh.zero k hD
    · rw [hgh.kept k hD]
      exact hfg.zero k (hk.resolve_right hD)
  kept k hk := (hgh.kept k fun hD => hk (Or.inr hD)).trans (hfg.kept k fun hC => hk (Or.inl hC))

/-- An address that is zero already. -/
theorem of_zero {k : Fin (NDIRECT + 2)} (hk : (f.inode i).addrs k = 0) : AddrsCleared i {k} f f :=
  ⟨fun _ _ => rfl, rfl, fun _ hl => hl ▸ hk, fun _ _ => rfl⟩

theorem setAddr (i : ℕ) (f : Fs) (k : Fin (NDIRECT + 2)) : AddrsCleared i {k} f (f.setAddr i k 0) := by
  have hself : ((f.setAddr i k 0).inode i).addrs = update (f.inode i).addrs k 0 := by
    simp [Fs.setAddr]
  refine ⟨fun j hj => setInode_inode_of_ne _ _ hj, by simp [Fs.setAddr], fun l hl => ?_,
    fun l hl => ?_⟩
  · rw [hself, hl, update_self]
  · rw [hself, update_of_ne hl]

theorem live_iff (hfg : AddrsCleared i C f g) (j : ℕ) : g.Live j ↔ f.Live j := by
  unfold Live
  by_cases hj : j = i
  · rw [hj, hfg.type_eq]
  · rw [hfg.others j hj]

end AddrsCleared

/-! ## The words that are taken for block numbers -/

/-- The words that are not zero. -/
def nonzero (ws : List ℕ) : List ℕ := ws.filter (· ≠ 0)

theorem mem_nonzero {ws : List ℕ} {w : ℕ} : w ∈ nonzero ws ↔ w ∈ ws ∧ w ≠ 0 := by
  simp [nonzero]

theorem nonzero_concat (ws : List ℕ) (w : ℕ) :
    nonzero (ws ++ [w]) = if w = 0 then nonzero ws else nonzero ws ++ [w] := by
  unfold nonzero
  rw [filter_append]
  by_cases hw : w = 0 <;> simp [hw]

theorem nonzero_append_cons {α : Type*} {p : α → ℕ} (xs : List α) {a : α} (ha : p a ≠ 0)
    {ys : List α} : nonzero ((xs ++ a :: ys).map p) =
      nonzero (xs.map p) ++ ([p a] ++ nonzero (ys.map p)) := by
  unfold nonzero
  rw [map_append, map_cons, filter_append, filter_cons, if_pos (by simpa using ha)]
  rfl

theorem nodup_nonzero_map {α : Type*} {l : List α} {p : α → ℕ} (hl : l.Nodup)
    (hinj : ∀ a ∈ l, ∀ b ∈ l, p a ≠ 0 → p a = p b → a = b) : (nonzero (l.map p)).Nodup := by
  unfold nonzero
  rw [filter_map]
  refine List.Nodup.map_on ?_ (hl.filter _)
  intro a ha b hb heq
  obtain ⟨ha, hne⟩ := mem_filter.mp ha
  exact hinj a ha b (mem_of_mem_filter hb) (by simpa using hne) heq

/-- `addrs[k]` for `k` below `NDIRECT`. -/
def directAddr (f : Fs) (i : ℕ) (k : Fin NDIRECT) : ℕ :=
  ((f.inode i).addrs (k.castLE direct_le)).toNat

/-- `addrs[NDIRECT]`. -/
def indirectAddr (f : Fs) (i : ℕ) : ℕ := ((f.inode i).addrs (Fin.ofNat _ NDIRECT)).toNat

/-- What the first loop of `itrunc` frees. -/
def directWords (f : Fs) (i : ℕ) : List ℕ := nonzero ((finRange NDIRECT).map (f.directAddr i))

/-- What the second loop of `itrunc` frees, for the block `b` on the disk `d`. -/
def entryWords (d : Disk) (b : ℕ) : List ℕ := nonzero ((range NINDIRECT).map (d b).word)

/-- What `itrunc` frees on the disk `d` after the first loop. -/
def indirectWords (f : Fs) (i : ℕ) (d : Disk) : List ℕ :=
  if f.indirectAddr i = 0 then [] else entryWords d (f.indirectAddr i) ++ [f.indirectAddr i]

/-- The words that `itrunc` takes for block numbers. -/
def freedWords (f : Fs) (i : ℕ) : List ℕ := f.directWords i ++ f.indirectWords i f.disk

/-- The disk after the first loop of `itrunc`. -/
def afterDirect (sb : Superblock) (f : Fs) (i : ℕ) : Disk := clearMarks sb f.disk (f.directWords i)

section Loops

variable {sb : Superblock} {f g : Fs} {i : ℕ}

/-- The first loop frees the direct blocks and clears their addresses. -/
theorem itruncDirects_freed (sb : Superblock) (f : Fs) (i : ℕ) :
    Post ((finRange NDIRECT).foldlM (itruncDirect sb i) f)
      (fun g => Freed sb (f.directWords i) f g ∧ AddrsCleared i {k | k.val < NDIRECT} f g)
      (Unfreed sb (f.directWords i) f) := by
  refine (Post.foldlM (I := fun before g => Freed sb (nonzero (before.map (f.directAddr i))) f g ∧
    AddrsCleared i {k | ∃ l ∈ before, l.castLE direct_le = k} f g) _ ?_ ?_).imp ?_
  · intro before k after hlist g ⟨hfreed, hclear⟩
    have hnodup : (before ++ k :: after).Nodup := hlist ▸ nodup_finRange _
    have hk : ¬ ∃ l ∈ before, l.castLE direct_le = k.castLE direct_le := by
      rintro ⟨l, hl, heq⟩
      rw [Fin.castLE_injective direct_le heq] at hl
      exact (nodup_append.mp hnodup).2.2 k hl k mem_cons_self rfl
    have haddr := hclear.kept _ hk
    have hnext : {m : Fin (NDIRECT + 2) | ∃ l ∈ before ++ [k], l.castLE direct_le = m} =
        {m | ∃ l ∈ before, l.castLE direct_le = m} ∪ {k.castLE direct_le} := by
      ext m
      simp only [mem_append, mem_singleton, or_and_right, exists_or, exists_eq_left]
      exact or_congr_right eq_comm
    unfold itruncDirect
    rw [map_append, map_singleton, nonzero_concat, hnext]
    refine post_ite.mpr ⟨fun hzero => ?_, fun hne => ?_⟩
    · have hword : f.directAddr i k = 0 := congrArg UInt32.toNat (haddr.symm.trans hzero)
      rw [if_pos hword]
      exact ⟨hfreed, hclear.trans (.of_zero hzero)⟩
    · have hword : f.directAddr i k = ((g.inode i).addrs (k.castLE direct_le)).toNat :=
        congrArg UInt32.toNat haddr.symm
      have hne' : f.directAddr i k ≠ 0 := fun h0 => hne (UInt32.toNat_inj.mp (hword.symm.trans h0))
      rw [if_neg hne', ← hword]
      refine (bfree_freed sb g _).bind ?_ fun e he => ?_
      · rintro h ⟨hone, hinode⟩
        have hset : Freed sb [f.directAddr i k] g
            (h.setAddr i (k.castLE direct_le) 0) := ⟨hone.freeable, hone.disk_eq, hone.held_eq⟩
        refine ⟨hfreed.trans hset, hclear.trans ?_⟩
        have hboth := (AddrsCleared.of_inode hinode).trans (AddrsCleared.setAddr i h (k.castLE direct_le))
        rwa [Set.empty_union] at hboth
      · unfold directWords
        rw [← hlist, nonzero_append_cons _ hne', ← append_assoc]
        exact (hfreed.unfreed he).append _
  · refine ⟨Freed.refl sb f, ?_⟩
    simpa using AddrsCleared.of_inode (i := i) (f := f) rfl
  · rintro g ⟨hfreed, hclear⟩
    have hall : {k : Fin (NDIRECT + 2) | ∃ l ∈ finRange NDIRECT, l.castLE direct_le = k} =
        {k | k.val < NDIRECT} := by
      ext k
      exact ⟨fun ⟨l, _, hl⟩ => hl ▸ l.isLt, fun hk => ⟨⟨k, hk⟩, mem_finRange _, rfl⟩⟩
    rw [hall] at hclear
    exact ⟨hfreed, hclear⟩

/-- The second loop frees the entries of the indirect block.  They do not change in the loop: the
buffer of the block is locked, or no mark is in it. -/
theorem itruncEntries_freed {b : ℕ}
    (hb : ¬ g.Tracks → ∀ w ∈ entryWords g.disk b, bblock sb w ≠ b) :
    Post ((range NINDIRECT).foldlM (itruncEntry sb b) (g.lock b))
      (fun h => Freed sb (entryWords g.disk b) (g.lock b) h ∧ h.inode = g.inode)
      (Unfreed sb (entryWords g.disk b) (g.lock b)) := by
  refine Post.foldlM (I := fun before h =>
    Freed sb (nonzero (before.map (g.disk b).word)) (g.lock b) h ∧ h.inode = g.inode) _ ?_
    ⟨Freed.refl sb _, rfl⟩
  intro before j after hlist h ⟨hfreed, hinode⟩
  have hsame : h.disk b = g.disk b := by
    rw [hfreed.disk_eq]
    refine clearMarks_of_ne sb _ fun w hw heq => ?_
    by_cases htr : g.Tracks
    · exact hfreed.freeable.unlocked w hw ((locked_lock g b _).mpr (Or.inr ⟨htr, heq⟩))
    · refine hb htr w ?_ heq
      unfold entryWords
      rw [← hlist, map_append, nonzero, filter_append]
      exact mem_append_left _ hw
  unfold itruncEntry
  rw [hsame, map_append, map_singleton, nonzero_concat]
  refine post_ite.mpr ⟨fun hzero => ?_, fun hne => ?_⟩
  · rw [if_pos hzero]
    exact ⟨hfreed, hinode⟩
  · rw [if_neg hne]
    refine (bfree_freed sb h _).mono ?_ fun e he => ?_
    · rintro k ⟨hone, hinode'⟩
      exact ⟨hfreed.trans hone, hinode'.trans hinode⟩
    · unfold entryWords
      rw [← hlist, nonzero_append_cons _ hne, ← append_assoc]
      exact (hfreed.unfreed he).append _

/-- The indirect block can be locked, and its entries do not have their marks in it. -/
def Apart (sb : Superblock) (f : Fs) (i : ℕ) (d : Disk) : Prop :=
  f.indirectAddr i ≠ 0 → ¬ f.Locked (f.indirectAddr i) ∧
    ∀ w ∈ entryWords d (f.indirectAddr i), bblock sb w ≠ f.indirectAddr i

/-- The part of `itrunc` after the first loop frees the indirect block and its entries. -/
theorem itruncIndirect_freed (sb : Superblock) (hb : ¬ g.Tracks → Apart sb g i g.disk) :
    Post (g.itruncIndirect sb i)
      (fun h => Freed sb (g.indirectWords i g.disk) g h ∧ AddrsCleared i {k | k.val = NDIRECT} g h)
      (fun e => Unfreed sb (g.indirectWords i g.disk) g e ∨ e = .blocked ∧ ¬ Apart sb g i g.disk) := by
  have hset : {k : Fin (NDIRECT + 2) | k.val = NDIRECT} = {Fin.ofNat (NDIRECT + 2) NDIRECT} := by
    ext k
    exact ⟨fun hk => Fin.ext hk, fun hk => congrArg Fin.val hk⟩
  unfold itruncIndirect indirectWords
  rw [hset]
  refine post_ite.mpr ⟨fun hzero => ?_, fun hne => ?_⟩
  · have hword : g.indirectAddr i = 0 := congrArg UInt32.toNat hzero
    rw [if_pos hword]
    exact ⟨Freed.refl sb g, .of_zero hzero⟩
  · have hword : g.indirectAddr i ≠ 0 := fun h0 => hne (UInt32.toNat_inj.mp h0)
    have hapart : Apart sb g i g.disk ↔ ¬ g.Locked (g.indirectAddr i) ∧
        ∀ w ∈ entryWords g.disk (g.indirectAddr i), bblock sb w ≠ g.indirectAddr i :=
      ⟨fun h => h hword, fun h _ => h⟩
    rw [if_neg hword]
    rw [hapart] at hb ⊢
    change Post (do
      let f ← g.bread (g.indirectAddr i)
      let f ← (range NINDIRECT).foldlM (itruncEntry sb (g.indirectAddr i)) f
      let f ← bfree sb (f.brelse (g.indirectAddr i)) (g.indirectAddr i)
      .ok (f.setAddr i (Fin.ofNat (NDIRECT + 2) NDIRECT) 0)) _ _
    generalize g.indirectAddr i = b at *
    refine (bread_post g b).bind ?_ fun e he => Or.inr ⟨he.1, fun h => h.1 he.2⟩
    rintro _ ⟨hunlocked, rfl⟩
    refine (itruncEntries_freed fun htr => (hb htr).2).bind ?_ fun e he => ?_
    · rintro h ⟨hfreed, hinode⟩
      have hentries : Freed sb (entryWords g.disk b) g (h.brelse b) := by
        refine ⟨⟨hfreed.freeable.nodup, hfreed.freeable.marked, fun w hw hl => ?_⟩,
          hfreed.disk_eq, held_brelse hunlocked hfreed.held_eq⟩
        exact hfreed.freeable.unlocked w hw ((locked_lock g b _).mpr (Or.inl hl))
      refine (bfree_freed sb (h.brelse b) b).bind ?_ fun e he => Or.inl (hentries.unfreed he)
      rintro k ⟨hone, hinode'⟩
      have hset : Freed sb [b] (h.brelse b) (k.setAddr i (Fin.ofNat (NDIRECT + 2) NDIRECT) 0) :=
        ⟨hone.freeable, hone.disk_eq, hone.held_eq⟩
      refine ⟨hentries.trans hset, ?_⟩
      have hboth := (AddrsCleared.of_inode (hinode'.trans hinode)).trans
        (AddrsCleared.setAddr i k (Fin.ofNat (NDIRECT + 2) NDIRECT))
      rwa [Set.empty_union] at hboth
    · rcases he with ⟨rfl, w, hw, hl⟩ | hmark
      · rcases (locked_lock g b _).mp hl with hl | ⟨-, heq⟩
        · exact Or.inl (Unfreed.append (Or.inl ⟨rfl, w, hw, hl⟩) _)
        · exact Or.inr ⟨rfl, fun h => h.2 w hw heq⟩
      · exact Or.inl (Unfreed.append (f := g) (Or.inr hmark) _)

end Loops

/-! ## `itrunc` -/

/-- The inode has been emptied, with the blocks `ws` freed. -/
structure Emptied (sb : Superblock) (i : ℕ) (ws : List ℕ) (f g : Fs) : Prop where
  freeable : f.Freeable sb ws
  held_eq : g.held = f.held
  disk_eq : ∀ b, b ≠ iblock sb i → g.disk b = clearMarks sb f.disk ws b
  size_eq : (g.inode i).size = 0
  cleared : AddrsCleared i {k | k.val ≤ NDIRECT} f g

section Itrunc

variable {sb : Superblock} {f g : Fs} {i : ℕ} {ws : List ℕ}

/-- The marks are not in a block of inodes. -/
theorem Emptied.marked_iff (h : Emptied sb i ws f g) (hblock : iblock sb i < sb.bmapstart) (b : ℕ) :
    marked sb g.disk b = true ↔ marked sb f.disk b = true ∧ b ∉ ws := by
  have hb : bblock sb b ≠ iblock sb i :=
    (hblock.trans_le (Superblock.bmapstart_le_bblock sb b)).ne'
  rw [← marked_clearMarks]
  exact iff_of_eq (congrArg (· = true) (marked_congr (h.disk_eq _ hb)))

/-- What `itrunc` frees: the first loop may change the indirect block before it is read. -/
def trunced (sb : Superblock) (f : Fs) (i : ℕ) : List ℕ :=
  f.directWords i ++ f.indirectWords i (afterDirect sb f i)

/-- `itrunc` returns exactly when the words can be freed and the buffers can be locked. -/
theorem itrunc_emptied (sb : Superblock) (i : ℕ)
    (hb : ¬ f.Tracks → Apart sb f i (afterDirect sb f i)) :
    Post (f.itrunc sb i) (Emptied sb i (trunced sb f i) f)
      (fun e => Unfreed sb (trunced sb f i) f e ∨ e = .blocked ∧
        (¬ Apart sb f i (afterDirect sb f i) ∨ f.Locked (iblock sb i))) := by
  unfold itrunc
  refine (itruncDirects_freed sb f i).bind ?_ fun e he => Or.inl (he.append _)
  rintro g ⟨hdirect, hclear⟩
  have hind : g.indirectAddr i = f.indirectAddr i :=
    congrArg UInt32.toNat (hclear.kept _ (lt_irrefl NDIRECT))
  have hwords : g.indirectWords i g.disk = f.indirectWords i (afterDirect sb f i) := by
    unfold indirectWords afterDirect
    rw [hind, hdirect.disk_eq]
  have hapart : Apart sb g i g.disk ↔ Apart sb f i (afterDirect sb f i) := by
    unfold Apart afterDirect
    rw [hind, hdirect.disk_eq, locked_congr hdirect.held_eq]
  have hpost := itruncIndirect_freed sb (g := g) (i := i) fun htr =>
    hapart.mpr (hb (mt (tracks_congr hdirect.held_eq).mpr htr))
  rw [hwords, hapart] at hpost
  refine hpost.bind ?_ ?_
  · rintro h ⟨hindirect, hclear'⟩
    have hfreed : Freed sb (trunced sb f i) f h := hdirect.trans hindirect
    have hsize : AddrsCleared i ∅ h (h.setSize i 0) :=
      ⟨fun j hj => setInode_inode_of_ne _ _ hj, by simp [setSize], nofun, fun k _ => by simp [setSize]⟩
    have hcleared := (hclear.trans hclear').trans hsize
    have hle : {k : Fin (NDIRECT + 2) | k.val < NDIRECT} ∪ {k | k.val = NDIRECT} =
        {k | k.val ≤ NDIRECT} := by
      ext k
      exact (Nat.le_iff_lt_or_eq (n := k.val)).symm
    rw [Set.union_empty, hle] at hcleared
    refine (updateBlock_post _ _ _).mono ?_ fun e he =>
      Or.inr ⟨he.1, Or.inr ((locked_congr (g := h.setSize i 0) hfreed.held_eq _).mp he.2)⟩
    rintro k ⟨-, rfl⟩
    refine ⟨hfreed.freeable, hfreed.held_eq, fun b hb => ?_, ?_, ?_⟩
    · rw [← hfreed.disk_eq]
      exact update_of_ne hb _ _
    · show ((h.setSize i 0).inode i).size = 0
      unfold setSize
      rw [setInode_inode_self]
    · exact ⟨hcleared.others, hcleared.type_eq, hcleared.zero, hcleared.kept⟩
  · rintro e (he | ⟨rfl, he⟩)
    · exact Or.inl (hdirect.unfreed he)
    · exact Or.inr ⟨rfl, Or.inl he⟩

/-- Where the words are blocks of data, the first loop does not change the indirect block. -/
theorem trunced_eq (hdirect : ∀ w ∈ f.directWords i, w < sb.size)
    (hind : f.indirectAddr i ≠ 0 → sb.dataStart ≤ f.indirectAddr i) :
    trunced sb f i = f.freedWords i := by
  unfold trunced freedWords indirectWords
  by_cases hzero : f.indirectAddr i = 0
  · rw [if_pos hzero, if_pos hzero]
  · have hsame : afterDirect sb f i (f.indirectAddr i) = f.disk (f.indirectAddr i) :=
      clearMarks_of_ne sb _ fun w hw =>
        ((Superblock.bblock_lt (hdirect w hw)).trans_le (hind hzero)).ne
    unfold entryWords
    rw [hsame]

theorem entryWords_subset {d : Disk} (hne : f.indirectAddr i ≠ 0) :
    entryWords d (f.indirectAddr i) ⊆ f.indirectWords i d := by
  unfold indirectWords
  rw [if_neg hne]
  exact fun w hw => mem_append_left _ hw

theorem indirectAddr_mem (d : Disk) (hne : f.indirectAddr i ≠ 0) :
    f.indirectAddr i ∈ f.indirectWords i d := by
  unfold indirectWords
  rw [if_neg hne]
  exact mem_append_right _ (mem_singleton_self _)

end Itrunc

end Fs
