/-
# Ownership of blocks over whole runs

Every call of `fs.c` that allocates or frees blocks keeps the ownership of blocks.  Allocating
calls are `Change`s.  The words that `itrunc` takes for block numbers are those in slots of the
inode; after the call these slots are empty and there are only fewer pointers.  In particular a
block that is freed is always marked.
-/
import Xv6.Freeing
import Xv6.WriteRead
import Xv6.Runs

open Function Outcome List

/-! ## Fewer pointers -/

variable {sb : Superblock}

/-- Ownership is kept by a step after which there are only fewer pointers. -/
theorem Fs.Owned.of_fewer {f g : Fs}
    (unshared : ∀ i j s t, f.Live i → f.Live j → f.ptr i s ≠ 0 → f.ptr i s = f.ptr j t →
      i = j ∧ s = t)
    (in_data : ∀ i s, f.Live i → f.ptr i s ≠ 0 → sb.dataStart ≤ f.ptr i s ∧ f.ptr i s < sb.size)
    (inum_lt : ∀ j, g.Live j → j < sb.ninodes)
    (meta_marked : ∀ b, b < sb.dataStart → marked sb g.disk b = true)
    (fewer : ∀ j t, g.Live j → g.ptr j t ≠ 0 →
      f.Live j ∧ g.ptr j t = f.ptr j t ∧ marked sb g.disk (f.ptr j t) = true) : g.Owned sb where
  inum_lt := inum_lt
  meta_marked := meta_marked
  unshared i j s t hi hj hne heq := by
    obtain ⟨hi', hs, -⟩ := fewer i s hi hne
    obtain ⟨hj', ht, -⟩ := fewer j t hj (heq ▸ hne)
    rw [hs] at hne heq
    rw [ht] at heq
    exact unshared i j s t hi' hj' hne heq
  in_data i s hi hne := by
    obtain ⟨hi', hs, -⟩ := fewer i s hi hne
    rw [hs] at hne ⊢
    exact in_data i s hi' hne
  ptr_marked i s hi hne := by
    obtain ⟨-, hs, hmark⟩ := fewer i s hi hne
    rw [hs]
    exact hmark

/-! ## `itrunc` -/

section Truncate

variable {sb : Superblock} {i : ℕ} {f g : Fs}

namespace Fs

theorem mem_directWords {w : ℕ} :
    w ∈ f.directWords i ↔ w ≠ 0 ∧ ∃ k : Fin NDIRECT, f.ptr i (.root (k.castLE (by norm_num))) = w := by
  unfold directWords
  rw [mem_nonzero, and_comm]
  refine and_congr_right fun _ => ?_
  rw [mem_map]
  exact ⟨fun ⟨k, _, hk⟩ => ⟨k, hk⟩, fun ⟨k, hk⟩ => ⟨k, mem_finRange k, hk⟩⟩

theorem mem_indirectWords {w : ℕ} :
    w ∈ f.indirectWords i f.disk ↔ w ≠ 0 ∧ (f.ptr i .indirect = w ∨ ∃ j, f.ptr i (.ind j) = w) := by
  have hchild : ∀ j : Fin NINDIRECT,
      f.ptr i (.ind j) = childOf f.disk (f.indirectAddr i) j := fun _ => rfl
  have hroot : f.ptr i .indirect = f.indirectAddr i := rfl
  unfold indirectWords
  by_cases hzero : f.indirectAddr i = 0
  · rw [if_pos hzero, hroot, hzero]
    simp only [hchild, childOf, hzero, if_true, not_mem_nil, false_iff]
    rintro ⟨hw, rfl | ⟨_, rfl⟩⟩
    · exact hw rfl
    · exact hw rfl
  · rw [if_neg hzero, mem_append, mem_singleton, hroot]
    unfold entryWords
    rw [mem_nonzero, mem_map]
    simp only [hchild, childOf, hzero, if_false, mem_range]
    constructor
    · rintro (⟨⟨j, hj, rfl⟩, hw⟩ | rfl)
      · exact ⟨hw, Or.inr ⟨⟨j, hj⟩, rfl⟩⟩
      · exact ⟨hzero, Or.inl rfl⟩
    · rintro ⟨hw, rfl | ⟨j, rfl⟩⟩
      · exact Or.inr rfl
      · exact Or.inl ⟨⟨j, j.isLt, rfl⟩, hw⟩

/-- The words are the block numbers of the slots that are not reached from the doubly indirect
block. -/
theorem mem_freedWords {w : ℕ} :
    w ∈ f.freedWords i ↔ w ≠ 0 ∧ ∃ s : Slot, s.base.val ≤ NDIRECT ∧ f.ptr i s = w := by
  unfold freedWords
  rw [mem_append, mem_directWords, mem_indirectWords, ← and_or_left]
  refine and_congr_right fun hw => ⟨?_, ?_⟩
  · rintro (⟨k, hk⟩ | hk | ⟨j, hj⟩)
    · exact ⟨.root (k.castLE (by norm_num)), k.isLt.le, hk⟩
    · exact ⟨.indirect, le_rfl, hk⟩
    · exact ⟨.ind j, le_rfl, hj⟩
  · rintro ⟨s, hs, rfl⟩
    cases s with
    | root k =>
      rcases hs.lt_or_eq with hk | hk
      · exact Or.inl ⟨⟨k, hk⟩, rfl⟩
      · have hk' : k = Fin.ofNat (NDIRECT + 2) NDIRECT := Fin.ext hk
        exact Or.inr (Or.inl (by rw [hk']))
    | ind j => exact Or.inr (Or.inr ⟨j, rfl⟩)
    | dbl j => exact absurd hs (Nat.not_succ_le_self NDIRECT)
    | leaf j l => exact absurd hs (Nat.not_succ_le_self NDIRECT)

/-- No block number stands twice among the words of an inode that owns its blocks. -/
theorem Owned.nodup_freedWords (hown : f.Owned sb) (hi : f.Live i) : (f.freedWords i).Nodup := by
  have hinj : ∀ s t : Slot, f.ptr i s ≠ 0 → f.ptr i s = f.ptr i t → s = t := fun s t hs heq =>
    (hown.unshared i i s t hi hi hs heq).2
  have hdisj : ∀ w ∈ f.directWords i, ∀ v ∈ f.indirectWords i f.disk, w ≠ v := by
    rintro w hw v hv rfl
    obtain ⟨hne, k, hk⟩ := mem_directWords.mp hw
    rcases (mem_indirectWords.mp hv).2 with hv | ⟨j, hv⟩
    · have heq := Slot.root.inj (hinj _ _ (hk.trans_ne hne) (hk.trans hv.symm))
      exact absurd (congrArg Fin.val heq) k.isLt.ne
    · exact Slot.noConfusion (hinj _ _ (hk.trans_ne hne) (hk.trans hv.symm))
  refine nodup_append.mpr ⟨?_, ?_, hdisj⟩
  · refine nodup_nonzero_map (nodup_finRange _) fun k _ l _ hne heq => ?_
    exact Fin.castLE_injective (by norm_num) (Slot.root.inj (hinj _ _ hne heq))
  · unfold indirectWords
    by_cases hzero : f.indirectAddr i = 0
    · rw [if_pos hzero]
      exact nodup_nil
    · have hword : ∀ j : Fin NINDIRECT, f.ptr i (.ind j) = (f.disk (f.indirectAddr i)).word j :=
        fun j => if_neg hzero
      rw [if_neg hzero]
      refine nodup_append.mpr ⟨?_, nodup_singleton _, ?_⟩
      · refine nodup_nonzero_map nodup_range fun j hj l hl hne heq => ?_
        have hj' := hword ⟨j, mem_range.mp hj⟩
        have hl' := hword ⟨l, mem_range.mp hl⟩
        exact Fin.val_eq_of_eq (Slot.ind.inj (hinj _ _ (hj'.trans_ne hne)
          (hj'.trans (heq.trans hl'.symm))))
      · intro w hw v hv heq
        obtain ⟨hmem, hne⟩ := mem_nonzero.mp hw
        obtain ⟨j, hj, rfl⟩ := mem_map.mp hmem
        have hj' := hword ⟨j, mem_range.mp hj⟩
        rw [mem_singleton.mp hv] at heq
        exact Slot.noConfusion (hinj _ .indirect (hj'.trans_ne hne) (hj'.trans heq))

/-- The words that `itrunc` frees are blocks of the inode in the data area. -/
theorem Owned.trunced_eq (hown : f.Owned sb) (hi : f.Live i) : trunced sb f i = f.freedWords i := by
  refine Fs.trunced_eq (fun w hw => ?_) fun hne => (hown.in_data i .indirect hi hne).1
  obtain ⟨hne, k, rfl⟩ := mem_directWords.mp hw
  exact (hown.in_data i _ hi hne).2

/-- Emptying an inode that owns its blocks keeps ownership. -/
theorem Emptied.owned (hsb : sb.Layout) (hown : f.Owned sb) (hi : f.Live i)
    (h : Emptied sb i (f.freedWords i) f g) : g.Owned sb := by
  have hblock := hsb.iblock_lt (hown.inum_lt i hi)
  have hmid := sb.bmapstart_lt
  have hdata : ∀ w ∈ f.freedWords i, sb.dataStart ≤ w ∧ w < sb.size := by
    intro w hw
    obtain ⟨hne, s, -, rfl⟩ := mem_freedWords.mp hw
    exact hown.in_data i s hi hne
  have hdisk : ∀ b, sb.dataStart ≤ b → g.disk b = f.disk b := by
    intro b hb
    rw [h.disk_eq b (by omega)]
    exact clearMarks_of_ne sb _ fun w hw =>
      ((Superblock.bblock_lt (hdata w hw).2).trans_le hb).ne
  refine Owned.of_fewer hown.unshared hown.in_data
    (fun j hj => hown.inum_lt j ((h.cleared.live_iff j).mp hj)) (fun b hb => ?_) fun j t hj hne => ?_
  · exact (h.marked_iff hblock b).mpr ⟨hown.meta_marked b hb, fun hw => absurd (hdata b hw).1 (by omega)⟩
  · have hj' := (h.cleared.live_iff j).mp hj
    have hkept : ¬ (j = i ∧ t.base.val ≤ NDIRECT) := by
      rintro ⟨rfl, ht⟩
      exact hne (g.ptr_eq_zero j (h.cleared.zero _ ht))
    have hroot : (g.inode j).addrs t.base = (f.inode j).addrs t.base := by
      by_cases hji : j = i
      · subst hji
        exact h.cleared.kept _ fun ht => hkept ⟨rfl, ht⟩
      · rw [h.cleared.others j hji]
    have hptr : g.ptr j t = f.ptr j t :=
      ptr_congr hroot fun _ p _ _ hp => hdisk _ (hown.in_data j p hj' hp).1
    rw [hptr] at hne
    refine ⟨hj', hptr, (h.marked_iff hblock _).mpr ⟨hown.ptr_marked j t hj' hne, fun hw => ?_⟩⟩
    -- a block that was freed is in a slot of `i`, and in no other
    obtain ⟨-, s, hs, heq⟩ := mem_freedWords.mp hw
    obtain ⟨rfl, rfl⟩ := hown.unshared j i t s hj' hi hne heq.symm
    exact hkept ⟨rfl, hs⟩

end Fs

/-- The reason for stopping is not the panic of `bfree`. -/
def NotFreeing (e : Stop) : Prop := e ≠ .panic "freeing free block"

variable {e : Stop}

theorem notFreeing_of_blocked (he : e = .blocked) : NotFreeing e := by
  rw [he]
  exact fun h => Stop.noConfusion h

theorem notFreeing_panic {msg : String} (h : msg ≠ "freeing free block") :
    NotFreeing (.panic msg) := by
  intro heq
  exact h (Stop.panic.inj heq)

theorem Stops.notFreeing {T : Finset Slot} {js : List (Fin NINDIRECT)} (h : Stops sb i T js f e) :
    NotFreeing e := by
  rcases h with ⟨rfl, -⟩ | ⟨rfl, -⟩
  · exact notFreeing_panic (by decide)
  · exact notFreeing_of_blocked rfl

theorem RangeStops.notFreeing {off n : ℕ} (h : RangeStops sb i off n f e) :
    NotFreeing e := by
  rcases h with h | ⟨rfl, -⟩
  · exact h.notFreeing
  · exact notFreeing_panic (by decide)

/-- `itrunc` keeps ownership, and frees no block that is free. -/
theorem itrunc_post (hsb : sb.Layout) (hown : f.Owned sb) (hi : f.Live i) :
    Post (f.itrunc sb i) (fun g => g.Owned sb ∧ g.Live i) NotFreeing := by
  have hwords := hown.trunced_eq hi
  have hpost := Fs.itrunc_emptied sb i (f := f) fun htr => ?_
  · rw [hwords] at hpost
    refine hpost.mono (fun g hg => ⟨hg.owned hsb hown hi, (hg.cleared.live_iff i).mpr hi⟩) ?_
    rintro e ((⟨rfl, -⟩ | hmark) | ⟨rfl, -⟩)
    · exact notFreeing_of_blocked rfl
    · obtain ⟨w, hw, hclear⟩ := hmark (hown.nodup_freedWords hi)
      obtain ⟨hne, s, -, rfl⟩ := Fs.mem_freedWords.mp hw
      rw [hown.ptr_marked i s hi hne] at hclear
      cases hclear
    · exact notFreeing_of_blocked rfl
  · refine fun hne => ⟨fun hl => htr hl.tracks, fun w hw => ?_⟩
    have hmem : w ∈ f.freedWords i := by
      rw [← hwords]
      exact mem_append_right _ (Fs.entryWords_subset hne hw)
    obtain ⟨hw0, s, -, rfl⟩ := Fs.mem_freedWords.mp hmem
    exact ((Superblock.bblock_lt (hown.in_data i s hi hw0).2).trans_le
      (hown.in_data i .indirect hi hne).1).ne

end Truncate

/-! ## Allocating and freeing inodes -/

section Inodes

variable {sb : Superblock} {i : ℕ} {f g : Fs}

theorem same_inode {j : ℕ} (heq : g.inode j = f.inode j) (hj : g.Live j) :
    f.Live j ∧ (g.inode j).addrs = (f.inode j).addrs := by
  unfold Fs.Live at hj ⊢
  rw [heq] at hj ⊢
  exact ⟨hj, rfl⟩

/-- A step that changes inodes and blocks before the bitmap keeps ownership, if the addresses of
the allocated inodes are the old ones or are cleared. -/
theorem Fs.Owned.of_inodes (hown : f.Owned sb) (hdisk : ∀ b, sb.bmapstart ≤ b → g.disk b = f.disk b)
    (hinode : ∀ j, g.Live j → (f.Live j ∧ (g.inode j).addrs = (f.inode j).addrs) ∨
      (j < sb.ninodes ∧ (g.inode j).addrs = fun _ => 0)) : g.Owned sb := by
  have hmark : ∀ b, marked sb g.disk b = marked sb f.disk b := fun b =>
    marked_congr (hdisk _ (sb.bmapstart_le_bblock b))
  have hmid := sb.bmapstart_lt
  refine Fs.Owned.of_fewer hown.unshared hown.in_data ?_ ?_ ?_
  · intro j hj
    rcases hinode j hj with ⟨hj', -⟩ | ⟨hlt, -⟩
    · exact hown.inum_lt j hj'
    · exact hlt
  · intro b hb
    rw [hmark, hown.meta_marked b hb]
  · intro j t hj hne
    rcases hinode j hj with ⟨hj', haddrs⟩ | ⟨-, hzero⟩
    · have hptr : g.ptr j t = f.ptr j t := ptr_congr (congrFun haddrs _) fun t p l _ hp =>
        hdisk _ (by have := (hown.in_data j p hj' hp).1; omega)
      rw [hptr] at hne
      rw [hmark]
      exact ⟨hj', hptr, hown.ptr_marked j t hj' hne⟩
    · exact absurd (g.ptr_eq_zero j (congrFun hzero _)) hne

/-- Changing an inode without changing its addresses. -/
theorem Fs.Owned.setInode (hown : f.Owned sb) {ip : Inode} (htype : ip.type = (f.inode i).type ∨ ip.type = 0)
    (haddrs : ip.addrs = (f.inode i).addrs) : (f.setInode i ip).Owned sb := by
  refine hown.of_inodes (fun _ _ => rfl) fun j hj => Or.inl ?_
  by_cases hji : j = i
  · subst hji
    unfold Fs.Live at hj ⊢
    rw [Fs.setInode_inode_self] at hj ⊢
    rcases htype with htype | htype
    · exact ⟨by rw [← htype]; exact hj, haddrs⟩
    · exact absurd htype hj.1
  · exact same_inode (Fs.setInode_inode_of_ne _ _ hji) hj

theorem iget_post (hown : f.Owned sb) :
    Post (f.iget sb i) (fun g => g.Owned sb) NotFreeing := by
  unfold Fs.iget
  simp only
  split_ifs
  · exact hown.setInode (Or.inl rfl) rfl
  · exact notFreeing_panic (by decide)
  · exact hown.setInode (Or.inl rfl) rfl

/-- `ialloc` gives an inode without blocks. -/
theorem iallocFrom_post (hsb : sb.Layout) (hown : f.Owned sb) (type : Int16) (inums : List ℕ)
    (hlt : ∀ inum ∈ inums, inum < sb.ninodes) :
    Post (f.iallocFrom sb type inums) (fun r => r.2.Owned sb) NotFreeing := by
  induction inums with
  | nil => exact notFreeing_panic (by decide)
  | cons inum inums ih =>
    have hblock := hsb.iblock_lt (hlt inum mem_cons_self)
    unfold Fs.iallocFrom
    refine (Fs.bread_post f _).bind ?_ (fun e he => notFreeing_of_blocked he.1)
    rintro g ⟨hunlocked, rfl⟩
    by_cases htype : (f.inode inum).type = 0
    · rw [Fs.lock_inode, if_pos htype]
      refine (iget_post ?_).seq fun g hg => hg
      refine hown.of_inodes (fun b hb => update_of_ne (by omega) _ _) fun j hj => ?_
      by_cases hj' : j = inum
      · subst hj'
        refine Or.inr ⟨hlt j mem_cons_self, ?_⟩
        exact congrArg Inode.addrs (Fs.setInode_inode_self _ _ _)
      · exact Or.inl (same_inode (update_of_ne hj' _ _) hj)
    · rw [Fs.lock_inode, if_neg htype, Fs.brelse_lock hunlocked]
      exact ih fun k hk => hlt k (mem_cons_of_mem _ hk)

theorem ialloc_post (hsb : sb.Layout) (hown : f.Owned sb) (type : Int16) :
    Post (f.ialloc sb type) (fun r => r.2.Owned sb) NotFreeing := by
  apply iallocFrom_post hsb hown
  intro inum hinum
  rw [mem_range'_1] at hinum
  omega

/-- `iput` keeps ownership: an inode is freed after it was truncated. -/
theorem iput_post (hsb : sb.Layout) (hown : f.Owned sb) (hi : f.Live i) :
    Post (f.iput sb i) (fun g => g.Owned sb) NotFreeing := by
  have hlt := hsb.iblock_lt (hown.inum_lt i hi)
  have hput : ∀ g : Fs, g.Owned sb →
      (g.setInode i { g.inode i with ref := (g.inode i).ref - 1 }).Owned sb := fun g hg =>
    hg.setInode (Or.inl rfl) rfl
  unfold Fs.iput
  by_cases hlast : (f.inode i).valid ∧ (f.inode i).nlink = 0 ∧ (f.inode i).ref = 1
  · simp only [if_pos hlast]
    refine (itrunc_post hsb hown hi).seq ?_
    rintro g ⟨hown, -⟩
    have hfreed : (g.setInode i { g.inode i with type := 0 }).Owned sb :=
      hown.setInode (Or.inr rfl) rfl
    refine (Fs.updateBlock_post _ _ _).bind ?_ (fun e he => notFreeing_of_blocked he.1)
    rintro h ⟨-, rfl⟩
    refine hput _ (Fs.Owned.setInode ?_ (Or.inl rfl) rfl)
    exact hfreed.of_inodes (fun b hb => update_of_ne (by omega) _ _) fun j hj =>
      Or.inl (same_inode rfl hj)
  · simp only [if_neg hlast]
    exact hput f hown

end Inodes

/-! ## Runs -/

/-- The calls that allocate and free blocks, and what else happens to an inode between them. -/
inductive FsOp where
  | bmap (i bn : ℕ)
  | readi (i off n : ℕ)
  | writei (i : ℕ) (src : List UInt8) (off : ℕ)
  | itrunc (i : ℕ)
  | ialloc (type : Int16)
  | iput (i : ℕ)
  /-- `iget`, `idup`, `ilock`, and the changes of link counts by the system calls. -/
  | refs (i : ℕ) (ref : ℤ) (valid : Bool) (nlink : Int16)

namespace FsOp

/-- The calls are made on regular files, directories and symbolic links. -/
def Allowed (f : Fs) : FsOp → Prop
  | bmap i _ => PlainType (f.inode i).type
  | readi i _ _ => PlainType (f.inode i).type
  | writei i _ _ => PlainType (f.inode i).type
  | itrunc i => PlainType (f.inode i).type
  | ialloc type => PlainType type
  | iput i => PlainType (f.inode i).type
  | refs _ _ _ _ => True

instance (f : Fs) (op : FsOp) : Decidable (op.Allowed f) := by
  cases op <;> unfold Allowed <;> infer_instance

/-- The state after a call. -/
def call (sb : Superblock) (devsw : Devsw) (f : Fs) : FsOp → Except Stop Fs
  | bmap i bn => (f.bmap sb i bn).map Prod.snd
  | readi i off n => (f.readi sb devsw i off n).map Prod.snd
  | writei i src off => (f.writei sb devsw i src off).map Prod.snd
  | itrunc i => f.itrunc sb i
  | ialloc type => (f.ialloc sb type).map Prod.snd
  | iput i => f.iput sb i
  | refs i ref valid nlink =>
    .ok (f.setInode i { f.inode i with ref := ref, valid := valid, nlink := nlink })

/-- One call of a run; a run ends at a call that does not return. -/
def step (sb : Superblock) (devsw : Devsw) (f : Fs) (op : FsOp) : Option Fs :=
  if op.Allowed f then (op.call sb devsw f).toOption else none

/-- **Every call keeps ownership** and frees no block that is free. -/
theorem call_post (hsb : sb.Layout) (devsw : Devsw) (hown : f.Owned sb) (op : FsOp)
    (hop : op.Allowed f) :
    Post (op.call sb devsw f) (fun g => g.Owned sb) NotFreeing := by
  cases op with
  | bmap i bn =>
    refine post_map.mpr ?_
    rcases Nat.lt_or_ge bn MAXMAP with hbn | hbn
    · exact (bmap_post hsb hown hop.live hbn).mono (fun r hr => hr.1.own)
        (fun e he => he.notFreeing)
    · rw [bmap_of_ge sb hop.live.2 hbn]
      exact notFreeing_panic (by decide)
  | readi i off n =>
    refine post_map.mpr ?_
    unfold Fs.readi
    simp only [if_neg hop.ne_dev]
    split
    · exact hown
    · refine (readLoop_post hsb _ f off _ hown hop.live le_rfl).bind ?_
        (fun e he => he.notFreeing)
      intro r hr
      exact hr.2.done.own
  | writei i src off =>
    refine post_map.mpr ((writei_post hsb hown hop.live hop.ne_dev devsw src).mono ?_
      (fun e he => he.notFreeing))
    rintro r (⟨-, hdone⟩ | ⟨rfl, -⟩)
    · exact hdone.done.own
    · exact hown
  | itrunc i =>
    exact (itrunc_post hsb hown hop.live).imp fun g hg => hg.1
  | ialloc type => exact post_map.mpr (ialloc_post hsb hown type)
  | iput i => exact iput_post hsb hown hop.live
  | refs i ref valid nlink => exact hown.setInode (Or.inl rfl) rfl

/-- One call of a run. -/
theorem step_owned (hsb : sb.Layout) (devsw : Devsw) {f g : Fs} {op : FsOp} (hown : f.Owned sb)
    (h : step sb devsw f op = some g) : g.Owned sb := by
  unfold step at h
  split_ifs at h with hop
  have hpost := call_post hsb devsw hown op hop
  exact hpost.of_ok (toOption_eq_some.mp h)

end FsOp

/-- **Ownership of blocks**: after any sequence of calls no block stands in two slots, every
block in a slot is in the data area and marked, and no next call panics because it frees a
block that is free. -/
theorem ownership_run {sb : Superblock} (hsb : sb.Layout) (devsw : Devsw) {f g : Fs}
    (hown : f.Owned sb) (ops : List FsOp)
    (hrun : Runs.run (FsOp.step sb devsw) f ops = some g) :
    g.Owned sb ∧ ∀ op : FsOp, op.Allowed g →
      op.call sb devsw g ≠ .error (.panic "freeing free block") := by
  have hg : g.Owned sb := Runs.run_invariant (I := Fs.Owned sb)
    (fun _ _ _ hstep hs => FsOp.step_owned hsb devsw hs hstep) hrun hown
  refine ⟨hg, fun op hop heq => ?_⟩
  exact (FsOp.call_post hsb devsw hg op hop).of_error heq rfl

/-- A byte is written and the file is removed. -/
theorem ownership_run_write : ∃ g,
    Runs.run (FsOp.step smallSb noDevices) (smallFs (some ∅))
      [.writei 1 [7] 0, .refs 1 1 true 0, .iput 1] = some g ∧ g.Owned smallSb := by
  have hsome : (Runs.run (FsOp.step smallSb noDevices) (smallFs (some ∅))
      [.writei 1 [7] 0, .refs 1 1 true 0, .iput 1]).isSome := rfl
  obtain ⟨g, hg⟩ := Option.isSome_iff_exists.mp hsome
  exact ⟨g, hg, (ownership_run smallSb_layout noDevices (smallFs_owned _) _ hg).1⟩

/-! ## The bitmap -/

namespace Fs

variable {f : Fs}

/-- Block `b` is one of the bitmap. -/
def InBitmap (sb : Superblock) (b : ℕ) : Prop := ∃ c, c < sb.size ∧ b = bblock sb c

/-- Nothing that `balloc` reads or takes is locked: no block of the bitmap, and no free block. -/
def Unlocked (sb : Superblock) (f : Fs) : Prop :=
  ∀ b, f.Locked b → ¬ InBitmap sb b ∧ (b < sb.size → marked sb f.disk b = true)

/-- Where `balloc` may take the first free block, it marks this one only. -/
theorem marked_allocated_bitmap {a c : ℕ} (ha : ¬ InBitmap sb a) (hc : InBitmap sb (bblock sb c)) :
    marked sb (f.allocated sb a).disk c = (decide (c = a) || marked sb f.disk c) := by
  rw [← marked_setBit]
  apply marked_congr
  refine update_of_ne ?_ _ _
  rintro hca
  exact ha (hca ▸ hc)

/-- `bfree` of a marked block unmarks this one only. -/
theorem bfree_unmarks {b : ℕ} (hunlocked : ¬ f.Locked (bblock sb b))
    (hb : marked sb f.disk b = true) : ∃ g, bfree sb f b = .ok g ∧
      (∀ c, marked sb g.disk c = (!decide (c = b) && marked sb f.disk c)) ∧
      ∀ b', b' ≠ bblock sb b → g.disk b' = f.disk b' := by
  obtain ⟨g, hg, hfreed, -⟩ := (bfree_freed sb f b).exists_ok fun e he => he.not_freeable
    ⟨nodup_singleton b, by simpa using hb, by simpa using hunlocked⟩
  refine ⟨g, hg, ?_⟩
  rw [hfreed.disk_eq]
  exact ⟨marked_clearBit sb f.disk b, fun b' hb' => update_of_ne hb' _ _⟩

/-- **Allocation over the bitmap.**  Unless the first clear bit is that of a block of the bitmap itself,
`balloc` returns the first block below `sb.size` whose bit is clear, sets exactly this bit and zeroes
exactly this block, and it panics only if all these bits are set.  `bfree` of an allocated block clears
exactly its bit, and so restores the bitmap after `balloc`. -/
theorem bitmap_exact (sb : Superblock) (f : Fs) (hunlocked : Unlocked sb f)
    (hfirst : ∀ a, FirstFree sb f.disk a → ¬ InBitmap sb a) :
    ((∃ a g, balloc sb f = .ok (a, g) ∧ FirstFree sb f.disk a ∧
        (∀ c, InBitmap sb (bblock sb c) → marked sb g.disk c = (decide (c = a) || marked sb f.disk c)) ∧
        g.disk a = Block.zero ∧ (∀ b, b ≠ a → b ≠ bblock sb a → g.disk b = f.disk b) ∧
        ∃ h, bfree sb g a = .ok h ∧ ∀ c, InBitmap sb (bblock sb c) → marked sb h.disk c = marked sb f.disk c) ∨
      (balloc sb f = .error (.panic "balloc: out of blocks") ∧ ∀ c, c < sb.size → marked sb f.disk c = true)) ∧
    ∀ b, b < sb.size → marked sb f.disk b = true → ∃ g, bfree sb f b = .ok g ∧
      (∀ c, marked sb g.disk c = (!decide (c = b) && marked sb f.disk c)) ∧
      ∀ b', b' ≠ bblock sb b → g.disk b' = f.disk b' := by
  refine ⟨?_, fun b hb hmark => bfree_unmarks (fun hl => (hunlocked _ hl).1 ⟨b, hb, rfl⟩) hmark⟩
  cases heq : balloc sb f with
  | ok r =>
    obtain ⟨ha, hg⟩ := (balloc_post sb f).of_ok heq
    obtain ⟨a, g⟩ := r
    obtain rfl : g = f.allocated sb a := hg
    have hin : InBitmap sb (bblock sb a) := ⟨a, ha.1, rfl⟩
    have hbits := fun c hc => marked_allocated_bitmap (f := f) (c := c) (hfirst a ha) hc
    refine Or.inl ⟨a, _, rfl, ha, hbits, allocated_disk_self, fun b => allocated_disk_of_ne, ?_⟩
    obtain ⟨h, hfree, hmarks, -⟩ := bfree_unmarks (f := f.allocated sb a)
      (fun hl => (hunlocked _ hl).1 hin) (by rw [hbits a hin, decide_eq_true rfl, Bool.true_or])
    refine ⟨h, hfree, fun c hc => ?_⟩
    rw [hmarks, hbits c hc]
    by_cases hca : c = a
    · rw [hca, ha.2.1]
      simp
    · simp [hca]
  | error e =>
    rcases (balloc_post sb f).of_error heq with ⟨rfl, hnone⟩ | ⟨-, b, hl, hb⟩
    · exact Or.inr ⟨rfl, freeBlocks_eq_zero_iff.mp hnone⟩
    · obtain ⟨hbit, hmark⟩ := hunlocked b hl
      rcases hb with hb | ⟨hlt, hclear⟩
      · exact absurd hb hbit
      · rw [hmark hlt] at hclear
        cases hclear

/-- The bitmap of a disk whose only free block is the last one. -/
theorem bitmap_exact_small : ∃ g, balloc smallSb (smallFs (some ∅)) = .ok (5, g) ∧
    marked smallSb g.disk 5 = true := by
  have hfirst : ∀ a, FirstFree smallSb (smallFs (some ∅)).disk a → ¬ InBitmap smallSb a := by
    rintro a ⟨hlt, hclear, -⟩ ⟨c, hc, rfl⟩
    have hmark := (smallFs_owned (some ∅)).meta_marked _ (Superblock.bblock_lt hc)
    rw [hmark] at hclear
    cases hclear
  have hunlocked : Unlocked smallSb (smallFs (some ∅)) := by
    rintro b ⟨h, hheld, hb⟩
    cases hheld
    cases hb
  rcases (bitmap_exact smallSb _ hunlocked hfirst).1 with ⟨a, g, heq, -, hbits, -⟩ | ⟨heq, -⟩
  · obtain rfl : a = 5 := (Prod.mk.inj (Except.ok.inj (heq.symm.trans rfl))).1
    exact ⟨g, heq, hbits 5 ⟨5, by decide, rfl⟩⟩
  · cases heq

/-- A disk on which the only block of the bitmap is not marked itself. -/
def unmarkedFs : Fs :=
  { smallFs none with
    disk := fun b => if b = smallSb.bmapstart then Block.zero.memmove 0 1 fun _ => 0x0f else Block.zero }

/-- **The bitmap is handed out**: it is zeroed with its marks. -/
theorem not_bitmap_exact_unmarked : ∃ g, balloc smallSb unmarkedFs = .ok (4, g) ∧
    marked smallSb g.disk 4 = false ∧ marked smallSb unmarkedFs.disk 0 = true ∧ marked smallSb g.disk 0 = false :=
  ⟨_, rfl, rfl, rfl, rfl⟩

end Fs
