/-
# The tree of blocks of an inode

The `NDIRECT + 2` addresses of an inode, the entries of its indirect block, of its doubly
indirect block and of the second-level blocks are the *slots* in which block numbers stand.
`Fs.ptr` reads a slot, `Fs.content` a byte of the file.  `Fs.Owned` is the ownership of blocks:
no two slots of allocated inodes hold the same block, and every block held is in the data area
and marked.  `Change` is what a call may do to one inode: fill some empty slots with blocks
that were free, and give the file new contents.  Changes compose, and everything the calls
below preserve is read off a `Change`.
-/
import Xv6.Fs
import Xv6.Outcome

open Finset

/-! ## Slots -/

/-- Where an inode keeps a block number. -/
inductive Slot where
  /-- `ip->addrs[k]`. -/
  | root (k : Fin (NDIRECT + 2))
  /-- Entry `j` of the indirect block. -/
  | ind (j : Fin NINDIRECT)
  /-- Entry `j` of the doubly indirect block. -/
  | dbl (j : Fin NINDIRECT)
  /-- Entry `l` of the second-level block `j`. -/
  | leaf (j l : Fin NINDIRECT)
deriving DecidableEq

namespace Slot

/-- The address of the indirect block. -/
abbrev indirect : Slot := root (Fin.ofNat _ NDIRECT)

/-- The address of the doubly indirect block. -/
abbrev doubly : Slot := root (Fin.ofNat _ (NDIRECT + 1))

/-- The slot that holds the block a slot is an entry of, and the index of the entry. -/
def parent : Slot → Option (Slot × Fin NINDIRECT)
  | root _ => none
  | ind j => some (indirect, j)
  | dbl j => some (doubly, j)
  | leaf j l => some (dbl j, l)

/-- Slots that hold blocks of data, and so have no entries. -/
def IsData (t : Slot) : Prop := ∀ (s : Slot) (l : Fin NINDIRECT), s.parent ≠ some (t, l)

/-- The address of the inode that a slot is reached from. -/
def base : Slot → Fin (NDIRECT + 2)
  | root k => k
  | ind _ => Fin.ofNat _ NDIRECT
  | dbl _ => Fin.ofNat _ (NDIRECT + 1)
  | leaf _ _ => Fin.ofNat _ (NDIRECT + 1)

end Slot

/-- How many blocks of a file `bmap` can map. -/
abbrev MAXMAP : ℕ := 16523

/-- The slot of block `bn` of a file. -/
def dataSlot (bn : ℕ) : Slot :=
  if bn < NDIRECT then .root (Fin.ofNat _ bn)
  else if bn - NDIRECT < NINDIRECT then .ind (Fin.ofNat _ (bn - NDIRECT))
  else .leaf (Fin.ofNat _ ((bn - NDIRECT - NINDIRECT) / NINDIRECT))
    (Fin.ofNat _ ((bn - NDIRECT - NINDIRECT) % NINDIRECT))

theorem isData_dataSlot (bn : ℕ) : (dataSlot bn).IsData := by
  intro s l hs
  unfold dataSlot at hs
  cases s <;> simp only [Slot.parent, Option.some.injEq, Prod.mk.injEq, reduceCtorEq] at hs
  all_goals
    split_ifs at hs with h1 h2 <;>
      simp only [Slot.root.injEq, Fin.ext_iff, Fin.val_ofNat, false_and] at hs
  all_goals
    unfold NDIRECT at hs h1
    omega

/-- Different blocks of a file have different slots. -/
theorem dataSlot_injective {bn bn' : ℕ} (h : bn < MAXMAP) (h' : bn' < MAXMAP)
    (heq : dataSlot bn = dataSlot bn') : bn = bn' := by
  unfold dataSlot at heq
  unfold MAXMAP at h h'
  unfold NDIRECT NINDIRECT at heq
  split_ifs at heq <;>
    simp only [Slot.root.injEq, Slot.ind.injEq, Slot.leaf.injEq, Fin.ext_iff,
      Fin.val_ofNat] at heq <;>
    omega

/-- What is not direct and not indirect is doubly-indirect. -/
theorem doubly_lt {bn : ℕ} (h : bn < MAXMAP) : bn - NDIRECT - NINDIRECT < NDOUBLY_INDIRECT := by
  unfold MAXMAP at h
  unfold NDIRECT NINDIRECT NDOUBLY_INDIRECT
  omega

/-! ## Reading the tree -/

/-- A file as its users see it: a size, and bytes that are zero where nothing was stored. -/
@[ext]
structure File where
  size : ℕ
  byte : ℕ → UInt8

/-- Entry `j` of block `b`; block number `0` stands for no block. -/
def childOf (d : Disk) (b j : ℕ) : ℕ := if b = 0 then 0 else (d b).word j

namespace Fs

/-- The block number in a slot of inode `i`, `0` if there is none. -/
def ptr (f : Fs) (i : ℕ) : Slot → ℕ
  | .root k => ((f.inode i).addrs k).toNat
  | .ind j => childOf f.disk ((f.inode i).addrs (Fin.ofNat _ NDIRECT)).toNat j
  | .dbl j => childOf f.disk ((f.inode i).addrs (Fin.ofNat _ (NDIRECT + 1))).toNat j
  | .leaf j l =>
    childOf f.disk (childOf f.disk ((f.inode i).addrs (Fin.ofNat _ (NDIRECT + 1))).toNat j) l

theorem ptr_of_parent (f : Fs) (i : ℕ) {t p : Slot} {l : Fin NINDIRECT}
    (h : t.parent = some (p, l)) : f.ptr i t = childOf f.disk (f.ptr i p) l := by
  cases t <;> simp only [Slot.parent, Option.some.injEq, Prod.mk.injEq, reduceCtorEq] at h
  all_goals obtain ⟨rfl, rfl⟩ := h; rfl

/-- There is nothing behind an address that is zero. -/
theorem ptr_eq_zero (f : Fs) (i : ℕ) {t : Slot} (h : (f.inode i).addrs t.base = 0) :
    f.ptr i t = 0 := by
  have hentry : ∀ {t p : Slot} {l : Fin NINDIRECT}, t.parent = some (p, l) → f.ptr i p = 0 →
      f.ptr i t = 0 := by
    intro t p l ht hp
    rw [ptr_of_parent f i ht, hp]
    rfl
  have hroot : f.ptr i (.root t.base) = 0 := congrArg UInt32.toNat h
  cases t with
  | root k => exact hroot
  | ind l | dbl l => exact hentry rfl hroot
  | leaf l m => exact hentry rfl (hentry rfl hroot)

/-- Byte `o` of the file: zero where no block is allocated. -/
def content (f : Fs) (i o : ℕ) : UInt8 :=
  if o / BSIZE < MAXMAP ∧ f.ptr i (dataSlot (o / BSIZE)) ≠ 0 then
    (f.disk (f.ptr i (dataSlot (o / BSIZE)))).byte (o % BSIZE)
  else 0

/-- What inode `i` is for: a file. -/
def file (f : Fs) (i : ℕ) : File := ⟨(f.inode i).size.toNat, f.content i⟩

/-- Inode `i` is allocated and its addresses are block numbers; the addresses of a `T_EXTENT`
inode are not. -/
def Live (f : Fs) (i : ℕ) : Prop := (f.inode i).type ≠ 0 ∧ (f.inode i).type ≠ T_EXTENT

/-- The buffer of block `b` is locked. -/
def Locked (f : Fs) (b : ℕ) : Prop := ∃ h, f.held = some h ∧ b ∈ h

/-- Locks of buffers are part of the state. -/
def Tracks (f : Fs) : Prop := f.held ≠ none

theorem Locked.tracks {f : Fs} {b : ℕ} (h : f.Locked b) : f.Tracks := by
  obtain ⟨s, hs, -⟩ := h
  exact fun hnone => absurd (hs.symm.trans hnone) (by simp)

end Fs

/-! ## Ownership -/

/-- The first block after the bitmap, as `mkfs` lays out the disk. -/
def Superblock.dataStart (sb : Superblock) : ℕ := sb.bmapstart + sb.size / BPB + 1

theorem Superblock.dataStart_pos (sb : Superblock) : 0 < sb.dataStart := Nat.succ_pos _

/-- The order in which `mkfs` lays out the disk:
`[ boot block | super block | log | inode blocks | free bit map | data blocks ]`. -/
structure Superblock.Layout (sb : Superblock) : Prop where
  log_start : 2 ≤ sb.logstart
  log_end : sb.logstart + sb.nlog ≤ sb.inodestart
  inode_end : sb.inodestart + (sb.ninodes / IPB + 1) ≤ sb.bmapstart
  meta_le : sb.dataStart ≤ sb.size
  /-- Block numbers are counted in an `int`. -/
  size_lt : sb.size < 2 ^ 31

namespace Superblock

theorem bmapstart_le_bblock (sb : Superblock) (b : ℕ) : sb.bmapstart ≤ bblock sb b :=
  Nat.le_add_left _ _

theorem bmapstart_lt (sb : Superblock) : sb.bmapstart < sb.dataStart :=
  Nat.lt_succ_of_le (Nat.le_add_right _ _)

theorem bblock_lt {sb : Superblock} {b : ℕ} (hb : b < sb.size) : bblock sb b < sb.dataStart := by
  have := Nat.div_le_div_right (c := BPB) hb.le
  unfold bblock Superblock.dataStart BPB at *
  omega

theorem Layout.iblock_lt {sb : Superblock} (hsb : sb.Layout) {i : ℕ} (hi : i < sb.ninodes) :
    iblock sb i < sb.bmapstart := by
  have := Nat.div_le_div_right (c := IPB) hi.le
  have := hsb.inode_end
  unfold iblock IPB at *
  omega

theorem Layout.inodestart_lt {sb : Superblock} (hsb : sb.Layout) : sb.inodestart < sb.bmapstart :=
  lt_of_lt_of_le (Nat.lt_add_of_pos_right (Nat.succ_pos _)) hsb.inode_end

end Superblock

namespace Fs

/-- **Ownership of blocks**: the metadata blocks are marked, no block stands in two slots of
allocated inodes, and every block in a slot is in the data area and marked. -/
structure Owned (sb : Superblock) (f : Fs) : Prop where
  inum_lt : ∀ i, f.Live i → i < sb.ninodes
  meta_marked : ∀ b, b < sb.dataStart → marked sb f.disk b = true
  unshared : ∀ i j s t, f.Live i → f.Live j → f.ptr i s ≠ 0 → f.ptr i s = f.ptr j t →
    i = j ∧ s = t
  in_data : ∀ i s, f.Live i → f.ptr i s ≠ 0 → sb.dataStart ≤ f.ptr i s ∧ f.ptr i s < sb.size
  ptr_marked : ∀ i s, f.Live i → f.ptr i s ≠ 0 → marked sb f.disk (f.ptr i s) = true

/-- A buffer that is locked between two calls is that of a second-level block. -/
def HeldOk (sb : Superblock) (f : Fs) : Prop :=
  ∀ b, f.Locked b → sb.dataStart ≤ b ∧ b < sb.size ∧ marked sb f.disk b = true ∧
    ∀ i t, f.Live i → f.ptr i t = b → ∃ j, t = .dbl j

/-- How many of the slots `T` of inode `i` are empty. -/
def need (f : Fs) (i : ℕ) (T : Finset Slot) : ℕ := (T.filter fun t => f.ptr i t = 0).card

theorem need_mono (f : Fs) (i : ℕ) {T T' : Finset Slot} (h : T ⊆ T') : f.need i T ≤ f.need i T' :=
  card_le_card (filter_subset_filter _ h)

end Fs

/-! ## Changes -/

/-- What a call may do to inode `i`: the slots `A` are filled with blocks that were free, the
file becomes `c`, and the buffers of the second-level blocks `L` are left locked.  The other inodes and everything before the inode blocks stay. -/
structure Change (sb : Superblock) (i : ℕ) (A : Finset Slot) (L : Finset (Fin NINDIRECT))
    (c : File) (f f' : Fs) : Prop where
  live : f.Live i
  own : f'.Owned sb
  fields : f'.inode i =
    { f.inode i with addrs := (f'.inode i).addrs, size := (f'.inode i).size }
  others : ∀ j, j ≠ i → f'.inode j = f.inode j
  filled : ∀ t ∈ A, f.ptr i t = 0 ∧ f'.ptr i t ≠ 0 ∧ marked sb f.disk (f'.ptr i t) = false
  kept : ∀ t, t ∉ A → f'.ptr i t = f.ptr i t
  ptr_others : ∀ j, j ≠ i → f.Live j → ∀ t, f'.ptr j t = f.ptr j t
  file_self : f'.file i = c
  file_others : ∀ j, j ≠ i → f.Live j → f'.file j = f.file j
  marks : ∀ b, b < sb.size → marked sb f.disk b = true → marked sb f'.disk b = true
  free : A.card + freeBlocks sb f'.disk = freeBlocks sb f.disk
  tracks : f'.Tracks ↔ f.Tracks
  locked : ∀ b, f'.Locked b ↔ f.Locked b ∨ f.Tracks ∧ ∃ j ∈ L, f'.ptr i (.dbl j) = b
  leaked : ∀ j ∈ L, f'.ptr i (.dbl j) ≠ 0
  low : ∀ b, b < sb.inodestart → f'.disk b = f.disk b

namespace Change

variable {sb : Superblock} {i : ℕ} {A B : Finset Slot} {L M : Finset (Fin NINDIRECT)}
  {c e : File} {f g h : Fs}

/-- Doing nothing. -/
theorem refl (hown : f.Owned sb) (hi : f.Live i) : Change sb i ∅ ∅ (f.file i) f f where
  live := hi
  own := hown
  fields := rfl
  others _ _ := rfl
  filled t ht := absurd ht (notMem_empty t)
  kept _ _ := rfl
  ptr_others _ _ _ _ := rfl
  file_self := rfl
  file_others _ _ _ := rfl
  marks _ _ hb := hb
  free := by rw [card_empty, zero_add]
  tracks := Iff.rfl
  locked b := by simp
  leaked j hj := absurd hj (notMem_empty j)
  low _ _ := rfl

theorem type_eq (h : Change sb i A L c f g) (j : ℕ) : (g.inode j).type = (f.inode j).type := by
  by_cases hj : j = i
  · rw [hj, h.fields]
  · rw [h.others j hj]

theorem live_iff (h : Change sb i A L c f g) (j : ℕ) : g.Live j ↔ f.Live j := by
  unfold Fs.Live
  rw [h.type_eq j]

/-- A slot that held a block holds it still. -/
theorem ptr_eq_of_ne (h : Change sb i A L c f g) {t : Slot} (ht : f.ptr i t ≠ 0) :
    g.ptr i t = f.ptr i t :=
  h.kept t fun hA => ht (h.filled t hA).1

theorem ptr_ne_of_ne (h : Change sb i A L c f g) {t : Slot} (ht : f.ptr i t ≠ 0) :
    g.ptr i t ≠ 0 := by
  rwa [h.ptr_eq_of_ne ht]

/-- A slot filled by one change is not filled by a later one. -/
theorem disjoint (hfg : Change sb i A L c f g) (hgh : Change sb i B M e g h) : Disjoint A B := by
  rw [disjoint_left]
  intro t hA hB
  exact (hfg.filled t hA).2.1 (hgh.filled t hB).1

/-- **Composition.** -/
theorem trans (hfg : Change sb i A L c f g) (hgh : Change sb i B M e g h) :
    Change sb i (A ∪ B) (L ∪ M) e f h where
  live := hfg.live
  own := hgh.own
  fields := by
    rw [hgh.fields, hfg.fields]
  others j hj := (hgh.others j hj).trans (hfg.others j hj)
  filled t ht := by
    rcases mem_union.mp ht with hA | hB
    · obtain ⟨hf, hg, hmark⟩ := hfg.filled t hA
      have heq := hgh.ptr_eq_of_ne hg
      exact ⟨hf, by rwa [heq], by rwa [heq]⟩
    · obtain ⟨hg, hh, hmark⟩ := hgh.filled t hB
      have hA : t ∉ A := fun hA => (hfg.filled t hA).2.1 hg
      refine ⟨by rw [← hfg.kept t hA, hg], hh, ?_⟩
      by_contra hf
      have hlive : h.Live i := (hgh.live_iff i).mpr hgh.live
      have := hfg.marks _ (hgh.own.in_data i t hlive hh).2 (by simpa using hf)
      rw [hmark] at this
      exact absurd this (by simp)
  kept t ht := by
    rw [mem_union, not_or] at ht
    rw [hgh.kept t ht.2, hfg.kept t ht.1]
  ptr_others j hj hlive t := by
    rw [hgh.ptr_others j hj ((hfg.live_iff j).mpr hlive), hfg.ptr_others j hj hlive]
  file_self := hgh.file_self
  file_others j hj hlive := by
    rw [hgh.file_others j hj ((hfg.live_iff j).mpr hlive), hfg.file_others j hj hlive]
  marks b hlt hb := hgh.marks b hlt (hfg.marks b hlt hb)
  free := by
    rw [card_union_of_disjoint (hfg.disjoint hgh), ← hfg.free, ← hgh.free, add_assoc]
  tracks := hgh.tracks.trans hfg.tracks
  locked b := by
    rw [hgh.locked, hfg.locked, hfg.tracks, or_assoc]
    apply or_congr_right
    rw [← and_or_left]
    apply and_congr_right
    intro _
    -- the blocks left locked by the first change stay in their slots
    have hkeep : ∀ j ∈ L, h.ptr i (.dbl j) = g.ptr i (.dbl j) := fun j hj =>
      hgh.ptr_eq_of_ne (hfg.leaked j hj)
    constructor
    · rintro (⟨j, hj, hb⟩ | ⟨j, hj, hb⟩)
      · exact ⟨j, mem_union_left _ hj, by rw [hkeep j hj, hb]⟩
      · exact ⟨j, mem_union_right _ hj, hb⟩
    · rintro ⟨j, hj, hb⟩
      rcases mem_union.mp hj with hL | hM
      · exact Or.inl ⟨j, hL, by rw [← hkeep j hL, hb]⟩
      · exact Or.inr ⟨j, hM, hb⟩
  leaked j hj := by
    rcases mem_union.mp hj with hL | hM
    · exact hgh.ptr_ne_of_ne (hfg.leaked j hL)
    · exact hgh.leaked j hM
  low b hb := (hgh.low b hb).trans (hfg.low b hb)

/-- Locked buffers stay those of second-level blocks. -/
theorem heldOk (h : Change sb i A L c f g) (hf : f.HeldOk sb) : g.HeldOk sb := by
  intro b hb
  rcases (h.locked b).mp hb with hb | ⟨-, j, hj, rfl⟩
  · obtain ⟨hdata, hlt, hmark, hslot⟩ := hf b hb
    refine ⟨hdata, hlt, h.marks b hlt hmark, ?_⟩
    intro k t hk ht
    have hk' : f.Live k := (h.live_iff k).mp hk
    by_cases hki : k = i
    · subst hki
      by_cases hA : t ∈ A
      · have hfree := (h.filled t hA).2.2
        rw [ht, hmark] at hfree
        exact absurd hfree (by simp)
      · exact hslot k t hk' (by rw [← h.kept t hA, ht])
    · exact hslot k t hk' (by rw [← h.ptr_others k hki hk' t, ht])
  · have hi' : g.Live i := (h.live_iff i).mpr h.live
    have hne := h.leaked j hj
    obtain ⟨hdata, hlt⟩ := h.own.in_data i _ hi' hne
    refine ⟨hdata, hlt, h.own.ptr_marked i _ hi' hne, ?_⟩
    intro k t hk ht
    exact ⟨j, (h.own.unshared i k _ t hi' hk hne ht.symm).2.symm⟩

/-- What a change fills is no longer needed. -/
theorem need_eq (h : Change sb i A L c f g) {T : Finset Slot} (hAT : A ⊆ T) :
    A.card + g.need i T = f.need i T := by
  have hsplit : T.filter (fun t => f.ptr i t = 0) = A ∪ T.filter fun t => g.ptr i t = 0 := by
    ext t
    simp only [mem_union, mem_filter]
    constructor
    · rintro ⟨hT, ht⟩
      by_cases hA : t ∈ A
      · exact Or.inl hA
      · exact Or.inr ⟨hT, by rw [h.kept t hA, ht]⟩
    · rintro (hA | ⟨hT, ht⟩)
      · exact ⟨hAT hA, (h.filled t hA).1⟩
      · have hA : t ∉ A := fun hA => (h.filled t hA).2.1 ht
        exact ⟨hT, by rw [← h.kept t hA, ht]⟩
  have hdisj : Disjoint A (T.filter fun t => g.ptr i t = 0) := by
    rw [disjoint_left]
    intro t hA ht
    exact (h.filled t hA).2.1 (mem_filter.mp ht).2
  unfold Fs.need
  rw [hsplit, card_union_of_disjoint hdisj]

end Change
