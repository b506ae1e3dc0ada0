/-
# Allocation of blocks

`balloc` takes the first block that is not marked, marks it and clears it.  A block so taken is
in no slot, and putting it into an empty slot is a `Change`: the other slots, the contents of
all files and the ownership of blocks stay.
-/
import Xv6.BlockMap

open Function Outcome

namespace Fs

/-! ## Buffers -/

/-- `f` with the buffer of block `b` locked. -/
def lock (f : Fs) (b : ℕ) : Fs := { f with held := f.held.map (insert b) }

@[simp] theorem lock_disk (f : Fs) (b : ℕ) : (f.lock b).disk = f.disk := rfl

@[simp] theorem lock_inode (f : Fs) (b : ℕ) : (f.lock b).inode = f.inode := rfl

theorem locked_lock (f : Fs) (b c : ℕ) :
    (f.lock b).Locked c ↔ f.Locked c ∨ f.Tracks ∧ c = b := by
  cases hh : f.held with
  | none => simp [Locked, lock, Tracks, hh]
  | some h => simp [Locked, lock, Tracks, hh, or_comm]

theorem locked_congr {f g : Fs} (h : g.held = f.held) (b : ℕ) : g.Locked b ↔ f.Locked b := by
  unfold Locked
  rw [h]

theorem tracks_congr {f g : Fs} (h : g.held = f.held) : g.Tracks ↔ f.Tracks := by
  unfold Tracks
  rw [h]

/-- Releasing a buffer that was not locked before. -/
theorem brelse_lock {f : Fs} {b : ℕ} (hb : ¬ f.Locked b) : (f.lock b).brelse b = f := by
  cases f with
  | mk disk held inode inum_eq =>
    cases held with
    | none => rfl
    | some h =>
      have hnot : b ∉ h := fun hmem => hb ⟨h, rfl, hmem⟩
      simp [lock, brelse, Finset.erase_insert hnot]

/-- Releasing a buffer that was locked in between. -/
theorem held_brelse {f g : Fs} {b : ℕ} (hb : ¬ f.Locked b) (hg : g.held = (f.lock b).held) :
    (g.brelse b).held = f.held := by
  have hsame : (g.brelse b).held = ((f.lock b).brelse b).held := by
    unfold brelse
    rw [hg]
  rw [hsame, brelse_lock hb]

theorem bread_post (f : Fs) (b : ℕ) :
    Post (f.bread b) (fun g => ¬ f.Locked b ∧ g = f.lock b)
      (fun e => e = .blocked ∧ f.Locked b) := by
  unfold bread lock Locked
  cases hh : f.held with
  | none =>
    cases f
    subst hh
    simp
  | some h =>
    by_cases hb : b ∈ h <;> simp [hb]

/-- Locking, changing and releasing the buffer of a block changes the block. -/
theorem updateBlock_post (f : Fs) (b : ℕ) (change : Block → Block) :
    Post (f.updateBlock b change)
      (fun g => ¬ f.Locked b ∧ g = f.setBlock b (change (f.disk b)))
      (fun e => e = .blocked ∧ f.Locked b) := by
  refine (bread_post f b).seq ?_
  rintro g ⟨hb, rfl⟩
  refine ⟨hb, ?_⟩
  show ((f.lock b).brelse b).setBlock b _ = _
  rw [brelse_lock hb]
  rfl

/-! ## `balloc` -/

/-- The block that `balloc` takes is the first one not marked. -/
def FirstFree (sb : Superblock) (d : Disk) (a : ℕ) : Prop :=
  a < sb.size ∧ marked sb d a = false ∧ ∀ c, c < a → marked sb d c = true

/-- The block that `balloc` takes is not a metadata block, when those are marked. -/
theorem FirstFree.dataStart_le {sb : Superblock} {d : Disk} {a : ℕ} (ha : FirstFree sb d a)
    (hmeta : ∀ b, b < sb.dataStart → marked sb d b = true) : sb.dataStart ≤ a := by
  by_contra hlt
  have hmark := hmeta a (not_le.mp hlt)
  rw [ha.2.1] at hmark
  exact absurd hmark (by simp)

/-- The state that `balloc` leaves: `a` marked and zeroed. -/
def allocated (sb : Superblock) (f : Fs) (a : ℕ) : Fs :=
  (f.setBlock (bblock sb a) ((f.disk (bblock sb a)).setBit (a % BPB))).setBlock a Block.zero

/-- Why `balloc` stops: every block is marked, or one of the buffers it needs is locked. -/
def BallocStops (sb : Superblock) (f : Fs) (e : Stop) : Prop :=
  (e = .panic "balloc: out of blocks" ∧ freeBlocks sb f.disk = 0) ∨
  (e = .blocked ∧ ∃ b, f.Locked b ∧
    ((∃ c, c < sb.size ∧ b = bblock sb c) ∨ (b < sb.size ∧ marked sb f.disk b = false)))

theorem clearBitAt_eq_some {bp : Block} {left bi : ℕ} (h : clearBitAt bp left = some bi) :
    bi < BPB ∧ bi < left ∧ bp.bit bi = false ∧ ∀ j, j < bi → bp.bit j = true := by
  rw [clearBitAt, List.find?_range_eq_some, List.mem_range, lt_min_iff] at h
  obtain ⟨hbit, ⟨hlt, hleft⟩, hfirst⟩ := h
  exact ⟨hlt, hleft, by simpa using hbit, fun j hj => by simpa using hfirst j hj⟩

/-- The outer loop of `balloc`, when the blocks before bitmap block `k` are all marked. -/
theorem ballocFrom_post (sb : Superblock) (f : Fs) (m k : ℕ)
    (hk : k + m = (sb.size + BPB - 1) / BPB)
    (hbefore : ∀ c, c < k * BPB → c < sb.size → marked sb f.disk c = true) :
    Post (ballocFrom sb f ((List.range' k m).map (· * BPB)))
      (fun r => FirstFree sb f.disk r.1 ∧ r.2 = f.allocated sb r.1) (BallocStops sb f) := by
  induction m generalizing k with
  | zero =>
    refine Or.inl ⟨rfl, freeBlocks_eq_zero_iff.mpr ?_⟩
    intro c hc
    apply hbefore c _ hc
    have := Nat.div_add_mod (sb.size + BPB - 1) BPB
    have := Nat.mod_lt (sb.size + BPB - 1) (show BPB > 0 by norm_num)
    unfold BPB at *
    omega
  | succ m ih =>
    have hkb : k * BPB < sb.size := by
      have := Nat.div_mul_le_self (sb.size + BPB - 1) BPB
      rw [← hk] at this
      unfold BPB at *
      omega
    have hblock : ∀ j, j < BPB → bblock sb (k * BPB + j) = bblock sb (k * BPB) ∧
        (k * BPB + j) % BPB = j := by
      intro j hj
      unfold bblock BPB at *
      omega
    rw [List.range'_succ, List.map_cons, ballocFrom]
    refine (bread_post f _).bind ?_ ?_
    · rintro g ⟨hunlocked, rfl⟩
      cases hfind : clearBitAt ((f.lock (bblock sb (k * BPB))).disk (bblock sb (k * BPB)))
          (sb.size - k * BPB) with
      | none =>
        simp only [brelse_lock hunlocked]
        apply ih (k + 1) (by omega)
        intro c hc hsize
        by_cases hck : c < k * BPB
        · exact hbefore c hck hsize
        · -- the bits of bitmap block `k` are all set
          obtain ⟨j, rfl⟩ := Nat.exists_eq_add_of_le (not_lt.mp hck)
          have hj : j < BPB := by
            rw [Nat.succ_mul] at hc
            omega
          unfold marked
          rw [(hblock j hj).1, (hblock j hj).2]
          rw [clearBitAt, List.find?_range_eq_none] at hfind
          simpa using hfind j (lt_min hj (by omega))
      | some bi =>
        obtain ⟨hbi, hleft, hbit, hfirst⟩ := clearBitAt_eq_some hfind
        have hsize : k * BPB + bi < sb.size := by
          rw [add_comm]
          exact Nat.add_lt_of_lt_sub hleft
        have hfree : marked sb f.disk (k * BPB + bi) = false := by
          unfold marked
          rw [(hblock bi hbi).1, (hblock bi hbi).2]
          exact hbit
        have hstate : ((f.lock (bblock sb (k * BPB))).setBlock (bblock sb (k * BPB))
            ((f.disk (bblock sb (k * BPB))).setBit bi)).brelse (bblock sb (k * BPB)) =
            f.setBlock (bblock sb (k * BPB)) ((f.disk (bblock sb (k * BPB))).setBit bi) := by
          show ((f.lock _).brelse _).setBlock _ _ = _
          rw [brelse_lock hunlocked]
        refine (updateBlock_post _ _ _).bind ?_ ?_
        · rintro g ⟨-, rfl⟩
          refine ⟨⟨hsize, hfree, ?_⟩, ?_⟩
          · intro c hc
            by_cases hck : c < k * BPB
            · exact hbefore c hck (by omega)
            · obtain ⟨j, rfl⟩ := Nat.exists_eq_add_of_le (not_lt.mp hck)
              have hj : j < bi := by omega
              unfold marked
              rw [(hblock j (hj.trans hbi)).1, (hblock j (hj.trans hbi)).2]
              exact hfirst j hj
          · show Fs.setBlock _ _ _ = _
            unfold allocated
            rw [(hblock bi hbi).1, (hblock bi hbi).2]
            exact congrArg (fun g => Fs.setBlock g (k * BPB + bi) Block.zero) hstate
        · rintro e ⟨rfl, hlocked⟩
          refine Or.inr ⟨rfl, _, ?_, Or.inr ⟨hsize, hfree⟩⟩
          have : (Fs.setBlock f _ _).Locked (k * BPB + bi) := hstate ▸ hlocked
          exact this
    · rintro e ⟨rfl, hlocked⟩
      exact Or.inr ⟨rfl, _, hlocked, Or.inl ⟨k * BPB, hkb, rfl⟩⟩

/-- `balloc` takes the first block that is not marked. -/
theorem balloc_post (sb : Superblock) (f : Fs) :
    Post (balloc sb f) (fun r => FirstFree sb f.disk r.1 ∧ r.2 = f.allocated sb r.1)
      (BallocStops sb f) := by
  unfold balloc
  rw [List.range_eq_range']
  exact ballocFrom_post sb f _ 0 (by rw [zero_add]) fun c hc => by simp at hc

end Fs

/-! ## Filling a slot -/

/-- What the places where `bmap` allocates have in common: slot `s` of inode `i` was empty and
gets the block `a` that `balloc` returned. -/
structure Allocates (sb : Superblock) (i : ℕ) (s : Slot) (a : ℕ) (f g : Fs) : Prop where
  first : Fs.FirstFree sb f.disk a
  empty : f.ptr i s = 0
  fields : g.inode i = { f.inode i with addrs := (g.inode i).addrs }
  others : ∀ j, j ≠ i → g.inode j = f.inode j
  roots : ∀ k, (g.inode i).addrs k =
    if s = .root k then UInt32.ofNat a else (f.inode i).addrs k
  entry : ∀ p l, s.parent = some (p, l) →
    f.ptr i p ≠ 0 ∧ g.disk (f.ptr i p) = (f.disk (f.ptr i p)).setWord l a
  zeroed : g.disk a = Block.zero
  same : ∀ b, sb.dataStart ≤ b → b ≠ a → (∀ p l, s.parent = some (p, l) → b ≠ f.ptr i p) →
    g.disk b = f.disk b
  marks : ∀ c, c < sb.size → marked sb g.disk c = (decide (c = a) || marked sb f.disk c)
  low : ∀ b, b < sb.inodestart → g.disk b = f.disk b
  held : g.held = f.held

namespace Allocates

variable {sb : Superblock} {i : ℕ} {s : Slot} {a : ℕ} {f g : Fs}

section Fresh

variable (hown : f.Owned sb) (ha : Fs.FirstFree sb f.disk a)
include hown ha

/-- The block that `balloc` returns is not a metadata block. -/
theorem dataStart_le : sb.dataStart ≤ a := ha.dataStart_le hown.meta_marked

theorem ne_zero : a ≠ 0 := by
  have h := dataStart_le hown ha
  have hpos := sb.dataStart_pos
  omega

/-- No slot holds the block that `balloc` returns. -/
theorem fresh {j : ℕ} (hj : f.Live j) (t : Slot) : f.ptr j t ≠ a := by
  intro heq
  have hmark := hown.ptr_marked j t hj (by rw [heq]; exact ne_zero hown ha)
  rw [heq, ha.2.1] at hmark
  exact absurd hmark (by simp)

end Fresh

theorem type_eq (h : Allocates sb i s a f g) (j : ℕ) : (g.inode j).type = (f.inode j).type := by
  by_cases hj : j = i
  · rw [hj, h.fields]
  · rw [h.others j hj]

theorem live_iff (h : Allocates sb i s a f g) (j : ℕ) : g.Live j ↔ f.Live j := by
  unfold Fs.Live
  rw [h.type_eq j]

theorem toNat_ofNat (hsb : sb.Layout) (h : Allocates sb i s a f g) : (UInt32.ofNat a).toNat = a := by
  have hlt := h.first.1
  have hsize := hsb.size_lt
  rw [UInt32.toNat_ofNat']
  exact Nat.mod_eq_of_lt (by omega)

section

variable (hsb : sb.Layout) (hown : f.Owned sb) (hi : f.Live i) (h : Allocates sb i s a f g)
include hsb hown hi h

/-- An entry follows the slot that holds its block. -/
theorem ptr_entry {j : ℕ} (hj : f.Live j) {t p : Slot} {l : Fin NINDIRECT}
    (ht : t.parent = some (p, l))
    (hp : g.ptr j p = if j = i ∧ p = s then a else f.ptr j p) :
    g.ptr j t = if j = i ∧ t = s then a else f.ptr j t := by
  rw [Fs.ptr_of_parent g j ht, hp]
  by_cases hps : j = i ∧ p = s
  · -- an entry of the new block, which is zeroed
    obtain ⟨rfl, rfl⟩ := hps
    have hts : t ≠ p := by
      rintro rfl
      cases t <;> simp [Slot.parent] at ht
    rw [if_pos ⟨rfl, rfl⟩, if_neg (fun hc => hts hc.2), Fs.ptr_of_parent f j ht, h.empty]
    simp [childOf, h.zeroed]
  · rw [if_neg hps]
    by_cases hv : f.ptr j p = 0
    · have hts : ¬(j = i ∧ t = s) := by
        rintro ⟨rfl, rfl⟩
        exact (h.entry p l ht).1 hv
      rw [if_neg hts, Fs.ptr_of_parent f j ht, hv]
      simp [childOf]
    · by_cases hts : j = i ∧ t = s
      · obtain ⟨rfl, rfl⟩ := hts
        have ha : a < 2 ^ 32 := by
          have := h.first.1
          have := hsb.size_lt
          omega
        rw [if_pos ⟨rfl, rfl⟩, childOf, if_neg hv, (h.entry p l ht).2,
          Block.word_setWord_self _ l.isLt ha]
      · rw [if_neg hts, Fs.ptr_of_parent f j ht, childOf, childOf, if_neg hv, if_neg hv]
        by_cases hblock : ∃ q m, s.parent = some (q, m) ∧ f.ptr j p = f.ptr i q
        · -- another entry of the block that is changed
          obtain ⟨q, m, hq, heq⟩ := hblock
          obtain ⟨rfl, rfl⟩ := hown.unshared j i p q hj hi hv heq
          have hlm : l ≠ m := by
            rintro rfl
            refine hts ⟨rfl, ?_⟩
            cases s <;> cases t <;> grind [Slot.parent]
          rw [(h.entry p m hq).2, Block.word_setWord_of_ne]
          exact fun hc => hlm (Fin.ext hc)
        · rw [h.same _ (hown.in_data j p hj hv).1 (fresh hown h.first hj p)]
          intro q m hq heq
          exact hblock ⟨q, m, hq, heq⟩

/-- The slot `s` of inode `i` gets `a`; every other slot keeps its block. -/
theorem ptr_eq {j : ℕ} (hj : f.Live j) (t : Slot) :
    g.ptr j t = if j = i ∧ t = s then a else f.ptr j t := by
  have hroot : ∀ k, g.ptr j (.root k) =
      if j = i ∧ Slot.root k = s then a else f.ptr j (.root k) := by
    intro k
    by_cases hji : j = i
    · subst hji
      show ((g.inode j).addrs k).toNat = _
      rw [h.roots k]
      by_cases hk : Slot.root k = s
      · rw [if_pos hk.symm, if_pos ⟨rfl, hk⟩, toNat_ofNat hsb h]
      · rw [if_neg (fun hc => hk hc.symm), if_neg (fun hc => hk hc.2)]
        rfl
    · rw [if_neg (fun hc => hji hc.1)]
      show ((g.inode j).addrs k).toNat = ((f.inode j).addrs k).toNat
      rw [h.others j hji]
  -- from the root of the tree down
  cases t with
  | root k => exact hroot k
  | ind l | dbl l => exact ptr_entry hsb hown hi h hj rfl (hroot _)
  | leaf l m =>
    exact ptr_entry hsb hown hi h hj rfl (ptr_entry hsb hown hi h hj rfl (hroot _))

/-- A block of data stays, and the new block is zeroed. -/
theorem content_eq {j : ℕ} (hj : f.Live j) (o : ℕ) : g.content j o = f.content j o := by
  unfold Fs.content
  set t := dataSlot (o / BSIZE) with ht
  rw [ptr_eq hsb hown hi h hj t]
  by_cases hts : j = i ∧ t = s
  · obtain ⟨rfl, hts⟩ := hts
    rw [hts, h.empty]
    simp [h.zeroed]
  · rw [if_neg hts]
    by_cases hv : f.ptr j t = 0
    · simp [hv]
    · rw [h.same _ (hown.in_data j t hj hv).1 (fresh hown h.first hj t)]
      intro q m hq heq
      obtain ⟨-, hqt⟩ := hown.unshared j i t q hj hi hv heq
      exact isData_dataSlot _ s m (by rw [hq, ← hqt])

theorem file_eq {j : ℕ} (hj : f.Live j) : g.file j = f.file j := by
  have hsize : (g.inode j).size = (f.inode j).size := by
    by_cases hji : j = i
    · rw [hji, h.fields]
    · rw [h.others j hji]
  unfold Fs.file
  rw [hsize, funext (content_eq hsb hown hi h hj)]

/-- Ownership is kept: the new block was not owned. -/
theorem owned : g.Owned sb where
  inum_lt j hj := hown.inum_lt j ((h.live_iff j).mp hj)
  meta_marked b hb := by
    rw [h.marks b (hb.trans_le hsb.meta_le), hown.meta_marked b hb, Bool.or_true]
  unshared j k t u hj hk hne heq := by
    have hj' := (h.live_iff j).mp hj
    have hk' := (h.live_iff k).mp hk
    rw [ptr_eq hsb hown hi h hj'] at hne heq
    rw [ptr_eq hsb hown hi h hk'] at heq
    by_cases h1 : j = i ∧ t = s
    · by_cases h2 : k = i ∧ u = s
      · exact ⟨h1.1.trans h2.1.symm, h1.2.trans h2.2.symm⟩
      · rw [if_pos h1, if_neg h2] at heq
        exact absurd heq.symm (fresh hown h.first hk' u)
    · rw [if_neg h1] at hne heq
      by_cases h2 : k = i ∧ u = s
      · rw [if_pos h2] at heq
        exact absurd heq (fresh hown h.first hj' t)
      · rw [if_neg h2] at heq
        exact hown.unshared j k t u hj' hk' hne heq
  in_data j t hj hne := by
    have hj' := (h.live_iff j).mp hj
    rw [ptr_eq hsb hown hi h hj'] at hne ⊢
    split_ifs at hne ⊢ with hc
    · exact ⟨dataStart_le hown h.first, h.first.1⟩
    · exact hown.in_data j t hj' hne
  ptr_marked j t hj hne := by
    have hj' := (h.live_iff j).mp hj
    rw [ptr_eq hsb hown hi h hj'] at hne ⊢
    split_ifs at hne ⊢ with hc
    · rw [h.marks a h.first.1, decide_eq_true rfl, Bool.true_or]
    · rw [h.marks _ (hown.in_data j t hj' hne).2, hown.ptr_marked j t hj' hne, Bool.or_true]

/-- **An allocation is a change** that fills one slot. -/
theorem change : Change sb i {s} ∅ (f.file i) f g where
  live := hi
  own := owned hsb hown hi h
  fields := by
    conv_lhs => rw [h.fields]
    rw [h.fields]
  others := h.others
  filled t ht := by
    rw [Finset.mem_singleton] at ht
    subst ht
    rw [ptr_eq hsb hown hi h hi, if_pos ⟨rfl, rfl⟩]
    exact ⟨h.empty, ne_zero hown h.first, h.first.2.1⟩
  kept t ht := by
    rw [Finset.mem_singleton] at ht
    rw [ptr_eq hsb hown hi h hi, if_neg (fun hc => ht hc.2)]
  ptr_others j hj hlive t := by
    rw [ptr_eq hsb hown hi h hlive, if_neg (fun hc => hj hc.1)]
  file_self := file_eq hsb hown hi h hi
  file_others j _ hlive := file_eq hsb hown hi h hlive
  marks b hb hm := by
    rw [h.marks b hb, hm, Bool.or_true]
  free := by
    rw [Finset.card_singleton, add_comm]
    exact freeBlocks_mark h.first.1 h.first.2.1 h.marks
  tracks := by
    unfold Fs.Tracks
    rw [h.held]
  locked b := by
    unfold Fs.Locked
    rw [h.held]
    simp
  leaked j hj := absurd hj (Finset.notMem_empty j)
  low := h.low

end

end Allocates

/-! ## The state after `balloc` -/

namespace Fs

section Allocated

variable {sb : Superblock} {f : Fs} {a : ℕ}

theorem allocated_disk_self : (f.allocated sb a).disk a = Block.zero := update_self _ _ _

theorem allocated_disk_of_ne {b : ℕ} (hb : b ≠ a) (hbit : b ≠ bblock sb a) :
    (f.allocated sb a).disk b = f.disk b := by
  show update (update f.disk _ _) _ _ b = _
  rw [update_of_ne hb, update_of_ne hbit]

variable (hsb : sb.Layout) (hown : f.Owned sb) (ha : FirstFree sb f.disk a)
include hown ha

omit hown in
/-- The other data blocks stay. -/
theorem allocated_disk_data {b : ℕ} (hb : b ≠ a) (hdata : sb.dataStart ≤ b) :
    (f.allocated sb a).disk b = f.disk b := by
  have hlt := Superblock.bblock_lt ha.1
  exact allocated_disk_of_ne hb (by omega)

omit hown ha in
/-- `a` is marked and no other block. -/
theorem marked_allocated (hdata : sb.dataStart ≤ a) {c : ℕ} (hc : c < sb.size) :
    marked sb (f.allocated sb a).disk c = (decide (c = a) || marked sb f.disk c) := by
  have hlt := Superblock.bblock_lt hc
  rw [← marked_setBit]
  apply marked_congr
  exact update_of_ne (by omega) _ _

include hsb in
theorem allocated_disk_low {b : ℕ} (hb : b < sb.inodestart) :
    (f.allocated sb a).disk b = f.disk b := by
  have hle := sb.bmapstart_le_bblock a
  have hdata := Allocates.dataStart_le hown ha
  have hi := hsb.inodestart_lt
  have hm := sb.bmapstart_lt
  exact allocated_disk_of_ne (by omega) (by omega)

end Allocated

/-- `balloc` stops for want of blocks, unless one of the locked buffers is not that of a marked
data block. -/
theorem BallocStops.cases {sb : Superblock} {f : Fs} {e : Stop} (h : BallocStops sb f e) :
    (e = .panic "balloc: out of blocks" ∧ freeBlocks sb f.disk = 0) ∨
    (e = .blocked ∧ ¬ ∀ b, f.Locked b → sb.dataStart ≤ b ∧ marked sb f.disk b = true) := by
  rcases h with h | ⟨rfl, b, hlocked, hb⟩
  · exact Or.inl h
  · refine Or.inr ⟨rfl, fun hall => ?_⟩
    obtain ⟨hdata, hmark⟩ := hall b hlocked
    rcases hb with ⟨c, hc, rfl⟩ | ⟨-, hfree⟩
    · exact absurd (Superblock.bblock_lt hc) (not_lt.mpr hdata)
    · rw [hfree] at hmark
      exact absurd hmark (by simp)

end Fs
