/-
# Buffers that are given back

Which buffers `bmap`, `readi`, `writei` and `itrunc` leave locked, in any state and on any inode.
Every `bread` is matched by a `brelse` but one: the buffer of the second-level block on the way
to a block behind the doubly indirect block.  So a call gives back every buffer it takes exactly
if it does not go that way.
-/
import Xv6.ExtentFile
import Xv6.BlockOwnership

open Outcome List

namespace Fs

variable {sb : Superblock} {i : ℕ} {f g h : Fs}

/-! ## What a call leaves locked -/

/-- A buffer is locked in addition. -/
def Leaks (f g : Fs) : Prop := ∃ b, ¬ f.Locked b ∧ g.held = (f.lock b).held

theorem tracks_lock (f : Fs) (b : ℕ) : (f.lock b).Tracks ↔ f.Tracks := by
  unfold Tracks lock
  simp

/-- What a call on inode `i` does with the buffers: it gives all of them back exactly if `C`. -/
structure Takes (i : ℕ) (C : Prop) (f g : Fs) : Prop where
  type_eq : (g.inode i).type = (f.inode i).type
  tracks : g.Tracks ↔ f.Tracks
  mono : ∀ b, f.Locked b → g.Locked b
  balanced : C → g.held = f.held
  leaked : f.Tracks → ¬ C → ∃ b, ¬ f.Locked b ∧ g.Locked b

namespace Takes

variable {C D : Prop}

theorem congr (hfg : Takes i C f g) (hCD : D ↔ C) : Takes i D f g := by
  rwa [propext hCD]

theorem of_held (htype : (g.inode i).type = (f.inode i).type) (hheld : g.held = f.held) (hC : C) :
    Takes i C f g where
  type_eq := htype
  tracks := tracks_congr hheld
  mono b := (locked_congr hheld b).mpr
  balanced _ := hheld
  leaked _ hC' := absurd hC hC'

theorem refl (hC : C) : Takes i C f f := of_held rfl rfl hC

/-- **One call after another.**  What the first has left locked stays locked. -/
theorem trans (hfg : Takes i C f g) (hgh : Takes i D g h) : Takes i (C ∧ D) f h where
  type_eq := hgh.type_eq.trans hfg.type_eq
  tracks := hgh.tracks.trans hfg.tracks
  mono b hb := hgh.mono b (hfg.mono b hb)
  balanced hCD := (hgh.balanced hCD.2).trans (hfg.balanced hCD.1)
  leaked htr hCD := by
    by_cases hC : C
    · obtain ⟨b, hb, hlocked⟩ := hgh.leaked (hfg.tracks.mpr htr) fun hD => hCD ⟨hC, hD⟩
      exact ⟨b, fun hf => hb (hfg.mono b hf), hlocked⟩
    · obtain ⟨b, hb, hlocked⟩ := hfg.leaked htr hC
      exact ⟨b, hb, hgh.mono b hlocked⟩

/-- The same buffers are locked afterwards exactly if `C`. -/
theorem locked_iff (hfg : Takes i C f g) (htr : f.Tracks) :
    (∀ b, g.Locked b ↔ f.Locked b) ↔ C := by
  constructor
  · intro hsame
    by_contra hC
    obtain ⟨b, hb, hlocked⟩ := hfg.leaked htr hC
    exact hb ((hsame b).mp hlocked)
  · exact fun hC b => locked_congr (hfg.balanced hC) b

end Takes

theorem Leaks.takes (hleak : Leaks f g) (htype : (g.inode i).type = (f.inode i).type) {C : Prop}
    (hC : ¬ C) : Takes i C f g := by
  obtain ⟨b, hb, hg⟩ := hleak
  have hlocked : ∀ c, g.Locked c ↔ f.Locked c ∨ f.Tracks ∧ c = b := fun c =>
    (locked_congr hg c).trans (locked_lock f b c)
  refine ⟨htype, (tracks_congr hg).trans (tracks_lock f b), fun c hc => (hlocked c).mpr (Or.inl hc),
    fun h => absurd h hC, fun htr _ => ⟨b, hb, (hlocked b).mpr (Or.inr ⟨htr, rfl⟩)⟩⟩

/-! ## `bmap` -/

/-- The blocks of a file that are not behind the doubly indirect block. -/
abbrev NSINGLE : ℕ := NDIRECT + NINDIRECT

theorem addrAt_held (k : Fin (NDIRECT + 2)) :
    Post (f.addrAt sb i k)
      (fun r => r.2.held = f.held ∧ (r.2.inode i).type = (f.inode i).type) (fun _ => True) := by
  unfold addrAt
  refine post_ite.mpr ⟨fun _ => ?_, fun _ => ⟨rfl, rfl⟩⟩
  refine (balloc_post sb f).bindAny ?_
  rintro ⟨b, g⟩ ⟨-, hg⟩
  obtain rfl : g = f.allocated sb b := hg
  refine ⟨rfl, ?_⟩
  show (((f.allocated sb b).setAddr i k _).inode i).type = _
  unfold setAddr
  rw [setInode_inode_self]
  rfl

theorem entryAt_held (b j : ℕ) :
    Post (f.entryAt sb b j)
      (fun r => ¬ f.Locked b ∧ r.2.held = (f.lock b).held ∧ r.2.inode = f.inode)
      (fun _ => True) := by
  unfold entryAt
  refine (bread_post f b).bindAny ?_
  rintro g ⟨hb, rfl⟩
  refine post_ite.mpr ⟨fun _ => ?_, fun _ => ⟨hb, rfl, rfl⟩⟩
  refine (balloc_post sb _).bindAny ?_
  rintro ⟨a, g⟩ ⟨-, hg⟩
  obtain rfl : g = (f.lock b).allocated sb a := hg
  exact ⟨hb, rfl, rfl⟩

theorem bmapExtent_held (bn : ℕ) :
    Post (f.bmapExtent sb i bn)
      (fun r => r.2.held = f.held ∧ (r.2.inode i).type = (f.inode i).type) (fun _ => True) := by
  unfold bmapExtent
  cases findExtent (f.inode i).addrs bn (finRange _) 0 with
  | inl addr => exact ⟨rfl, rfl⟩
  | inr k =>
    refine post_ite.mpr ⟨fun _ => trivial, fun _ => ?_⟩
    refine (balloc_post sb f).bindAny ?_
    rintro ⟨b, g⟩ ⟨-, hg⟩
    obtain rfl : g = f.allocated sb b := hg
    have haddr : ∀ k v, (((f.allocated sb b).setAddr i k v).inode i).type = (f.inode i).type := by
      intro k v
      unfold setAddr
      rw [setInode_inode_self]
      rfl
    refine post_ite.mpr ⟨fun _ => ?_, fun _ => ⟨rfl, haddr _ _⟩⟩
    show ((f.allocated sb b).setLastExtent i k _).held = _ ∧
      (((f.allocated sb b).setLastExtent i k _).inode i).type = _
    unfold setLastExtent
    split_ifs
    · refine ⟨rfl, ?_⟩
      unfold setSize
      rw [setInode_inode_self]
      rfl
    · exact ⟨rfl, haddr _ _⟩

/-- **The buffers of `bmap`.**  The one that it does not release is that of a second-level
block. -/
theorem bmap_held (bn : ℕ) :
    Post (f.bmap sb i bn)
      (fun r => (r.2.inode i).type = (f.inode i).type ∧
        if (f.inode i).type = T_EXTENT ∨ bn < NSINGLE then r.2.held = f.held else Leaks f r.2)
      (fun _ => True) := by
  by_cases hext : (f.inode i).type = T_EXTENT
  · unfold bmap
    rw [if_pos hext]
    simp only [if_pos (Or.inl hext : _ ∨ bn < NSINGLE)]
    exact (bmapExtent_held bn).imp fun r hr => ⟨hr.2, hr.1⟩
  rcases Nat.lt_or_ge bn MAXMAP with hbn | hbn
  swap
  · rw [bmap_of_ge sb hext hbn]
    trivial
  unfold bmap
  rw [if_neg hext]
  by_cases hdirect : bn < NDIRECT
  · have hsingle : bn < NSINGLE := hdirect.trans_le (Nat.le_add_right _ _)
    rw [if_pos hdirect]
    simp only [if_pos (Or.inr hsingle : _ ∨ bn < NSINGLE)]
    exact (addrAt_held _).imp fun r hr => ⟨hr.2, hr.1⟩
  rw [if_neg hdirect]
  by_cases hind : bn - NDIRECT < NINDIRECT
  · have hsingle : bn < NSINGLE := by
      unfold NSINGLE
      omega
    rw [if_pos hind]
    simp only [if_pos (Or.inr hsingle : _ ∨ bn < NSINGLE)]
    refine (addrAt_held _).bindAny ?_
    rintro ⟨b, g⟩ ⟨hheld, htype⟩
    refine (entryAt_held b _).bindAny ?_
    rintro ⟨addr, h⟩ ⟨hb, hlocked, hinode⟩
    refine ⟨?_, (held_brelse hb hlocked).trans hheld⟩
    show (h.inode i).type = _
    rw [hinode]
    exact htype
  rw [if_neg hind]
  have hdouble : ¬ ((f.inode i).type = T_EXTENT ∨ bn < NSINGLE) := by
    rintro (h | h)
    · exact hext h
    · unfold NSINGLE at h
      omega
  simp only [if_neg hdouble]
  rw [if_pos (doubly_lt hbn)]
  refine (addrAt_held _).bindAny ?_
  rintro ⟨b, g⟩ ⟨hheld, htype⟩
  refine (entryAt_held b _).bindAny ?_
  rintro ⟨b', h⟩ ⟨hb, hlocked, hinode⟩
  -- the buffer of the doubly indirect block is released, the next one is not
  have hsame : (h.brelse b).held = f.held := (held_brelse hb hlocked).trans hheld
  refine (entryAt_held b' _).imp ?_
  rintro ⟨addr, k⟩ ⟨hb', hlocked', hinode'⟩
  refine ⟨?_, b', fun h => hb' ((locked_congr hsame b').mpr h), ?_⟩
  · rw [hinode']
    show (h.inode i).type = _
    rw [hinode]
    exact htype
  · rw [hlocked']
    unfold lock
    rw [hsame]

theorem updateBlock_takes (b : ℕ) (change : Block → Block) :
    Post (f.updateBlock b change) (Takes i True f) (fun _ => True) := by
  refine (updateBlock_post f b change).impAny ?_
  rintro g ⟨-, rfl⟩
  exact .of_held rfl rfl trivial

theorem bmap_takes (bn : ℕ) :
    Post (f.bmap sb i bn)
      (fun r => Takes i ((f.inode i).type = T_EXTENT ∨ bn < NSINGLE) f r.2) (fun _ => True) := by
  refine (bmap_held bn).imp ?_
  rintro r ⟨htype, hheld⟩
  split_ifs at hheld with hC
  · exact .of_held htype hheld hC
  · exact hheld.takes htype hC

/-! ## `readi` and `writei` -/

/-- The blocks of a range are below `k` if the range is. -/
theorem blocksOf_lt_iff (off n k : ℕ) :
    (∀ bn ∈ blocksOf off n, bn < k) ↔ n = 0 ∨ off + n ≤ k * BSIZE := by
  rcases Nat.eq_zero_or_pos n with rfl | hn
  · simp
  have hne : n ≠ 0 := hn.ne'
  simp only [blocksOf, if_neg hne, mem_range'_1, or_iff_right hne]
  unfold BSIZE
  constructor
  · intro h
    have := h ((off + n - 1) / 512) (by omega)
    omega
  · intro h bn hbn
    omega

/-- The range has no block behind the doubly indirect block, or the inode is made of extents. -/
def Single (f : Fs) (i off n : ℕ) : Prop :=
  (f.inode i).type = T_EXTENT ∨ n = 0 ∨ off + n ≤ NSINGLE * BSIZE

instance (f : Fs) (i off n : ℕ) : Decidable (f.Single i off n) := by
  unfold Single
  infer_instance

theorem single_iff (f : Fs) (i off n : ℕ) :
    f.Single i off n ↔ (f.inode i).type = T_EXTENT ∨ ∀ bn ∈ blocksOf off n, bn < NSINGLE := by
  rw [blocksOf_lt_iff]
  rfl

/-- One round and the later ones. -/
theorem single_iff_round {off n m : ℕ} (hr : Round off n m)
    (htype : (g.inode i).type = (f.inode i).type)
    (hoff : (f.inode i).type ≠ T_EXTENT → u32 (off + m) = off + m) :
    f.Single i off n ↔ ((f.inode i).type = T_EXTENT ∨ off / BSIZE < NSINGLE) ∧
      g.Single i (u32 (off + m)) (n - m) := by
  rw [single_iff, single_iff, htype, ← or_and_left]
  by_cases hext : (f.inode i).type = T_EXTENT
  · exact iff_of_true (Or.inl hext) (Or.inl hext)
  · rw [hoff hext, hr.blocks, forall_mem_cons]

theorem writeLoop_takes {rounds off : ℕ} {src : List UInt8} (hrounds : src.length ≤ rounds) :
    Post (f.writeLoop sb i rounds off src)
      (fun r => Takes i (f.Single i off src.length) f r.2) (fun _ => True) := by
  induction rounds generalizing f off src with
  | zero =>
    obtain rfl : src = [] := eq_nil_of_length_eq_zero (Nat.le_zero.mp hrounds)
    exact .refl (Or.inr (Or.inl rfl))
  | succ rounds ih =>
    by_cases hsrc : src = []
    · rw [writeLoop, if_pos hsrc, hsrc]
      exact .refl (Or.inr (Or.inl rfl))
    rw [writeLoop, if_neg hsrc]
    have hr := round_min off (mt length_eq_zero_iff.mp hsrc)
    set m := min src.length (BSIZE - off % BSIZE)
    have hpos := hr.pos
    by_cases hbn : (f.inode i).type ≠ T_EXTENT ∧ MAXMAP ≤ off / BSIZE
    · rw [bmap_of_ge sb hbn.1 hbn.2]
      trivial
    have hoff : (f.inode i).type ≠ T_EXTENT → u32 (off + m) = off + m := fun hext =>
      hr.next (not_le.mp fun hle => hbn ⟨hext, hle⟩)
    refine (bmap_takes _).bindAny ?_
    rintro ⟨b, g⟩ hmap
    refine (updateBlock_takes (i := i) b _).bindAny ?_
    intro h hset
    have hstep := hmap.trans hset
    refine (ih (by rw [length_drop]; omega)).imp ?_
    intro r hrest
    refine (hstep.trans hrest).congr ?_
    rw [and_true, length_drop]
    exact single_iff_round hr hstep.type_eq hoff

theorem readLoop_takes {rounds off n : ℕ} (hrounds : n ≤ rounds) :
    Post (f.readLoop sb i rounds off n) (fun r => Takes i (f.Single i off n) f r.2)
      (fun _ => True) := by
  induction rounds generalizing f off n with
  | zero =>
    obtain rfl : n = 0 := Nat.le_zero.mp hrounds
    exact .refl (Or.inr (Or.inl rfl))
  | succ rounds ih =>
    by_cases hn : n = 0
    · rw [readLoop, if_pos hn, hn]
      exact .refl (Or.inr (Or.inl rfl))
    rw [readLoop, if_neg hn]
    have hr := round_min off hn
    set m := min n (BSIZE - off % BSIZE)
    have hpos := hr.pos
    by_cases hbn : (f.inode i).type ≠ T_EXTENT ∧ MAXMAP ≤ off / BSIZE
    · rw [bmap_of_ge sb hbn.1 hbn.2]
      trivial
    have hoff : (f.inode i).type ≠ T_EXTENT → u32 (off + m) = off + m := fun hext =>
      hr.next (not_le.mp fun hle => hbn ⟨hext, hle⟩)
    refine (bmap_takes _).bindAny ?_
    rintro ⟨b, g⟩ hmap
    refine (bread_post g b).bindAny ?_
    rintro h ⟨hb, rfl⟩
    simp only [brelse_lock hb]
    refine (ih (by omega)).bindAny ?_
    rintro ⟨rest, h⟩ hrest
    exact (hmap.trans hrest).congr (single_iff_round hr hmap.type_eq hoff)

/-- `readi` of `n` bytes at `off` is refused. -/
def ReadRefused (f : Fs) (i off n : ℕ) : Prop :=
  (f.inode i).type = T_DEV ∨ (f.inode i).size.toNat < off ∨ u32 (off + n) < off

/-- How many bytes `readi` reads: not beyond the end of the file. -/
def readLength (f : Fs) (i off n : ℕ) : ℕ :=
  if (f.inode i).size.toNat < u32 (off + n) then (f.inode i).size.toNat - off else n

theorem readi_takes (devsw : Devsw) (off n : ℕ) :
    Post (f.readi sb devsw i off n)
      (fun r => Takes i (f.ReadRefused i off n ∨ f.Single i off (f.readLength i off n)) f r.2)
      (fun _ => True) := by
  unfold readi
  by_cases hdev : (f.inode i).type = T_DEV
  · simp only [if_pos hdev]
    have hself : Takes i (f.ReadRefused i off n ∨ f.Single i off (f.readLength i off n)) f f :=
      .refl (Or.inl (Or.inl hdev))
    refine post_ite.mpr ⟨fun _ => hself, fun _ => ?_⟩
    cases devsw.read (f.inode i).major.toInt.toNat with
    | none => exact hself
    | some read => exact hself
  simp only [if_neg hdev]
  refine post_ite.mpr ⟨fun href => .refl (Or.inl (Or.inr href)), fun hok => ?_⟩
  refine (readLoop_takes le_rfl).bindAny ?_
  rintro ⟨dst, g⟩ hloop
  refine hloop.congr (or_iff_right ?_)
  rintro (h | h)
  · exact hdev h
  · exact hok h

/-- `writei` of `n` bytes at `off` is refused, or not for the disk. -/
def WriteRefused (f : Fs) (i off n : ℕ) : Prop :=
  (f.inode i).type = T_DEV ∨ MAXFILE * BSIZE < u32 (off + n)

theorem writei_takes (devsw : Devsw) (src : List UInt8) (off : ℕ) :
    Post (f.writei sb devsw i src off)
      (fun r => Takes i (f.WriteRefused i off src.length ∨ f.Single i off src.length) f r.2)
      (fun _ => True) := by
  unfold writei
  by_cases hdev : (f.inode i).type = T_DEV
  · simp only [if_pos hdev]
    have hself : Takes i (f.WriteRefused i off src.length ∨ f.Single i off src.length) f f :=
      .refl (Or.inl (Or.inl hdev))
    refine post_ite.mpr ⟨fun _ => hself, fun _ => ?_⟩
    cases devsw.write (f.inode i).major.toInt.toNat with
    | none => exact hself
    | some write => exact hself
  simp only [if_neg hdev]
  refine post_ite.mpr ⟨fun href => .refl (Or.inl (Or.inr href)), fun hok => ?_⟩
  have hC : f.WriteRefused i off src.length ∨ f.Single i off src.length ↔
      f.Single i off src.length := by
    refine or_iff_right ?_
    rintro (h | h)
    · exact hdev h
    · exact hok h
  refine (writeLoop_takes le_rfl).bindAny ?_
  rintro ⟨o, g⟩ hloop
  refine post_ite.mpr ⟨fun _ => ?_, fun _ => hloop.congr hC⟩
  have hsize : Takes i True g (g.setSize i (UInt32.ofNat o)) := by
    refine .of_held ?_ rfl trivial
    unfold setSize
    rw [setInode_inode_self]
  refine (updateBlock_takes (i := i) _ _).bindAny ?_
  intro h hset
  refine ((hloop.trans hsize).trans hset).congr (hC.trans ?_)
  simp

/-! ## Reference counts -/

instance (f : Fs) (b : ℕ) : Decidable (f.Locked b) :=
  match h : f.held with
  | none => isFalse fun hb => absurd (hb.choose_spec.1.symm.trans h) (by simp)
  | some s => decidable_of_iff (b ∈ s) (by simp [Locked, h])

/-- `b->refcnt`: the references of others, and one while the buffer is locked. -/
def refcnt (others : ℕ → ℕ) (f : Fs) (b : ℕ) : ℕ := others b + if f.Locked b then 1 else 0

/-- **A call gives the buffers back**: the same ones are locked, with the same counts. -/
def GivenBack (f g : Fs) : Prop :=
  (∀ b, g.Locked b ↔ f.Locked b) ∧ ∀ others b, g.refcnt others b = f.refcnt others b

theorem givenBack_iff_locked : GivenBack f g ↔ ∀ b, g.Locked b ↔ f.Locked b := by
  refine ⟨fun h => h.1, fun h => ⟨h, fun others b => ?_⟩⟩
  unfold refcnt
  simp only [h b]

end Fs

/-! ## No call waits for itself -/

namespace Fs

variable {sb : Superblock} {i : ℕ} {f g : Fs}

/-- The reason for stopping is not a buffer that is locked. -/
def NotWaiting (e : Stop) : Prop := e ≠ .blocked

theorem notWaiting_panic (msg : String) : NotWaiting (.panic msg) := nofun

theorem bread_free (hfree : ∀ b, ¬ f.Locked b) (b : ℕ) :
    Post (f.bread b) (fun g => g = f.lock b) NotWaiting :=
  (bread_post f b).mono (fun _ h => h.2) fun _ he => absurd he.2 (hfree b)

theorem balloc_free (hfree : ∀ b, ¬ f.Locked b) :
    Post (balloc sb f) (fun _ => True) NotWaiting := by
  refine (balloc_post sb f).mono (fun _ _ => trivial) ?_
  rintro e (⟨rfl, -⟩ | ⟨-, b, hb, -⟩)
  · exact notWaiting_panic _
  · exact absurd hb (hfree b)

variable (hext : (f.inode i).type = T_EXTENT)

include hext

/-- On extents `bmap` has at most one buffer locked at a time. -/
theorem bmap_free_of_extent (hfree : ∀ b, ¬ f.Locked b) (bn : ℕ) :
    Post (f.bmap sb i bn)
      (fun r => (r.2.inode i).type = T_EXTENT ∧ ∀ b, ¬ r.2.Locked b) NotWaiting := by
  have hwait : Post (f.bmap sb i bn) (fun _ => True) NotWaiting := by
    unfold bmap bmapExtent
    rw [if_pos hext]
    cases findExtent (f.inode i).addrs bn (finRange _) 0 with
    | inl addr => trivial
    | inr k =>
      refine post_ite.mpr ⟨fun _ => notWaiting_panic _, fun _ => ?_⟩
      refine (balloc_free hfree).seq ?_
      rintro ⟨b, g⟩ -
      exact post_ite.mpr ⟨fun _ => trivial, fun _ => trivial⟩
  refine (hwait.and (bmap_takes bn)).mono ?_ fun _ he => he.1
  rintro r ⟨-, htakes⟩
  refine ⟨htakes.type_eq.trans hext, fun b hb => hfree b ?_⟩
  exact (locked_congr (htakes.balanced (Or.inl hext)) b).mp hb

theorem writeLoop_free_of_extent (hfree : ∀ b, ¬ f.Locked b) (rounds off : ℕ) (src : List UInt8) :
    Post (f.writeLoop sb i rounds off src) (fun r => ∀ b, ¬ r.2.Locked b) NotWaiting := by
  induction rounds generalizing f off src with
  | zero => exact hfree
  | succ rounds ih =>
    rw [writeLoop]
    refine post_ite.mpr ⟨fun _ => hfree, fun _ => ?_⟩
    refine (bmap_free_of_extent hext hfree _).seq ?_
    rintro ⟨b, g⟩ ⟨hext, hfree⟩
    refine (updateBlock_post g b _).bind ?_ fun _ he => absurd he.2 (hfree b)
    rintro h ⟨-, rfl⟩
    exact ih (f := g.setBlock b _) hext hfree _ _

theorem readLoop_free_of_extent (hfree : ∀ b, ¬ f.Locked b) (rounds off n : ℕ) :
    Post (f.readLoop sb i rounds off n) (fun _ => True) NotWaiting := by
  induction rounds generalizing f off n with
  | zero => trivial
  | succ rounds ih =>
    rw [readLoop]
    refine post_ite.mpr ⟨fun _ => trivial, fun _ => ?_⟩
    refine (bmap_free_of_extent hext hfree _).seq ?_
    rintro ⟨b, g⟩ ⟨hext, hfree⟩
    refine (bread_free hfree b).seq ?_
    rintro h rfl
    simp only [brelse_lock (hfree b)]
    refine (ih hext hfree _ _).seq ?_
    rintro ⟨rest, h⟩ -
    trivial

end Fs

section Owned

variable {sb : Superblock} {i : ℕ} {f : Fs} {e : Stop} {T : Finset Slot}

/-- A call on a file with blocks of its own that locks no second-level block does not wait. -/
theorem Stops.notWaiting (hfree : ∀ b, ¬ f.Locked b) (h : Stops sb i T [] f e) :
    Fs.NotWaiting e := by
  rcases h with ⟨rfl, -⟩ | ⟨-, hblocked⟩
  · exact Fs.notWaiting_panic _
  · refine absurd (fun _ => ⟨nodup_nil, nofun⟩) (hblocked fun b hb => absurd hb (hfree b))

theorem seconds_eq_nil {bns : List ℕ} (h : ∀ bn ∈ bns, bn < Fs.NSINGLE) : seconds bns = [] := by
  refine flatMap_eq_nil_iff.mpr fun bn hbn => ?_
  have hlt := h bn hbn
  unfold Fs.NSINGLE at hlt
  unfold second
  split_ifs with h1 h2
  · rfl
  · rfl
  · omega

theorem RangeStops.notWaiting {off n : ℕ} (hfree : ∀ b, ¬ f.Locked b)
    (hsingle : ∀ bn ∈ blocksOf off n, bn < Fs.NSINGLE) (h : RangeStops sb i off n f e) :
    Fs.NotWaiting e := by
  rcases h with h | ⟨rfl, -⟩
  · rw [seconds_eq_nil hsingle] at h
    exact h.notWaiting hfree
  · exact Fs.notWaiting_panic _

end Owned

/-! ## The calls -/

namespace FsOp

open Fs

variable {sb : Superblock} {f g : Fs}

/-- The calls that work on the blocks of a file. -/
def isAccess : FsOp → Bool
  | bmap _ _ | readi _ _ _ | writei _ _ _ | itrunc _ => true
  | _ => false

/-- The condition under which a call gives back the buffers that it takes: the blocks that it
reads or writes are not behind the doubly indirect block, or the inode is made of extents, or the
request does not come to any block. -/
def StaysSingle (f : Fs) : FsOp → Prop
  | bmap i bn => (f.inode i).type = T_EXTENT ∨ bn < NSINGLE
  | readi i off n => f.ReadRefused i off n ∨ f.Single i off (f.readLength i off n)
  | writei i src off => f.WriteRefused i off src.length ∨ f.Single i off src.length
  | _ => True

theorem call_takes (devsw : Devsw) {op : FsOp} (hop : op.isAccess = true) :
    Post (op.call sb devsw f)
      (fun g => f.Tracks → (GivenBack f g ↔ op.StaysSingle f)) (fun _ => True) := by
  cases op with
  | bmap i bn =>
    refine Outcome.post_map.mpr ((bmap_takes bn).imp (fun r hr htr => ?_))
    exact givenBack_iff_locked.trans (hr.locked_iff htr)
  | readi i off n =>
    refine Outcome.post_map.mpr ((readi_takes devsw off n).imp (fun r hr htr => ?_))
    exact givenBack_iff_locked.trans (hr.locked_iff htr)
  | writei i src off =>
    refine Outcome.post_map.mpr ((writei_takes devsw src off).imp (fun r hr htr => ?_))
    exact givenBack_iff_locked.trans (hr.locked_iff htr)
  | itrunc i =>
    by_cases htr : f.Tracks
    · refine (itrunc_emptied sb i fun h => absurd htr h).impAny fun g hg _ => ?_
      exact iff_of_true (givenBack_iff_locked.mpr fun b => locked_congr hg.held_eq b) trivial
    · cases hcall : call sb devsw f (itrunc i) with
      | ok g => exact fun h => absurd h htr
      | error e => trivial
  | ialloc type => cases hop
  | iput i => cases hop
  | refs i ref valid nlink => cases hop

/-- The inode that a call reads or writes is allocated. -/
def InUse (f : Fs) : FsOp → Prop
  | bmap i _ => (f.inode i).type ≠ 0
  | readi i _ _ => (f.inode i).type ≠ 0
  | writei i _ _ => (f.inode i).type ≠ 0
  | _ => False

theorem call_notWaiting (hsb : sb.Layout) (devsw : Devsw) (hown : f.Owned sb)
    (hfree : ∀ b, ¬ f.Locked b) {op : FsOp} (hop : op.InUse f) (hsingle : op.StaysSingle f) :
    Post (op.call sb devsw f) (fun _ => True) NotWaiting := by
  cases op with
  | bmap i bn =>
    refine Outcome.post_map.mpr ?_
    by_cases hext : (f.inode i).type = T_EXTENT
    · exact (bmap_free_of_extent hext hfree bn).imp fun _ _ => trivial
    · have hbn : bn < NSINGLE := hsingle.resolve_left hext
      have hsecond : second bn = [] := by
        have hnil : seconds [bn] = [] := seconds_eq_nil (by simpa using hbn)
        simpa [seconds] using hnil
      have hpost := bmap_post hsb hown ⟨hop, hext⟩ (hbn.trans (by norm_num) : bn < MAXMAP)
      rw [hsecond] at hpost
      exact hpost.mono (fun _ _ => trivial) (fun e he => he.notWaiting hfree)
  | readi i off n =>
    refine Outcome.post_map.mpr ?_
    unfold Fs.readi
    by_cases hdev : (f.inode i).type = T_DEV
    · simp only [if_pos hdev]
      refine post_ite.mpr ⟨fun _ => trivial, fun _ => ?_⟩
      cases devsw.read (f.inode i).major.toInt.toNat with
      | none => trivial
      | some read => trivial
    simp only [if_neg hdev]
    refine post_ite.mpr ⟨fun _ => trivial, fun hok => ?_⟩
    have hloop : Post (f.readLoop sb i (f.readLength i off n) off (f.readLength i off n))
        (fun _ => True) NotWaiting := by
      rcases hsingle with (h | h) | h
      · exact absurd h hdev
      · exact absurd h hok
      by_cases hext : (f.inode i).type = T_EXTENT
      · exact readLoop_free_of_extent hext hfree _ _ _
      · exact (readLoop_post hsb _ f off _ hown ⟨hop, hext⟩ le_rfl).mono (fun _ _ => trivial)
          fun e he => he.notWaiting hfree (((single_iff f i _ _).mp h).resolve_left hext)
    refine hloop.seq ?_
    rintro ⟨dst, g⟩ -
    trivial
  | writei i src off =>
    refine Outcome.post_map.mpr ?_
    by_cases hdev : (f.inode i).type = T_DEV
    · unfold Fs.writei
      simp only [if_pos hdev]
      refine post_ite.mpr ⟨fun _ => trivial, fun _ => ?_⟩
      cases devsw.write (f.inode i).major.toInt.toNat with
      | none => trivial
      | some write => trivial
    by_cases href : MAXFILE * BSIZE < u32 (off + src.length)
    · unfold Fs.writei
      simp only [if_neg hdev, if_pos href]
      trivial
    have hin : f.Single i off src.length := by
      rcases hsingle with (h | h) | h
      · exact absurd h hdev
      · exact absurd h href
      · exact h
    by_cases hext : (f.inode i).type = T_EXTENT
    · unfold Fs.writei
      simp only [if_neg hdev, if_neg href]
      refine (writeLoop_free_of_extent hext hfree _ off src).seq ?_
      rintro ⟨o, g⟩ hfree
      refine post_ite.mpr ⟨fun _ => ?_, fun _ => trivial⟩
      refine (updateBlock_post _ _ _).bind (fun _ _ => trivial) fun _ he => ?_
      exact absurd he.2 (hfree _)
    · exact (writei_post hsb hown ⟨hop, hext⟩ hdev devsw src).mono (fun _ _ => trivial)
        fun e he => he.notWaiting hfree (((single_iff f i _ _).mp hin).resolve_left hext)
  | itrunc i => exact hop.elim
  | ialloc type => exact hop.elim
  | iput i => exact hop.elim
  | refs i ref valid nlink => exact hop.elim

/-- **Buffers are given back** exactly by the calls that stay in front of the doubly indirect
block; and where all have been given back, the next such call does not wait. -/
theorem buffers_given_back (sb : Superblock) (devsw : Devsw) :
    (∀ (f g : Fs) (op : FsOp), f.Tracks → op.isAccess = true → op.call sb devsw f = .ok g →
      (GivenBack f g ↔ op.StaysSingle f)) ∧
    ∀ (f g : Fs) (op next : FsOp), sb.Layout → g.Owned sb → (∀ b, ¬ f.Locked b) →
      f.Tracks → op.isAccess = true → op.call sb devsw f = .ok g → op.StaysSingle f →
      next.InUse g → next.StaysSingle g → next.call sb devsw g ≠ .error .blocked := by
  have hback : ∀ (f g : Fs) (op : FsOp), f.Tracks → op.isAccess = true →
      op.call sb devsw f = .ok g → (GivenBack f g ↔ op.StaysSingle f) :=
    fun f g op htr hop hcall => (call_takes devsw hop).of_ok hcall htr
  refine ⟨hback, ?_⟩
  intro f g op next hsb hown hfree htr hop hcall hsingle hnext hsingle' heq
  have hgiven := (hback f g op htr hop hcall).mpr hsingle
  have hfree' : ∀ b, ¬ g.Locked b := fun b hb => hfree b ((hgiven.1 b).mp hb)
  exact (call_notWaiting hsb devsw hown hfree' hnext hsingle').of_error heq rfl

/-- The first block behind the doubly indirect block, asked for twice: the first call leaves the
buffer of the second-level block locked, and the second waits for it. -/
theorem not_given_back_double : ∃ g,
    (bmap 1 NSINGLE).call extentSb noDevices (smallFs (some ∅)) = .ok g ∧
    ¬ GivenBack (smallFs (some ∅)) g ∧
    (bmap 1 NSINGLE).call extentSb noDevices g = .error .blocked := by
  have htwice : (((bmap 1 NSINGLE).call extentSb noDevices (smallFs (some ∅)) >>= fun g =>
      (bmap 1 NSINGLE).call extentSb noDevices g).map fun _ => ()) = .error .blocked := by
    decide +kernel
  have hfirst : ((bmap 1 NSINGLE).call extentSb noDevices (smallFs (some ∅))).toOption.isSome := by
    decide +kernel
  obtain ⟨g, hcall⟩ := Option.isSome_iff_exists.mp hfirst
  rw [toOption_eq_some] at hcall
  refine ⟨g, hcall, ?_, ?_⟩
  · rw [(call_takes noDevices rfl).of_ok hcall nofun]
    rintro (hext | hlt)
    · exact absurd hext (by decide)
    · exact absurd hlt (lt_irrefl _)
  · rw [hcall] at htwice
    exact map_eq_error.mp htwice

/-- The first block of an empty file, asked for twice. -/
theorem buffers_given_back_first : ∃ g,
    (bmap 1 0).call smallSb noDevices (smallFs (some ∅)) = .ok g ∧
    GivenBack (smallFs (some ∅)) g ∧ (bmap 1 0).call smallSb noDevices g ≠ .error .blocked := by
  obtain ⟨hback, hnext⟩ := buffers_given_back smallSb noDevices
  have htr : (smallFs (some ∅)).Tracks := nofun
  have hfree : ∀ b, ¬ (smallFs (some ∅)).Locked b := by
    rintro b ⟨h, hh, hb⟩
    cases hh
    exact absurd hb (Finset.notMem_empty b)
  have hsingle : ∀ g : Fs, (bmap 1 0).StaysSingle g := fun g => Or.inr (by decide)
  have hfirst : ((bmap 1 0).call smallSb noDevices (smallFs (some ∅))).toOption.isSome := rfl
  obtain ⟨g, hcall⟩ := Option.isSome_iff_exists.mp hfirst
  rw [toOption_eq_some] at hcall
  have hown : g.Owned smallSb := (call_post smallSb_layout noDevices (smallFs_owned (some ∅))
    (bmap 1 0) (by decide)).of_ok hcall
  have htype : Post ((bmap 1 0).call smallSb noDevices (smallFs (some ∅)))
      (fun g => (g.inode 1).type = T_FILE) (fun _ => True) := by
    unfold call
    exact Outcome.post_map.mpr ((bmap_takes 0).imp (fun r hr => hr.type_eq))
  have hlive : (g.inode 1).type ≠ 0 := by
    rw [htype.of_ok hcall]
    decide
  exact ⟨g, hcall, (hback _ g _ htr rfl hcall).mpr (hsingle _),
    hnext _ g _ _ smallSb_layout hown hfree htr rfl hcall (hsingle _) hlive (hsingle g)⟩

end FsOp
