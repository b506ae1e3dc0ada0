/-
# Files as byte arrays

`readi` and `writei` work on files: a read returns the bytes of the file, a write replaces
them, and both go through the blocks of the range one after the other.  The loops are followed
block by block, with `bmap` filling the slots of each.
-/
import Xv6.Bmap

open Function Outcome List

/-! ## Operations on files -/

namespace File

/-- The `n` bytes at `off`. -/
def read (c : File) (off n : ℕ) : List UInt8 := (range n).map fun k => c.byte (off + k)

/-- Replace the bytes from `off` on by `src`. -/
def store (c : File) (off : ℕ) (src : List UInt8) : File :=
  { c with byte := fun o =>
      if off ≤ o ∧ o < off + src.length then src.getD (o - off) 0 else c.byte o }

/-- Write `src` at `off`; a write past the end makes the file longer. -/
def write (c : File) (off : ℕ) (src : List UInt8) : File :=
  { c.store off src with size := if src = [] then c.size else max c.size (off + src.length) }

theorem read_add (c : File) (off m n : ℕ) : c.read off (m + n) = c.read off m ++ c.read (off + m) n := by
  unfold read
  rw [range_add, map_append, map_map]
  congr 2
  funext k
  simp [add_assoc]

theorem read_split (c : File) (off : ℕ) {m n : ℕ} (h : m ≤ n) :
    c.read off n = c.read off m ++ c.read (off + m) (n - m) := by
  rw [← read_add, Nat.add_sub_cancel' h]

theorem store_nil (c : File) (off : ℕ) : c.store off [] = c := by
  ext o
  · rfl
  · simp only [store, length_nil]
    rw [if_neg (by omega)]

/-- Writing two pieces one after the other. -/
theorem store_append (c : File) (off : ℕ) (xs ys : List UInt8) :
    (c.store off xs).store (off + xs.length) ys = c.store off (xs ++ ys) := by
  ext o
  · rfl
  · simp only [store, length_append]
    by_cases hxs : off ≤ o ∧ o < off + xs.length
    · rw [if_neg (by omega), if_pos hxs, if_pos (by omega),
        getD_append _ _ _ _ (by omega)]
    · by_cases hys : off + xs.length ≤ o ∧ o < off + xs.length + ys.length
      · rw [if_pos hys, if_pos (by omega), getD_append_right _ _ _ _ (by omega),
          Nat.sub_add_eq]
      · rw [if_neg hys, if_neg hxs, if_neg (by omega)]

/-- What was written is read back. -/
theorem read_write (c : File) (off : ℕ) (src : List UInt8) :
    (c.write off src).read off src.length = src := by
  apply ext_getElem
  · simp [read]
  · intro k hk hk'
    simp [read, write, store, hk']

end File

/-! ## The blocks of a range -/

/-- The blocks of the `n` bytes at `off`, in order. -/
def blocksOf (off n : ℕ) : List ℕ :=
  range' (off / BSIZE) (if n = 0 then 0 else (off + n - 1) / BSIZE - off / BSIZE + 1)

@[simp] theorem blocksOf_zero (off : ℕ) : blocksOf off 0 = [] := rfl

/-- One round of the loops of `readi` and `writei`. -/
theorem blocksOf_eq_cons (off : ℕ) {n : ℕ} (hn : n ≠ 0) :
    blocksOf off n = off / BSIZE ::
      blocksOf (off + min n (BSIZE - off % BSIZE)) (n - min n (BSIZE - off % BSIZE)) := by
  unfold blocksOf BSIZE
  rw [if_neg hn, range'_succ]
  congr 1
  by_cases hle : n ≤ 512 - off % 512
  · rw [min_eq_left hle, Nat.sub_self, if_pos rfl]
    have : (off + n - 1) / 512 - off / 512 = 0 := by omega
    rw [this]
    rfl
  · rw [min_eq_right (by omega), if_neg (by omega)]
    have hstart : (off + (512 - off % 512)) / 512 = off / 512 + 1 := by omega
    rw [hstart]
    congr 1
    omega

theorem dataSlot_mem_path (bn : ℕ) : dataSlot bn ∈ path bn := by
  unfold dataSlot path
  split_ifs <;> simp

/-- The slots on the way to the blocks `bns`. -/
def slotsOf : List ℕ → Finset Slot
  | [] => ∅
  | bn :: bns => path bn ∪ slotsOf bns

/-- The second-level blocks on the way to the blocks `bns`, in order. -/
def seconds (bns : List ℕ) : List (Fin NINDIRECT) := bns.flatMap second

theorem slotsOf_append (as bs : List ℕ) : slotsOf (as ++ bs) = slotsOf as ∪ slotsOf bs := by
  induction as with
  | nil => simp [slotsOf]
  | cons a as ih => rw [cons_append, slotsOf, slotsOf, ih, Finset.union_assoc]

theorem seconds_append (as bs : List ℕ) : seconds (as ++ bs) = seconds as ++ seconds bs :=
  flatMap_append

/-! ## Changing blocks in place -/

section Keep

variable {sb : Superblock} {i : ℕ} {f g : Fs}

/-- A pointer is read from an address of the inode and from the blocks that have entries. -/
theorem ptr_congr {j : ℕ} {t : Slot} (hroot : (g.inode j).addrs t.base = (f.inode j).addrs t.base)
    (hblock : ∀ (t p : Slot) (l : Fin NINDIRECT), t.parent = some (p, l) → f.ptr j p ≠ 0 →
      g.disk (f.ptr j p) = f.disk (f.ptr j p)) : g.ptr j t = f.ptr j t := by
  have hentry : ∀ (t p : Slot) (l : Fin NINDIRECT), t.parent = some (p, l) →
      g.ptr j p = f.ptr j p → g.ptr j t = f.ptr j t := by
    intro t p l ht hp
    rw [Fs.ptr_of_parent g j ht, Fs.ptr_of_parent f j ht, hp, childOf, childOf]
    by_cases hzero : f.ptr j p = 0
    · rw [if_pos hzero, if_pos hzero]
    · rw [if_neg hzero, if_neg hzero, hblock t p l ht hzero]
  have hbase : g.ptr j (.root t.base) = f.ptr j (.root t.base) := congrArg UInt32.toNat hroot
  cases t with
  | root k => exact hbase
  | ind l | dbl l => exact hentry _ _ l rfl hbase
  | leaf l m => exact hentry _ _ m rfl (hentry _ _ l rfl hbase)

/-- A step that leaves every pointer, mark and lock in place. -/
theorem Change.keep {c : File} (hsb : sb.Layout) (hown : f.Owned sb) (hi : f.Live i)
    (fields : g.inode i = { f.inode i with addrs := (g.inode i).addrs, size := (g.inode i).size })
    (others : ∀ j, j ≠ i → g.inode j = f.inode j)
    (hptr : ∀ j, f.Live j → ∀ t, g.ptr j t = f.ptr j t)
    (file_self : g.file i = c) (file_others : ∀ j, j ≠ i → f.Live j → g.file j = f.file j)
    (hmark : ∀ b, b < sb.size → marked sb g.disk b = marked sb f.disk b)
    (hheld : g.held = f.held) (low : ∀ b, b < sb.inodestart → g.disk b = f.disk b) :
    Change sb i ∅ ∅ c f g := by
  have hlive : ∀ j, g.Live j ↔ f.Live j := by
    intro j
    unfold Fs.Live
    by_cases hj : j = i
    · rw [hj, fields]
    · rw [others j hj]
  refine {
    live := hi
    own := {
      inum_lt := fun j hj => hown.inum_lt j ((hlive j).mp hj)
      meta_marked := fun b hb => by rw [hmark b (hb.trans_le hsb.meta_le), hown.meta_marked b hb]
      unshared := fun j k t u hj hk hne heq => ?_
      in_data := fun j t hj hne => ?_
      ptr_marked := fun j t hj hne => ?_ }
    fields := fields
    others := others
    filled := fun t ht => absurd ht (Finset.notMem_empty t)
    kept := fun t _ => hptr i hi t
    ptr_others := fun j _ hj t => hptr j hj t
    file_self := file_self
    file_others := file_others
    marks := fun b hb hm => by rw [hmark b hb, hm]
    free := by rw [Finset.card_empty, zero_add, freeBlocks_congr hmark]
    tracks := by rw [Fs.Tracks, hheld, Fs.Tracks]
    locked := fun b => by simp [Fs.Locked, hheld]
    leaked := fun j hj => absurd hj (Finset.notMem_empty j)
    low := low }
  · have hj := (hlive j).mp hj
    have hk := (hlive k).mp hk
    rw [hptr j hj] at hne heq
    rw [hptr k hk] at heq
    exact hown.unshared j k t u hj hk hne heq
  · have hj := (hlive j).mp hj
    rw [hptr j hj] at hne ⊢
    exact hown.in_data j t hj hne
  · have hj := (hlive j).mp hj
    rw [hptr j hj] at hne ⊢
    rw [hmark _ (hown.in_data j t hj hne).2]
    exact hown.ptr_marked j t hj hne

/-- The bytes of a block of the file that is allocated. -/
theorem content_eq_byte {bn o : ℕ} (hbn : bn < MAXMAP) (hv : f.ptr i (dataSlot bn) ≠ 0)
    (ho : o / BSIZE = bn) : f.content i o = (f.disk (f.ptr i (dataSlot bn))).byte (o % BSIZE) := by
  unfold Fs.content
  rw [ho, if_pos ⟨hbn, hv⟩]

theorem dataSlot_ne_dbl (bn : ℕ) (j : Fin NINDIRECT) : dataSlot bn ≠ .dbl j := by
  intro heq
  exact isData_dataSlot bn (.leaf j j) j (by rw [heq]; rfl)

section Store

variable (hsb : sb.Layout) (hown : f.Owned sb) (hi : f.Live i)
include hown hi

/-- A change to a block of data leaves every pointer. -/
theorem ptr_setBlock_data (bn : ℕ) (blk : Block) {j : ℕ} (hj : f.Live j) (t : Slot) :
    (f.setBlock (f.ptr i (dataSlot bn)) blk).ptr j t = f.ptr j t := by
  refine ptr_congr (f := f) (g := f.setBlock (f.ptr i (dataSlot bn)) blk) rfl ?_
  intro t p l ht hne
  apply update_of_ne
  intro heq
  obtain ⟨-, hslot⟩ := hown.unshared j i p _ hj hi hne heq
  exact isData_dataSlot bn t l (by rw [ht, hslot])

include hsb in
/-- **Writing into an allocated block** of the file replaces these bytes of the file. -/
theorem Change.store {off : ℕ} (hbn : off / BSIZE < MAXMAP)
    (hv : f.ptr i (dataSlot (off / BSIZE)) ≠ 0) (src : List UInt8)
    (hfit : off % BSIZE + src.length ≤ BSIZE) :
    Change sb i ∅ ∅ ((f.file i).store off src) f
      (f.setBlock (f.ptr i (dataSlot (off / BSIZE)))
        ((f.disk (f.ptr i (dataSlot (off / BSIZE)))).memmove (off % BSIZE) src.length
          fun k => src.getD k 0)) := by
  set v := f.ptr i (dataSlot (off / BSIZE)) with hvdef
  set blk := (f.disk v).memmove (off % BSIZE) src.length fun k => src.getD k 0 with hblk
  obtain ⟨hdata, hsize⟩ := hown.in_data i _ hi hv
  have hptr : ∀ j, f.Live j → ∀ t, (f.setBlock v blk).ptr j t = f.ptr j t := fun j hj t =>
    ptr_setBlock_data hown hi _ blk hj t
  have hother : ∀ b, b ≠ v → (f.setBlock v blk).disk b = f.disk b := fun b hb =>
    update_of_ne hb _ _
  have hlow := hsb.inodestart_lt
  have hmid := sb.bmapstart_lt
  refine Change.keep hsb hown hi rfl (fun _ _ => rfl) hptr ?_ ?_ ?_ rfl ?_
  · -- the file itself
    refine File.ext rfl (funext fun o => ?_)
    show (f.setBlock v blk).content i o = if _ then _ else f.content i o
    by_cases ho : o / BSIZE = off / BSIZE
    · have hv' : (f.setBlock v blk).ptr i (dataSlot (off / BSIZE)) = v := hptr i hi _
      rw [content_eq_byte hbn (by rw [hv']; exact hv) ho, content_eq_byte hbn hv ho, hv',
        ← hvdef]
      show (update f.disk v blk v).byte _ = _
      rw [update_self, hblk, Block.byte_memmove]
      unfold BSIZE at ho hfit ⊢
      by_cases hin : off ≤ o ∧ o < off + src.length
      · rw [if_pos (by omega), if_pos hin]
        congr 1
        omega
      · rw [if_neg (by omega), if_neg hin]
    · have hout : ¬(off ≤ o ∧ o < off + src.length) := by
        unfold BSIZE at ho hfit
        omega
      rw [if_neg hout]
      unfold Fs.content
      rw [hptr i hi]
      split_ifs with hc
      · rw [hother]
        intro heq
        obtain ⟨-, hslot⟩ := hown.unshared i i _ _ hi hi hc.2 heq
        exact ho (dataSlot_injective hc.1 hbn hslot)
      · rfl
  · -- the other files
    intro j hji hj
    refine File.ext rfl (funext fun o => ?_)
    show (f.setBlock v blk).content j o = f.content j o
    unfold Fs.content
    rw [hptr j hj]
    split_ifs with hc
    · rw [hother]
      intro heq
      exact hji (hown.unshared j i _ _ hj hi hc.2 heq).1
    · rfl
  · intro b hb
    have := Superblock.bblock_lt hb
    exact marked_congr (hother _ (by omega))
  · intro b hb
    exact hother b (by omega)

end Store

/-- A change is a call that fills no slot. -/
theorem Change.done {c : File} (h : Change sb i ∅ ∅ c f g) : Done sb i ∅ [] c f g where
  change := ⟨∅, Finset.Subset.refl _, h⟩
  full t ht := absurd ht (Finset.notMem_empty t)
  unlocked _ _ := ⟨nodup_nil, fun _ hj => absurd hj not_mem_nil⟩

/-- The buffer of a block of data is never left locked. -/
theorem not_locked_data (hi : f.Live i) (bn : ℕ) (hf : f.HeldOk sb) :
    ¬ f.Locked (f.ptr i (dataSlot bn)) := by
  intro hlocked
  obtain ⟨j, hj⟩ := (hf _ hlocked).2.2.2 i _ hi rfl
  exact dataSlot_ne_dbl bn j hj

end Keep

/-! ## The loops of `readi` and `writei` -/

/-- Where the loops of `readi` and `writei` stop on the `n` bytes at `off` of inode `i`. -/
def RangeStops (sb : Superblock) (i off n : ℕ) (f : Fs) (e : Stop) : Prop :=
  Stops sb i (slotsOf (blocksOf off n)) (seconds (blocksOf off n)) f e ∨
  (e = .panic "bmap: out of range" ∧ n ≠ 0 ∧ MAXMAP * BSIZE < off + n)

/-- A call has gone through the blocks of the `n` bytes at `off` of inode `i`, and the file is
now `c`. -/
structure RangeDone (sb : Superblock) (i off n : ℕ) (c : File) (f g : Fs) : Prop where
  fits : n ≠ 0 → off + n ≤ MAXMAP * BSIZE
  done : Done sb i (slotsOf (blocksOf off n)) (seconds (blocksOf off n)) c f g

/-- The part of a range that one round works on: it ends with its block. -/
structure Round (off n m : ℕ) : Prop where
  pos : 0 < m
  le : m ≤ n
  in_block : off % BSIZE + m ≤ BSIZE
  blocks : blocksOf off n = off / BSIZE :: blocksOf (off + m) (n - m)

theorem round_min (off : ℕ) {n : ℕ} (hn : n ≠ 0) : Round off n (min n (BSIZE - off % BSIZE)) := by
  have hmod : off % BSIZE < BSIZE := Nat.mod_lt _ (by norm_num)
  have hright := min_le_right n (BSIZE - off % BSIZE)
  refine ⟨?_, min_le_left _ _, by omega, blocksOf_eq_cons off hn⟩
  rw [lt_min_iff]
  omega

namespace Round

variable {off n m : ℕ} (hr : Round off n m)
include hr

/-- The offset does not wrap around before it is past what `bmap` can map. -/
theorem next (hbn : off / BSIZE < MAXMAP) : u32 (off + m) = off + m := by
  have := hr.in_block
  unfold MAXMAP BSIZE at *
  exact Nat.mod_eq_of_lt (by omega)

/-- The first round stops. -/
theorem stops_of_ge {sb : Superblock} {i : ℕ} {f : Fs} (hbn : MAXMAP ≤ off / BSIZE) :
    RangeStops sb i off n f (.panic "bmap: out of range") := by
  have hpos := hr.pos
  have hle := hr.le
  refine Or.inr ⟨rfl, by omega, ?_⟩
  unfold MAXMAP BSIZE at *
  omega

variable {sb : Superblock} {i : ℕ} {f g : Fs} {c : File} {e : Stop}

theorem stops_left (he : Stops sb i (path (off / BSIZE)) (second (off / BSIZE)) f e) :
    RangeStops sb i off n f e := by
  left
  rw [hr.blocks]
  exact he.left

variable (hdone : Done sb i (path (off / BSIZE)) (second (off / BSIZE)) c f g)
include hdone

/-- The later rounds stop. -/
theorem stops_right (he : RangeStops sb i (off + m) (n - m) g e) : RangeStops sb i off n f e := by
  rcases he with he | ⟨rfl, hne, hlt⟩
  · left
    rw [hr.blocks]
    exact hdone.stops he
  · have hle := hr.le
    exact Or.inr ⟨rfl, by omega, by omega⟩

/-- All rounds are done. -/
theorem trans {d : File} {h : Fs} (hbn : off / BSIZE < MAXMAP)
    (hrest : RangeDone sb i (off + m) (n - m) d g h) : RangeDone sb i off n d f h where
  fits _ := by
    have hle := hr.le
    have hin := hr.in_block
    have hfits := hrest.fits
    unfold MAXMAP BSIZE at *
    omega
  done := by
    rw [hr.blocks]
    exact hdone.trans hrest.done

end Round

section Loops

variable {sb : Superblock} {i : ℕ} (hsb : sb.Layout)

theorem RangeDone.nil {f : Fs} (hown : f.Owned sb) (hi : f.Live i) (off : ℕ) :
    RangeDone sb i off 0 (f.file i) f f :=
  ⟨fun h => absurd rfl h, Done.refl hown hi⟩

/-- Writing a round and then the rest. -/
theorem Round.store_split {off m : ℕ} {src : List UInt8} (hr : Round off src.length m) (c : File) :
    (c.store off (src.take m)).store (off + m) (src.drop m) = c.store off src := by
  have htake : (src.take m).length = m := by rw [length_take, min_eq_left hr.le]
  conv_rhs => rw [← take_append_drop m src, ← File.store_append, htake]

/-- The bytes of the block are those of the file. -/
theorem chunk_eq_read {f : Fs} {off n m : ℕ} (hbn : off / BSIZE < MAXMAP)
    (hptr : f.ptr i (dataSlot (off / BSIZE)) ≠ 0) (hr : Round off n m) : ((range m).map fun k =>
      (f.disk (f.ptr i (dataSlot (off / BSIZE)))).byte (off % BSIZE + k)) = (f.file i).read off m := by
  apply map_congr_left
  intro k hk
  rw [mem_range] at hk
  have hin := hr.in_block
  have hblock : (off + k) / BSIZE = off / BSIZE := by
    unfold BSIZE at *
    omega
  have hoff : (off + k) % BSIZE = off % BSIZE + k := by
    unfold BSIZE at *
    omega
  rw [← hoff]
  exact (content_eq_byte hbn hptr hblock).symm

include hsb

/-- One round of the loop of `writei`: the block that `bmap` returned is changed. -/
theorem Done.store_round {f g : Fs} {off m : ℕ} {src : List UInt8} (hr : Round off src.length m)
    (hbn : off / BSIZE < MAXMAP)
    (hdone : Done sb i (path (off / BSIZE)) (second (off / BSIZE)) (f.file i) f g) :
    Done sb i (path (off / BSIZE)) (second (off / BSIZE)) ((f.file i).store off (src.take m)) f
      (g.setBlock (g.ptr i (dataSlot (off / BSIZE)))
        ((g.disk (g.ptr i (dataSlot (off / BSIZE)))).memmove (off % BSIZE) m fun k => src.getD k 0)) := by
  have htake : (src.take m).length = m := by rw [length_take, min_eq_left hr.le]
  have hfull : g.ptr i (dataSlot (off / BSIZE)) ≠ 0 := hdone.full _ (dataSlot_mem_path _)
  have hstore := (Change.store hsb hdone.own hdone.live' hbn hfull (src.take m)
    (by rw [htake]; exact hr.in_block)).done
  rw [hdone.file_eq] at hstore
  have hstep := hdone.trans hstore
  rw [Finset.union_empty, append_nil] at hstep
  rw [Block.memmove_take _ _ hr.le]
  exact hstep

/-- The loop of `writei` stores the bytes in the file. -/
theorem writeLoop_post (rounds : ℕ) (f : Fs) (off : ℕ) (src : List UInt8) (hown : f.Owned sb)
    (hi : f.Live i) (hrounds : src.length ≤ rounds) :
    Post (Fs.writeLoop sb i rounds f off src)
      (fun r => r.1 = off + src.length ∧
        RangeDone sb i off src.length ((f.file i).store off src) f r.2)
      (RangeStops sb i off src.length f) := by
  induction rounds generalizing f off src with
  | zero =>
    obtain rfl : src = [] := eq_nil_of_length_eq_zero (by omega)
    refine ⟨rfl, ?_⟩
    rw [File.store_nil]
    exact RangeDone.nil hown hi off
  | succ rounds ih =>
    rw [Fs.writeLoop]
    by_cases hsrc : src = []
    · rw [if_pos hsrc, hsrc]
      refine ⟨rfl, ?_⟩
      rw [File.store_nil]
      exact RangeDone.nil hown hi off
    rw [if_neg hsrc]
    have hr := round_min off (fun h => hsrc (eq_nil_of_length_eq_zero h))
    set m := min src.length (BSIZE - off % BSIZE)
    have hpos := hr.pos
    have hle := hr.le
    rcases Nat.lt_or_ge (off / BSIZE) MAXMAP with hbn | hbn
    swap
    · rw [bmap_of_ge sb hi.2 hbn]
      exact hr.stops_of_ge hbn
    refine (bmap_post hsb hown hi hbn).bind ?_ (fun e he => hr.stops_left he)
    rintro ⟨b, g⟩ ⟨hdone, hb⟩
    obtain rfl : b = g.ptr i (dataSlot (off / BSIZE)) := hb
    refine (Fs.updateBlock_post g _ _).bind ?_ ?_
    · rintro h ⟨-, rfl⟩
      rw [hr.next hbn]
      have hstep := hdone.store_round hsb hr hbn
      have hdrop : (src.drop m).length = src.length - m := length_drop
      have hrest := ih _ (off + m) (src.drop m) hstep.own hstep.live' (by omega)
      rw [hdrop, hstep.file_eq, hr.store_split] at hrest
      refine hrest.mono ?_ (fun e he => hr.stops_right hstep he)
      rintro ⟨off', h⟩ ⟨hoff, hrest⟩
      refine ⟨?_, hr.trans hstep hbn hrest⟩
      have hoff : off' = off + m + (src.length - m) := hoff
      show off' = _
      omega
    · rintro e ⟨rfl, hlocked⟩
      refine Or.inl (Or.inr ⟨rfl, fun hf => ?_⟩)
      exact absurd hlocked (not_locked_data hdone.live' _ (hdone.heldOk hf))

/-- The loop of `readi` returns the bytes of the file. -/
theorem readLoop_post (rounds : ℕ) (f : Fs) (off n : ℕ) (hown : f.Owned sb) (hi : f.Live i)
    (hrounds : n ≤ rounds) :
    Post (Fs.readLoop sb i rounds f off n)
      (fun r => r.1 = (f.file i).read off n ∧ RangeDone sb i off n (f.file i) f r.2)
      (RangeStops sb i off n f) := by
  induction rounds generalizing f off n with
  | zero =>
    obtain rfl : n = 0 := by omega
    exact ⟨rfl, RangeDone.nil hown hi off⟩
  | succ rounds ih =>
    rw [Fs.readLoop]
    by_cases hn : n = 0
    · rw [if_pos hn, hn]
      exact ⟨rfl, RangeDone.nil hown hi off⟩
    rw [if_neg hn]
    have hr := round_min off hn
    set m := min n (BSIZE - off % BSIZE)
    have hpos := hr.pos
    have hle := hr.le
    rcases Nat.lt_or_ge (off / BSIZE) MAXMAP with hbn | hbn
    swap
    · rw [bmap_of_ge sb hi.2 hbn]
      exact hr.stops_of_ge hbn
    refine (bmap_post hsb hown hi hbn).bind ?_ (fun e he => hr.stops_left he)
    rintro ⟨b, g⟩ ⟨hdone, hb⟩
    obtain rfl : b = g.ptr i (dataSlot (off / BSIZE)) := hb
    have hfull : g.ptr i (dataSlot (off / BSIZE)) ≠ 0 := hdone.full _ (dataSlot_mem_path _)
    have hchunk := chunk_eq_read hbn hfull hr
    rw [hdone.file_eq] at hchunk
    refine (Fs.bread_post g _).bind ?_ ?_
    · rintro h ⟨hunlocked, rfl⟩
      simp only [Fs.brelse_lock hunlocked, Fs.lock_disk, hr.next hbn]
      have hrest := ih g (off + m) (n - m) hdone.own hdone.live' (by omega)
      rw [hdone.file_eq] at hrest
      refine hrest.bind ?_ (fun e he => hr.stops_right hdone he)
      rintro ⟨rest, h⟩ ⟨hbytes, hrest⟩
      refine ⟨?_, hr.trans hdone hbn hrest⟩
      rw [File.read_split _ _ hle, hchunk]
      exact congrArg _ hbytes
    · rintro e ⟨rfl, hlocked⟩
      refine Or.inl (Or.inr ⟨rfl, fun hf => ?_⟩)
      exact absurd hlocked (not_locked_data hdone.live' _ (hdone.heldOk hf))

end Loops

/-! ## Inodes written back -/

section Update

variable {sb : Superblock} {i : ℕ} {f : Fs} (hsb : sb.Layout) (hown : f.Owned sb) (hi : f.Live i)
include hsb hown hi

/-- `ip->size = v` makes the file `v` bytes long. -/
theorem Change.setSize (v : UInt32) :
    Change sb i ∅ ∅ ⟨v.toNat, f.content i⟩ f (f.setSize i v) := by
  have haddrs : ∀ j, ((f.setSize i v).inode j).addrs = (f.inode j).addrs := by
    intro j
    by_cases hj : j = i
    · rw [hj, Fs.setSize, Fs.setInode_inode_self]
    · rw [Fs.setSize, Fs.setInode_inode_of_ne _ _ hj]
  have hother : ∀ j, j ≠ i → (f.setSize i v).inode j = f.inode j := fun j hj =>
    Fs.setInode_inode_of_ne _ _ hj
  have hself : (f.setSize i v).inode i = { f.inode i with size := v } := by
    simp [Fs.setSize, f.inum_eq]
  have hptr : ∀ j t, (f.setSize i v).ptr j t = f.ptr j t := fun j t =>
    ptr_congr (congrFun (haddrs j) _) fun _ _ _ _ _ => rfl
  have hcontent : ∀ j, (f.setSize i v).content j = f.content j := by
    intro j
    funext o
    unfold Fs.content
    rw [hptr]
    rfl
  refine Change.keep hsb hown hi ?_ hother (fun j _ => hptr j) ?_ ?_ (fun _ _ => rfl) rfl
    (fun _ _ => rfl)
  · rw [hself]
  · unfold Fs.file
    rw [hself, hcontent]
  · intro j hj _
    unfold Fs.file
    rw [hother j hj, hcontent]

/-- `iupdate` changes a block of the inode table and nothing else. -/
theorem iupdate_post :
    Post (f.iupdate sb i) (fun g => Done sb i ∅ [] (f.file i) f g ∧ g.inode = f.inode)
      (Stops sb i ∅ [] f) := by
  have hlt := hsb.iblock_lt (hown.inum_lt i hi)
  have hmid := sb.bmapstart_lt
  refine (Fs.updateBlock_post f _ _).mono ?_ ?_
  · rintro g ⟨-, rfl⟩
    set blk := storeDinode (f.disk (iblock sb i)) (i % IPB * DINODE) (f.inode i)
    have hdata : ∀ b, sb.bmapstart ≤ b → (f.setBlock (iblock sb i) blk).disk b = f.disk b :=
      fun b hb => update_of_ne (by omega) _ _
    have hptr : ∀ j, f.Live j → ∀ t, (f.setBlock (iblock sb i) blk).ptr j t = f.ptr j t := by
      intro j hj t
      refine ptr_congr (f := f) (g := f.setBlock (iblock sb i) blk) rfl ?_
      intro t p l _ hne
      exact hdata _ (by have := (hown.in_data j p hj hne).1; omega)
    have hfile : ∀ j, f.Live j → (f.setBlock (iblock sb i) blk).file j = f.file j := by
      intro j hj
      refine File.ext rfl (funext fun o => ?_)
      show (f.setBlock (iblock sb i) blk).content j o = f.content j o
      unfold Fs.content
      rw [hptr j hj]
      split_ifs with hc
      · rw [hdata _ (by have := (hown.in_data j _ hj hc.2).1; omega)]
      · rfl
    refine ⟨Change.done (Change.keep hsb hown hi rfl (fun _ _ => rfl) hptr (hfile i hi)
      (fun j _ hj => hfile j hj) ?_ rfl ?_), rfl⟩
    · intro b _
      exact marked_congr (hdata _ (sb.bmapstart_le_bblock b))
    · intro b hb
      exact update_of_ne (hb.trans_le (Nat.le_add_left _ _)).ne _ _
  · rintro e ⟨rfl, hlocked⟩
    refine Or.inr ⟨rfl, fun hf => ?_⟩
    have := (hf _ hlocked).1
    omega

end Update

/-! ## `writei` and `readi` -/

theorem cint_of_lt {n : ℕ} (hn : n < 2 ^ 31) : cint n = n := by
  unfold cint u32
  rw [Nat.mod_eq_of_lt (by omega), if_pos hn]

section Inode

variable {sb : Superblock} {i off n : ℕ} {f g h : Fs} {c d : File} {e : Stop}

/-- A last step that fills no slot. -/
theorem RangeDone.last (hfg : RangeDone sb i off n c f g) (hgh : Done sb i ∅ [] d g h) :
    RangeDone sb i off n d f h where
  fits := hfg.fits
  done := by
    have := hfg.done.trans hgh
    rwa [Finset.union_empty, append_nil] at this

theorem RangeDone.stops_last (hfg : RangeDone sb i off n c f g) (he : Stops sb i ∅ [] g e) :
    RangeStops sb i off n f e := by
  left
  have := hfg.done.stops he
  rwa [Finset.union_empty, append_nil] at this

variable (hsb : sb.Layout) (hown : f.Owned sb) (hi : f.Live i)
  (hdev : (f.inode i).type ≠ T_DEV) (devsw : Devsw)

include hsb in
/-- What follows the loop of `writei`: a file written past its end is made longer. -/
theorem RangeDone.grow (hfg : RangeDone sb i off n c f g) (hn : n ≠ 0) :
    Post (Fs.iupdate sb (g.setSize i (UInt32.ofNat (off + n))) i)
      (RangeDone sb i off n ⟨off + n, c.byte⟩ f) (RangeStops sb i off n f) := by
  have hv : (UInt32.ofNat (off + n)).toNat = off + n := by
    have hfits := hfg.fits hn
    unfold MAXMAP BSIZE at hfits
    rw [UInt32.toNat_ofNat']
    exact Nat.mod_eq_of_lt (by omega)
  have hsize := (Change.setSize hsb hfg.done.own hfg.done.live' (UInt32.ofNat (off + n))).done
  have hcontent : g.content i = c.byte := by rw [← hfg.done.file_eq]; rfl
  rw [hv, hcontent] at hsize
  have hlong := hfg.last hsize
  refine (iupdate_post hsb hsize.own hsize.live').mono ?_ (fun e he => hlong.stops_last he)
  rintro h ⟨hdone, -⟩
  rw [hsize.file_eq] at hdone
  exact hlong.last hdone

include hsb hown hi hdev

/-- **`writei`** writes the bytes to the file and returns their number, unless a block of the
range cannot be reached; a request past the largest file is refused. -/
theorem writei_post (src : List UInt8) :
    Post (Fs.writei sb devsw f i src off)
      (fun r => (r.1 = src.length ∧ RangeDone sb i off src.length ((f.file i).write off src) f r.2) ∨
        (r = (-1, f) ∧ MAXFILE * BSIZE < u32 (off + src.length)))
      (RangeStops sb i off src.length f) := by
  unfold Fs.writei
  simp only [if_neg hdev]
  by_cases hmax : MAXFILE * BSIZE < u32 (off + src.length)
  · rw [if_pos hmax]
    exact Or.inr ⟨rfl, hmax⟩
  rw [if_neg hmax]
  refine (writeLoop_post hsb _ f off src hown hi le_rfl).seq ?_
  rintro ⟨off', g⟩ ⟨hoff, hdone⟩
  obtain rfl : off' = off + src.length := hoff
  have hsize : (g.inode i).size.toNat = (f.file i).size := by
    show (g.file i).size = _
    rw [hdone.done.file_eq]
    rfl
  by_cases hsrc : src = []
  · subst hsrc
    rw [File.store_nil] at hdone
    rw [if_neg (fun hc => absurd hc.1 (by simp))]
    refine Or.inl ⟨rfl, ?_⟩
    have hsame : (f.file i).write off [] = f.file i := by
      unfold File.write
      rw [File.store_nil, if_pos rfl]
    rw [hsame]
    exact hdone
  · have hn : src.length ≠ 0 := fun h => hsrc (eq_nil_of_length_eq_zero h)
    have hret : cint src.length = src.length := by
      have hfits := hdone.fits hn
      unfold MAXMAP BSIZE at hfits
      exact cint_of_lt (by omega)
    by_cases hlt : (g.inode i).size.toNat < off + src.length
    · rw [if_pos ⟨Nat.pos_of_ne_zero hn, hlt⟩]
      refine (hdone.grow hsb hn).seq ?_
      intro h hlong
      refine Or.inl ⟨hret, ?_⟩
      have hfile : (f.file i).write off src = ⟨off + src.length, ((f.file i).store off src).byte⟩ := by
        unfold File.write
        rw [if_neg hsrc, max_eq_right (by omega)]
      rw [hfile]
      exact hlong
    · rw [if_neg (fun hc => hlt hc.2)]
      refine Or.inl ⟨hret, ?_⟩
      have hfile : (f.file i).write off src = (f.file i).store off src := by
        unfold File.write
        rw [if_neg hsrc, max_eq_left (by omega)]
        rfl
      rw [hfile]
      exact hdone

/-- **`readi`** of a range inside the file returns its bytes, unless a block of the range cannot
be reached. -/
theorem readi_post (hsize : off + n ≤ (f.inode i).size.toNat) :
    Post (Fs.readi sb devsw f i off n)
      (fun r => r.1 = ((n : ℤ), (f.file i).read off n) ∧ RangeDone sb i off n (f.file i) f r.2)
      (RangeStops sb i off n f) := by
  have hlt : off + n < 2 ^ 32 := hsize.trans_lt (f.inode i).size.toNat_lt
  have hu : u32 (off + n) = off + n := Nat.mod_eq_of_lt hlt
  unfold Fs.readi
  simp only [if_neg hdev, hu]
  rw [if_neg (by omega), if_neg (by omega)]
  refine (readLoop_post hsb n f off n hown hi le_rfl).seq ?_
  rintro ⟨dst, g⟩ ⟨hdst, hdone⟩
  have hn : n < 2 ^ 31 := by
    have hfits := hdone.fits
    unfold MAXMAP BSIZE at hfits
    omega
  refine ⟨?_, hdone⟩
  show (cint n, dst) = _
  rw [cint_of_lt hn]
  exact congrArg _ hdst

end Inode
