/-
# Reading and writing files made of extents

A block number that `bmap` does not find is entered at the end of the list of blocks.  So the
block that a round of `writei` or `readi` works on is the one asked for if it is in the list or
the next one, and otherwise the next one in its place.  A write that starts at most one block
after the end of the list stores its bytes where a read finds them; a write that starts further
on does not.
-/
import Xv6.Extents
import Xv6.WriteRead

open Function Outcome List

namespace Fs

/-! ## The file -/

/-- Byte `o` of the blocks of the extents, zero beyond them. -/
def extByte (f : Fs) (i o : ℕ) : UInt8 :=
  match (f.extentBlocks i)[o / BSIZE]? with
  | some b => (f.disk b).byte (o % BSIZE)
  | none => 0

/-- A `T_EXTENT` inode as a file. -/
def extFile (f : Fs) (i : ℕ) : File := ⟨(f.inode i).size.toNat, f.extByte i⟩

variable {sb : Superblock} {i : ℕ} {f g : Fs}

theorem extByte_of_some {l b o : ℕ} (hl : (f.extentBlocks i)[l]? = some b) (ho : o < BSIZE) :
    f.extByte i (l * BSIZE + o) = (f.disk b).byte o := by
  have hdiv : (l * BSIZE + o) / BSIZE = l := by
    unfold BSIZE at *
    omega
  have hmod : (l * BSIZE + o) % BSIZE = o := by
    unfold BSIZE at *
    omega
  unfold extByte
  rw [hdiv, hl, hmod]

theorem extByte_of_length_le {o : ℕ} (ho : (f.extentBlocks i).length ≤ o / BSIZE) :
    f.extByte i o = 0 := by
  unfold extByte
  rw [getElem?_eq_none ho]

/-- The bytes are those of the blocks in the list. -/
theorem extByte_congr (hblocks : g.extentBlocks i = f.extentBlocks i)
    (hdisk : ∀ b ∈ f.extentBlocks i, g.disk b = f.disk b) : g.extByte i = f.extByte i := by
  funext o
  unfold extByte
  rw [hblocks]
  cases hb : (f.extentBlocks i)[o / BSIZE]? with
  | none => rfl
  | some b =>
    show (g.disk b).byte _ = (f.disk b).byte _
    rw [hdisk b (mem_of_getElem? hb)]

/-- A new block is zeroed, and reads as what was not there. -/
theorem Grows.extByte_eq {b : ℕ} (h : Grows sb i b f g) : g.extByte i = f.extByte i := by
  funext o
  by_cases ho : o / BSIZE < (f.extentBlocks i).length
  · have hold : (g.extentBlocks i)[o / BSIZE]? = (f.extentBlocks i)[o / BSIZE]? := by
      rw [h.blocks, getElem?_append_left ho]
    unfold extByte
    rw [hold, getElem?_eq_getElem ho]
    show (g.disk _).byte _ = (f.disk _).byte _
    rw [h.same _ (getElem_mem ho)]
  · rw [extByte_of_length_le (not_lt.mp ho)]
    unfold extByte
    rw [h.blocks, getElem?_append_right (not_lt.mp ho)]
    cases o / BSIZE - (f.extentBlocks i).length with
    | zero =>
      show (g.disk b).byte _ = 0
      rw [h.zeroed, Block.byte_zero]
    | succ k => rfl

/-! ## `bmap` -/

/-- The block that `bmap` returns for `bn` is the one asked for if that is in the list or the
next one, and the next one in its place otherwise; the file is the same. -/
structure Maps (sb : Superblock) (i bn b : ℕ) (f g : Fs) : Prop where
  built : g.Built sb i
  block : (g.extentBlocks i)[min bn (f.extentBlocks i).length]? = some b
  grown : f.extentBlocks i <+: g.extentBlocks i
  length_eq : (g.extentBlocks i).length =
    max (f.extentBlocks i).length (min bn (f.extentBlocks i).length + 1)
  file : g.extFile i = f.extFile i
  held : g.held = f.held

section Bmap

variable (hsb : sb.Layout) (hfs : sb.size ≤ FSSIZE) (hf : f.Built sb i)
include hsb hfs hf

theorem bmap_extent_post (bn : ℕ) : Post (f.bmap sb i bn)
    (fun r => ((f.extentBlocks i)[bn]? = some r.1 ∧ r.2 = f) ∨
      ((f.extentBlocks i).length ≤ bn ∧ Grows sb i r.1 f r.2)) (fun _ => True) := by
  unfold bmap
  rw [if_pos hf.type_eq]
  exact bmapExtent_post hsb hfs hf bn

theorem bmap_maps (bn : ℕ) :
    Post (f.bmap sb i bn) (fun r => Maps sb i bn r.1 f r.2) (fun _ => True) := by
  refine (bmap_extent_post hsb hfs hf bn).impAny ?_
  rintro ⟨b, g⟩ (⟨hfound, hg⟩ | ⟨hbn, hgrows⟩)
  · obtain rfl : g = f := hg
    have hlt : bn < (g.extentBlocks i).length := (List.getElem?_eq_some_iff.mp hfound).1
    have hmin : min bn (g.extentBlocks i).length = bn := min_eq_left hlt.le
    refine ⟨hf, by rw [hmin]; exact hfound, prefix_refl _, ?_, rfl, rfl⟩
    rw [hmin]
    exact (max_eq_left hlt).symm
  · have hmin : min bn (f.extentBlocks i).length = (f.extentBlocks i).length := min_eq_right hbn
    have hblocks : g.extentBlocks i = f.extentBlocks i ++ [b] := hgrows.blocks
    refine ⟨hgrows.built, ?_, ?_, ?_, ?_, hgrows.held⟩
    · rw [hmin, hblocks]
      simp
    · rw [hblocks]
      exact prefix_append _ _
    · rw [hmin, hblocks, length_append, length_singleton]
      omega
    · exact File.ext (congrArg UInt32.toNat hgrows.size) hgrows.extByte_eq

omit hsb hfs in
/-- A block of the list is found, and nothing changes. -/
theorem bmap_eq_ok {bn b : ℕ} (hb : (f.extentBlocks i)[bn]? = some b) :
    f.bmap sb i bn = .ok (b, f) := by
  obtain ⟨l, hl⟩ := hf.listed
  unfold bmap bmapExtent
  rw [if_pos hf.type_eq, findExtent_eq hl]
  unfold extentBlocks at hb
  rw [hl.extents_eq] at hb
  rw [hb]

end Bmap

/-! ## Changing blocks in place -/

section Store

variable (hsb : sb.Layout) (hf : f.Built sb i)
include hsb hf

theorem Built.setBlock_data {b : ℕ} (hb : sb.dataStart ≤ b) (blk : Block) :
    (f.setBlock b blk).Built sb i := by
  refine hf.of_same rfl rfl (fun c hc hmark => ?_) hsb.meta_le hf.empty
  have := Superblock.bblock_lt hc
  exact (marked_congr (update_of_ne (by omega) _ _)).trans hmark

omit hsb in
/-- Bytes stored into a block of the list replace these bytes of the file. -/
theorem Built.extFile_setBlock {l b o : ℕ} (hl : (f.extentBlocks i)[l]? = some b)
    (src : List UInt8) (ho : o + src.length ≤ BSIZE) :
    (f.setBlock b ((f.disk b).memmove o src.length fun k => src.getD k 0)).extFile i =
      (f.extFile i).store (l * BSIZE + o) src := by
  refine File.ext rfl (funext fun p => ?_)
  show extByte _ i p = if _ then _ else f.extByte i p
  unfold extByte
  show (match (f.extentBlocks i)[p / BSIZE]? with | some c => _ | none => _) = _
  cases hp : (f.extentBlocks i)[p / BSIZE]? with
  | none =>
    rw [if_neg]
    rintro ⟨hle, hlt⟩
    have hpl : p / BSIZE = l := by
      unfold BSIZE at *
      omega
    rw [hpl, hl] at hp
    exact absurd hp (by simp)
  | some c =>
    show (update f.disk b _ c).byte _ = _
    by_cases hpl : p / BSIZE = l
    · obtain rfl : b = c := by
        rw [hpl, hl] at hp
        exact Option.some.inj hp
      rw [update_self, Block.byte_memmove]
      unfold BSIZE at hpl ho ⊢
      by_cases hin : l * 512 + o ≤ p ∧ p < l * 512 + o + src.length
      · rw [if_pos (by omega), if_pos hin]
        congr 1
        omega
      · rw [if_neg (by omega), if_neg hin]
    · -- no other block of the list is `b`
      have hne : c ≠ b := by
        rintro rfl
        obtain ⟨hlt, hget⟩ := List.getElem?_eq_some_iff.mp hp
        obtain ⟨hlt', hget'⟩ := List.getElem?_eq_some_iff.mp hl
        exact hpl ((hf.nodup.getElem_inj_iff).mp (hget.trans hget'.symm))
      rw [update_of_ne hne, if_neg]
      unfold BSIZE at hpl ho ⊢
      omega

end Store

/-! ## The loop of `writei` -/

/-- A round of the loop of `writei`: the part of `src` that ends with the block of `off`. -/
def writeRound (sb : Superblock) (i : ℕ) (f : Fs) (off : ℕ) (src : List UInt8) : Except Stop Fs := do
  let (b, f) ← bmap sb f i (off / BSIZE)
  let m := min src.length (BSIZE - off % BSIZE)
  f.updateBlock b fun bp => bp.memmove (off % BSIZE) m fun k => src.getD k 0

variable {src : List UInt8}

theorem writeLoop_succ (rounds off : ℕ) (hsrc : src ≠ []) :
    f.writeLoop sb i (rounds + 1) off src =
      f.writeRound sb i off src >>= fun f =>
        let m := min src.length (BSIZE - off % BSIZE)
        f.writeLoop sb i rounds (u32 (off + m)) (src.drop m) := by
  rw [writeLoop, if_neg hsrc]
  unfold writeRound
  cases f.bmap sb i (off / BSIZE) with
  | error e => rfl
  | ok r => rfl

/-- What a round of `writei` at `off` does: with the block that `bmap` returns for the block of
`off`, the part `src` of the file is replaced. -/
structure Stored (sb : Superblock) (i off : ℕ) (src : List UInt8) (f g : Fs) : Prop where
  built : g.Built sb i
  file : g.extFile i = (f.extFile i).store
    (min (off / BSIZE) (f.extentBlocks i).length * BSIZE + off % BSIZE) src
  grown : f.extentBlocks i <+: g.extentBlocks i
  length_eq : (g.extentBlocks i).length =
    max (f.extentBlocks i).length (min (off / BSIZE) (f.extentBlocks i).length + 1)
  held : g.held = f.held
  unlocked : ∀ b, (g.extentBlocks i)[min (off / BSIZE) (f.extentBlocks i).length]? = some b →
    ¬ f.Locked b

variable {off : ℕ}

theorem Stored.lt_length (hg : Stored sb i off src f g) :
    min (off / BSIZE) (f.extentBlocks i).length < (g.extentBlocks i).length :=
  hg.length_eq ▸ Nat.lt_of_succ_le (le_max_right _ _)

section Loops

variable (hsb : sb.Layout) (hfs : sb.size ≤ FSSIZE)
include hsb hfs

theorem writeRound_post (hf : f.Built sb i) (off : ℕ) (src : List UInt8) :
    Post (f.writeRound sb i off src)
      (Stored sb i off (src.take (min src.length (BSIZE - off % BSIZE))) f) (fun _ => True) := by
  refine (bmap_maps hsb hfs hf _).bindAny ?_
  rintro ⟨b, g⟩ hmaps
  refine (updateBlock_post g b _).impAny ?_
  rintro h ⟨hunlocked, rfl⟩
  set m := min src.length (BSIZE - off % BSIZE) with hm
  have hblock : (g.extentBlocks i)[min (off / BSIZE) (f.extentBlocks i).length]? = some b :=
    hmaps.block
  have hlen : (src.take m).length = m := by
    rw [length_take]
    exact min_eq_left (min_le_left _ _)
  have hfit : off % BSIZE + (src.take m).length ≤ BSIZE := by
    have := Nat.mod_lt off (show BSIZE > 0 by norm_num)
    rw [hlen]
    omega
  have hdata := hmaps.built.in_data b (mem_of_getElem? hblock)
  refine ⟨hmaps.built.setBlock_data hsb hdata.1 _, ?_, hmaps.grown, hmaps.length_eq, hmaps.held,
    fun c hc => ?_⟩
  · rw [Block.memmove_take _ _ (min_le_left _ _), hmaps.built.extFile_setBlock hblock _ hfit]
    exact congrArg (fun c => File.store c _ _) hmaps.file
  · obtain rfl : b = c := Option.some.inj (hblock.symm.trans hc)
    unfold Locked
    rw [← hmaps.held]
    exact hunlocked

/-- The rule for the loop of `writei`: what every round keeps holds at its end. -/
theorem writeLoop_rule {I : Fs → ℕ → List UInt8 → Prop} (hround : ∀ f off src, src ≠ [] → I f off src →
      let m := min src.length (BSIZE - off % BSIZE)
      ∀ g, Stored sb i off (src.take m) f g → I g (u32 (off + m)) (src.drop m)) {rounds off : ℕ}
    (hf : f.Built sb i) (hrounds : src.length ≤ rounds) (hI : I f off src) :
    Post (f.writeLoop sb i rounds off src) (fun r => r.2.Built sb i ∧ I r.2 r.1 [])
      (fun _ => True) := by
  induction rounds generalizing f off src with
  | zero =>
    obtain rfl : src = [] := eq_nil_of_length_eq_zero (Nat.le_zero.mp hrounds)
    exact ⟨hf, hI⟩
  | succ rounds ih =>
    by_cases hsrc : src = []
    · rw [writeLoop, if_pos hsrc]
      exact ⟨hf, hsrc ▸ hI⟩
    · rw [writeLoop_succ rounds off hsrc]
      refine (writeRound_post hsb hfs hf off src).bindAny ?_
      intro g hg
      have hpos := (round_min off (mt length_eq_zero_iff.mp hsrc)).pos
      refine ih hg.built ?_ (hround f off src hsrc hI g hg)
      rw [length_drop]
      omega

/-- A write of at least one byte leaves at least one block. -/
theorem writeLoop_blocks (hf : f.Built sb i) (off : ℕ) (src : List UInt8) :
    Post (f.writeLoop sb i src.length off src)
      (fun r => r.2.Built sb i ∧ (src = [] ∨ r.2.extentBlocks i ≠ [])) (fun _ => True) := by
  refine (writeLoop_rule hsb hfs (I := fun g _ rest => rest = src ∨ g.extentBlocks i ≠ []) ?_ hf
    le_rfl (Or.inl rfl)).impAny ?_
  · intro f off rest hrest hI m g hg
    refine Or.inr fun hnil => ?_
    have hlt := hg.lt_length
    rw [hnil] at hlt
    exact absurd hlt (Nat.not_lt_zero _)
  · rintro r ⟨hbuilt, hI⟩
    exact ⟨hbuilt, hI.imp Eq.symm id⟩

/-- What `writei` has done when it has come to `off`, of the bytes `src` to be written at `start`
into the file of `f`. -/
structure Written (i start : ℕ) (src : List UInt8) (f : Fs) (g : Fs) (off : ℕ) : Prop where
  start_le : start ≤ off
  file : g.extFile i = (f.extFile i).store start (src.take (off - start))
  next : off / BSIZE ≤ (g.extentBlocks i).length
  covered : start < off → off ≤ (g.extentBlocks i).length * BSIZE
  held : g.held = f.held
  unlocked : start < off → ∀ l b, start / BSIZE ≤ l → l * BSIZE < off →
    (g.extentBlocks i)[l]? = some b → ¬ f.Locked b

omit hsb hfs in
/-- A round of a write that goes on where the list ends, or before. -/
theorem Written.round {start off : ℕ} {g h : Fs} (hw : Written i start src f g off)
    (hrest : src.drop (off - start) ≠ []) (hg : Stored sb i off ((src.drop (off - start)).take
      (min (src.drop (off - start)).length (BSIZE - off % BSIZE))) g h) :
    Written i start src f h (off + min (src.drop (off - start)).length (BSIZE - off % BSIZE)) := by
  set rest := src.drop (off - start) with hrestdef
  set m := min rest.length (BSIZE - off % BSIZE) with hm
  have hr := round_min off (mt length_eq_zero_iff.mp hrest)
  rw [← hm] at hr
  have hpos := hr.pos
  have hin := hr.in_block
  have hmin : min (off / BSIZE) (g.extentBlocks i).length = off / BSIZE := min_eq_left hw.next
  have hlast : off / BSIZE + 1 ≤ (h.extentBlocks i).length := hmin ▸ hg.lt_length
  have hend : off + m ≤ (h.extentBlocks i).length * BSIZE := by
    have := Nat.mul_le_mul_right BSIZE hlast
    unfold BSIZE at *
    omega
  refine ⟨hw.start_le.trans (Nat.le_add_right _ _), ?_, ?_, fun _ => hend, hg.held.trans hw.held, ?_⟩
  · have hat : off / BSIZE * BSIZE + off % BSIZE = off := Nat.div_add_mod' off BSIZE
    have hstart : start + (src.take (off - start)).length = off := by
      have hle : off - start ≤ src.length := by
        by_contra hlt
        exact hrest (drop_eq_nil_of_le (not_le.mp hlt).le)
      rw [length_take, min_eq_left hle]
      have := hw.start_le
      omega
    have hstore := File.store_append (f.extFile i) start (src.take (off - start)) (rest.take m)
    rw [hstart] at hstore
    rw [hg.file, hmin, hat, hw.file, hstore, hrestdef, ← take_add]
    congr 2
    have := hw.start_le
    omega
  · unfold BSIZE at *
    omega
  · intro _ l b hl hlt hb
    by_cases hl' : l = off / BSIZE
    · have := hg.unlocked b (by rw [hmin, ← hl']; exact hb)
      unfold Locked at this ⊢
      rwa [hw.held] at this
    · have hbefore : l < off / BSIZE := by
        unfold BSIZE at *
        omega
      refine hw.unlocked (by unfold BSIZE at *; omega) l b hl (by unfold BSIZE at *; omega) ?_
      obtain ⟨t, ht⟩ := hg.grown
      rw [← hb, ← ht, getElem?_append_left (hbefore.trans_le hw.next)]

/-- The loop of `writei` from an offset where the list ends, or before. -/
theorem writeLoop_written (hf : f.Built sb i) (hoff : off / BSIZE ≤ (f.extentBlocks i).length)
    (hend : off + src.length < 2 ^ 32) :
    Post (f.writeLoop sb i src.length off src)
      (fun r => r.2.Built sb i ∧ r.1 = off + src.length ∧ Written i off src f r.2 r.1)
      (fun _ => True) := by
  refine (writeLoop_rule hsb hfs
    (I := fun g o rest => Written i off src f g o ∧ rest = src.drop (o - off) ∧
      o ≤ off + src.length) ?_ hf le_rfl ?_).impAny ?_
  · rintro g o rest hrest ⟨hw, rfl, hle⟩ m h hg
    have hm : m ≤ src.length - (o - off) := by
      rw [← length_drop]
      exact min_le_left _ _
    have hstart := hw.start_le
    have hnext : u32 (o + m) = o + m := Nat.mod_eq_of_lt (by omega)
    rw [hnext]
    refine ⟨hw.round hrest hg, ?_, by omega⟩
    rw [drop_drop]
    congr 1
    omega
  · refine ⟨⟨le_rfl, ?_, hoff, fun h => absurd h (lt_irrefl _), rfl,
      fun h => absurd h (lt_irrefl _)⟩, ?_, Nat.le_add_right _ _⟩
    · rw [Nat.sub_self, take_zero, File.store_nil]
    · rw [Nat.sub_self, drop_zero]
  · rintro ⟨o, g⟩ ⟨hbuilt, hw, hnil, hle⟩
    have hlen := drop_eq_nil_iff.mp hnil.symm
    have hstart := hw.start_le
    have ho : o = off + src.length := by
      simp only at *
      omega
    exact ⟨hbuilt, ho, hw⟩

/-- The loop of `writei` from an offset beyond the block after the list: of bytes that are zero
after the first, nothing is stored at the offset. -/
theorem writeLoop_lost (hf : f.Built sb i) (hoff : (f.extentBlocks i).length < off / BSIZE)
    (x : UInt8) {xs : List UInt8} (hxs : ∀ y ∈ xs, y = 0) :
    Post (f.writeLoop sb i (x :: xs).length off (x :: xs))
      (fun r => r.2.Built sb i ∧ r.2.extByte i off = 0) (fun _ => True) := by
  refine (writeLoop_rule hsb hfs
    (I := fun g o rest => (g = f ∧ o = off ∧ rest = x :: xs) ∨
      ((∀ y ∈ rest, y = 0) ∧ g.extByte i off = 0)) ?_ hf le_rfl (Or.inl ⟨rfl, rfl, rfl⟩)).impAny
    ?_
  · intro g o rest hrest hI m h hg
    have hm : 0 < m := (round_min o (mt length_eq_zero_iff.mp hrest)).pos
    have hin : o % BSIZE + m ≤ BSIZE :=
      (round_min o (mt length_eq_zero_iff.mp hrest)).in_block
    clear_value m
    have hfile : h.extByte i off = ((g.extFile i).store _ (rest.take m)).byte off :=
      congrArg (fun c => File.byte c off) hg.file
    rcases hI with ⟨rfl, rfl, rfl⟩ | ⟨hzero, hbyte⟩
    · -- the first block written is the one after the list
      refine Or.inr ⟨fun y hy => hxs y ?_, ?_⟩
      · obtain ⟨k, hk⟩ := Nat.exists_eq_succ_of_ne_zero hm.ne'
        rw [hk, drop_succ_cons] at hy
        exact mem_of_mem_drop hy
      · have hle : ((x :: xs).take m).length ≤ m := length_take_le _ _
        rw [hfile, min_eq_right hoff.le]
        show (if _ then _ else g.extByte i o) = 0
        rw [if_neg (by unfold BSIZE at *; omega), extByte_of_length_le hoff.le]
    · refine Or.inr ⟨fun y hy => hzero y (mem_of_mem_drop hy), ?_⟩
      rw [hfile]
      show (if _ then (rest.take m).getD _ 0 else g.extByte i off) = 0
      split_ifs with hpart
      · rw [getD_eq_getElem _ _ (by omega)]
        exact hzero _ (mem_of_mem_take (getElem_mem _))
      · exact hbyte
  · rintro ⟨o, g⟩ ⟨hbuilt, hI⟩
    rcases hI with ⟨-, -, hnil⟩ | ⟨-, hbyte⟩
    · exact absurd hnil (by simp)
    · exact ⟨hbuilt, hbyte⟩

end Loops

/-! ## `writei` -/

theorem Built.ne_dev (hf : f.Built sb i) : (f.inode i).type ≠ T_DEV := by
  rw [hf.type_eq]
  decide

/-- The inode's size set to `v` and the inode written back. -/
structure Sized (sb : Superblock) (i : ℕ) (v : UInt32) (f g : Fs) : Prop where
  built : g.Built sb i
  size : (g.inode i).size = v
  blocks : g.extentBlocks i = f.extentBlocks i
  bytes : g.extByte i = f.extByte i
  held : g.held = f.held

theorem Built.sized_self (hf : f.Built sb i) : Sized sb i (f.inode i).size f f :=
  ⟨hf, rfl, rfl, rfl, rfl⟩

theorem iupdate_sized (hsb : sb.Layout) (hf : f.Built sb i) (hne : f.extentBlocks i ≠ [])
    (v : UInt32) :
    Post (iupdate sb (f.setSize i v) i) (Sized sb i v f) (fun _ => True) := by
  refine (updateBlock_post _ _ _).impAny ?_
  rintro g ⟨-, rfl⟩
  set blk := storeDinode ((f.setSize i v).disk (iblock sb i)) (i % IPB * DINODE)
    ((f.setSize i v).inode i)
  have hlow := hsb.iblock_lt hf.inum_lt
  have hmid := sb.bmapstart_lt
  have hinode : ((f.setSize i v).setBlock (iblock sb i) blk).inode i =
      { f.inode i with size := v, inum := i } := setInode_inode_self _ _ _
  have haddrs : (((f.setSize i v).setBlock (iblock sb i) blk).inode i).addrs =
      (f.inode i).addrs := by rw [hinode]
  have hdisk : ∀ b, sb.bmapstart ≤ b →
      ((f.setSize i v).setBlock (iblock sb i) blk).disk b = f.disk b :=
    fun b hb => update_of_ne (by omega) _ _
  refine ⟨hf.of_same (by rw [hinode]) haddrs ?_ hsb.meta_le ?_, by rw [hinode],
    extentBlocks_congr haddrs, extByte_congr (extentBlocks_congr haddrs) ?_, rfl⟩
  · intro b _ hmark
    rw [marked_congr (hdisk _ (sb.bmapstart_le_bblock b)), hmark]
  · intro hnil
    refine absurd ?_ hne
    unfold extentBlocks
    rw [hnil]
    rfl
  · intro b hb
    exact hdisk b (by have := (hf.in_data b hb).1; omega)

section Inode

variable (hsb : sb.Layout) (hfs : sb.size ≤ FSSIZE)
include hsb hfs

section

variable (hf : f.Built sb i)

include hf

/-- `writei` after its loop: the size grows to the end of the write. -/
theorem writei_of_loop (devsw : Devsw) {Q : ℕ × Fs → Prop}
    (hloop : Post (f.writeLoop sb i src.length off src) Q (fun _ => True)) :
    Post (f.writei sb devsw i src off)
      (fun r => r = (-1, f) ∨ ∃ o h, Q (o, h) ∧ r.1 = cint src.length ∧
        Sized sb i (if 0 < src.length ∧ (h.inode i).size.toNat < o then UInt32.ofNat o
          else (h.inode i).size) h r.2)
      (fun _ => True) := by
  unfold writei
  simp only
  rw [if_neg hf.ne_dev]
  refine post_ite.mpr ⟨fun _ => Or.inl rfl, fun _ => ?_⟩
  refine ((writeLoop_blocks hsb hfs hf off src).and hloop).bindAny ?_
  rintro ⟨o, h⟩ ⟨⟨hbuilt, hblocks⟩, hQ⟩
  by_cases hgrow : 0 < src.length ∧ (h.inode i).size.toNat < o
  · simp only [if_pos hgrow]
    have hne : h.extentBlocks i ≠ [] := hblocks.resolve_left (ne_nil_of_length_pos hgrow.1)
    refine (iupdate_sized hsb hbuilt hne _).bindAny ?_
    intro g hg
    exact Or.inr ⟨o, h, hQ, rfl, by rw [if_pos hgrow]; exact hg⟩
  · simp only [if_neg hgrow]
    exact Or.inr ⟨o, h, hQ, rfl, by rw [if_neg hgrow]; exact hbuilt.sized_self⟩

theorem writei_built (devsw : Devsw) (src : List UInt8) (off : ℕ) :
    Post (f.writei sb devsw i src off) (fun r => r.2.Built sb i) (fun _ => True) := by
  refine (writei_of_loop hsb hfs hf devsw (Q := fun _ => True)
    ((writeLoop_blocks hsb hfs hf off src).impAny (fun _ _ => trivial))).impAny
    ?_
  rintro r (rfl | ⟨o, h, -, -, hsized⟩)
  · exact hf
  · exact hsized.built

/-! ## `readi` -/

theorem readLoop_built (rounds off n : ℕ) :
    Post (f.readLoop sb i rounds off n) (fun r => r.2.Built sb i) (fun _ => True) := by
  induction rounds generalizing f off n with
  | zero => exact hf
  | succ rounds ih =>
    rw [readLoop]
    refine post_ite.mpr ⟨fun _ => hf, fun _ => ?_⟩
    refine (bmap_maps hsb hfs hf _).bindAny ?_
    rintro ⟨b, g⟩ hmaps
    refine (bread_post g b).bindAny ?_
    rintro h ⟨hunlocked, rfl⟩
    rw [brelse_lock hunlocked]
    refine (ih hmaps.built _ _).bindAny ?_
    rintro ⟨rest, h⟩ hh
    exact hh

theorem readi_built (devsw : Devsw) (off n : ℕ) :
    Post (f.readi sb devsw i off n) (fun r => r.2.Built sb i) (fun _ => True) := by
  unfold readi
  simp only
  rw [if_neg hf.ne_dev]
  refine post_ite.mpr ⟨fun _ => hf, fun _ => ?_⟩
  refine (readLoop_built hsb hfs hf _ _ _).bindAny ?_
  rintro ⟨dst, g⟩ hg
  exact hg

/-- Where the file has a zero byte, or no block, a read starts with a zero byte. -/
theorem readLoop_head (rounds : ℕ) (hbyte : f.extByte i off = 0) (n : ℕ) :
    Post (f.readLoop sb i rounds off n) (fun r => ∀ x ∈ r.1.head?, x = 0) (fun _ => True) := by
  cases rounds with
  | zero => exact fun x hx => absurd hx (by simp)
  | succ rounds =>
    rw [readLoop]
    refine post_ite.mpr ⟨fun _ x hx => absurd hx (by simp), fun hn => ?_⟩
    refine (bmap_maps hsb hfs hf _).bindAny ?_
    rintro ⟨b, g⟩ hmaps
    refine (bread_post g b).bindAny ?_
    rintro h ⟨hunlocked, rfl⟩
    rw [brelse_lock hunlocked]
    refine (readLoop_built hsb hfs hmaps.built _ _ _).bindAny ?_
    rintro ⟨rest, h⟩ -
    obtain ⟨k, hk⟩ := Nat.exists_eq_succ_of_ne_zero (round_min off hn).pos.ne'
    intro x hx
    have hfirst : x = (g.disk b).byte (off % BSIZE) := by
      simp only [hk, range_succ_eq_map, map_cons, cons_append, head?_cons,
        Option.mem_def, Option.some.injEq] at hx
      exact hx.symm
    have hmod : off % BSIZE < BSIZE := Nat.mod_lt _ (by norm_num)
    rw [hfirst, ← extByte_of_some hmaps.block hmod]
    have hsame : g.extByte i = f.extByte i := congrArg File.byte hmaps.file
    rw [hsame]
    by_cases hlt : off / BSIZE ≤ (f.extentBlocks i).length
    · rw [min_eq_left hlt, Nat.div_add_mod' off BSIZE]
      exact hbyte
    · -- the block is a new one
      rw [min_eq_right (not_le.mp hlt).le]
      refine extByte_of_length_le ?_
      unfold BSIZE at *
      omega

theorem readi_head (devsw : Devsw) (hbyte : f.extByte i off = 0) (n : ℕ) :
    Post (f.readi sb devsw i off n) (fun r => ∀ x ∈ r.1.2.head?, x = 0) (fun _ => True) := by
  unfold readi
  simp only
  rw [if_neg hf.ne_dev]
  refine post_ite.mpr ⟨fun _ x hx => absurd hx (by simp), fun _ => ?_⟩
  refine (readLoop_head hsb hfs hf _ hbyte _).bindAny ?_
  rintro ⟨dst, g⟩ hdst
  exact hdst

end

omit hsb hfs in
/-- Reading bytes of blocks that are in the list. -/
theorem readLoop_eq_ok (hf : f.Built sb i) {rounds off n : ℕ} (hrounds : n ≤ rounds)
    (hend : off + n < 2 ^ 32) (hmapped : off + n ≤ (f.extentBlocks i).length * BSIZE)
    (hunlocked : ∀ l b, off / BSIZE ≤ l → l * BSIZE < off + n →
      (f.extentBlocks i)[l]? = some b → ¬ f.Locked b) :
    f.readLoop sb i rounds off n = .ok ((f.extFile i).read off n, f) := by
  induction rounds generalizing off n with
  | zero =>
    obtain rfl : n = 0 := Nat.le_zero.mp hrounds
    rfl
  | succ rounds ih =>
    rw [readLoop]
    split_ifs with hn
    · rw [hn]
      rfl
    · have hr := round_min off hn
      set m := min n (BSIZE - off % BSIZE)
      have hpos := hr.pos
      have hle := hr.le
      have hin := hr.in_block
      have hlt : off / BSIZE < (f.extentBlocks i).length := by
        unfold BSIZE at *
        omega
      have hb := getElem?_eq_getElem hlt
      set b := (f.extentBlocks i)[off / BSIZE]
      have hfree : ¬ f.Locked b := hunlocked _ b le_rfl (by unfold BSIZE at *; omega) hb
      have hread : f.bread b = .ok (f.lock b) := by
        obtain ⟨g, hg, -, rfl⟩ := ((bread_post f b).mono (fun _ h => h)
          (fun _ he => hfree he.2)).exists_ok (fun _ h => h)
        exact hg
      have hchunk : ((range m).map fun k => ((f.lock b).disk b).byte (off % BSIZE + k)) =
          (f.extFile i).read off m := by
        refine map_congr_left fun k hk => ?_
        have hk := mem_range.mp hk
        have hat : off + k = off / BSIZE * BSIZE + (off % BSIZE + k) := by
          rw [← add_assoc, Nat.div_add_mod' off BSIZE]
        show (f.disk b).byte _ = f.extByte i (off + k)
        rw [hat, extByte_of_some hb (by omega)]
      have hnext : u32 (off + m) = off + m := Nat.mod_eq_of_lt (by omega)
      have hrest : f.readLoop sb i rounds (off + m) (n - m) =
          .ok ((f.extFile i).read (off + m) (n - m), f) := ih (by omega) (by omega) (by omega)
        fun l b hl hlt => hunlocked l b ((Nat.div_le_div_right (Nat.le_add_right _ _)).trans hl)
          (by omega)
      rw [bmap_eq_ok hf hb, File.read_split _ _ hle, ← hchunk]
      simp only [bind, Except.bind, hread, brelse_lock hfree, hnext, hrest]

end Inode

/-! ## Whether a write returns -/

/-- The same inodes, locks and blocks before the data blocks. -/
structure SameMeta (sb : Superblock) (f g : Fs) : Prop where
  inode : f.inode = g.inode
  held : f.held = g.held
  disk : ∀ b, b < sb.dataStart → f.disk b = g.disk b

namespace SameMeta

theorem refl (sb : Superblock) (f : Fs) : SameMeta sb f f := ⟨rfl, rfl, fun _ _ => rfl⟩

variable (h : SameMeta sb f g)

include h

theorem setBlock (b : ℕ) {blk blk' : Block} (hblk : b < sb.dataStart → blk = blk') :
    SameMeta sb (f.setBlock b blk) (g.setBlock b blk') where
  inode := h.inode
  held := h.held
  disk c hc := by
    show update f.disk b blk c = update g.disk b blk' c
    by_cases hcb : c = b
    · rw [hcb, update_self, update_self, hblk (hcb ▸ hc)]
    · rw [update_of_ne hcb, update_of_ne hcb, h.disk c hc]

theorem brelse (b : ℕ) : SameMeta sb (f.brelse b) (g.brelse b) where
  inode := h.inode
  held := by
    show f.held.map _ = g.held.map _
    rw [h.held]
  disk := h.disk

theorem setInode (j : ℕ) (ip : Inode) :
    SameMeta sb (f.setInode j ip) (g.setInode j ip) where
  inode := by
    show update f.inode j _ = update g.inode j _
    rw [h.inode]
  held := h.held
  disk := h.disk

theorem setAddr (j : ℕ) (k : Fin (NDIRECT + 2)) (v : UInt32) :
    SameMeta sb (f.setAddr j k v) (g.setAddr j k v) := by
  unfold Fs.setAddr
  rw [← h.inode]
  exact h.setInode j _

theorem setSize (j : ℕ) (v : UInt32) :
    SameMeta sb (f.setSize j v) (g.setSize j v) := by
  unfold Fs.setSize
  rw [← h.inode]
  exact h.setInode j _

theorem bread (b : ℕ) : Sim (SameMeta sb) (f.bread b) (g.bread b) := by
  unfold Fs.bread
  rw [← h.held]
  cases hh : f.held with
  | none => exact .ok h
  | some s =>
    show Sim _ (if _ then _ else _) (if _ then _ else _)
    split_ifs
    · exact .error _
    · exact .ok ⟨h.inode, rfl, h.disk⟩

theorem updateBlock (b : ℕ) {change change' : Block → Block}
    (hchange : b < sb.dataStart → change = change') :
    Sim (SameMeta sb) (f.updateBlock b change) (g.updateBlock b change') := by
  refine (h.bread b).bind fun f g h => .ok ((h.setBlock b fun hb => ?_).brelse b)
  rw [hchange hb, h.disk b hb]

theorem ballocFrom {bs : List ℕ} (hbs : ∀ b ∈ bs, b < sb.size) :
    Sim (fun r r' => r.1 = r'.1 ∧ SameMeta sb r.2 r'.2) (ballocFrom sb f bs)
      (ballocFrom sb g bs) := by
  induction bs generalizing f g with
  | nil => exact .error _
  | cons b bs ih =>
    have hlow := Superblock.bblock_lt (hbs b (mem_cons_self ..))
    rw [Fs.ballocFrom, Fs.ballocFrom]
    refine (h.bread _).bind fun f g h => ?_
    rw [← h.disk _ hlow]
    cases clearBitAt (f.disk (bblock sb b)) (sb.size - b) with
    | none => exact ih (h.brelse _) fun c hc => hbs c (mem_cons_of_mem _ hc)
    | some bi =>
      exact (((h.setBlock _ fun _ => rfl).brelse _).updateBlock _ fun _ => rfl).bind
        fun f g h => .ok ⟨rfl, h⟩

theorem balloc :
    Sim (fun r r' => r.1 = r'.1 ∧ SameMeta sb r.2 r'.2) (balloc sb f) (balloc sb g) := by
  refine h.ballocFrom fun b hb => ?_
  obtain ⟨k, hk, rfl⟩ := mem_map.mp hb
  have hk := mem_range.mp hk
  unfold BPB at *
  omega

theorem bmap (htype : (f.inode i).type = T_EXTENT) (bn : ℕ) :
    Sim (fun r r' => r.1 = r'.1 ∧ SameMeta sb r.2 r'.2) (f.bmap sb i bn) (g.bmap sb i bn) := by
  unfold Fs.bmap bmapExtent
  rw [← h.inode, if_pos htype, if_pos htype]
  cases findExtent (f.inode i).addrs bn (finRange _) 0 with
  | inl addr => exact .ok ⟨rfl, h⟩
  | inr k =>
    show Sim _ (if _ then _ else _) (if _ then _ else _)
    split_ifs
    · exact .error _
    · refine h.balloc.bind ?_
      rintro ⟨b, f⟩ ⟨b', g⟩ ⟨hb, h⟩
      obtain rfl : b = b' := hb
      show Sim _ (if _ then _ else _) (if _ then _ else _)
      rw [show g.inode = f.inode from h.inode.symm]
      split_ifs
      · refine .ok ⟨rfl, ?_⟩
        show SameMeta sb (f.setLastExtent i k _) (g.setLastExtent i k _)
        unfold setLastExtent
        split_ifs
        · exact h.setSize i _
        · exact h.setAddr i _ _
      · exact .ok ⟨rfl, h.setAddr i _ _⟩

end SameMeta

section Returns

variable (hsb : sb.Layout) (hfs : sb.size ≤ FSSIZE)
include hsb hfs

/-- The blocks that `writei` takes do not depend on the bytes that it stores. -/
theorem writeLoop_sim (hf : f.Built sb i) (h : SameMeta sb f g) (rounds off : ℕ)
    {src src' : List UInt8} (hlen : src.length = src'.length) :
    Sim (fun r r' => r.1 = r'.1 ∧ SameMeta sb r.2 r'.2) (f.writeLoop sb i rounds off src)
      (g.writeLoop sb i rounds off src') := by
  induction rounds generalizing f g off src src' with
  | zero => exact .ok ⟨rfl, h⟩
  | succ rounds ih =>
    by_cases hsrc : src = []
    · have hsrc' : src' = [] := eq_nil_of_length_eq_zero (by rw [← hlen, hsrc]; rfl)
      rw [writeLoop, writeLoop, if_pos hsrc, if_pos hsrc']
      exact .ok ⟨rfl, h⟩
    · have hsrc' : src' ≠ [] := fun hnil => hsrc (eq_nil_of_length_eq_zero (by rw [hlen, hnil]; rfl))
      rw [writeLoop_succ _ _ hsrc, writeLoop_succ _ _ hsrc']
      have hround : Sim (SameMeta sb) (f.writeRound sb i off src) (g.writeRound sb i off src') := by
        refine ((h.bmap hf.type_eq _).and_post (bmap_maps hsb hfs hf _)).bind ?_
        rintro ⟨b, f⟩ ⟨b', g⟩ ⟨⟨hb, h⟩, hmaps⟩
        obtain rfl : b = b' := hb
        refine h.updateBlock b fun hlow => ?_
        have hdata := (hmaps.built.in_data b (mem_of_getElem? hmaps.block)).1
        exact absurd hlow (not_lt.mpr hdata)
      refine (hround.and_post (writeRound_post hsb hfs hf off src)).bind ?_
      rintro f g ⟨h, hstored⟩
      simp only [← hlen]
      exact ih hstored.built h _ (by rw [length_drop, length_drop, hlen])

/-- Whether `writei` returns, and what, does not depend on the bytes that it stores. -/
theorem writei_eq_ok_of_length (hf : f.Built sb i) (devsw : Devsw) {src src' : List UInt8}
    (hlen : src.length = src'.length) {r : ℤ} {g : Fs}
    (hw : f.writei sb devsw i src' off = .ok (r, g)) :
    ∃ g', f.writei sb devsw i src off = .ok (r, g') := by
  have hsim : Sim (fun r r' => r.1 = r'.1) (f.writei sb devsw i src off)
      (f.writei sb devsw i src' off) := by
    unfold writei
    simp only [← hlen]
    rw [if_neg hf.ne_dev, if_neg hf.ne_dev]
    split_ifs
    · exact .ok rfl
    · refine (writeLoop_sim hsb hfs hf (SameMeta.refl sb f) _ off hlen).bind ?_
      rintro ⟨o, g⟩ ⟨o', g'⟩ ⟨ho, h⟩
      obtain rfl : o = o' := ho
      simp only [show g'.inode = g.inode from h.inode.symm]
      split_ifs
      · have h' := h.setSize i (UInt32.ofNat o)
        refine Sim.bind (R := SameMeta sb) (h'.updateBlock _ fun _ => ?_) fun _ _ _ => .ok rfl
        rw [h'.inode]
      · exact .ok rfl
  obtain ⟨⟨r', g'⟩, hr, hrr⟩ := hsim.exists_ok hw
  obtain rfl : r' = r := hrr
  exact ⟨g', hr⟩

end Returns

/-! ## What a file made of extents stores -/

/-- An empty `T_EXTENT` inode, on a disk whose metadata blocks are marked. -/
structure Fresh (sb : Superblock) (i : ℕ) (f : Fs) : Prop where
  inum_lt : i < sb.ninodes
  type_eq : (f.inode i).type = T_EXTENT
  size_eq : (f.inode i).size = 0
  addrs_eq : ∀ k, (f.inode i).addrs k = 0
  meta_marked : ∀ b, b < sb.dataStart → marked sb f.disk b = true

/-- What calls on other inodes may do: whatever leaves inode `i` and its blocks to it. -/
structure Elsewhere (sb : Superblock) (i : ℕ) (f g : Fs) : Prop where
  inode : g.inode i = f.inode i
  meta_marked : ∀ b, b < sb.dataStart → marked sb g.disk b = true
  block_marked : ∀ b ∈ f.extentBlocks i, marked sb g.disk b = true
  disk : ∀ b ∈ f.extentBlocks i, g.disk b = f.disk b

/-- The states of a `T_EXTENT` inode that is built by calls of `writei`, and read, with calls on
other inodes in between. -/
inductive Reached (sb : Superblock) (devsw : Devsw) (i : ℕ) : Fs → Prop
  | fresh {f : Fs} (h : Fresh sb i f) : Reached sb devsw i f
  | writei {f g : Fs} {src : List UInt8} {off : ℕ} {r : ℤ} (h : Reached sb devsw i f)
      (hw : f.writei sb devsw i src off = .ok (r, g)) : Reached sb devsw i g
  | readi {f g : Fs} {off n : ℕ} {r : ℤ × List UInt8} (h : Reached sb devsw i f)
      (hr : f.readi sb devsw i off n = .ok (r, g)) : Reached sb devsw i g
  | elsewhere {f g : Fs} (h : Reached sb devsw i f) (hg : Elsewhere sb i f g) :
      Reached sb devsw i g

theorem Fresh.built (h : Fresh sb i f) : f.Built sb i := by
  have hl := Listed.empty h.addrs_eq
  have hnil : f.extentBlocks i = [] := by
    unfold extentBlocks
    rw [hl.extents_eq]
    rfl
  refine ⟨h.inum_lt, h.type_eq, h.meta_marked, ⟨_, hl⟩, hnil ▸ nodup_nil, ?_, ?_,
    fun _ => h.size_eq⟩
  · rw [hnil]
    nofun
  · rw [hnil]
    nofun

theorem Elsewhere.built (h : Elsewhere sb i f g) (hf : f.Built sb i) : g.Built sb i := by
  have haddrs : (g.inode i).addrs = (f.inode i).addrs := by rw [h.inode]
  have hblocks := extentBlocks_congr haddrs
  refine ⟨hf.inum_lt, by rw [h.inode]; exact hf.type_eq, h.meta_marked, haddrs ▸ hf.listed,
    hblocks ▸ hf.nodup, hblocks ▸ hf.in_data, hblocks ▸ h.block_marked, ?_⟩
  rw [h.inode]
  exact hf.empty

section Main

variable (hsb : sb.Layout) (hfs : sb.size ≤ FSSIZE)
include hsb hfs

theorem Reached.built {devsw : Devsw} (h : Reached sb devsw i f) : f.Built sb i := by
  induction h with
  | fresh h => exact h.built
  | writei _ hw ih => exact (writei_built hsb hfs ih devsw _ _).of_ok hw
  | readi _ hr ih => exact (readi_built hsb hfs ih devsw _ _).of_ok hr
  | elsewhere _ hg ih => exact hg.built ih

/-- `bmap` called twice returns the same block and allocates at most once. -/
theorem bmap_twice_iff (hf : f.Built sb i) {bn b : ℕ} (hb : f.bmap sb i bn = .ok (b, g)) :
    (∃ h, g.bmap sb i bn = .ok (b, h) ∧ freeBlocks sb f.disk ≤ freeBlocks sb h.disk + 1) ↔
      bn ≤ (f.extentBlocks i).length := by
  rcases (bmap_extent_post hsb hfs hf bn).of_ok hb with ⟨hfound, hg⟩ | ⟨hle, hgrows⟩
  · obtain rfl : g = f := hg
    have hlt := (List.getElem?_eq_some_iff.mp hfound).1
    exact iff_of_true ⟨g, hb, Nat.le_succ _⟩ hlt.le
  · have hblocks : g.extentBlocks i = f.extentBlocks i ++ [b] := hgrows.blocks
    constructor
    · -- beyond the new block the second call allocates once more
      rintro ⟨h, hagain, -⟩
      by_contra hlt
      rcases (bmap_extent_post hsb hfs hgrows.built bn).of_ok hagain with ⟨hfound, -⟩ | ⟨-, hmore⟩
      · have hlt' := (List.getElem?_eq_some_iff.mp hfound).1
        rw [hblocks, length_append, length_singleton] at hlt'
        omega
      · have hnodup := hmore.built.nodup
        have hmore' : h.extentBlocks i = g.extentBlocks i ++ [b] := hmore.blocks
        rw [hmore', hblocks, append_assoc] at hnodup
        exact absurd (nodup_append.mp hnodup).2.1 (by simp)
    · intro hbn
      obtain rfl : bn = (f.extentBlocks i).length := le_antisymm hbn hle
      refine ⟨g, bmap_eq_ok hgrows.built ?_, hgrows.free.ge⟩
      rw [hblocks]
      simp

omit hsb hfs in
/-- Reading bytes that the file has, of blocks that are in the list. -/
theorem readi_eq_ok (hf : f.Built sb i) (devsw : Devsw) {off n : ℕ}
    (hend : off + n < 2 ^ 32) (hsize : off + n ≤ (f.inode i).size.toNat)
    (hmapped : 0 < n → off + n ≤ (f.extentBlocks i).length * BSIZE)
    (hunlocked : 0 < n → ∀ l b, off / BSIZE ≤ l → l * BSIZE < off + n →
      (f.extentBlocks i)[l]? = some b → ¬ f.Locked b) :
    f.readi sb devsw i off n = .ok ((cint n, (f.extFile i).read off n), f) := by
  have hu : u32 (off + n) = off + n := Nat.mod_eq_of_lt hend
  unfold readi
  simp only
  rw [if_neg hf.ne_dev, hu, if_neg (by omega), if_neg (by omega)]
  rcases Nat.eq_zero_or_pos n with rfl | hn
  · rfl
  · rw [readLoop_eq_ok hf le_rfl hend (hmapped hn) (hunlocked hn)]
    rfl

omit hsb hfs in
theorem lt_of_cint_eq {n : ℕ} (h : cint n = n) : n < 2 ^ 31 := by
  unfold cint u32 at h
  split_ifs at h with hlt
  · omega
  · omega

/-- A write that starts at most one block after the end of the list is read back. -/
theorem readi_of_writei (hf : f.Built sb i) (devsw : Devsw) (hsrc : src ≠ [])
    (hoff : off / BSIZE ≤ (f.extentBlocks i).length)
    (hw : f.writei sb devsw i src off = .ok ((src.length : ℤ), g)) :
    g.readi sb devsw i off src.length = .ok (((src.length : ℤ), src), g) := by
  have hret : cint src.length = src.length ∨ (src.length : ℤ) = -1 := by
    rcases (writei_of_loop hsb hfs hf devsw (Q := fun _ => True)
      ((writeLoop_blocks hsb hfs hf off src).impAny (fun _ _ => trivial))).of_ok hw with heq | ⟨o, h, -, heq, -⟩
    · exact Or.inr (congrArg Prod.fst heq)
    · exact Or.inl heq.symm
  have hcint : cint src.length = src.length := hret.resolve_right (by omega)
  have hn := lt_of_cint_eq hcint
  have hT := hf.length_le
  have hend : off + src.length < 2 ^ 32 := by
    unfold BSIZE NDIRECT at *
    omega
  rcases (writei_of_loop hsb hfs hf devsw (writeLoop_written hsb hfs hf hoff hend)).of_ok hw with
    heq | ⟨o, h, ⟨-, ho, hwritten⟩, -, hsized⟩
  · exact absurd (congrArg Prod.fst heq) (by simp only; omega)
  obtain rfl : o = off + src.length := ho
  have hpos : 0 < src.length := length_pos_of_ne_nil hsrc
  have hlater : off < off + src.length := Nat.lt_add_of_pos_right hpos
  have hsize : off + src.length ≤ (g.inode i).size.toNat := by
    rw [hsized.size]
    split_ifs with hgrow
    · rw [UInt32.toNat_ofNat_of_lt' hend]
    · exact not_lt.mp fun hlt => hgrow ⟨hpos, hlt⟩
  have hbytes : (g.extFile i).read off src.length = src := by
    have hfile : (g.extFile i).byte = ((f.extFile i).write off src).byte := by
      show g.extByte i = ((f.extFile i).store off src).byte
      rw [hsized.bytes]
      have := hwritten.file
      rw [Nat.add_sub_cancel_left, take_length] at this
      exact congrArg File.byte this
    refine Eq.trans ?_ (File.read_write (f.extFile i) off src)
    unfold File.read
    rw [hfile]
  rw [readi_eq_ok hsized.built devsw hend hsize, hcint, hbytes]
  · intro _
    rw [hsized.blocks]
    exact hwritten.covered hlater
  · intro _ l b hl hlt hb hlocked
    rw [hsized.blocks] at hb
    refine hwritten.unlocked hlater l b hl hlt hb ?_
    unfold Locked at hlocked ⊢
    rwa [hsized.held, hwritten.held] at hlocked

/-- A write that starts further on is not read back, whatever `readi` does. -/
theorem not_readi_of_writei (hf : f.Built sb i) (devsw : Devsw) {off n : ℕ}
    (hoff : (f.extentBlocks i).length < off / BSIZE) {r : ℤ}
    (hw : f.writei sb devsw i (7 :: replicate n 0) off = .ok (r, g)) (hr : r ≠ -1) (m : ℕ)
    {h : Fs} : g.readi sb devsw i off m ≠ .ok ((r, 7 :: replicate n 0), h) := by
  intro hread
  have hzeros : ∀ y ∈ replicate n (0 : UInt8), y = 0 := by simp
  rcases (writei_of_loop hsb hfs hf devsw (writeLoop_lost hsb hfs hf hoff 7 hzeros)).of_ok hw with
    heq | ⟨o, h, ⟨-, hzero⟩, -, hsized⟩
  · exact hr (congrArg Prod.fst heq)
  have hbyte : g.extByte i off = 0 := by
    rw [hsized.bytes]
    exact hzero
  have hhead := (readi_head hsb hfs hsized.built devsw hbyte m).of_ok hread
  exact absurd (hhead 7 rfl) (by decide)

/-- After a write of no bytes, a read of none returns `0` up to the end of the file. -/
theorem readi_nil_iff (hf : f.Built sb i) (devsw : Devsw)
    (hw : f.writei sb devsw i [] off = .ok (((0 : ℕ) : ℤ), g)) :
    (∃ h, g.readi sb devsw i off 0 = .ok ((((0 : ℕ) : ℤ), []), h)) ↔
      off ≤ (f.inode i).size.toNat := by
  have hloop : Post (f.writeLoop sb i ([] : List UInt8).length off []) (· = (off, f))
      (fun _ => True) := rfl
  rcases (writei_of_loop hsb hfs hf devsw hloop).of_ok hw with heq | ⟨o, h, heq, -, hsized⟩
  · exact absurd (congrArg Prod.fst heq) (by simp)
  obtain ⟨rfl, rfl⟩ := Prod.mk.inj heq
  have hsize : (g.inode i).size = (h.inode i).size := by simpa using hsized.size
  rw [← hsize]
  constructor
  · rintro ⟨h', hread⟩
    by_contra hlt
    unfold readi at hread
    simp only at hread
    rw [if_neg hsized.built.ne_dev, if_pos (Or.inl (not_le.mp hlt))] at hread
    exact absurd (congrArg (fun r => Except.toOption r |>.map (·.1.1)) hread) (by simp [Except.toOption])
  · intro hle
    have hlt := (g.inode i).size.toNat_lt
    exact ⟨g, readi_eq_ok hsized.built devsw (by omega) hle (fun h => absurd h (lt_irrefl 0))
      (fun h => absurd h (lt_irrefl 0))⟩

/-- **What a file made of extents stores.**  `bmap` finds a block again, and `readi` reads what
`writei` wrote, exactly when the block, or the first block written, is at most one block after
the end of the blocks that the file has. -/
theorem extent_stores_iff (devsw : Devsw) (hf : Reached sb devsw i f) :
    (∀ bn b g, f.bmap sb i bn = .ok (b, g) →
      ((∃ h, g.bmap sb i bn = .ok (b, h) ∧ freeBlocks sb f.disk ≤ freeBlocks sb h.disk + 1) ↔
        bn ≤ (f.extentBlocks i).length)) ∧
    ∀ off n : ℕ, (∃ src g, src.length = n ∧ f.writei sb devsw i src off = .ok ((n : ℤ), g)) →
      ((∀ src g, src.length = n → f.writei sb devsw i src off = .ok ((n : ℤ), g) →
          ∃ h, g.readi sb devsw i off n = .ok (((n : ℤ), src), h)) ↔
        if n = 0 then off ≤ (f.inode i).size.toNat
        else off / BSIZE ≤ (f.extentBlocks i).length) := by
  have hbuilt := hf.built hsb hfs
  refine ⟨fun bn b g hb => bmap_twice_iff hsb hfs hbuilt hb, ?_⟩
  rintro off n ⟨src, g, hlen, hw⟩
  split_ifs with hn
  · subst hn
    constructor
    · intro hstores
      obtain ⟨h, hread⟩ := hstores src g hlen hw
      obtain rfl := eq_nil_of_length_eq_zero hlen
      exact (readi_nil_iff hsb hfs hbuilt devsw hw).mp ⟨h, hread⟩
    · intro hoff src g hlen hw
      obtain rfl := eq_nil_of_length_eq_zero hlen
      exact (readi_nil_iff hsb hfs hbuilt devsw hw).mpr hoff
  · constructor
    · intro hstores
      by_contra hoff
      obtain ⟨k, rfl⟩ := Nat.exists_eq_succ_of_ne_zero hn
      have hlen' : (7 :: replicate k (0 : UInt8)).length = src.length := by simp [hlen]
      obtain ⟨g', hw'⟩ := writei_eq_ok_of_length hsb hfs hbuilt devsw hlen' hw
      obtain ⟨h, hread⟩ := hstores _ g' (by simp) hw'
      exact not_readi_of_writei hsb hfs hbuilt devsw (not_le.mp hoff) hw' (by omega) _ hread
    · rintro hoff src g rfl hw
      exact ⟨g, readi_of_writei hsb hfs hbuilt devsw
        (fun hnil => hn (by rw [hnil]; rfl)) hoff hw⟩

end Main

/-! ## A disk with four data blocks -/

/-- A disk of nine blocks, the last four for data. -/
def extentSb : Superblock := { smallSb with size := 9, nblocks := 4 }

theorem extentSb_layout : extentSb.Layout :=
  ⟨by decide, by decide, by decide, by decide, by decide⟩

/-- An empty file made of extents, inode `1`. -/
def extentFs : Fs where
  disk := smallDisk
  held := some ∅
  inode i :=
    { inum := i, ref := 1, valid := true, type := if i = 1 then T_EXTENT else 0, major := 0
      minor := 0, nlink := 1, size := 0, addrs := fun _ => 0 }
  inum_eq _ := rfl

theorem extentFs_fresh : Fresh extentSb 1 extentFs where
  inum_lt := by decide
  type_eq := rfl
  size_eq := rfl
  addrs_eq _ := rfl
  meta_marked b hb := by
    have hb : b < 5 := hb
    show marked extentSb smallDisk b = true
    interval_cases b <;> decide

/-- A byte written at offset `512` of an empty file is in the first block of its list and reads
as zero, and `bmap` allocates a block each time it is asked for block `5`. -/
theorem not_extent_stores_gap : Fresh extentSb 1 extentFs ∧
    (∃ g h, extentFs.writei extentSb noDevices 1 [7] 512 = .ok (1, g) ∧
      g.readi extentSb noDevices 1 512 1 = .ok ((1, [0]), h)) ∧
    (do
      let (b, g) ← extentFs.bmap extentSb 1 5
      let (c, _) ← g.bmap extentSb 1 5
      .ok (b, c) : Except Stop (ℕ × ℕ)) = .ok (5, 6) :=
  ⟨extentFs_fresh, ⟨_, _, rfl, rfl⟩, by decide +kernel⟩

/-- A byte written at the start of an empty file is read back. -/
theorem extent_stores_byte : ∃ g h,
    extentFs.writei extentSb noDevices 1 [7] 0 = .ok (1, g) ∧
      g.readi extentSb noDevices 1 0 1 = .ok ((1, [7]), h) := by
  obtain ⟨-, hstores⟩ := extent_stores_iff extentSb_layout (by decide) noDevices
    (.fresh extentFs_fresh)
  obtain ⟨h, hread⟩ := (hstores 0 1 ⟨[7], _, rfl, rfl⟩).mpr (Nat.zero_le _) [7] _ rfl rfl
  exact ⟨_, h, rfl, hread⟩

end Fs
