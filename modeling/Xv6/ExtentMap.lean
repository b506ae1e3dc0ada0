/-
# A list of extents under sequential writing

The `T_EXTENT` case of `bmap` for any allocator: `bmapWith` is given the block that `balloc`
returns if it is called.  A file that is written from its start without seeking asks for a block
it has or for the next one (`Sequential`).  The extents are then the blocks that `balloc`
returned, in the order of the file, each found under the number it was first asked for
(`Mapped`).  Block `0` must not be returned: the first allocation compares the new block with the
word in front of `ip->addrs`, which is zero, and would count block `0` to the extent of length
zero in it.
-/
import Xv6.Extents

open Function Outcome List

namespace Fs

/-! ## `bmap` with a given block -/

/-- `ip->addrs[k-1] = v`, which for `k = 0` is the field before the array, `ip->size`. -/
def storeLast (ip : Inode) (k : ℕ) (v : UInt32) : Inode :=
  if k = 0 then { ip with size := v }
  else { ip with addrs := update ip.addrs (Fin.ofNat _ (k - 1)) v }

/-- The `T_EXTENT` case of `bmap`, where `balloc` returns `newBlock` if it is called. -/
def bmapWith (ip : Inode) (bn newBlock : ℕ) : Except Stop (ℕ × Inode) :=
  match findExtent ip.addrs bn (finRange _) 0 with
  | .inl addr => .ok (addr, ip)
  | .inr k =>
    if NDIRECT < k then .error (.panic "extent based kinda did not wo really well\n")
    else
      let last := lastExtent ip k
      if newBlock = extAddress last + extLength last ∧ extLength last < 0xff then
        .ok (newBlock, storeLast ip k (last + 1))
      else
        .ok (newBlock,
          { ip with addrs := update ip.addrs (Fin.ofNat _ k) (genAddress newBlock 1) })

theorem setLastExtent_eq (f : Fs) (i k : ℕ) (v : UInt32) :
    f.setLastExtent i k v = f.setInode i (storeLast (f.inode i) k v) := by
  unfold setLastExtent storeLast
  by_cases hk : k = 0
  · rw [if_pos hk, if_pos hk]
    rfl
  · rw [if_neg hk, if_neg hk]
    rfl

/-- **`bmap` on the disk** is `bmapWith` for the block that `balloc` returns; a block that is
found is returned without a call of `balloc`. -/
theorem bmapExtent_eq (sb : Superblock) (f : Fs) (i bn : ℕ) :
    (∀ addr, findExtent (f.inode i).addrs bn (finRange _) 0 = .inl addr →
      f.bmapExtent sb i bn = .ok (addr, f) ∧
        ∀ newBlock, bmapWith (f.inode i) bn newBlock = .ok (addr, f.inode i)) ∧
    ∀ k newBlock g, findExtent (f.inode i).addrs bn (finRange _) 0 = .inr k →
      f.balloc sb = .ok (newBlock, g) →
      f.bmapExtent sb i bn =
        (bmapWith (f.inode i) bn newBlock).map fun r => (r.1, g.setInode i r.2) := by
  constructor
  · intro addr hfind
    unfold bmapExtent bmapWith
    rw [hfind]
    exact ⟨rfl, fun _ => rfl⟩
  · intro k newBlock g hfind hballoc
    have hinode : g.inode = f.inode := by
      obtain ⟨-, hg⟩ := (balloc_post sb f).of_ok hballoc
      have hg : g = f.allocated sb newBlock := hg
      rw [hg]
      rfl
    unfold bmapExtent bmapWith
    rw [hfind]
    by_cases hk : NDIRECT < k
    · simp only [if_pos hk]
      rfl
    · simp only [if_neg hk, hballoc]
      show (if _ then _ else _) = _
      rw [hinode]
      by_cases hnext : newBlock = extAddress (lastExtent (f.inode i) k) +
          extLength (lastExtent (f.inode i) k) ∧ extLength (lastExtent (f.inode i) k) < 0xff
      · rw [if_pos hnext, if_pos hnext, setLastExtent_eq, hinode]
        rfl
      · rw [if_neg hnext, if_neg hnext]
        unfold setAddr
        rw [hinode]
        rfl

/-! ## Sequential calls -/

/-- An inode after calls of `bmap` that asked for a block it had or for the next one, with the
blocks that `balloc` returned.  `Ok` are the blocks that it can return; each is fresh.  Once there
is a block, the size of the file may be changed between calls. -/
inductive Sequential (Ok : ℕ → Prop) : Inode → List ℕ → Prop
  | empty {ip : Inode} (hsize : ip.size = 0) (haddrs : ∀ k, ip.addrs k = 0) : Sequential Ok ip []
  | again {ip next : Inode} {blocks : List ℕ} {bn newBlock addr : ℕ} (h : Sequential Ok ip blocks)
      (hbn : bn < blocks.length) (hcall : bmapWith ip bn newBlock = .ok (addr, next)) :
      Sequential Ok next blocks
  | next {ip next : Inode} {blocks : List ℕ} {newBlock addr : ℕ} (h : Sequential Ok ip blocks)
      (hroom : (extents ip.addrs).length ≤ NDIRECT) (hok : Ok newBlock) (hfresh : newBlock ∉ blocks)
      (hcall : bmapWith ip blocks.length newBlock = .ok (addr, next)) :
      Sequential Ok next (blocks ++ [newBlock])
  | resize {ip : Inode} {blocks : List ℕ} (size : UInt32) (h : Sequential Ok ip blocks)
      (hne : blocks ≠ []) : Sequential Ok { ip with size := size } blocks

/-- The inode maps its first blocks to `blocks`, and to any block of `Ok` next. -/
structure Mapped (Ok : ℕ → Prop) (ip : Inode) (blocks : List ℕ) : Prop where
  /-- A block is found under the number it was first asked for. -/
  found : ∀ (bn : ℕ) (hbn : bn < blocks.length) (newBlock : ℕ),
    bmapWith ip bn newBlock = .ok (blocks[bn], ip)
  /-- The next block is the one that `balloc` returns. -/
  grows : (extents ip.addrs).length ≤ NDIRECT → ∀ newBlock, Ok newBlock → newBlock ∉ blocks →
    ∃ next, bmapWith ip blocks.length newBlock = .ok (newBlock, next)
  distinct : blocks.Nodup
  /-- Every extent is a run of `1` to `255` consecutive blocks. -/
  consecutive : ∀ a ∈ extents ip.addrs, ∃ first length, 1 ≤ length ∧ length ≤ 255 ∧
    extBlocks a = range' first length
  concat : (extents ip.addrs).flatMap extBlocks = blocks

/-- Block numbers that fit into an extent, without the boot block. -/
def ExtentBlock (b : ℕ) : Prop := 0 < b ∧ b < 2 ^ 24

/-- What is kept while a file is written from its start. -/
structure Holds (ip : Inode) (blocks : List ℕ) (l : List UInt32) : Prop where
  listed : Listed ip.addrs l
  length_pos : ∀ a ∈ l, 0 < extLength a
  concat : l.flatMap extBlocks = blocks
  nodup : blocks.Nodup
  empty : l = [] → ip.size = 0

section Steps

variable {ip : Inode} {blocks : List ℕ} {l : List UInt32}

theorem Holds.bmapWith_found (h : Holds ip blocks l) {bn : ℕ} (hbn : bn < blocks.length)
    (newBlock : ℕ) : bmapWith ip bn newBlock = .ok (blocks[bn], ip) := by
  unfold bmapWith
  rw [findExtent_eq h.listed, h.concat, getElem?_eq_getElem hbn]

theorem genAddress_ne_zero {b : ℕ} (hb : b < 2 ^ 24) : genAddress b 1 ≠ 0 := by
  intro hzero
  have hnat := toNat_genAddress hb
  rw [hzero] at hnat
  simp at hnat

theorem extLength_genAddress {b : ℕ} (hb : b < 2 ^ 24) : extLength (genAddress b 1) = 1 := by
  have hlen := congrArg length (extBlocks_genAddress hb)
  rwa [length_extBlocks] at hlen

/-- The new block starts an extent. -/
theorem Holds.start (h : Holds ip blocks l) (hroom : l.length ≤ NDIRECT) {b : ℕ} (hb : b < 2 ^ 24)
    (hfresh : b ∉ blocks) :
    Holds { ip with addrs := update ip.addrs (Fin.ofNat _ l.length) (genAddress b 1) }
      (blocks ++ [b]) (l ++ [genAddress b 1]) where
  listed := h.listed.concat hroom (genAddress_ne_zero hb)
  length_pos a ha := by
    rcases mem_append.mp ha with ha | ha
    · exact h.length_pos a ha
    · rw [mem_singleton.mp ha, extLength_genAddress hb]
      exact Nat.one_pos
  concat := by
    rw [flatMap_append, h.concat]
    simp [extBlocks_genAddress hb]
  nodup := nodup_append.mpr ⟨h.nodup, nodup_singleton b, by
    rintro c hc d hd rfl
    exact hfresh (mem_singleton.mp hd ▸ hc)⟩
  empty hnil := absurd hnil (by simp)

/-- The new block continues the last extent. -/
theorem Holds.extend {a : UInt32} (h : Holds ip blocks (l ++ [a])) {b : ℕ}
    (hnext : b = extAddress a + extLength a) (hfull : extLength a < 0xff) (hfresh : b ∉ blocks) :
    Holds (storeLast ip (l ++ [a]).length (a + 1)) (blocks ++ [b]) (l ++ [a + 1]) := by
  have hgrown := extBlocks_add_one hfull
  have hlength : extLength (a + 1) = extLength a + 1 := by
    have hlen := congrArg length hgrown
    rwa [length_append, length_extBlocks, length_extBlocks] at hlen
  have hne : a + 1 ≠ 0 := by
    intro hzero
    rw [hzero] at hlength
    exact absurd hlength (Nat.succ_ne_zero _).symm
  have hstore : storeLast ip (l ++ [a]).length (a + 1) =
      { ip with addrs := update ip.addrs (Fin.ofNat _ l.length) (a + 1) } := by
    unfold storeLast
    rw [length_append, length_singleton, if_neg (Nat.succ_ne_zero _), Nat.add_sub_cancel]
  rw [hstore]
  refine ⟨h.listed.setLast hne, ?_, ?_, ?_, fun hnil => absurd hnil (by simp)⟩
  · intro c hc
    rcases mem_append.mp hc with hc | hc
    · exact h.length_pos c (mem_append_left _ hc)
    · rw [mem_singleton.mp hc, hlength]
      exact Nat.succ_pos _
  · rw [← h.concat, flatMap_append, flatMap_append, append_assoc]
    simp only [flatMap_cons, flatMap_nil, append_nil]
    rw [hgrown, hnext]
  · refine nodup_append.mpr ⟨h.nodup, nodup_singleton b, ?_⟩
    rintro c hc d hd rfl
    exact hfresh (mem_singleton.mp hd ▸ hc)

/-- A step: the next block is recorded as the last one of the list. -/
theorem Holds.bmapWith_next (h : Holds ip blocks l) (hroom : l.length ≤ NDIRECT) {b : ℕ}
    (hb : ExtentBlock b) (hfresh : b ∉ blocks) :
    ∃ next l', bmapWith ip blocks.length b = .ok (b, next) ∧ Holds next (blocks ++ [b]) l' := by
  have hfind : findExtent ip.addrs blocks.length (finRange _) 0 = .inr l.length := by
    rw [findExtent_eq h.listed, h.concat, getElem?_eq_none le_rfl]
  unfold bmapWith
  rw [hfind]
  simp only [if_neg (not_lt.mpr hroom)]
  by_cases hnext : b = extAddress (lastExtent ip l.length) + extLength (lastExtent ip l.length) ∧
      extLength (lastExtent ip l.length) < 0xff
  · rw [if_pos hnext]
    rcases eq_nil_or_concat' l with rfl | ⟨l, a, rfl⟩
    · -- the word before the array is the size, which is zero: it stands for block `0`
      have hzero : b = extAddress ip.size + extLength ip.size := hnext.1
      rw [h.empty rfl] at hzero
      exact absurd hzero hb.1.ne'
    · rw [h.listed.lastExtent_eq] at hnext ⊢
      exact ⟨_, _, rfl, h.extend hnext.1 hnext.2 hfresh⟩
  · rw [if_neg hnext]
    exact ⟨_, _, rfl, h.start hroom hb.2 hfresh⟩

theorem Holds.mapped (h : Holds ip blocks l) : Mapped ExtentBlock ip blocks where
  found bn hbn newBlock := h.bmapWith_found hbn newBlock
  grows hroom b hb hfresh := by
    rw [h.listed.extents_eq] at hroom
    obtain ⟨next, -, hcall, -⟩ := h.bmapWith_next hroom hb hfresh
    exact ⟨next, hcall⟩
  distinct := h.nodup
  consecutive a ha := by
    rw [h.listed.extents_eq] at ha
    refine ⟨extAddress a, extLength a, h.length_pos a ha, Nat.le_of_lt_succ (extLength_lt a), ?_⟩
    unfold extBlocks
    rw [range'_eq_map_range]
  concat := by rw [h.listed.extents_eq, h.concat]

end Steps

/-- The run: every call keeps what the inode holds. -/
theorem Sequential.holds {ip : Inode} {blocks : List ℕ} (h : Sequential ExtentBlock ip blocks) :
    ∃ l, Holds ip blocks l := by
  induction h with
  | empty hsize haddrs =>
    exact ⟨[], .empty haddrs, nofun, rfl, nodup_nil, fun _ => hsize⟩
  | again h hbn hcall ih =>
    obtain ⟨l, hl⟩ := ih
    have heq := (hl.bmapWith_found hbn _).symm.trans hcall
    obtain ⟨-, rfl⟩ := Prod.mk.inj (Except.ok.inj heq)
    exact ⟨l, hl⟩
  | next h hroom hok hfresh hcall ih =>
    obtain ⟨l, hl⟩ := ih
    rw [hl.listed.extents_eq] at hroom
    obtain ⟨next, l', hcall', hl'⟩ := hl.bmapWith_next hroom hok hfresh
    obtain ⟨-, rfl⟩ := Prod.mk.inj (Except.ok.inj (hcall'.symm.trans hcall))
    exact ⟨l', hl'⟩
  | resize size h hne ih =>
    obtain ⟨l, hl⟩ := ih
    refine ⟨l, hl.listed, hl.length_pos, hl.concat, hl.nodup, ?_⟩
    rintro rfl
    exact absurd hl.concat.symm hne

/-- **The extent map under sequential writing** is the list of the blocks that `balloc` returned,
if it does not return block `0`. -/
theorem sequential_mapped {ip : Inode} {blocks : List ℕ} (h : Sequential ExtentBlock ip blocks) :
    Mapped ExtentBlock ip blocks := by
  obtain ⟨l, hl⟩ := h.holds
  exact hl.mapped

/-- An empty inode. -/
def emptyInode : Inode :=
  { inum := 1, ref := 1, valid := true, type := T_EXTENT, major := 0, minor := 0, nlink := 1
    size := 0, addrs := fun _ => 0 }

/-- Two blocks that follow each other and one that does not. -/
theorem sequential_mapped_three : ∃ ip, extents ip.addrs = [genAddress 5 2, genAddress 9 1] ∧
    Mapped ExtentBlock ip [5, 6, 9] := by
  have hempty : Sequential ExtentBlock emptyInode [] := .empty rfl fun _ => rfl
  have hfive : Sequential ExtentBlock _ [5] :=
    hempty.next (by decide) ⟨by decide, by decide⟩ (by decide) rfl
  have hsix : Sequential ExtentBlock _ [5, 6] :=
    hfive.next (by decide) ⟨by decide, by decide⟩ (by decide) rfl
  have hnine : Sequential ExtentBlock _ [5, 6, 9] :=
    hsix.next (by decide) ⟨by decide, by decide⟩ (by decide) rfl
  exact ⟨_, rfl, sequential_mapped hnine⟩

/-- With block `0` as the first block: the inode has no extent, its size is `1`, and the block is
not found again. -/
theorem not_sequential_mapped_boot : ∃ ip, Sequential (· < 2 ^ 24) ip [0] ∧
    ¬ Mapped (· < 2 ^ 24) ip [0] := by
  have hempty : Sequential (· < 2 ^ 24) emptyInode [] := .empty rfl fun _ => rfl
  have hboot : Sequential (· < 2 ^ 24) _ [0] := hempty.next (by decide) (by decide) (by decide) rfl
  refine ⟨_, hboot, fun h => ?_⟩
  have hlen := congrArg length h.concat
  cases hlen

end Fs
