/-
# Files made of extents

The addresses of a `T_EXTENT` inode are extents: an address of `24` bits and a length of `8`.
The blocks of the file are those of the extents one after the other, so the number of a block
in the file is implicit in the lengths before it.  `Fs.bmapExtent` looks a block up in that
list; for every block number that is not in the list it allocates a block and puts it at the
end of the list, whatever the number was.
-/
import Xv6.BlockAlloc

open Function Outcome List

namespace Fs

/-! ## One extent -/

/-- The blocks of an extent. -/
def extBlocks (address : UInt32) : List ℕ :=
  (range (extLength address)).map (extAddress address + ·)

theorem extLength_eq (address : UInt32) : extLength address = address.toNat % 2 ^ 8 := by
  unfold extLength
  rw [UInt32.toNat_and]
  exact Nat.and_two_pow_sub_one_eq_mod _ 8

theorem extAddress_eq (address : UInt32) : extAddress address = address.toNat / 2 ^ 8 := by
  unfold extAddress
  rw [UInt32.toNat_shiftRight]
  exact Nat.shiftRight_eq_div_pow _ 8

theorem extLength_lt (address : UInt32) : extLength address < 2 ^ 8 := by
  rw [extLength_eq]
  exact Nat.mod_lt _ (by norm_num)

@[simp] theorem length_extBlocks (address : UInt32) :
    (extBlocks address).length = extLength address := by
  simp [extBlocks]

/-- An extent that is not full grows by one block. -/
theorem extBlocks_add_one {address : UInt32} (hlen : extLength address < 0xff) :
    extBlocks (address + 1) = extBlocks address ++ [extAddress address + extLength address] := by
  have hlt := address.toNat_lt
  rw [extLength_eq] at hlen
  have hsucc : (address + 1).toNat = address.toNat + 1 := by
    rw [UInt32.toNat_add]
    exact Nat.mod_eq_of_lt (by simp; omega)
  have hlength : extLength (address + 1) = extLength address + 1 := by
    rw [extLength_eq, extLength_eq, hsucc]
    omega
  have haddress : extAddress (address + 1) = extAddress address := by
    rw [extAddress_eq, extAddress_eq, hsucc]
    omega
  unfold extBlocks
  rw [hlength, haddress, range_succ, map_append, map_singleton]

/-- A number of `24` bits is the address of the extent made from it. -/
theorem toNat_genAddress {b : ℕ} (hb : b < 2 ^ 24) : (genAddress b 1).toNat = b * 2 ^ 8 + 1 := by
  have hof : (UInt32.ofNat b).toNat = b := UInt32.toNat_ofNat_of_lt' (by simp [UInt32.size]; omega)
  have hshift : (UInt32.ofNat b <<< 8).toNat = b * 2 ^ 8 := by
    rw [UInt32.toNat_shiftLeft, hof]
    show b <<< 8 % 2 ^ 32 = _
    rw [Nat.shiftLeft_eq, Nat.mod_eq_of_lt (by omega)]
  unfold genAddress
  rw [UInt32.toNat_or, hshift, mul_comm]
  exact (Nat.two_pow_add_eq_or_of_lt (show 1 < 2 ^ 8 by norm_num) b).symm

theorem extBlocks_genAddress {b : ℕ} (hb : b < 2 ^ 24) : extBlocks (genAddress b 1) = [b] := by
  have hnat := toNat_genAddress hb
  have hlength : extLength (genAddress b 1) = 1 := by
    rw [extLength_eq, hnat]
    omega
  have haddress : extAddress (genAddress b 1) = b := by
    rw [extAddress_eq, hnat]
    omega
  unfold extBlocks
  rw [hlength, haddress]
  rfl

/-! ## The list of extents -/

/-- The extents in use: the addresses before the first that is zero. -/
def extents (addrs : Fin (NDIRECT + 2) → UInt32) : List UInt32 :=
  ((finRange _).map addrs).takeWhile (· ≠ 0)

/-- The blocks of a `T_EXTENT` inode, in the order of the file. -/
def extentBlocks (f : Fs) (i : ℕ) : List ℕ := (extents (f.inode i).addrs).flatMap extBlocks

/-- The addresses are the extents `l`, and zeros after them. -/
structure Listed (addrs : Fin (NDIRECT + 2) → UInt32) (l : List UInt32) : Prop where
  length_le : l.length ≤ NDIRECT + 1
  ne_zero : ∀ a ∈ l, a ≠ 0
  addr : ∀ k, addrs k = l.getD k 0

namespace Listed

variable {addrs : Fin (NDIRECT + 2) → UInt32} {l : List UInt32}

theorem extents_eq (hl : Listed addrs l) : extents addrs = l := by
  have hlen := hl.length_le
  have hmap : (finRange _).map addrs = l ++ replicate (NDIRECT + 2 - l.length) 0 := by
    refine ext_getElem (by simp; omega) ?_
    intro k hk hk'
    rw [getElem_map, getElem_finRange, hl.addr]
    show l.getD k 0 = _
    by_cases hkl : k < l.length
    · rw [getD_eq_getElem _ _ hkl, getElem_append_left hkl]
    · rw [getD_eq_default _ _ (by omega), getElem_append_right (by omega),
        getElem_replicate]
  unfold extents
  rw [hmap, takeWhile_append_of_pos (by simpa using hl.ne_zero)]
  simp

theorem empty (haddrs : ∀ k, addrs k = 0) : Listed addrs [] :=
  ⟨Nat.zero_le _, nofun, fun k => by rw [haddrs]; rfl⟩

/-- Another entry at the end of a list is read at that index only. -/
theorem getD_concat_of_ne (l : List UInt32) (a : UInt32) {k : ℕ} (hk : k ≠ l.length) :
    (l ++ [a]).getD k 0 = l.getD k 0 := by
  by_cases hlt : k < l.length
  · rw [getD_append _ _ _ _ hlt]
  · rw [getD_eq_default _ _ (by simp; omega), getD_eq_default _ _ (by omega)]

variable {v : UInt32}

/-- Storing an extent after the extents `l`, where the address may be zero or not. -/
theorem store (hlen : l.length ≤ NDIRECT) (hne : ∀ a ∈ l, a ≠ 0)
    (haddr : ∀ k : Fin (NDIRECT + 2), k.val ≠ l.length → addrs k = l.getD k 0) (hv : v ≠ 0) :
    Listed (update addrs (Fin.ofNat _ l.length) v) (l ++ [v]) where
  length_le := by
    rw [length_append]
    exact Nat.succ_le_succ hlen
  ne_zero a ha := by
    rcases mem_append.mp ha with h | h
    · exact hne a h
    · exact (mem_singleton.mp h).symm ▸ hv
  addr k := by
    have hof : (Fin.ofNat (NDIRECT + 2) l.length).val = l.length := Nat.mod_eq_of_lt (by omega)
    by_cases hk : k = Fin.ofNat _ l.length
    · rw [hk, update_self, hof]
      simp
    · have hval : k.val ≠ l.length := fun h => hk (Fin.ext (h.trans hof.symm))
      rw [update_of_ne hk, haddr k hval, getD_concat_of_ne l v hval]

/-- An extent more. -/
theorem concat (hl : Listed addrs l) (hlen : l.length ≤ NDIRECT) (hv : v ≠ 0) :
    Listed (update addrs (Fin.ofNat _ l.length) v) (l ++ [v]) :=
  store hlen hl.ne_zero (fun k _ => hl.addr k) hv

/-- The last extent replaced. -/
theorem setLast {a : UInt32} (hl : Listed addrs (l ++ [a])) (hv : v ≠ 0) :
    Listed (update addrs (Fin.ofNat _ l.length) v) (l ++ [v]) := by
  have hlen : l.length + 1 ≤ NDIRECT + 1 := by simpa using hl.length_le
  refine store (Nat.le_of_succ_le_succ hlen) (fun b hb => hl.ne_zero b (mem_append_left _ hb))
    (fun k hk => ?_) hv
  rw [hl.addr, getD_concat_of_ne l a hk]

end Listed

theorem drop_finRange {j : ℕ} (hj : j < NDIRECT + 2) : (finRange (NDIRECT + 2)).drop j =
    ⟨j, hj⟩ :: (finRange (NDIRECT + 2)).drop (j + 1) := by
  rw [drop_eq_getElem_cons (by simpa using hj), getElem_finRange]
  rfl

/-- The search of `bmap` among the extents `l'` that come after `before`: it finds the block, or
ends at the first address that is not in use. -/
theorem findExtent_append {addrs : Fin (NDIRECT + 2) → UInt32} {bn : ℕ} (l' : List UInt32) :
    ∀ (before : List UInt32) (currentLength : ℕ), Listed addrs (before ++ l') →
      currentLength ≤ bn →
      findExtent addrs bn ((finRange _).drop before.length) currentLength =
        match (l'.flatMap extBlocks)[bn - currentLength]? with
        | some addr => .inl addr
        | none => .inr (before ++ l').length := by
  induction l' with
  | nil =>
    intro before currentLength hl hle
    have hlen : before.length ≤ NDIRECT + 1 := by simpa using hl.length_le
    have hlt : before.length < NDIRECT + 2 := by omega
    have hzero : addrs ⟨before.length, hlt⟩ = 0 := by
      rw [hl.addr]
      simp
    rw [drop_finRange hlt, findExtent, if_pos hzero]
    simp
  | cons a l' ih =>
    intro before currentLength hl hle
    have hlen : before.length + (l'.length + 1) ≤ NDIRECT + 1 := by simpa using hl.length_le
    have hlt : before.length < NDIRECT + 2 := by omega
    have haddr : addrs ⟨before.length, hlt⟩ = a := by
      rw [hl.addr]
      simp
    have hne : a ≠ 0 := hl.ne_zero a (by simp)
    rw [drop_finRange hlt, findExtent, haddr, if_neg hne, flatMap_cons]
    by_cases hin : bn < currentLength + extLength a
    · have hk : bn - currentLength < (extBlocks a).length := by
        rw [length_extBlocks]
        omega
      rw [if_pos ⟨hle, hin⟩, getElem?_append_left hk]
      simp only [extBlocks, getElem?_map, getElem?_range
        (show bn - currentLength < extLength a by omega), Option.map_some]
      congr 1
      omega
    · have hnext := ih (before ++ [a]) (currentLength + extLength a)
        (by rwa [append_assoc]) (by omega)
      rw [length_append, length_singleton, append_assoc] at hnext
      rw [if_neg (fun h => hin h.2), if_neg (show ¬ NDIRECT < before.length by omega), hnext,
        getElem?_append_right (by rw [length_extBlocks]; omega), length_extBlocks,
        Nat.sub_add_eq]
      rfl

/-- `bmap` finds block `bn` in the list of the blocks of the extents. -/
theorem findExtent_eq {addrs : Fin (NDIRECT + 2) → UInt32} {l : List UInt32}
    (hl : Listed addrs l) (bn : ℕ) :
    findExtent addrs bn (finRange _) 0 =
      match (l.flatMap extBlocks)[bn]? with
      | some addr => .inl addr
      | none => .inr l.length :=
  findExtent_append l [] 0 hl (Nat.zero_le _)

/-! ## The inode -/

/-- What holds of a `T_EXTENT` inode that `writei` has built: its blocks are in the data area,
marked, and no two of them are the same.  Until it has a block its size is zero. -/
structure Built (sb : Superblock) (i : ℕ) (f : Fs) : Prop where
  inum_lt : i < sb.ninodes
  type_eq : (f.inode i).type = T_EXTENT
  meta_marked : ∀ b, b < sb.dataStart → marked sb f.disk b = true
  listed : ∃ l, Listed (f.inode i).addrs l
  nodup : (f.extentBlocks i).Nodup
  in_data : ∀ b ∈ f.extentBlocks i, sb.dataStart ≤ b ∧ b < sb.size
  block_marked : ∀ b ∈ f.extentBlocks i, marked sb f.disk b = true
  empty : extents (f.inode i).addrs = [] → (f.inode i).size = 0

variable {i : ℕ}

theorem extentBlocks_congr {f g : Fs} (h : (g.inode i).addrs = (f.inode i).addrs) :
    g.extentBlocks i = f.extentBlocks i := by
  unfold extentBlocks
  rw [h]

variable {sb : Superblock}

/-- The list of blocks does not go beyond what the extents can hold. -/
theorem Built.length_le {f : Fs} (hf : f.Built sb i) :
    (f.extentBlocks i).length ≤ 255 * (NDIRECT + 1) := by
  obtain ⟨l, hl⟩ := hf.listed
  have hsum : ∀ l : List UInt32, (l.flatMap extBlocks).length ≤ 255 * l.length := by
    intro l
    induction l with
    | nil => exact le_rfl
    | cons a l ih =>
      have := extLength_lt a
      rw [flatMap_cons, length_append, length_extBlocks, length_cons]
      omega
  unfold extentBlocks
  rw [hl.extents_eq]
  exact (hsum l).trans (Nat.mul_le_mul_left _ hl.length_le)

/-- A change of the inode's size, of data blocks and of blocks before the bitmap. -/
theorem Built.of_same {f g : Fs} (hf : f.Built sb i) (htype : (g.inode i).type = (f.inode i).type)
    (haddrs : (g.inode i).addrs = (f.inode i).addrs)
    (hmarks : ∀ b, b < sb.size → marked sb f.disk b = true → marked sb g.disk b = true)
    (hmeta : sb.dataStart ≤ sb.size) (hsize : extents (f.inode i).addrs = [] → (g.inode i).size = 0) :
    g.Built sb i where
  inum_lt := hf.inum_lt
  type_eq := htype.trans hf.type_eq
  meta_marked b hb := hmarks b (hb.trans_le hmeta) (hf.meta_marked b hb)
  listed := haddrs ▸ hf.listed
  nodup := extentBlocks_congr haddrs ▸ hf.nodup
  in_data := extentBlocks_congr haddrs ▸ hf.in_data
  block_marked b hb := by
    rw [extentBlocks_congr haddrs] at hb
    exact hmarks b (hf.in_data b hb).2 (hf.block_marked b hb)
  empty h := hsize (haddrs ▸ h)

/-! ## `bmap` -/

/-- What `bmap` does for a block number that is not in the list: it puts a free block, zeroed,
at the end of the list. -/
structure Grows (sb : Superblock) (i b : ℕ) (f g : Fs) : Prop where
  built : g.Built sb i
  blocks : g.extentBlocks i = f.extentBlocks i ++ [b]
  zeroed : g.disk b = Block.zero
  same : ∀ c ∈ f.extentBlocks i, g.disk c = f.disk c
  size : (g.inode i).size = (f.inode i).size
  held : g.held = f.held
  free : freeBlocks sb g.disk + 1 = freeBlocks sb f.disk

/-- The block that `balloc` returned, recorded in the addresses of the inode. -/
theorem Built.grows (hsb : sb.Layout) {i b : ℕ} {f : Fs} (hf : f.Built sb i)
    (hfirst : FirstFree sb f.disk b) {k : Fin (NDIRECT + 2)} {v : UInt32} {l : List UInt32}
    (hl : Listed (update (f.inode i).addrs k v) (l ++ [v]))
    (hblocks : (l ++ [v]).flatMap extBlocks = f.extentBlocks i ++ [b]) :
    Grows sb i b f ((f.allocated sb b).setAddr i k v) := by
  have hdata : sb.dataStart ≤ b := hfirst.dataStart_le hf.meta_marked
  have hmarks : ∀ c, c < sb.size →
      marked sb (f.allocated sb b).disk c = (decide (c = b) || marked sb f.disk c) :=
    fun c hc => marked_allocated hdata hc
  have hkept : ∀ c, c < sb.size → marked sb f.disk c = true →
      marked sb (f.allocated sb b).disk c = true := by
    intro c hc hmark
    rw [hmarks c hc, hmark, Bool.or_true]
  have hfresh : b ∉ f.extentBlocks i := by
    intro hmem
    have := hf.block_marked b hmem
    rw [hfirst.2.1] at this
    exact absurd this (by simp)
  have haddrs : (((f.allocated sb b).setAddr i k v).inode i).addrs =
      update (f.inode i).addrs k v := by
    unfold setAddr
    rw [setInode_inode_self]
    rfl
  have hlist : ((f.allocated sb b).setAddr i k v).extentBlocks i = f.extentBlocks i ++ [b] := by
    rw [← hblocks, ← hl.extents_eq, ← haddrs]
    rfl
  have hsize : (((f.allocated sb b).setAddr i k v).inode i).size = (f.inode i).size := by
    unfold setAddr
    rw [setInode_inode_self]
    rfl
  refine
    { built :=
        { inum_lt := hf.inum_lt
          type_eq := ?_
          meta_marked := fun c hc => hkept c (hc.trans_le hsb.meta_le) (hf.meta_marked c hc)
          listed := ⟨_, haddrs ▸ hl⟩
          nodup := ?_
          in_data := ?_
          block_marked := ?_
          empty := ?_ }
      blocks := hlist
      zeroed := allocated_disk_self
      same := ?_
      size := hsize
      held := rfl
      free := freeBlocks_mark hfirst.1 hfirst.2.1 hmarks }
  · unfold setAddr
    rw [setInode_inode_self]
    exact hf.type_eq
  · rw [hlist, nodup_append]
    refine ⟨hf.nodup, nodup_singleton b, fun c hc d hd => ?_⟩
    rintro rfl
    exact hfresh (mem_singleton.mp hd ▸ hc)
  · intro c hc
    rw [hlist, mem_append, mem_singleton] at hc
    rcases hc with hc | rfl
    · exact hf.in_data c hc
    · exact ⟨hdata, hfirst.1⟩
  · intro c hc
    rw [hlist, mem_append, mem_singleton] at hc
    rcases hc with hc | rfl
    · exact hkept c (hf.in_data c hc).2 (hf.block_marked c hc)
    · show marked sb (f.allocated sb c).disk c = true
      rw [hmarks c hfirst.1, decide_eq_true rfl, Bool.true_or]
  · intro hempty
    rw [haddrs, hl.extents_eq] at hempty
    exact absurd hempty (by simp)
  · intro c hc
    refine allocated_disk_data hfirst ?_ (hf.in_data c hc).1
    rintro rfl
    exact hfresh hc

section Bmap

variable {sb : Superblock} (hsb : sb.Layout) {i b : ℕ} {f : Fs} {l : List UInt32}

include hsb in
/-- The block starts an extent. -/
theorem Built.grows_concat (hf : f.Built sb i) (hl : Listed (f.inode i).addrs l)
    (hlen : l.length ≤ NDIRECT) (hfirst : FirstFree sb f.disk b) (hb : b < 2 ^ 24) :
    Grows sb i b f ((f.allocated sb b).setAddr i (Fin.ofNat _ l.length) (genAddress b 1)) := by
  have hgen : genAddress b 1 ≠ 0 := by
    intro h
    have hnat := toNat_genAddress hb
    rw [h] at hnat
    simp at hnat
  refine hf.grows hsb hfirst (hl.concat hlen hgen) ?_
  unfold extentBlocks
  rw [flatMap_append, hl.extents_eq]
  simp [extBlocks_genAddress hb]

/-- `ip->addrs[i-1]` is the last extent. -/
theorem Listed.lastExtent_eq {ip : Inode} {a : UInt32} (hl : Listed ip.addrs (l ++ [a])) :
    lastExtent ip (l ++ [a]).length = a := by
  have hlen : l.length + 1 ≤ NDIRECT + 1 := by simpa using hl.length_le
  have hof : (Fin.ofNat (NDIRECT + 2) l.length).val = l.length := Nat.mod_eq_of_lt (by omega)
  unfold lastExtent
  rw [length_append, length_singleton, if_neg (Nat.succ_ne_zero _), Nat.add_sub_cancel,
    hl.addr, hof]
  simp

include hsb in
/-- The block continues the last extent. -/
theorem Built.grows_setLast {a : UInt32} (hf : f.Built sb i)
    (hl : Listed (f.inode i).addrs (l ++ [a])) (hfirst : FirstFree sb f.disk b)
    (hnext : b = extAddress a + extLength a) (hfull : extLength a < 0xff) :
    Grows sb i b f ((f.allocated sb b).setLastExtent i (l ++ [a]).length (a + 1)) := by
  have hgrown := extBlocks_add_one hfull
  have hne : a + 1 ≠ 0 := by
    intro h
    have hlen := congrArg length hgrown
    rw [h, length_append, length_extBlocks] at hlen
    exact absurd hlen (Nat.succ_ne_zero _).symm
  unfold setLastExtent
  rw [length_append, length_singleton, if_neg (Nat.succ_ne_zero _), Nat.add_sub_cancel]
  refine hf.grows hsb hfirst (hl.setLast hne) ?_
  unfold extentBlocks
  rw [hl.extents_eq, flatMap_append, flatMap_append, append_assoc]
  simp only [flatMap_cons, flatMap_nil, append_nil]
  rw [hgrown, hnext]

include hsb in
/-- **What `bmap` does on extents.**  A block of the list is found; for any other block number
the list gets one block more. -/
theorem bmapExtent_post (hfs : sb.size ≤ FSSIZE) (hf : f.Built sb i) (bn : ℕ) :
    Post (f.bmapExtent sb i bn)
      (fun r => ((f.extentBlocks i)[bn]? = some r.1 ∧ r.2 = f) ∨
        ((f.extentBlocks i).length ≤ bn ∧ Grows sb i r.1 f r.2))
      (fun _ => True) := by
  obtain ⟨l, hl⟩ := hf.listed
  have hblocks : f.extentBlocks i = l.flatMap extBlocks := by
    unfold extentBlocks
    rw [hl.extents_eq]
  unfold bmapExtent
  rw [findExtent_eq hl, ← hblocks]
  by_cases hbn : bn < (f.extentBlocks i).length
  · rw [getElem?_eq_getElem hbn]
    exact Or.inl ⟨rfl, rfl⟩
  · rw [getElem?_eq_none (not_lt.mp hbn)]
    refine post_ite.mpr ⟨fun _ => trivial, fun hk => ?_⟩
    refine (balloc_post sb f).bindAny ?_
    rintro ⟨b, g⟩ ⟨hfirst, hg⟩
    obtain rfl : g = f.allocated sb b := hg
    have hlt : b < sb.size := hfirst.1
    refine post_ite.mpr ⟨fun hnext => Or.inr ⟨not_lt.mp hbn, ?_⟩, fun _ =>
      Or.inr ⟨not_lt.mp hbn, hf.grows_concat hsb hl (not_lt.mp hk) hfirst
        ((hlt.trans_le hfs).trans (by norm_num))⟩⟩
    rcases eq_nil_or_concat' l with rfl | ⟨l, a, rfl⟩
    · -- there is no last extent: `addrs[-1]` is the size, which is zero, and block `0` is
      -- never free
      have hlast : lastExtent (f.inode i) 0 = 0 := hf.empty hl.extents_eq
      have hzero : b = extAddress (lastExtent (f.inode i) 0) + extLength (lastExtent (f.inode i) 0) :=
        hnext.1
      have hpos : 0 < b := sb.dataStart_pos.trans_le (hfirst.dataStart_le hf.meta_marked)
      rw [hlast] at hzero
      exact absurd hzero hpos.ne'
    · have hlast : lastExtent ((f.allocated sb b).inode i) (l ++ [a]).length = a :=
        hl.lastExtent_eq
      simp only [hlast] at hnext ⊢
      exact hf.grows_setLast hsb hl hfirst hnext.1 hnext.2

end Bmap

end Fs
