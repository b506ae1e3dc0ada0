/-
# When the inode table is a store of independent records

`iupdate` copies `sizeof(ip->addrs)` bytes, one address more than a `struct dinode` holds, so
an update of inode `i` also stores `addrs[NDIRECT + 1]` over the `type` and `major` of inode
`i + 1`, unless `i` is the last inode of its block.  `ilock` reads the same bytes back.  The
bytes that matter to inode `i` are therefore an `IMAGE` window that overlaps the windows of
its two neighbours in the block, and the table behaves as a store of independent records
exactly when the overlapping words agree.
-/
import Xv6.Inode

variable {sb : Superblock} {d : Disk}

/-! ## Windows of the inode table -/

/-- Byte `k` of the table, counted from the start of the record of inode `i`. -/
def recordByte (sb : Superblock) (d : Disk) (i k : ℕ) : UInt8 :=
  (d (iblock sb i)).byte (i % IPB * DINODE + k)

/-- The word that the address past the end of the record overlays: `type`, then `major`. -/
def Inode.typeMajor (ip : Inode) : ℕ := short ip.type + 2 ^ 16 * short ip.major

/-- The same word of the record of inode `i` on disk. -/
def diskTypeMajor (sb : Superblock) (d : Disk) (i : ℕ) : ℕ :=
  (d (iblock sb i)).get (i % IPB * DINODE) 4

theorem short_lt (x : Int16) : short x < 256 ^ 2 := by
  have h := x.toUInt16.toNat_lt
  unfold short
  norm_num at h ⊢
  exact h

/-- The first word of an image. -/
theorem leValue_image (ip : Inode) : leValue 4 ip.image = ip.typeMajor := by
  have htype : leValue 2 (leByte (short ip.type)) = short ip.type := by
    rw [leValue_leByte, Nat.mod_eq_of_lt (short_lt _)]
  have hmajor : leValue 2 (leByte (short ip.major)) = short ip.major := by
    rw [leValue_leByte, Nat.mod_eq_of_lt (short_lt _)]
  simp only [leValue] at htype hmajor
  simp only [leValue, Inode.image, Inode.typeMajor]
  norm_num
  norm_num at htype hmajor
  omega

/-- The last word of an image is the address past the end of the record. -/
theorem image_last (ip : Inode) {k : ℕ} (hk : k < 4) :
    ip.image (k + DINODE) = leByte (ip.addrs 12).toNat k := by
  have hdiv : (k + DINODE - 12) / 4 = 12 := by unfold DINODE; omega
  have hmod : (k + DINODE - 12) % 4 = k := by unfold DINODE; omega
  simp only [Inode.image, if_neg (show ¬ k + DINODE < 2 by unfold DINODE; omega),
    if_neg (show ¬ k + DINODE < 4 by unfold DINODE; omega),
    if_neg (show ¬ k + DINODE < 6 by unfold DINODE; omega),
    if_neg (show ¬ k + DINODE < 8 by unfold DINODE; omega),
    if_neg (show ¬ k + DINODE < 12 by unfold DINODE; omega), hdiv, hmod]
  rfl

/-- Byte `x` of a block after an update. -/
theorem byte_iupdate (u : Inode) (b : ℕ) {x : ℕ} (hx : x < BSIZE) :
    (iupdate sb d u b).byte x =
      if b = iblock sb u.inum ∧ u.inum % IPB * DINODE ≤ x ∧ x < u.inum % IPB * DINODE + IMAGE
      then u.image (x - u.inum % IPB * DINODE) else (d b).byte x := by
  simp only [iupdate, storeDinode_eq]
  by_cases hb : b = iblock sb u.inum
  · subst hb
    rw [Function.update_self, Block.byte_memmove]
    simp only [hx, and_true, true_and]
  · rw [Function.update_of_ne hb, if_neg (fun h => hb h.1)]

/-- Windows lie inside their block. -/
theorem window_lt (i : ℕ) {k : ℕ} (hk : k < IMAGE) : i % IPB * DINODE + k < BSIZE := by
  unfold IMAGE at hk
  unfold IPB DINODE BSIZE
  omega

/-- **The overlap**: what an update of another inode does to the window of inode `i`. -/
theorem recordByte_iupdate_of_ne (u : Inode) {i k : ℕ} (hne : u.inum ≠ i) (hk : k < IMAGE) :
    recordByte sb (iupdate sb d u) i k =
      if u.inum = i + 1 ∧ i % IPB ≠ IPB - 1 ∧ DINODE ≤ k then u.image (k - DINODE)
      else if u.inum + 1 = i ∧ i % IPB ≠ 0 ∧ k < 4 then u.image (k + DINODE)
      else recordByte sb d i k := by
  unfold recordByte
  rw [byte_iupdate u _ (window_lt _ hk)]
  simp only [iblock, Nat.add_right_cancel_iff]
  unfold IMAGE at *
  unfold IPB DINODE
  by_cases hnext : u.inum = i + 1 ∧ i % 8 ≠ 8 - 1 ∧ 60 ≤ k
  · rw [if_pos hnext, if_pos (by omega)]
    congr 1
    omega
  · rw [if_neg hnext]
    by_cases hprev : u.inum + 1 = i ∧ i % 8 ≠ 0 ∧ k < 4
    · rw [if_pos hprev, if_pos (by omega)]
      congr 1
      omega
    · rw [if_neg hprev, if_neg (by omega)]

/-! ## Sequences of updates -/

/-- The disk after a sequence of updates. -/
def iupdates (sb : Superblock) (d : Disk) (us : List Inode) : Disk := us.foldl (iupdate sb) d

/-- The last update of inode `i` in the sequence. -/
def lastUpdate (us : List Inode) (i : ℕ) : Option Inode :=
  (us.filter fun u => u.inum = i).getLast?

theorem lastUpdate_concat (us : List Inode) (u : Inode) (i : ℕ) :
    lastUpdate (us ++ [u]) i = if u.inum = i then some u else lastUpdate us i := by
  unfold lastUpdate
  by_cases h : u.inum = i
  · simp [h]
  · simp [h]

/-- **The window of inode `i` after updates of other inodes**: the word past its end is the
first word of the last update of inode `i + 1`, its own first word is the last word of the
last update of inode `i - 1`, and the rest is as it was. -/
theorem recordByte_iupdates {us : List Inode} {i : ℕ} (hus : ∀ u ∈ us, u.inum ≠ i) {k : ℕ}
    (hk : k < IMAGE) :
    recordByte sb (iupdates sb d us) i k =
      if i % IPB ≠ IPB - 1 ∧ DINODE ≤ k then
        (lastUpdate us (i + 1)).elim (recordByte sb d i k) (fun u => u.image (k - DINODE))
      else if i % IPB ≠ 0 ∧ k < 4 then
        (lastUpdate us (i - 1)).elim (recordByte sb d i k) (fun u => u.image (k + DINODE))
      else recordByte sb d i k := by
  induction us using List.reverseRecOn with
  | nil => simp [iupdates, lastUpdate]
  | append_singleton us u ih =>
    have hu : u.inum ≠ i := hus u (by simp)
    have hprev := ih (fun v hv => hus v (List.mem_append_left _ hv))
    have hfold : iupdates sb d (us ++ [u]) = iupdate sb (iupdates sb d us) u := by
      unfold iupdates
      rw [List.foldl_concat]
    rw [hfold, recordByte_iupdate_of_ne u hu hk, hprev, lastUpdate_concat, lastUpdate_concat]
    unfold IPB DINODE
    by_cases hhi : i % 8 ≠ 8 - 1 ∧ 60 ≤ k
    · by_cases hnext : u.inum = i + 1
      · rw [if_pos ⟨hnext, hhi⟩, if_pos hhi, if_pos hnext]
        rfl
      · rw [if_neg (fun h => hnext h.1), if_neg (by omega), if_pos hhi, if_pos hhi,
          if_neg hnext]
    · rw [if_neg (fun h => hhi h.2), if_neg hhi, if_neg hhi]
      by_cases hlo : i % 8 ≠ 0 ∧ k < 4
      · by_cases hbefore : u.inum + 1 = i
        · rw [if_pos ⟨hbefore, hlo⟩, if_pos hlo, if_pos (by omega)]
          rfl
        · rw [if_neg (fun h => hbefore h.1), if_pos hlo, if_pos hlo, if_neg (by omega)]
      · rw [if_neg (fun h => hlo h.2), if_neg hlo, if_neg hlo]

/-! ## Reading an inode back -/

theorem toShort_eq_iff {n : ℕ} (hn : n < 256 ^ 2) (x : Int16) : toShort n = x ↔ n = short x := by
  unfold toShort short
  constructor
  · rintro rfl
    simp at hn ⊢
    omega
  · rintro rfl
    simp

theorem ofNat_eq_iff {n : ℕ} (hn : n < 256 ^ 4) (x : UInt32) :
    UInt32.ofNat n = x ↔ n = x.toNat := by
  constructor
  · rintro rfl
    simp at hn ⊢
    omega
  · rintro rfl
    simp

/-- A `short` field read from the window. -/
theorem toShort_get_eq_iff (i : ℕ) (off : ℕ) (x : Int16) :
    toShort ((d (iblock sb i)).get (i % IPB * DINODE + off) 2) = x ↔
      ∀ k, k < 2 → recordByte sb d i (off + k) = leByte (short x) k := by
  rw [toShort_eq_iff (Block.get_lt _ _ _), Block.get, leValue_eq_iff (short_lt x)]
  simp only [recordByte, Nat.add_assoc]

/-- A `uint` field read from the window. -/
theorem ofNat_get_eq_iff (i : ℕ) (off : ℕ) (x : UInt32) :
    UInt32.ofNat ((d (iblock sb i)).get (i % IPB * DINODE + off) 4) = x ↔
      ∀ k, k < 4 → recordByte sb d i (off + k) = leByte x.toNat k := by
  have hx : x.toNat < 256 ^ 4 := by
    have h := x.toNat_lt
    norm_num at h ⊢
    exact h
  rw [ofNat_eq_iff (Block.get_lt _ _ _), Block.get, leValue_eq_iff hx]
  simp only [recordByte, Nat.add_assoc]

/-- The window of an inode holds its image exactly when each field does. -/
theorem window_eq_image_iff (ip : Inode) (w : ℕ → UInt8) :
    (∀ k, k < IMAGE → w k = ip.image k) ↔
      (∀ k, k < 2 → w (0 + k) = leByte (short ip.type) k) ∧
      (∀ k, k < 2 → w (2 + k) = leByte (short ip.major) k) ∧
      (∀ k, k < 2 → w (4 + k) = leByte (short ip.minor) k) ∧
      (∀ k, k < 2 → w (6 + k) = leByte (short ip.nlink) k) ∧
      (∀ k, k < 4 → w (8 + k) = leByte ip.size.toNat k) ∧
      (∀ j : Fin (NDIRECT + 2), ∀ k, k < 4 → w (12 + 4 * j + k) = leByte (ip.addrs j).toNat k) := by
  have hdivmod : ∀ (j : Fin (NDIRECT + 2)) (k : ℕ), k < 4 →
      Fin.ofNat (NDIRECT + 2) ((12 + 4 * j.val + k - 12) / 4) = j ∧
        (12 + 4 * j.val + k - 12) % 4 = k := by
    intro j k hk
    refine ⟨Fin.ext ?_, by omega⟩
    have hj : j.val < 13 := j.isLt
    show (12 + 4 * j.val + k - 12) / 4 % 13 = j.val
    omega
  constructor
  · intro h
    refine ⟨?_, ?_, ?_, ?_, ?_, ?_⟩
    · intro k hk
      rw [h _ (by unfold IMAGE; omega), Inode.image, if_pos (by omega), Nat.zero_add]
    · intro k hk
      rw [h _ (by unfold IMAGE; omega), Inode.image, if_neg (by omega), if_pos (by omega),
        Nat.add_sub_cancel_left]
    · intro k hk
      rw [h _ (by unfold IMAGE; omega), Inode.image, if_neg (by omega), if_neg (by omega),
        if_pos (by omega), Nat.add_sub_cancel_left]
    · intro k hk
      rw [h _ (by unfold IMAGE; omega), Inode.image, if_neg (by omega), if_neg (by omega),
        if_neg (by omega), if_pos (by omega), Nat.add_sub_cancel_left]
    · intro k hk
      rw [h _ (by unfold IMAGE; omega), Inode.image, if_neg (by omega), if_neg (by omega),
        if_neg (by omega), if_neg (by omega), if_pos (by omega), Nat.add_sub_cancel_left]
    · intro j k hk
      have hj : j.val < 13 := j.isLt
      rw [h _ (by unfold IMAGE; omega), Inode.image, if_neg (by omega), if_neg (by omega),
        if_neg (by omega), if_neg (by omega), if_neg (by omega), (hdivmod j k hk).1,
        (hdivmod j k hk).2]
  · rintro ⟨htype, hmajor, hminor, hnlink, hsize, haddrs⟩ k hk
    unfold IMAGE at hk
    unfold Inode.image
    split_ifs with h1 h2 h3 h4 h5
    · simpa using htype k h1
    · have := hmajor (k - 2) (by omega)
      rwa [show 2 + (k - 2) = k by omega] at this
    · have := hminor (k - 4) (by omega)
      rwa [show 4 + (k - 4) = k by omega] at this
    · have := hnlink (k - 6) (by omega)
      rwa [show 6 + (k - 6) = k by omega] at this
    · have := hsize (k - 8) (by omega)
      rwa [show 8 + (k - 8) = k by omega] at this
    · have hj : (k - 12) / 4 < 13 := by omega
      have := haddrs ⟨(k - 12) / 4, hj⟩ ((k - 12) % 4) (by omega)
      rw [show 12 + 4 * ((k - 12) / 4) + (k - 12) % 4 = k by omega] at this
      rw [this]
      congr 3
      apply Fin.ext
      show (k - 12) / 4 = (k - 12) / 4 % 13
      omega

/-- **`ilock` reads an inode back** exactly when its window holds its image and it has a
type. -/
theorem ilock_eq_iff (ip : Inode) (href : 1 ≤ ip.ref) :
    ilock sb d { ip with valid := false } = some { ip with valid := true } ↔
      ip.type ≠ 0 ∧ ∀ k, k < IMAGE → recordByte sb d ip.inum k = ip.image k := by
  have haddr : ∀ j : Fin (NDIRECT + 2), ip.inum % IPB * DINODE + 12 + 4 * j.val =
      ip.inum % IPB * DINODE + (12 + 4 * j.val) := fun j => by omega
  rw [window_eq_image_iff, ← toShort_get_eq_iff, ← toShort_get_eq_iff, ← toShort_get_eq_iff,
    ← toShort_get_eq_iff, ← ofNat_get_eq_iff]
  simp only [← ofNat_get_eq_iff]
  unfold ilock
  simp only [if_neg (show ¬ ip.ref < 1 by omega), Bool.false_eq_true, ite_false, haddr,
    Nat.add_zero]
  constructor
  · intro h
    split at h
    · cases h
    · next htype =>
        simp only [Option.some.injEq, Inode.mk.injEq, true_and] at h
        obtain ⟨h1, h2, h3, h4, h5, h6⟩ := h
        exact ⟨h1 ▸ htype, h1, h2, h3, h4, h5, fun j => congrFun h6 j⟩
  · rintro ⟨htype, h1, h2, h3, h4, h5, h6⟩
    rw [if_neg (by rw [h1]; exact htype), h1, h2, h3, h4, h5, funext h6]

/-! ## The exact condition -/

/-- The table treats `ip` as an independent record: the update leaves the bytes of every
other `struct dinode` alone, and after any later updates `us` of other inodes `ilock` reads
back the fields `ip` was updated with. -/
structure IndependentRecord (sb : Superblock) (d : Disk) (ip : Inode) (us : List Inode) :
    Prop where
  others : ∀ j, j ≠ ip.inum → ∀ k, k < DINODE →
    recordByte sb (iupdate sb d ip) j k = recordByte sb d j k
  reread : ilock sb (iupdates sb (iupdate sb d ip) us) { ip with valid := false } =
    some { ip with valid := true }

/-- The overlapping words agree. -/
structure OverlapAgrees (sb : Superblock) (d : Disk) (ip : Inode) (us : List Inode) :
    Prop where
  /-- The inode has a type. -/
  type_ne : ip.type ≠ 0
  /-- The address past the end of the record is the word already there. -/
  spill : ip.inum % IPB ≠ IPB - 1 → (ip.addrs 12).toNat = diskTypeMajor sb d (ip.inum + 1)
  /-- The last later update of the next inode stores that address as its type and major. -/
  next : ∀ u, ip.inum % IPB ≠ IPB - 1 → lastUpdate us (ip.inum + 1) = some u →
    u.typeMajor = (ip.addrs 12).toNat
  /-- The last later update of the previous inode spills the type and major of this one. -/
  prev : ∀ u, ip.inum % IPB ≠ 0 → lastUpdate us (ip.inum - 1) = some u →
    (u.addrs 12).toNat = ip.typeMajor

theorem addr_lt (x : UInt32) : x.toNat < 256 ^ 4 := by
  have h := x.toNat_lt
  norm_num at h ⊢
  exact h

theorem typeMajor_lt (ip : Inode) : ip.typeMajor < 256 ^ 4 := by
  rw [← leValue_image]
  exact leValue_lt 4 _

/-- Two images overlap in agreement when the address of one is the first word of the other. -/
theorem image_overlap_iff (u v : Inode) :
    (∀ k, k < 4 → u.image (k + DINODE) = v.image k) ↔ (u.addrs 12).toNat = v.typeMajor := by
  have hv : ∀ k, k < 4 → v.image k = leByte v.typeMajor k :=
    (leValue_eq_iff (typeMajor_lt v)).mp (leValue_image v)
  constructor
  · intro h
    rw [← leValue_image v]
    symm
    rw [leValue_eq_iff (addr_lt _)]
    intro k hk
    rw [← h k hk, image_last u hk]
  · intro h k hk
    rw [image_last u hk, hv k hk, h]

/-- The other records are unchanged exactly when nothing spills, or what spills was there. -/
theorem others_iff (ip : Inode) :
    (∀ j, j ≠ ip.inum → ∀ k, k < DINODE →
      recordByte sb (iupdate sb d ip) j k = recordByte sb d j k) ↔
      (ip.inum % IPB ≠ IPB - 1 → (ip.addrs 12).toNat = diskTypeMajor sb d (ip.inum + 1)) := by
  have hspill : ∀ k, k < 4 → ip.inum % IPB ≠ IPB - 1 →
      recordByte sb (iupdate sb d ip) (ip.inum + 1) k = leByte (ip.addrs 12).toNat k := by
    intro k hk hlast
    have hslot : (ip.inum + 1) % IPB ≠ 0 := by
      unfold IPB at hlast ⊢
      omega
    rw [recordByte_iupdate_of_ne ip (by omega) (by unfold IMAGE; omega), if_neg (by omega),
      if_pos ⟨rfl, hslot, hk⟩, image_last ip hk]
  constructor
  · intro h hlast
    symm
    unfold diskTypeMajor Block.get
    rw [leValue_eq_iff (addr_lt _)]
    intro k hk
    rw [← hspill k hk hlast, h (ip.inum + 1) (by omega) k (by unfold DINODE; omega)]
    rfl
  · intro h j hj k hk
    rw [recordByte_iupdate_of_ne ip (Ne.symm hj) (by unfold DINODE IMAGE at *; omega),
      if_neg (by omega)]
    split
    · next hnext =>
        obtain ⟨rfl, hslot, hk4⟩ := hnext
        have hlast : ip.inum % IPB ≠ IPB - 1 := by
          unfold IPB at hslot ⊢
          omega
        have hold := h hlast
        unfold diskTypeMajor Block.get at hold
        rw [image_last ip hk4]
        exact ((leValue_eq_iff (addr_lt _)).mp hold.symm k hk4).symm
    · rfl

/-- The inode reads back exactly when its neighbours' last updates agree with it. -/
theorem reread_iff (ip : Inode) (href : 1 ≤ ip.ref) {us : List Inode}
    (hus : ∀ u ∈ us, u.inum ≠ ip.inum) :
    ilock sb (iupdates sb (iupdate sb d ip) us) { ip with valid := false } =
        some { ip with valid := true } ↔
      ip.type ≠ 0 ∧
      (∀ u, ip.inum % IPB ≠ IPB - 1 → lastUpdate us (ip.inum + 1) = some u →
        u.typeMajor = (ip.addrs 12).toNat) ∧
      (∀ u, ip.inum % IPB ≠ 0 → lastUpdate us (ip.inum - 1) = some u →
        (u.addrs 12).toNat = ip.typeMajor) := by
  rw [ilock_eq_iff ip href, and_congr_right_iff]
  intro _
  -- the update fills the window of the inode
  have hwindow : ∀ k, k < IMAGE → recordByte sb (iupdate sb d ip) ip.inum k = ip.image k := by
    intro k hk
    unfold recordByte
    rw [byte_iupdate ip _ (window_lt _ hk), if_pos ⟨rfl, by omega, by omega⟩, Nat.add_sub_cancel_left]
  constructor
  · intro h
    constructor
    · intro u hlast hu
      symm
      rw [← image_overlap_iff]
      intro k hk
      have hbyte := h (k + DINODE) (by unfold DINODE IMAGE; omega)
      rw [recordByte_iupdates hus (by unfold DINODE IMAGE; omega),
        if_pos ⟨hlast, by omega⟩, hu] at hbyte
      simp only [Option.elim_some, Nat.add_sub_cancel] at hbyte
      exact hbyte.symm
    · intro u hslot hu
      rw [← image_overlap_iff]
      intro k hk
      have hbyte := h k (by unfold IMAGE; omega)
      rw [recordByte_iupdates hus (by unfold IMAGE; omega),
        if_neg (by unfold DINODE; omega), if_pos ⟨hslot, hk⟩, hu] at hbyte
      exact hbyte
  · rintro ⟨hnext, hprev⟩ k hk
    rw [recordByte_iupdates hus hk]
    split
    · next hhi =>
        cases hu : lastUpdate us (ip.inum + 1) with
        | none => exact hwindow k hk
        | some u =>
          have hover := (image_overlap_iff ip u).mpr (hnext u hhi.1 hu).symm (k - DINODE)
            (by have := hhi.2; unfold DINODE IMAGE at *; omega)
          rw [Nat.sub_add_cancel hhi.2] at hover
          exact hover.symm
    · split
      · next hlo =>
          cases hu : lastUpdate us (ip.inum - 1) with
          | none => exact hwindow k hk
          | some u => exact (image_overlap_iff u ip).mpr (hprev u hlo.1 hu) k hlo.2
      · exact hwindow k hk

/-- **The inode table is a store of independent records exactly when the overlapping words
agree.** -/
theorem independentRecord_iff (ip : Inode) (href : 1 ≤ ip.ref) {us : List Inode}
    (hus : ∀ u ∈ us, u.inum ≠ ip.inum) :
    IndependentRecord sb d ip us ↔ OverlapAgrees sb d ip us := by
  constructor
  · rintro ⟨hothers, hreread⟩
    obtain ⟨htype, hnext, hprev⟩ := (reread_iff ip href hus).mp hreread
    exact ⟨htype, (others_iff ip).mp hothers, hnext, hprev⟩
  · rintro ⟨htype, hspill, hnext, hprev⟩
    exact ⟨(others_iff ip).mpr hspill, (reread_iff ip href hus).mpr ⟨htype, hnext, hprev⟩⟩

/-- The superblock that `mkfs` writes. -/
def mkfsSuperblock : Superblock := ⟨250000, 249880, 200, 30, 2, 32, 58⟩

/-- A fresh inode: no links, no contents. -/
def freshInode (inum : ℕ) (type : Int16) : Inode :=
  ⟨inum, 1, true, type, 0, 0, 0, 0, fun _ => 0⟩

/-- The last inode of a block, updated before another block's inode, reads back. -/
theorem independentRecord_last_of_block :
    IndependentRecord mkfsSuperblock (fun _ => Block.zero) (freshInode 7 T_FILE)
      [freshInode 8 T_DIR] :=
  (independentRecord_iff (freshInode 7 T_FILE) (by decide) (by decide)).mpr
    ⟨by decide, fun hlast => absurd rfl hlast, fun _ hlast => absurd rfl hlast,
      fun u hslot hu => by simp [lastUpdate, freshInode] at hu⟩

/-- Updating inode 1 clears the type of inode 2: the table is not a store of independent
records. -/
theorem not_independentRecord_neighbour :
    ¬ IndependentRecord mkfsSuperblock
      (iupdate mkfsSuperblock (fun _ => Block.zero) (freshInode 2 T_FILE))
      (freshInode 1 T_DIR) [] := by
  intro h
  have hbyte := h.others 2 (by decide) 0 (by decide)
  revert hbyte
  decide
